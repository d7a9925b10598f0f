import EntityLint.Proofs.Source.WrittenParameter

/-!
# The head of a parameter

The head of a parameter is read token by token up to its variable, and attribute groups are stepped
over. What the tokens say adds up, so that each part of a written parameter can be read by itself.

* `HeadFacts`, `Lexeme.headFacts`, `SourceFile.headFacts`: what is said in front of a variable;
* `SourceFile.HeadPart`, with `HeadPart.append`: part by part;
* `Spells.isReferenceMark_eq`: which ampersands are reference marks;
* `Spells.headPart_behind`, `headPart_type`, `headPart_groups`: the parts of a written parameter.

The main statement is `Spells.headPart_head`.
-/

namespace EntityLint

open Lexeme

/-! ### What is said in front of a variable -/

/-- What the tokens in front of the variable of a parameter say of it. -/
@[ext] structure HeadFacts where
  typeText : Text
  byReference : Bool
  isVariadic : Bool
  visibilities : List Visibility

namespace HeadFacts

/-- Nothing is said. -/
def nothing : HeadFacts := ⟨[], false, false, []⟩

instance : Append HeadFacts where
  append x y := ⟨x.typeText ++ y.typeText, x.byReference || y.byReference,
    x.isVariadic || y.isVariadic, x.visibilities ++ y.visibilities⟩

theorem append_def (x y : HeadFacts) : x ++ y = ⟨x.typeText ++ y.typeText,
    x.byReference || y.byReference, x.isVariadic || y.isVariadic, x.visibilities ++ y.visibilities⟩ := rfl

@[simp] theorem append_nothing (x : HeadFacts) : x ++ nothing = x := by
  simp [append_def, nothing]

end HeadFacts

/-- What lexemes say in front of a variable, if no ampersand among them is a reference mark. -/
def Lexeme.headFacts (ls : List Lexeme) : HeadFacts where
  typeText := (ls.filter fun l => l.kind.isTypePart).flatMap text
  byReference := false
  isVariadic := ls.any fun l => l.kind == .ellipsis
  visibilities := ls.filterMap fun l => Visibility.ofKind? l.kind

theorem Lexeme.headFacts_append (ls ms : List Lexeme) :
    headFacts (ls ++ ms) = headFacts ls ++ headFacts ms := by
  simp [headFacts, HeadFacts.append_def]

/-! ### What the parts of a parameter say -/

/-- Kinds that stand in front of a variable outside of attribute groups, and that a token has in common
with its lexeme. -/
def Kind.IsInFront (k : Kind) : Prop := k.IsSettled ∧ k ≠ .variable ∧ k ≠ .attributeOpen

instance (k : Kind) : Decidable k.IsInFront := instDecidableAnd

theorem Kind.isInFront_of_isTrivia {k : Kind} (h : k.isTrivia = true) :
    k.IsInFront ∧ k ≠ .ampersand ∧ k.isTypePart = false ∧ k ≠ .ellipsis ∧
      Visibility.ofKind? k = none := by
  revert h
  cases k <;> decide

theorem Kind.isInFront_of_isTypePart {k : Kind} (h : k.isTypePart = true) :
    k.IsInFront ∧ k.isTrivia = false ∧ k ≠ .ellipsis ∧ Visibility.ofKind? k = none := by
  revert h
  cases k <;> decide

theorem Kind.isInFront_of_isPromotion {k : Kind} (h : k.isPromotion = true) :
    k.IsInFront ∧ k ≠ .ampersand ∧ k.isTypePart = false ∧ k ≠ .ellipsis := by
  revert h
  cases k <;> decide

theorem Lexeme.headFacts_eq {ls : List Lexeme}
    (h : ∀ l ∈ ls, l.kind ≠ .ellipsis ∧ Visibility.ofKind? l.kind = none) :
    headFacts ls = ⟨(ls.filter fun l => l.kind.isTypePart).flatMap text, false, false, []⟩ := by
  have hellipsis : (ls.any fun l => l.kind == .ellipsis) = false :=
    List.any_eq_false.2 fun l hl => by simp [(h l hl).1]
  have hvisibility : (ls.filterMap fun l => Visibility.ofKind? l.kind) = [] :=
    List.filterMap_eq_nil_iff.2 fun l hl => (h l hl).2
  rw [headFacts, hellipsis, hvisibility]

/-- Blanks and comments say nothing. -/
theorem Lexeme.headFacts_of_trivia {ls : List Lexeme} (h : ∀ l ∈ ls, l.kind.isTrivia = true) :
    headFacts ls = .nothing := by
  have htype : (ls.filter fun l => l.kind.isTypePart) = [] :=
    List.filter_eq_nil_iff.2 fun l hl => by simp [(Kind.isInFront_of_isTrivia (h l hl)).2.2.1]
  rw [headFacts_eq fun l hl => (Kind.isInFront_of_isTrivia (h l hl)).2.2.2, htype]
  rfl

/-- The first significant lexeme, and the blanks and comments in front of it. -/
theorem Lexeme.exists_significant {ls : List Lexeme} (h : ∃ l ∈ ls, l.kind.isTrivia = false) :
    ∃ gap l rest, ls = gap ++ l :: rest ∧ (∀ g ∈ gap, g.kind.isTrivia = true) ∧
      l.kind.isTrivia = false := by
  obtain ⟨m, hm, hsignificant⟩ := h
  have hsome : (ls.find? fun l => !l.kind.isTrivia).isSome = true :=
    List.find?_isSome.2 ⟨m, hm, by rw [hsignificant]; rfl⟩
  obtain ⟨l, hl⟩ := Option.isSome_iff_exists.1 hsome
  obtain ⟨hp, gap, rest, hsplit, hgap⟩ := List.find?_eq_some_iff_append.1 hl
  exact ⟨gap, l, rest, hsplit, fun g hg => by simpa using hgap g hg, by simpa using hp⟩

theorem Gap.isInFront (g : Gap) : ∀ l ∈ g.lexemes, l.kind.IsInFront ∧ l.kind ≠ .ampersand := fun l hl =>
  have hkind := Kind.isInFront_of_isTrivia (g.isTrivia_of_mem l hl)
  ⟨hkind.1, hkind.2.1⟩

theorem Gap.headFacts_cons (g : Gap) (l : Lexeme) :
    Lexeme.headFacts (l :: g.lexemes) = Lexeme.headFacts [l] := by
  rw [← List.singleton_append, Lexeme.headFacts_append,
    Lexeme.headFacts_of_trivia g.isTrivia_of_mem, HeadFacts.append_nothing]

theorem WrittenModifier.isInFront (m : WrittenModifier) :
    ∀ l ∈ m.lexemes, l.kind.IsInFront ∧ l.kind ≠ .ampersand :=
  have hkind := Kind.isInFront_of_isPromotion m.isPromotion
  List.forall_mem_cons.2 ⟨⟨hkind.1, hkind.2.1⟩, m.gap.isInFront⟩

theorem WrittenModifier.headFacts_lexemes (m : WrittenModifier) : Lexeme.headFacts m.lexemes =
    ⟨[], false, false, (Visibility.ofKind? m.keyword.kind).toList⟩ := by
  obtain ⟨-, -, htype, hellipsis⟩ := Kind.isInFront_of_isPromotion m.isPromotion
  rw [lexemes, m.gap.headFacts_cons]
  cases hv : Visibility.ofKind? m.keyword.kind <;> simp [Lexeme.headFacts, htype, hellipsis, hv]

theorem WrittenModifier.headFacts_flatMap (ms : List WrittenModifier) :
    Lexeme.headFacts (ms.flatMap WrittenModifier.lexemes) =
      ⟨[], false, false, ms.filterMap fun m => Visibility.ofKind? m.keyword.kind⟩ := by
  induction ms with
  | nil => rfl
  | cons m ms ih =>
    rw [List.flatMap_cons, Lexeme.headFacts_append, m.headFacts_lexemes, ih]
    cases hv : Visibility.ofKind? m.keyword.kind <;> simp [HeadFacts.append_def, hv]

theorem WrittenType.isInFront (t : WrittenType) : ∀ l ∈ t.lexemes, l.kind.IsInFront := by
  intro l hl
  rcases t.isTypePart_of_mem l hl with htrivia | hpart
  · exact (Kind.isInFront_of_isTrivia htrivia).1
  · exact (Kind.isInFront_of_isTypePart hpart.1).1

/-- A type does not end with an ampersand, and what follows one is a part of the type. -/
theorem WrittenType.exists_part_after (t : WrittenType) {xs ys : List Lexeme} {l : Lexeme}
    (hsplit : t.lexemes = xs ++ l :: ys) (hl : l.kind = .ampersand) :
    ∃ gap m rest, ys = gap ++ m :: rest ∧ (∀ g ∈ gap, g.kind.isTrivia = true) ∧
      m.kind.isTypePart = true := by
  obtain ⟨z, hz, hsignificant, hne⟩ := t.last
  rw [hsplit] at hz
  have hys : z ∈ ys := by
    rcases List.eq_nil_or_concat ys with rfl | ⟨ys, y, rfl⟩
    · rw [List.getLast?_append, List.getLast?_singleton] at hz
      cases hz
      exact absurd hl hne
    · rw [List.concat_eq_append, ← List.cons_append, ← List.append_assoc, List.getLast?_append,
        List.getLast?_singleton] at hz
      cases hz
      simp
  obtain ⟨gap, m, rest, rfl, hgap, hm⟩ := Lexeme.exists_significant ⟨z, hys, hsignificant⟩
  have hpart := t.isTypePart_of_mem m (by rw [hsplit]; simp)
  exact ⟨gap, m, rest, rfl, hgap, (hpart.resolve_left (by rw [hm]; decide)).1⟩

theorem WrittenType.headFacts_lexemes (t : WrittenType) :
    Lexeme.headFacts t.lexemes = ⟨t.text, false, false, []⟩ := by
  have hcases (l : Lexeme) (hl : l ∈ t.lexemes) : l.kind.isTypePart = !l.kind.isTrivia ∧
      l.kind ≠ .ellipsis ∧ Visibility.ofKind? l.kind = none := by
    rcases t.isTypePart_of_mem l hl with h | ⟨h, -⟩
    · have hkind := Kind.isInFront_of_isTrivia h
      exact ⟨by rw [hkind.2.2.1, h]; rfl, hkind.2.2.2⟩
    · have hkind := Kind.isInFront_of_isTypePart h
      exact ⟨by rw [hkind.2.1, h]; rfl, hkind.2.2⟩
  rw [Lexeme.headFacts_eq fun l hl => (hcases l hl).2,
    List.filter_congr fun l hl => (hcases l hl).1]
  rfl

/-- What is written in front of the variable of a parameter. -/
def WrittenParameter.headFacts (p : WrittenParameter) : HeadFacts where
  typeText := p.hint.elim [] WrittenHint.text
  byReference := p.reference.isSome
  isVariadic := p.ellipsis.isSome
  visibilities := p.modifiers.filterMap fun m => Visibility.ofKind? m.keyword.kind

namespace SourceFile

variable {f : SourceFile} {stop s m e start : ℕ} {x y : HeadFacts} {ls rest : List Lexeme}

/-- What some tokens say in front of a variable. -/
def headFacts (f : SourceFile) (stop : ℕ) (is : List ℕ) : HeadFacts where
  typeText := is.flatMap (f.typeTextAt stop)
  byReference := is.any (f.isReferenceMark stop)
  isVariadic := is.any fun i => f.kindAt i == some .ellipsis
  visibilities := (is.filterMap f.kindAt).filterMap Visibility.ofKind?

theorem headFacts_append (is js : List ℕ) :
    f.headFacts stop (is ++ js) = f.headFacts stop is ++ f.headFacts stop js := by
  simp [headFacts, HeadFacts.append_def]

/-! ### Parts of a head -/

/-- The head of a parameter that begins at a token is what some tokens say, and the head that begins at
another one. -/
def HeadPart (f : SourceFile) (stop s e : ℕ) (x : HeadFacts) : Prop :=
  ∃ is, f.parameterHead? stop s = (f.parameterHead? stop e).map (fun (head, v) => (is ++ head, v)) ∧
    f.headFacts stop is = x

namespace HeadPart

theorem refl : f.HeadPart stop s s .nothing := by
  refine ⟨[], ?_, rfl⟩
  cases f.parameterHead? stop s <;> rfl

theorem trans (hx : f.HeadPart stop s m x) (hy : f.HeadPart stop m e y) :
    f.HeadPart stop s e (x ++ y) := by
  obtain ⟨is, hs, rfl⟩ := hx
  obtain ⟨js, hm, rfl⟩ := hy
  refine ⟨is ++ js, ?_, headFacts_append is js⟩
  rw [hs, hm, Option.map_map]
  congr 1
  funext ⟨head, v⟩
  exact congrArg (·, v) (List.append_assoc ..).symm

/-- One part after the other. -/
theorem append {ms : List Lexeme} (hx : f.HeadPart stop start (start + ls.length) x)
    (hy : f.HeadPart stop (start + ls.length) (start + ls.length + ms.length) y) :
    f.HeadPart stop start (start + (ls ++ ms).length) (x ++ y) := by
  rw [List.length_append, ← Nat.add_assoc]
  exact hx.trans hy

theorem token {t : Token} (hs : s < stop) (ht : f.tokens[s]? = some t) (hvariable : t.kind ≠ .variable)
    (hopen : t.kind ≠ .attributeOpen) : f.HeadPart stop s (s + 1) (f.headFacts stop [s]) := by
  refine ⟨[s], ?_, rfl⟩
  rw [parameterHead?, dif_pos hs]
  simp only [ht, hvariable, hopen, if_false]
  rfl

/-- An attribute group is stepped over. -/
theorem group {t : Token} (hs : s < stop) (ht : f.tokens[s]? = some t)
    (hopen : t.kind = .attributeOpen) : f.HeadPart stop s (afterGroup s t) .nothing := by
  refine ⟨[], ?_, rfl⟩
  rw [parameterHead?, dif_pos hs]
  simp only [ht, hopen, reduceCtorEq, if_false, if_true]
  cases f.parameterHead? stop (afterGroup s t) <;> rfl

end HeadPart

namespace Spells

/-! ### Single lexemes -/

theorem findIdx?_gap {q : Kind → Bool} (gap : List Lexeme) (l : Lexeme)
    (hgap : ∀ g ∈ gap, q g.kind = false) (hl : q l.kind = true) :
    (((gap ++ [l]).map Lexeme.kind).drop 0).findIdx? q = some gap.length := by
  rw [List.drop_zero, List.findIdx?_map, List.findIdx?_append,
    List.findIdx?_eq_none_iff.2 fun g hg => by simpa using hgap g hg]
  simp [hl]

/-- Blanks and comments stand in the file as they are, with a lexeme of a settled kind. -/
theorem passage_gap {l : Lexeme} {gap : List Lexeme} (h : f.Spells start (gap ++ l :: rest))
    (hgap : ∀ g ∈ gap, g.kind.isTrivia = true) (hl : l.kind.IsSettled) :
    f.Passage start (gap ++ [l]) := by
  rw [← List.singleton_append, ← List.append_assoc] at h
  refine (Spells.left h).passage fun g hg => ?_
  rcases List.mem_append.1 hg with hg | hg
  · exact (Kind.isInFront_of_isTrivia (hgap g hg)).1.1
  · rwa [List.mem_singleton.1 hg]

/-- An ampersand is a reference mark if a variable or an ellipsis follows it. -/
theorem isReferenceMark_eq {o l : Lexeme} {gap : List Lexeme}
    (h : f.Spells start (o :: (gap ++ l :: rest))) (ho : o.kind = .ampersand)
    (hgap : ∀ g ∈ gap, g.kind.isTrivia = true) (hl : l.kind.isTrivia = false)
    (hsettled : l.kind.IsSettled) (hstop : start + 1 + gap.length < stop) :
    f.isReferenceMark stop start = (l.kind == .variable || l.kind == .ellipsis) := by
  have hamp : f.kindAt start = some .ampersand := by
    rw [← ho]
    exact h.kindAt (a := 0) rfl (by rw [ho]; decide)
  have hpassage := passage_gap h.tail hgap hsettled
  have hfind := findIdx?_gap (q := fun k => !k.isTrivia) gap l
    (fun g hg => by simp [hgap g hg]) (by rw [hl]; rfl)
  have hnext : f.nextSignificant? (start + 1) (some stop) = some (start + 1 + gap.length) :=
    hpassage.nextSignificant? (a := 0) hfind (by simpa using hstop)
  have hkind : f.kindAt (start + 1 + gap.length) = some l.kind := hpassage.kindAt (by simp)
  rw [isReferenceMark, hamp, hnext, Option.bind_some, hkind]
  cases l.kind <;> rfl

/-- A part without variables, attribute groups and reference marks. -/
theorem headPart (h : f.Spells start ls) (hstop : start + ls.length ≤ stop)
    (hkinds : ∀ l ∈ ls, l.kind.IsInFront)
    (hmarks : ∀ xs l ys, ls = xs ++ l :: ys → l.kind = .ampersand →
      f.isReferenceMark stop (start + xs.length) = false) :
    f.HeadPart stop start (start + ls.length) (Lexeme.headFacts ls) := by
  induction ls generalizing start with
  | nil => exact .refl
  | cons l ls ih =>
    obtain ⟨t, ht, hread⟩ := h.head
    obtain ⟨⟨hsettled, hvariable, hopen⟩, hrest⟩ := List.forall_mem_cons.1 hkinds
    have hkind := hread.kind_eq hsettled
    have hat : f.kindAt start = some l.kind := h.kindAt (a := 0) rfl hsettled
    have htext : f.textAt start = l.text := h.textAt (a := 0) rfl
    have hmark : f.isReferenceMark stop start = false := by
      by_cases hamp : l.kind = .ampersand
      · exact hmarks [] l ls rfl hamp
      · rw [isReferenceMark, hat]
        simp [hamp]
    have hfacts : f.headFacts stop [start] = Lexeme.headFacts [l] := by
      simp only [headFacts, Lexeme.headFacts, typeTextAt, hat, htext, hmark, List.flatMap_cons,
        List.flatMap_nil, List.any_cons, List.any_nil, List.filterMap_cons, List.filterMap_nil,
        List.filter_cons, List.filter_nil]
      cases l.kind.isTypePart <;> simp
    rw [List.length_cons] at hstop
    have hfirst := HeadPart.token (show start < stop by omega) ht (by rwa [hkind]) (by rwa [hkind])
    rw [hfacts] at hfirst
    have hlater := ih h.tail (by omega) hrest fun xs m ys hls hm => by
      have := hmarks (l :: xs) m ys (congrArg (l :: ·) hls) hm
      rwa [List.length_cons, Nat.add_comm xs.length, ← Nat.add_assoc] at this
    rw [← List.singleton_append, Lexeme.headFacts_append]
    exact .append hfirst hlater

/-- A part without ampersands among what may stand in front of a variable. -/
theorem headPart_of_forall (h : f.Spells start ls) (hstop : start + ls.length ≤ stop)
    (hls : ∀ l ∈ ls, l.kind.IsInFront ∧ l.kind ≠ .ampersand) :
    f.HeadPart stop start (start + ls.length) (Lexeme.headFacts ls) :=
  h.headPart hstop (fun l hl => (hls l hl).1) fun xs l ys hsplit hamp =>
    absurd hamp (hls l (by rw [hsplit]; simp)).2

theorem headPart_gap {g : Gap} (h : f.Spells start g.lexemes)
    (hstop : start + g.lexemes.length ≤ stop) :
    f.HeadPart stop start (start + g.lexemes.length) .nothing := by
  have hpart := h.headPart_of_forall hstop g.isInFront
  rwa [Lexeme.headFacts_of_trivia g.isTrivia_of_mem] at hpart

/-- A lexeme that is no reference mark, with blanks and comments behind it. -/
theorem headPart_behind {l : Lexeme} {g : Option Gap} (h : f.Spells start (Gap.behind l g))
    (hstop : start + (Gap.behind l g).length ≤ stop) (hl : l.kind.IsInFront ∧ l.kind ≠ .ampersand) :
    f.HeadPart stop start (start + (Gap.behind l g).length)
      (g.elim .nothing fun _ => Lexeme.headFacts [l]) := by
  cases g with
  | none => exact .refl
  | some g =>
    have hpart := h.headPart_of_forall hstop (List.forall_mem_cons.2 ⟨hl, g.isInFront⟩)
    exact g.headFacts_cons l ▸ hpart

/-- A reference mark, with blanks and comments behind it. -/
theorem headPart_reference {mark l : Lexeme} {g : Option Gap}
    (h : f.Spells start (Gap.behind mark g ++ l :: rest)) (hmark : mark.kind = .ampersand)
    (hl : l.kind = .variable ∨ l.kind = .ellipsis)
    (hstop : start + (Gap.behind mark g).length < stop) :
    f.HeadPart stop start (start + (Gap.behind mark g).length) ⟨[], g.isSome, false, []⟩ := by
  cases g with
  | none => exact .refl
  | some g =>
    have hlength : (Gap.behind mark (some g)).length = g.lexemes.length + 1 := List.length_cons
    rw [hlength] at hstop ⊢
    have hreference : f.isReferenceMark stop start = true := by
      rw [isReferenceMark_eq h hmark g.isTrivia_of_mem (by rcases hl with hl | hl <;> rw [hl] <;> rfl)
        (by rcases hl with hl | hl <;> rw [hl] <;> decide) (by omega)]
      rcases hl with hl | hl <;> rw [hl] <;> rfl
    obtain ⟨t, ht, hread⟩ := Spells.head h
    have hkind : t.kind = .ampersand := by
      rw [hread.kind_eq (by rw [hmark]; decide), hmark]
    have hat : f.kindAt start = some .ampersand := by
      rw [SourceFile.kindAt, ht, Option.map_some, hkind]
    have hfacts : f.headFacts stop [start] = ⟨[], true, false, []⟩ := by
      simp [headFacts, typeTextAt, hat, hreference, Visibility.ofKind?]
    have hfirst := HeadPart.token (show start < stop by omega) ht (by rw [hkind]; decide)
      (by rw [hkind]; decide)
    rw [hfacts] at hfirst
    have hgap := headPart_gap (Spells.tail (Spells.left h)) (by omega : _ ≤ stop)
    rw [Nat.add_right_comm, Nat.add_assoc start] at hgap
    have hpart := hfirst.trans hgap
    rwa [HeadFacts.append_nothing] at hpart

/-! ### Written parts -/

theorem headPart_modifiers {ms : List WrittenModifier}
    (h : f.Spells start (ms.flatMap WrittenModifier.lexemes))
    (hstop : start + (ms.flatMap WrittenModifier.lexemes).length ≤ stop) :
    f.HeadPart stop start (start + (ms.flatMap WrittenModifier.lexemes).length)
      ⟨[], false, false, ms.filterMap fun m => Visibility.ofKind? m.keyword.kind⟩ := by
  have hpart := h.headPart_of_forall hstop fun l hl => by
    obtain ⟨m, -, hl⟩ := List.mem_flatMap.1 hl
    exact m.isInFront l hl
  rwa [WrittenModifier.headFacts_flatMap] at hpart

theorem headPart_type {t : WrittenType} (h : f.Spells start t.lexemes)
    (hstop : start + t.lexemes.length ≤ stop) :
    f.HeadPart stop start (start + t.lexemes.length) ⟨t.text, false, false, []⟩ := by
  have hmarks (xs : List Lexeme) (l : Lexeme) (ys : List Lexeme) (hsplit : t.lexemes = xs ++ l :: ys)
      (hamp : l.kind = .ampersand) : f.isReferenceMark stop (start + xs.length) = false := by
    obtain ⟨gap, m, rest, rfl, hgap, hm⟩ := t.exists_part_after hsplit hamp
    obtain ⟨⟨hsettled, -⟩, hsignificant, -⟩ := Kind.isInFront_of_isTypePart hm
    have hlength := congrArg List.length hsplit
    rw [List.length_append, List.length_cons, List.length_append, List.length_cons] at hlength
    rw [hsplit] at h
    rw [isReferenceMark_eq (Spells.right h) hamp hgap hsignificant hsettled (by omega)]
    revert hm
    cases m.kind <;> decide
  have hpart := h.headPart hstop t.isInFront hmarks
  rwa [t.headFacts_lexemes] at hpart

theorem headPart_hint {t : WrittenHint} (h : f.Spells start (t.lexemes .nullable))
    (hstop : start + (t.lexemes .nullable).length ≤ stop) :
    f.HeadPart stop start (start + (t.lexemes .nullable).length) ⟨t.text, false, false, []⟩ := by
  have hlength : (t.lexemes .nullable).length = (Gap.behind ⟨.nullable, ['?']⟩ t.nullable).length +
      (t.type.lexemes.length + t.gap.lexemes.length) := by
    rw [WrittenHint.lexemes, List.length_append, List.length_append]
  rw [hlength] at hstop
  have hmark := headPart_behind (Spells.left h) (by omega : _ ≤ stop) (by decide)
  have htype := headPart_type (Spells.left (Spells.right h)) (by omega : _ ≤ stop)
  have hgap := headPart_gap (Spells.right (Spells.right h)) (by omega : _ ≤ stop)
  have hpart := hmark.append (htype.append hgap)
  have hfacts : (t.nullable.elim .nothing fun _ => Lexeme.headFacts [⟨.nullable, ['?']⟩]) ++
      ((⟨t.type.text, false, false, []⟩ : HeadFacts) ++ .nothing) = ⟨t.text, false, false, []⟩ := by
    rw [HeadFacts.append_nothing, WrittenHint.text]
    cases t.nullable <;> rfl
  exact hfacts ▸ hpart

/-- An attribute group says nothing. -/
theorem headPart_group (hpaired : Token.WellPaired f.tokens.toList) {g : WrittenGroup}
    (h : f.Spells start g.lexemes) (hclear : f.Clear start) (hstop : start + g.lexemes.length ≤ stop) :
    f.HeadPart stop start (start + g.lexemes.length) .nothing := by
  have hsplit : g.lexemes =
      (⟨.attributeOpen, ['#', '[']⟩ :: (g.content ++ [⟨.closeSquare, [']']⟩])) ++ g.gap.lexemes := by
    simp [WrittenGroup.lexemes]
  have hlength : g.lexemes.length = g.content.length + 1 + 1 + g.gap.lexemes.length := by
    rw [hsplit, List.length_append, List.length_cons, List.length_append, List.length_singleton]
  obtain ⟨t, ht, hread⟩ := Spells.head h
  have hkind : t.kind = .attributeOpen := hread.kind_eq (by decide)
  have hgroup := HeadPart.group (show start < stop by omega) ht hkind
  rw [Spells.afterGroup_eq hpaired h rfl g.nested_content (fun _ => hclear) ht hkind] at hgroup
  rw [hsplit] at h
  have hright := Spells.right h
  rw [List.length_cons, List.length_append, List.length_singleton] at hright
  have hgap := headPart_gap hright (by omega : _ ≤ stop)
  rw [hlength, ← Nat.add_assoc]
  exact hgroup.trans hgap

theorem headPart_groups (hpaired : Token.WellPaired f.tokens.toList) {gs : List WrittenGroup}
    (h : f.Spells start (gs.flatMap WrittenGroup.lexemes))
    (hclear : f.ClearFor start (gs.flatMap WrittenGroup.lexemes))
    (hstop : start + (gs.flatMap WrittenGroup.lexemes).length ≤ stop) :
    f.HeadPart stop start (start + (gs.flatMap WrittenGroup.lexemes).length) .nothing := by
  induction gs generalizing start with
  | nil => exact .refl
  | cons g gs ih =>
    rw [List.flatMap_cons] at h hclear hstop ⊢
    rw [List.length_append] at hstop
    have hfirst := headPart_group hpaired (Spells.left h)
      (hclear ⟨_, List.mem_append_left _ List.mem_cons_self, rfl⟩) (by omega : _ ≤ stop)
    have hlater := ih (Spells.right h)
      (hclear.right (Spells.left h) ((g.nested : Nested false _).balanced .square)) (by omega)
    exact hfirst.append hlater

end Spells

/-! ### The whole head -/

namespace Spells

variable (hpaired : Token.WellPaired f.tokens.toList) {p : WrittenParameter}

include hpaired

theorem headPart_front (h : f.Spells start p.front) (hclear : f.ClearFor start p.front)
    (hstop : start + p.front.length ≤ stop) : f.HeadPart stop start (start + p.front.length)
      ⟨[], false, false, p.modifiers.filterMap fun m => Visibility.ofKind? m.keyword.kind⟩ := by
  have hlength : p.front.length = p.before.lexemes.length +
      ((p.groups.flatMap WrittenGroup.lexemes).length +
        (p.modifiers.flatMap WrittenModifier.lexemes).length) := by
    rw [WrittenParameter.front, List.length_append, List.length_append]
  rw [hlength] at hstop
  have hgap := headPart_gap (Spells.left h) (by omega : _ ≤ stop)
  have hgroups := headPart_groups hpaired (Spells.left (Spells.right h))
    (ClearFor.left (hclear.right (Spells.left h) ((p.before.nested : Nested false _).balanced .square)))
    (by omega : _ ≤ stop)
  have hmodifiers := headPart_modifiers (Spells.right (Spells.right h)) (by omega : _ ≤ stop)
  exact hgap.append (hgroups.append hmodifiers)

omit hpaired in
theorem headPart_marks (h : f.Spells start (p.marks ++ ⟨.variable, p.name⟩ :: rest))
    (hstop : start + p.marks.length < stop) : f.HeadPart stop start (start + p.marks.length)
      ⟨[], p.reference.isSome, p.ellipsis.isSome, []⟩ := by
  rw [WrittenParameter.marks, List.append_assoc] at h
  rw [WrittenParameter.marks, List.length_append] at hstop
  obtain ⟨l, later, hnext, hl⟩ : ∃ l later, Gap.behind ⟨.ellipsis, ['.', '.', '.']⟩ p.ellipsis ++
      ⟨.variable, p.name⟩ :: rest = l :: later ∧ (l.kind = .variable ∨ l.kind = .ellipsis) := by
    cases p.ellipsis with
    | none => exact ⟨_, _, rfl, .inl rfl⟩
    | some g => exact ⟨_, _, rfl, .inr rfl⟩
  have hellipsis := headPart_behind (Spells.left (Spells.right h)) (by omega : _ ≤ stop) (by decide)
  rw [hnext] at h
  have hpart := (headPart_reference h rfl hl (by omega : _ < stop)).append hellipsis
  have hfacts : (⟨[], p.reference.isSome, false, []⟩ : HeadFacts) ++ (p.ellipsis.elim .nothing
      fun _ => Lexeme.headFacts [⟨.ellipsis, ['.', '.', '.']⟩]) =
        ⟨[], p.reference.isSome, p.ellipsis.isSome, []⟩ := by
    cases p.ellipsis <;> simp [HeadFacts.append_def, HeadFacts.nothing, Lexeme.headFacts,
      Kind.isTypePart, Visibility.ofKind?]
  exact hfacts ▸ hpart

/-- **The head of a written parameter says what is written in it.** -/
theorem headPart_head (h : f.Spells start (p.lexemes .nullable))
    (hclear : f.ClearFor start (p.lexemes .nullable))
    (hstop : start + (p.head .nullable).length < stop) :
    f.HeadPart stop start (start + (p.head .nullable).length) p.headFacts := by
  have hlength : (p.head .nullable).length = p.front.length +
      ((p.hint.elim [] (WrittenHint.lexemes .nullable)).length + p.marks.length) := by
    rw [WrittenParameter.head, List.length_append, List.length_append]
  rw [hlength] at hstop
  have hlexemes : p.lexemes .nullable = p.front ++
      (p.hint.elim [] (WrittenHint.lexemes .nullable) ++ (p.marks ++ ⟨.variable, p.name⟩ :: p.rear)) := by
    simp [WrittenParameter.lexemes, WrittenParameter.head]
  rw [hlexemes] at h hclear
  have hfront := headPart_front hpaired (Spells.left h) hclear.left (by omega : _ ≤ stop)
  have hmarks := headPart_marks (Spells.right (Spells.right h)) (by omega : _ < stop)
  have hhint : f.HeadPart stop (start + p.front.length)
      (start + p.front.length + (p.hint.elim [] (WrittenHint.lexemes .nullable)).length)
      ⟨p.hint.elim [] WrittenHint.text, false, false, []⟩ := by
    have hspells := Spells.left (Spells.right h)
    cases hp : p.hint with
    | none => exact .refl
    | some t =>
      rw [hp] at hspells hstop
      exact headPart_hint hspells (by rw [Option.elim_some] at hstop; omega)
  have hpart := hfront.append (hhint.append hmarks)
  have hfacts : (⟨[], false, false, p.headFacts.visibilities⟩ : HeadFacts) ++
      (⟨p.headFacts.typeText, false, false, []⟩ ++
        ⟨[], p.headFacts.byReference, p.headFacts.isVariadic, []⟩) = p.headFacts := by
    simp [HeadFacts.append_def]
  exact hfacts ▸ hpart

end Spells

end SourceFile

end EntityLint
