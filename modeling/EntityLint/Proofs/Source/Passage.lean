import EntityLint.Proofs.Source.Reading
import EntityLint.Source.Declaration

/-!
# Passages of a file

A passage is a run of lexemes that stands somewhere in a file. A search that begins in a passage and
ends there finds what the same search finds in the passage alone, and brackets that match in a passage
match in the file.

* `Token.lexeme`, `SourceFile.lexemes`: the kinds and texts of a file;
* `SourceFile.partBounds_of_between`, `partBounds_of_parens`, `partBounds_of_comma`: where the parts
  of a list end;
* `SourceFile.Passage`: some lexemes stand from an index on;
* `Passage.next?`, `Passage.previous?`, `Passage.slice`: what is found in a passage;
* `Passage.matching`, `Passage.owns`: brackets and their keywords in a passage;
* `Family.Balanced.append`, `Family.Balanced.pair`: how balanced brackets are put together;
* `Family.Matches.of_append`, `Family.Matches.shift`: brackets that match among other kinds.
-/

namespace EntityLint

open Pairing

/-! ### Balanced brackets -/

/-- The bracket that closes what a bracket opens. The end of an attribute group is a square bracket. -/
def Kind.closer? : Kind → Option Kind
  | openRound => some closeRound
  | openSquare | attributeOpen => some closeSquare
  | openCurly => some closeCurly
  | _ => none

namespace Pairing.Family.Balanced

variable {family : Family} {ks ls : List Kind}

theorem append (hk : family.Balanced ks) (hl : family.Balanced ls) :
    family.Balanced (ks ++ ls) := by
  obtain ⟨v, hv⟩ := hk
  obtain ⟨w, hw⟩ := hl
  refine ⟨v + w, ?_⟩
  show v.toList ++ w.toList = _
  rw [hv, hw, Family.word, Family.word, Family.word, List.filterMap_append]

theorem flatMap {α : Type} {as : List α} {g : α → List Kind}
    (h : ∀ a ∈ as, family.Balanced (g a)) : family.Balanced (as.flatMap g) := by
  induction as with
  | nil => exact ⟨0, rfl⟩
  | cons a as ih =>
    obtain ⟨ha, has⟩ := List.forall_mem_cons.1 h
    exact ha.append (ih has)

/-- Kinds that are no brackets are balanced. -/
theorem of_forall (h : ∀ k ∈ ks, family.step? k = none) : family.Balanced ks :=
  ⟨0, (List.filterMap_eq_nil_iff.2 h).symm⟩

/-- Balanced brackets in a pair of brackets. -/
theorem pair {o c : Kind} (hoc : o.closer? = some c) (h : family.Balanced ks) :
    family.Balanced (o :: (ks ++ [c])) := by
  have hword : family.word (o :: (ks ++ [c])) =
      (family.step? o).toList ++ family.word ks ++ (family.step? c).toList := by
    simp only [Family.word, List.filterMap_cons, List.filterMap_append, List.filterMap_nil]
    cases family.step? o <;> cases family.step? c <;> simp
  have hstep : family.step? o = some .U ∧ family.step? c = some .D ∨
      family.step? o = none ∧ family.step? c = none := by
    cases o <;> cases hoc <;> cases family <;> decide
  obtain ⟨w, hw⟩ := h
  rcases hstep with ⟨ho, hc⟩ | ⟨ho, hc⟩
  · refine ⟨w.nest, ?_⟩
    rw [hword, ho, hc, ← hw]
    rfl
  · refine ⟨w, ?_⟩
    rw [hword, ho, hc, ← hw]
    exact (List.append_nil _).symm

/-- A kind that is no bracket of a family does not matter to it. -/
theorem cons {k : Kind} (hk : family.step? k = none) (h : family.Balanced ks) :
    family.Balanced (k :: ks) :=
  (of_forall (List.forall_mem_singleton.2 hk)).append h

end Pairing.Family.Balanced

namespace Pairing.Family.Matches

variable {family : Family} {ks ls : List Kind}

/-- Brackets match when balanced brackets stand between them. -/
theorem of_append (before after : List Kind) {o c : Kind} (hopens : family.opens o = true)
    (hcloses : family.closes c = true) (h : family.Balanced ks) :
    family.Matches (before ++ o :: (ks ++ c :: after))
      ⟨before.length, before.length + (ks.length + 1)⟩ := by
  refine ⟨by dsimp only; omega, ⟨o, ?_, hopens⟩, ⟨c, ?_, hcloses⟩, ?_⟩
  · simp
  · simp
  · rw [List.take_length_add_append, List.drop_append, List.take_succ_cons, List.take_left,
      List.drop_eq_nil_of_le (Nat.le_succ _), Nat.add_sub_cancel_left]
    exact h

/-- Brackets that match in a part of some kinds match in all of them. -/
theorem shift {start : ℕ} {r : Range} (h : ∀ a < ls.length, ks[start + a]? = ls[a]?)
    (hr : family.Matches ls r) : family.Matches ks ⟨start + r.opener, start + r.closer⟩ := by
  obtain ⟨hlt, ⟨o, ho, hopens⟩, ⟨c, hc, hcloses⟩, hbalanced⟩ := hr
  have hlen := (List.getElem?_eq_some_iff.1 hc).1
  have hinner : (ks.take (start + r.closer)).drop (start + r.opener + 1) =
      (ls.take r.closer).drop (r.opener + 1) := by
    apply List.ext_getElem?
    intro i
    rw [List.getElem?_drop, List.getElem?_drop, List.getElem?_take, List.getElem?_take]
    by_cases hi : r.opener + 1 + i < r.closer
    · rw [if_pos (by omega), if_pos hi, ← h _ (by omega)]
      congr 1
      omega
    · rw [if_neg (by omega), if_neg hi]
  exact ⟨by dsimp only; omega, ⟨o, by rw [h _ (by omega), ho], hopens⟩,
    ⟨c, by rw [h _ hlen, hc], hcloses⟩, by rw [hinner]; exact hbalanced⟩

end Pairing.Family.Matches

/-! ### Lexemes of a file -/

/-- The kind and the text of a token. -/
def Token.lexeme (t : Token) : Lexeme := ⟨t.kind, t.text⟩

namespace SourceFile

variable {f : SourceFile} {start a : ℕ} {ls : List Lexeme}

/-- The kinds and texts of the tokens of a file. -/
def lexemes (f : SourceFile) : List Lexeme := f.tokens.toList.map Token.lexeme

theorem getElem?_lexemes (f : SourceFile) (i : ℕ) :
    f.lexemes[i]? = f.tokens[i]?.map Token.lexeme := by
  rw [lexemes, List.getElem?_map, Array.getElem?_toList]

theorem kindAt_eq (f : SourceFile) (i : ℕ) : f.kindAt i = f.lexemes[i]?.map Lexeme.kind := by
  rw [getElem?_lexemes, Option.map_map]
  rfl

theorem textAt_eq (f : SourceFile) (i : ℕ) :
    f.textAt i = (f.lexemes[i]?.map Lexeme.text).getD [] := by
  rw [getElem?_lexemes, Option.map_map]
  rfl

theorem holdsAt_eq {p : Token → Bool} {q : Lexeme → Bool} (hpq : ∀ t, p t = q t.lexeme) (i : ℕ) :
    f.holdsAt p i = f.lexemes[i]?.any q := by
  rw [holdsAt, getElem?_lexemes]
  cases f.tokens[i]? with
  | none => rfl
  | some t => exact hpq t

/-! ### Parts of a list -/

section Parts

variable {groups : List Kind} {stop first i e : ℕ}

/-- Parts of a list do not end where there are neither commas nor groups. -/
theorem partBounds_of_between (hie : i ≤ e) (he : e ≤ stop) (h : ∀ j, i ≤ j → j < e →
    ∃ k, f.kindAt j = some k ∧ k ≠ .comma ∧ groups.contains k = false) :
    f.partBounds groups stop first i = f.partBounds groups stop first e := by
  induction hn : e - i generalizing i with
  | zero => rw [show i = e by omega]
  | succ n ih =>
    obtain ⟨k, hk, hcomma, hgroup⟩ := h i le_rfl (by omega)
    obtain ⟨t, ht, rfl⟩ := Option.map_eq_some_iff.1 hk
    rw [partBounds, dif_pos (by omega)]
    simp only [ht, hcomma, hgroup, Bool.false_eq_true, if_false]
    exact ih (by omega) (fun j hj => h j (by omega)) (by omega)

/-- The last part of a list ends with it. -/
theorem partBounds_of_forall (h : ∀ j, i ≤ j → j < stop →
    ∃ k, f.kindAt j = some k ∧ k ≠ .comma ∧ groups.contains k = false) :
    f.partBounds groups stop first i = [(first, stop)] := by
  have hend : ∀ {j}, stop ≤ j → f.partBounds groups stop first j = [(first, stop)] := by
    intro j hj
    rw [partBounds, dif_neg (by omega)]
  rcases Nat.lt_or_ge i stop with hlt | hle
  · rw [partBounds_of_between hlt.le le_rfl h, hend le_rfl]
  · exact hend hle

/-- A group is stepped over. -/
theorem partBounds_of_group (hi : i < stop) {t : Token} (ht : f.tokens[i]? = some t)
    (hcomma : t.kind ≠ .comma) (hgroup : groups.contains t.kind = true) :
    f.partBounds groups stop first i = f.partBounds groups stop first (afterGroup i t) := by
  rw [partBounds, dif_pos hi]
  simp only [ht, hcomma, hgroup, if_false, if_true]

/-- A pair of round brackets is stepped over where such pairs are groups. -/
theorem partBounds_of_parens (hi : i < stop) {t : Token} (ht : f.tokens[i]? = some t)
    (hk : t.kind = .openRound) (hgroup : groups.contains .openRound = true) {c : ℕ} (hic : i < c)
    (hparens : t.parens = some ⟨i, c⟩) :
    f.partBounds groups stop first i = f.partBounds groups stop first (c + 1) := by
  have hafter : afterGroup i t = c + 1 := by
    simp only [afterGroup, hk, hparens, Option.elim_some]
    omega
  rw [partBounds_of_group hi ht (by rw [hk]; decide) (by rwa [hk]), hafter]

/-- A comma ends a part. -/
theorem partBounds_of_comma (hi : i < stop) (hk : f.kindAt i = some .comma) :
    f.partBounds groups stop first i =
      (first, i) :: f.partBounds groups stop (i + 1) (i + 1) := by
  obtain ⟨t, ht, hk⟩ := Option.map_eq_some_iff.1 hk
  rw [partBounds, dif_pos hi]
  simp only [ht, hk, if_true]

end Parts

/-! ### Passages -/

/-- Some lexemes stand in a file from an index on. -/
def Passage (f : SourceFile) (start : ℕ) (ls : List Lexeme) : Prop :=
  (f.lexemes.drop start).take ls.length = ls

namespace Passage

theorem of_append {before after : List Lexeme} (h : f.lexemes = before ++ (ls ++ after)) :
    f.Passage before.length ls := by
  rw [Passage, h, List.drop_left, List.take_left]

/-- A passage may be read in two parts. -/
theorem left {ls' : List Lexeme} (h : f.Passage start (ls ++ ls')) : f.Passage start ls := by
  have htake := congrArg (List.take ls.length) h
  rw [List.take_left, List.take_take, Nat.min_eq_left (by rw [List.length_append]; omega)] at htake
  exact htake

theorem right {ls' : List Lexeme} (h : f.Passage start (ls ++ ls')) :
    f.Passage (start + ls.length) ls' := by
  have hdrop := congrArg (List.drop ls.length) h
  rw [List.drop_left, List.drop_take, List.drop_drop, List.length_append,
    Nat.add_sub_cancel_left] at hdrop
  exact hdrop

theorem tail {l : Lexeme} (h : f.Passage start (l :: ls)) : f.Passage (start + 1) ls :=
  right (show f.Passage start ([l] ++ ls) from h)

section Reading

variable (h : f.Passage start ls)

include h

theorem getElem? (ha : a < ls.length) : f.lexemes[start + a]? = ls[a]? := by
  rw [← congrArg (·[a]?) h]
  simp only [List.getElem?_take, List.getElem?_drop, if_pos ha]

theorem exists_token {l : Lexeme} (hl : ls[a]? = some l) :
    ∃ t, f.tokens[start + a]? = some t ∧ t.kind = l.kind ∧ t.text = l.text := by
  have ha := (List.getElem?_eq_some_iff.1 hl).1
  have hget := h.getElem? ha
  rw [getElem?_lexemes, hl] at hget
  obtain ⟨t, ht, rfl⟩ := Option.map_eq_some_iff.1 hget
  exact ⟨t, ht, rfl, rfl⟩

theorem kindAt {l : Lexeme} (hl : ls[a]? = some l) : f.kindAt (start + a) = some l.kind := by
  rw [kindAt_eq, h.getElem? (List.getElem?_eq_some_iff.1 hl).1, hl, Option.map_some]

theorem textAt {l : Lexeme} (hl : ls[a]? = some l) : f.textAt (start + a) = l.text := by
  rw [textAt_eq, h.getElem? (List.getElem?_eq_some_iff.1 hl).1, hl, Option.map_some,
    Option.getD_some]

theorem lt_size (ha : a < ls.length) : start + a < f.tokens.size := by
  obtain ⟨t, ht, -⟩ := h.exists_token (List.getElem?_eq_getElem ha)
  exact (Array.getElem?_eq_some_iff.1 ht).1

/-- A search in a passage, forward from one of its tokens. -/
theorem next? {p : Token → Bool} {q : Lexeme → Bool} (hpq : ∀ t, p t = q t.lexeme) {d : ℕ}
    (hfind : (ls.drop a).findIdx? q = some d) {stop : Option ℕ}
    (hstop : ∀ s ∈ stop, start + a + d < s) :
    f.next? p (start + a) stop = some (start + a + d) := by
  obtain ⟨hd, hq, hbefore⟩ := List.findIdx?_eq_some_iff_getElem.1 hfind
  rw [List.length_drop] at hd
  have hsize := h.lt_size (a := a + d) (by omega)
  have hmin : start + a + d < min (stop.getD f.tokens.size) f.tokens.size := by
    refine Nat.lt_min.2 ⟨?_, by omega⟩
    cases stop with
    | none => exact Nat.add_assoc start a d ▸ hsize
    | some s => exact hstop s rfl
  refine findUp_eq_some_iff.2 ⟨by omega, by omega, ?_, fun j hj hlt => ?_⟩
  · rw [holdsAt_eq hpq, Nat.add_assoc, h.getElem? (by omega), List.getElem?_eq_getElem (by omega),
      Option.any_some, ← hq, List.getElem_drop]
  · obtain ⟨e, rfl⟩ := Nat.exists_eq_add_of_le hj
    have hfalse := hbefore e (by omega)
    rw [holdsAt_eq hpq, Nat.add_assoc, h.getElem? (by omega), List.getElem?_eq_getElem (by omega),
      Option.any_some]
    rw [List.getElem_drop] at hfalse
    exact Bool.eq_false_iff.2 hfalse

/-- A search in a passage, backward from one of its tokens. -/
theorem previous? {p : Token → Bool} {q : Lexeme → Bool} (hpq : ∀ t, p t = q t.lexeme)
    (ha : a < ls.length) {d : ℕ} (hfind : (ls.take (a + 1)).reverse.findIdx? q = some d) :
    f.previous? p (start + a) none = some (start + (a - d)) := by
  obtain ⟨hd, hq, hbefore⟩ := List.findIdx?_eq_some_iff_getElem.1 hfind
  rw [List.length_reverse, List.length_take, Nat.min_eq_left ha] at hd
  have hsize := h.lt_size ha
  have hindex : ∀ e < a + 1, ls[a - e]? = (ls.take (a + 1)).reverse[e]? := by
    intro e he
    rw [List.getElem?_reverse (by rw [List.length_take]; omega), List.length_take,
      List.getElem?_take_of_lt (by omega)]
    congr 1
    omega
  have hholds : ∀ e, e < a + 1 → ∀ l, ls[a - e]? = some l →
      f.holdsAt p (start + (a - e)) = q l := by
    intro e he l hl
    rw [holdsAt_eq hpq, h.getElem? (by omega), hl, Option.any_some]
  refine findDown_eq_some_iff.2 ⟨Nat.zero_le _, by omega, ?_, fun j hj hlt => ?_⟩
  · rw [hholds d hd _ ((hindex d hd).trans (List.getElem?_eq_getElem _))]
    exact hq
  · obtain ⟨e, rfl⟩ : ∃ e, j = start + (a - e) := ⟨start + a - j, by omega⟩
    have hlen : e < (ls.take (a + 1)).reverse.length := by
      rw [List.length_reverse, List.length_take]
      omega
    rw [hholds e (by omega) _ ((hindex e (by omega)).trans (List.getElem?_eq_getElem hlen))]
    exact Bool.eq_false_iff.2 (hbefore e (by omega))

theorem nextOfKind? {kinds : List Kind} {exclude : Bool} {d : ℕ}
    (hfind : ((ls.map Lexeme.kind).drop a).findIdx? (fun k => kinds.contains k != exclude) = some d)
    {stop : Option ℕ} (hstop : ∀ s ∈ stop, start + a + d < s) :
    f.nextOfKind? kinds (start + a) stop exclude = some (start + a + d) := by
  rw [← List.map_drop, List.findIdx?_map] at hfind
  exact h.next? (fun t => rfl) hfind hstop

/-- A search that ends with the passage finds nothing if nothing of the passage is sought. -/
theorem nextOfKind?_eq_none {kinds : List Kind}
    (hls : ∀ l ∈ ls, l.kind ∉ kinds) :
    f.nextOfKind? kinds start (some (start + ls.length)) false = none := by
  refine Option.eq_none_iff_forall_ne_some.2 fun i hi => ?_
  obtain ⟨hle, hlt, hholds⟩ := findUp_eq_some hi
  obtain ⟨a, rfl⟩ := Nat.exists_eq_add_of_le hle
  have ha : a < ls.length := by
    rw [Option.getD_some] at hlt
    omega
  obtain ⟨k, hmem, hk⟩ := holdsAt_kinds_iff.1 hholds
  cases hk.symm.trans (h.kindAt (List.getElem?_eq_getElem ha))
  exact hls _ (List.getElem_mem ha) hmem

theorem nextSignificant? {d : ℕ}
    (hfind : ((ls.map Lexeme.kind).drop a).findIdx? (fun k => !k.isTrivia) = some d)
    {stop : Option ℕ} (hstop : ∀ s ∈ stop, start + a + d < s) :
    f.nextSignificant? (start + a) stop = some (start + a + d) := by
  rw [← List.map_drop, List.findIdx?_map] at hfind
  exact h.next? (fun t => rfl) hfind hstop

theorem previousOfKind? {kinds : List Kind} {exclude : Bool} (ha : a < ls.length) {d : ℕ}
    (hfind : ((ls.map Lexeme.kind).take (a + 1)).reverse.findIdx?
      (fun k => kinds.contains k != exclude) = some d) :
    f.previousOfKind? kinds (start + a) none exclude = some (start + (a - d)) := by
  rw [← List.map_take, ← List.map_reverse, List.findIdx?_map] at hfind
  exact h.previous? (fun t => rfl) ha hfind

/-- The lexemes of a slice of a passage. -/
theorem map_slice {b : ℕ} (hb : b ≤ ls.length) :
    (f.slice (start + a) (start + b)).map Token.lexeme = (ls.take b).drop a := by
  have hdrop : (f.lexemes.drop start).take b = ls.take b := by
    rw [← congrArg (List.take b) h, List.take_take, Nat.min_eq_left hb]
  rw [slice, List.map_take, List.map_drop, ← hdrop, List.drop_take, List.drop_drop]
  show (f.lexemes.drop (start + a)).take _ = _
  congr 1
  omega

theorem codeBetween {b : ℕ} (hb : b ≤ ls.length) : f.codeBetween (start + a) (start + b) =
    (((ls.take b).drop a).filter fun l => !l.kind.isTrivia).flatMap Lexeme.text := by
  rw [← h.map_slice hb, SourceFile.codeBetween, List.filter_map, List.flatMap_map]
  rfl

theorem textBetween {b : ℕ} (hb : b ≤ ls.length) : f.textBetween (start + a) (start + b) =
    ((ls.take b).drop a).flatMap Lexeme.text := by
  rw [← h.map_slice hb, SourceFile.textBetween, List.flatMap_map]
  rfl

/-- The significant tokens before a token of a passage begin with those of the passage. -/
theorem significantBefore (ha : a ≤ ls.length) :
    ∃ before, (f.significantBefore (start + a)).map Token.lexeme =
      ((ls.take a).reverse.filter fun l => !l.kind.isTrivia) ++ before := by
  have htake : f.lexemes.take (start + a) = f.lexemes.take start ++ ls.take a := by
    rw [List.take_add, ← congrArg (List.take a) h, List.take_take, Nat.min_eq_left ha]
  refine ⟨(f.lexemes.take start).reverse.filter fun l => !l.kind.isTrivia, ?_⟩
  rw [← List.filter_append, ← List.reverse_append, ← htake, SourceFile.significantBefore, lexemes,
    ← List.map_take, ← List.map_reverse, List.filter_map]
  rfl

/-- Parts of a list do not end within a passage without commas and groups. -/
theorem partBounds_eq {groups : List Kind} {stop first : ℕ} (hstop : start + ls.length ≤ stop)
    (hls : ∀ l ∈ ls, l.kind ≠ .comma ∧ groups.contains l.kind = false) :
    f.partBounds groups stop first start =
      f.partBounds groups stop first (start + ls.length) := by
  refine partBounds_of_between (Nat.le_add_right ..) hstop fun j hj hlt => ?_
  obtain ⟨a, rfl⟩ := Nat.exists_eq_add_of_le hj
  have ha : a < ls.length := by omega
  exact ⟨_, h.kindAt (List.getElem?_eq_getElem ha), hls _ (List.getElem_mem ha)⟩

/-! ### Declarations in a passage -/

theorem declarationName? {w d : ℕ} {name : Text}
    (hw : (ls.map Lexeme.kind)[w]? = some .kwFunction)
    (hfind : ((ls.map Lexeme.kind).drop (w + 1)).findIdx? (fun k => !k.isTrivia) = some d)
    (hname : ls[w + 1 + d]? = some ⟨.word, name⟩) : f.declarationName? (start + w) = some name := by
  rw [List.getElem?_map] at hw
  obtain ⟨l, hl, hlk⟩ := Option.map_eq_some_iff.1 hw
  obtain ⟨t, ht, hk, -⟩ := h.exists_token hl
  have hnext : f.nextSignificant? (start + w + 1) none = some (start + (w + 1 + d)) := by
    rw [← Nat.add_assoc start]
    exact h.nextSignificant? hfind nofun
  have hkind := h.kindAt hname
  have htext := h.textAt hname
  dsimp only at hkind htext
  have howner : t.kind.isScopeOwner = true := by rw [hk, hlk]; rfl
  simp [SourceFile.declarationName?, ht, howner, hnext, hkind, htext]

/-- The type behind the colon that follows a list of parameters. -/
theorem returnType {t : Token} {o b d n : ℕ} (hparens : t.parens = some ⟨o, start + b⟩)
    (hfind : ((ls.map Lexeme.kind).drop (b + 1)).findIdx? (fun k => !k.isTrivia) = some d)
    (hcolon : (ls.map Lexeme.kind)[b + 1 + d]? = some .colon)
    (hend : ((ls.map Lexeme.kind).drop (b + 1 + d + 1)).findIdx?
      (fun k => [.openCurly, .semicolon, .doubleArrow].contains k != false) = some n) :
    f.returnType t = (((ls.take (b + 1 + d + 1 + n)).drop (b + 1 + d + 1)).filter
      fun l => !l.kind.isTrivia).flatMap Lexeme.text := by
  have hnext : f.nextSignificant? (start + b + 1) none = some (start + (b + 1 + d)) := by
    rw [← Nat.add_assoc start]
    exact h.nextSignificant? hfind nofun
  have hstop : f.nextOfKind? [.openCurly, .semicolon, .doubleArrow] (start + (b + 1 + d) + 1) none
      false = some (start + (b + 1 + d + 1 + n)) := by
    rw [← Nat.add_assoc start (b + 1 + d + 1)]
    exact h.nextOfKind? hend nofun
  have hkind : f.kindAt (start + (b + 1 + d)) = some .colon := by
    rw [List.getElem?_map] at hcolon
    obtain ⟨l, hl, hlk⟩ := Option.map_eq_some_iff.1 hcolon
    rw [h.kindAt hl, hlk]
  have hlen : b + 1 + d + 1 + n ≤ ls.length := by
    have := List.findIdx?_eq_some_iff_getElem.1 hend
    obtain ⟨hlt, -⟩ := this
    rw [List.length_drop, List.length_map] at hlt
    omega
  have hafter : f.afterParameters? t = some (start + (b + 1 + d)) := by
    simp [SourceFile.afterParameters?, hparens, hnext, hkind]
  rw [SourceFile.returnType, hafter]
  simp only [hkind, if_true, hstop, Option.getD_some]
  exact h.codeBetween (a := b + 1 + d + 1) hlen

end Reading

/-! ### Brackets in a passage -/

section Unpaired

variable (h : f.Passage start ls)

include h

theorem getElem?_unpaired (ha : a < ls.length) :
    (Token.kinds f.tokens.toList)[start + a]? = (ls.map fun l => l.kind.unpaired)[a]? := by
  have hkinds : Token.kinds f.tokens.toList = f.lexemes.map fun l => l.kind.unpaired := by
    rw [Token.kinds, lexemes, List.map_map]
    rfl
  rw [hkinds, List.getElem?_map, h.getElem? ha, List.getElem?_map]

/-- Brackets that match in a passage match in the file. The end of an attribute group counts as a
square bracket. -/
theorem matching_unpaired {family : Family} {r : Range}
    (hr : family.Matches (ls.map fun l => l.kind.unpaired) r) :
    family.Matches (Token.kinds f.tokens.toList) ⟨start + r.opener, start + r.closer⟩ :=
  hr.shift fun a ha => h.getElem?_unpaired (by rwa [List.length_map] at ha)

end Unpaired

section Links

variable (h : f.Passage start ls) (hkinds : Token.kinds f.tokens.toList = f.lexemes.map Lexeme.kind)

include h hkinds

theorem getElem?_kinds (ha : a < ls.length) :
    (Token.kinds f.tokens.toList)[start + a]? = (ls.map Lexeme.kind)[a]? := by
  rw [hkinds, List.getElem?_map, h.getElem? ha, List.getElem?_map]

theorem kinds_eq {k : Kind} (hk : (ls.map Lexeme.kind)[a]? = some k) :
    (Token.kinds f.tokens.toList)[start + a]? = some k := by
  have ha := (List.getElem?_eq_some_iff.1 hk).1
  rw [List.length_map] at ha
  rw [h.getElem?_kinds hkinds ha, hk]

/-- Brackets that match in a passage match in the file. -/
theorem matching {family : Family} {r : Range} (hr : family.Matches (ls.map Lexeme.kind) r) :
    family.Matches (Token.kinds f.tokens.toList) ⟨start + r.opener, start + r.closer⟩ :=
  hr.shift fun a ha => h.getElem?_kinds hkinds (by rwa [List.length_map] at ha)

/-- A keyword that owns a bracket in a passage owns it in the file. -/
theorem owns {own : Ownership} {w b : ℕ} (hown : own.Owns (ls.map Lexeme.kind) w b) :
    own.Owns (Token.kinds f.tokens.toList) (start + w) (start + b) := by
  obtain ⟨⟨hlt, ⟨k, hk, hkeyword⟩, hquiet⟩, ⟨o, ho, hbracket⟩⟩ := hown
  have hlen := (List.getElem?_eq_some_iff.1 ho).1
  rw [List.length_map] at hlen
  refine ⟨⟨by omega, ⟨k, h.kinds_eq hkinds hk, hkeyword⟩, fun j hwj hjb l hl => ?_⟩,
    ⟨o, h.kinds_eq hkinds ho, hbracket⟩⟩
  obtain ⟨e, rfl⟩ := Nat.exists_eq_add_of_le (Nat.le_of_lt (Nat.lt_of_le_of_lt (Nat.le_add_right ..) hwj))
  rw [h.getElem?_kinds hkinds (by omega)] at hl
  exact hquiet e (by omega) (by omega) l hl

variable (hpaired : Token.WellPaired f.tokens.toList) {w b c : ℕ} {t : Token}

include hpaired

theorem parens_eq (hown : Ownership.parens.Owns (ls.map Lexeme.kind) w b)
    (hmatches : Family.round.Matches (ls.map Lexeme.kind) ⟨b, c⟩)
    (ht : f.tokens[start + w]? = some t) : t.parens = some ⟨start + b, start + c⟩ := by
  have hown' := h.owns hkinds hown
  obtain ⟨k, hk, hkeyword⟩ := hown'.waits.keyword
  obtain ⟨t', ht', rfl⟩ := Token.exists_token_of_kinds hk (by rintro rfl; cases hkeyword)
  cases ht.symm.trans (Array.getElem?_toList.symm.trans ht')
  obtain ⟨c', hmatches', hparens⟩ := (hpaired.parens_owner _ t ht' hkeyword).1 _ hown'
  rw [hparens, hmatches'.closer_unique (h.matching hkinds hmatches) rfl]

theorem scopeAround (hown : Ownership.scopes.Owns (ls.map Lexeme.kind) w b)
    (hmatches : Family.curly.Matches (ls.map Lexeme.kind) ⟨b, c⟩) {k : Kind}
    (hk : (ls.map Lexeme.kind)[w]? = some k) {i : ℕ} (hbi : b < i) (hic : i < c) :
    Token.ScopeAround f.tokens.toList (start + i) (start + w) k ⟨start + b, start + c⟩ :=
  (Token.scopeAround_iff hpaired).2 ⟨h.kinds_eq hkinds hk, h.owns hkinds hown,
    h.matching hkinds hmatches, Nat.add_lt_add_left hbi start, Nat.add_lt_add_left hic start⟩

/-- In a body where no further scope is owned the last condition is the owner of the body. -/
theorem getLast?_ownersAround (hown : Ownership.scopes.Owns (ls.map Lexeme.kind) w b)
    (hmatches : Family.curly.Matches (ls.map Lexeme.kind) ⟨b, c⟩) {k : Kind}
    (hk : (ls.map Lexeme.kind)[w]? = some k) {i : ℕ} (hbi : b < i) (hic : i < c)
    (hquiet : ∀ j, b < j → j < i → ∀ k, (ls.map Lexeme.kind)[j]? = some k →
      k.isScopeOwner = false) :
    (Token.ownersAround f.tokens.toList (start + i)).getLast? = some (start + w, k) := by
  have haround := h.scopeAround hkinds hpaired hown hmatches hk hbi hic
  have hmem := Token.mem_ownersAround.2 ⟨_, haround⟩
  have hlen : c < (ls.map Lexeme.kind).length := lt_length_of_closesAt hmatches.closes
  rw [List.length_map] at hlen
  obtain ⟨⟨v, l⟩, hlast⟩ := List.getLast?_isSome.2 (List.ne_nil_of_mem hmem) |>
    Option.isSome_iff_exists.1
  obtain ⟨s, haround'⟩ := Token.mem_ownersAround.1 (List.mem_of_getLast? hlast)
  obtain ⟨hl, hown', -, -, -⟩ := (Token.scopeAround_iff hpaired).1 haround'
  have hle : start + w ≤ v := by
    obtain ⟨before, hsplit⟩ := List.getLast?_eq_some_iff.1 hlast
    rw [hsplit] at hmem
    have hsorted : (Token.ownersAround f.tokens.toList (start + i)).Pairwise fun x y => x.1 < y.1 :=
      Token.sorted_ownersAround
    rw [hsplit] at hsorted
    rcases List.mem_append.1 hmem with hmem | hmem
    · exact (List.pairwise_append.1 hsorted).2.2 _ hmem _ (List.mem_singleton_self _) |>.le
    · exact (congrArg Prod.fst (List.mem_singleton.1 hmem)).le
  rcases Nat.eq_or_lt_of_le hle with rfl | hlt
  · rw [h.kinds_eq hkinds hk] at hl
    cases hl
    exact hlast
  · -- an owner of a scope inside of the body stands there before the token
    have hinside := (haround.inside_of_lt hpaired haround' hlt).1
    have hbv := (h.owns hkinds hown).lt_of_lt hown' hinside
    have hvs := hown'.waits.lt
    have hsi := haround'.opener_lt
    obtain ⟨e, rfl⟩ := Nat.exists_eq_add_of_le (Nat.le_of_lt (Nat.lt_of_le_of_lt
      (Nat.le_add_right start b) hbv))
    rw [h.getElem?_kinds hkinds (by omega)] at hl
    have howner := haround'.owner
    rw [hquiet e (by omega) (by omega) l hl] at howner
    cases howner

end Links

end Passage

end SourceFile

end EntityLint
