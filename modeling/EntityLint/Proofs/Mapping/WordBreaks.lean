import EntityLint.Proofs.Mapping.NameWords
import EntityLint.Proofs.Token.Rules

/-!
# Underscores that come back

A name with underscores is put together in camel case and taken apart again. Its letters and digits are
kept, and its underscores come back where a capital behind a small letter or digit shows them. Whether
all of them do, and no further ones, depends on the characters next to each underscore and on the first
two of the name.

* `without_underScore_camelCase`: what is kept of every name;
* `EndsWord`, `BeginsWord`, `KeepsBreaks`: underscores that come back;
* `Agrees`, `agrees_cons`, `agrees_underscore`: the rest of a name, taken apart with and without camel
  case, one step after the other;
* `agrees_word_iff`, `agrees_break_iff`, `innerAgrees`, `agrees_first_iff`: after the first letter of a
  later word, at its underscore, inside of a word and after the first character of the name.

The main statement is `underscores_come_back_iff`.
-/

namespace EntityLint.Naming

open Text

variable {t u v w name : Text} {c d p q : Char}

/-! ### Letters and digits -/

theorem toLower_ne_underscore (hc : c ≠ '_') : c.toLower ≠ '_' := by
  have hletter : ∀ d : Char, d.isAlpha = true → (d == '_') = false := by
    intro d hd
    rw [beq_eq_false_iff_ne]
    rintro rfl
    cases hd
  rw [← beq_eq_false_iff_ne, apply_toLower hletter, beq_eq_false_iff_ne]
  exact hc

theorem isDigit_of_isAlpha (hc : c.isAlpha = true) : c.isDigit = false :=
  isDigit_eq_false_of_isWordStart (by rw [Lexeme.isWordStart, hc, Bool.true_or, Bool.true_or])

/-- What may stand in front of a mark. -/
theorem isLower_or_isDigit (hc : c.isAlphanum = true) : (c.isLower || c.isDigit) = !c.isUpper := by
  by_cases hupper : c.isUpper = true
  · have halpha : c.isAlpha = true := by rw [Char.isAlpha, hupper, Bool.true_or]
    rw [hupper, isDigit_of_isAlpha halpha, Bool.eq_false_iff.2 (Char.not_isLower_of_isUpper hupper)]
    rfl
  · rw [Bool.not_eq_true] at hupper
    rw [hupper]
    rwa [Char.isAlphanum, Char.isAlpha, hupper, Bool.false_or] at hc

theorem without_cons_of_ne (hc : c ≠ '_') (t : Text) :
    without '_' (c :: t) = c :: without '_' t :=
  List.filter_cons_of_pos (bne_iff_ne.2 hc)

theorem without_underScoreAfter (before : Option Char) (t : Text) :
    without '_' (underScoreAfter before t) = (without '_' t).map Char.toLower := by
  induction t generalizing before with
  | nil => rfl
  | cons c t ih =>
    have hmark : ∀ s : Text,
        without '_' ((if needsMark before c then ['_'] else []) ++ s) = without '_' s := by
      intro s
      split <;> rfl
    rw [underScoreAfter_cons, hmark]
    by_cases hc : c = '_'
    · subst hc
      exact ih _
    · rw [without_cons_of_ne (toLower_ne_underscore hc), without_cons_of_ne hc, ih, List.map_cons]

theorem map_toLower_joinWords (hname : ∀ c ∈ name, isBlank c = false) (wordStart : Bool) :
    (joinWords wordStart name).map Char.toLower = (without '_' name).map Char.toLower := by
  induction name generalizing wordStart with
  | nil => rfl
  | cons c name ih =>
    obtain ⟨hc, hrest⟩ := List.forall_mem_cons.1 hname
    by_cases hunderscore : c = '_'
    · subst hunderscore
      rw [joinWords_break rfl]
      exact ih hrest true
    · have hbreak : isBreak c = false := by
        simp only [isBreak, Bool.or_eq_false_iff, beq_eq_false_iff_ne]
        refine ⟨hunderscore, ?_⟩
        rintro rfl
        cases hc
      have hlower : (if wordStart then c.toUpper else c).toLower = c.toLower := by
        split
        · exact Char.toLower_toUpper_eq_toLower c
        · rfl
      rw [joinWords_cons hbreak, without_cons_of_ne hunderscore, List.map_cons, List.map_cons, hlower,
        ih hrest]

/-- But for underscores a name comes out the same. -/
theorem without_underScore_camelCase (hname : ∀ c ∈ name, isBlank c = false) :
    without '_' (underScore (camelCase name)) = without '_' (underScore name) := by
  have hnone : without '_' (camelCase name) = camelCase name := by
    refine List.filter_eq_self.2 fun c hc => bne_iff_ne.2 ?_
    rintro rfl
    cases isBreak_of_mem_camelCase hc
  have hfirst : ∀ t : Text, (lowerFirst t).map Char.toLower = t.map Char.toLower := by
    intro t
    cases t with
    | nil => rfl
    | cons c t => rw [lowerFirst, List.map_cons, Char.toLower_toLower_eq_toLower, List.map_cons]
  rw [underScore, underScore, without_underScoreAfter, without_underScoreAfter, hnone,
    camelCase_of_no_blank hname, hfirst, map_toLower_joinWords hname]

/-! ### Underscores -/

/-- Whether a text ends as a word does whose end is seen in camel case: it has a last character, and that
is a capital only where it is the first one, too. -/
def EndsWord (u : Text) : Prop := ∃ w c, u = w ++ [c] ∧ (c.isUpper = true → w = [])

/-- Whether a text begins as a word does whose beginning is seen in camel case: with a letter, and not with
a small one that stands alone or before a capital. -/
def BeginsWord (v : Text) : Prop :=
  ∃ c w, v = c :: w ∧ c.isAlpha = true ∧
    (c.isLower = true → ∀ d ∈ w.head?, d ≠ '_' ∧ d.isUpper = false)

/-- Whether all underscores of a name come back, and no further ones. -/
structure KeepsBreaks (name : Text) : Prop where
  capitals : ∀ a b rest, name = a :: b :: rest → NotBothCapitals a b
  breaks : ∀ u v, name = u ++ '_' :: v → EndsWord u ∧ BeginsWord v

theorem endsWord_concat : EndsWord (w ++ [c]) ↔ (c.isUpper = true → w = []) := by
  constructor
  · rintro ⟨w', c', heq, h⟩
    obtain ⟨rfl, hc⟩ := List.append_inj' heq rfl
    obtain rfl := List.singleton_inj.1 hc
    exact h
  · exact fun h => ⟨w, c, rfl, h⟩

/-- Whether the underscores of a text come back that stands behind another one in a name. -/
def BreaksFrom (u t : Text) : Prop :=
  ∀ x y, t = x ++ '_' :: y → EndsWord (u ++ x) ∧ BeginsWord y

theorem breaksFrom_nil (u : Text) : BreaksFrom u [] := by
  intro x y h
  simp at h

theorem breaksFrom_cons (hc : c ≠ '_') (u t : Text) :
    BreaksFrom u (c :: t) ↔ BreaksFrom (u ++ [c]) t := by
  constructor
  · intro h x y heq
    simpa using h (c :: x) y (by simp [heq])
  · intro h x y heq
    cases x with
    | nil => exact absurd (List.cons.inj heq).1 hc
    | cons d x =>
      obtain ⟨rfl, hrest⟩ := List.cons.inj heq
      simpa using h x y hrest

theorem breaksFrom_underscore (u t : Text) :
    BreaksFrom u ('_' :: t) ↔ EndsWord u ∧ BeginsWord t ∧ BreaksFrom (u ++ ['_']) t := by
  constructor
  · intro h
    obtain ⟨hends, hbegins⟩ := h [] t rfl
    rw [List.append_nil] at hends
    exact ⟨hends, hbegins, fun x y heq => by simpa using h ('_' :: x) y (by simp [heq])⟩
  · rintro ⟨hends, hbegins, h⟩ x y heq
    cases x with
    | nil =>
      obtain rfl := (List.cons.inj heq).2
      exact ⟨by rwa [List.append_nil], hbegins⟩
    | cons d x =>
      obtain ⟨rfl, hrest⟩ := List.cons.inj heq
      simpa using h x y hrest

/-! ### Step by step -/

/-- Whether a rest of a name comes out the same with and without camel case, where the character before
it is `p` in camel case and `q` in the name. -/
def Agrees (p q : Char) (t : Text) : Prop :=
  underScoreAfter (some p) (joinWords false t) = underScoreAfter (some q) t

theorem mark_append_inj {m n : Bool} (hc : c ≠ '_') {s s' : Text} :
    (if m then ['_'] else []) ++ c :: s = (if n then ['_'] else []) ++ c :: s' ↔ m = n ∧ s = s' := by
  cases m <;> cases n <;> simp [hc, hc.symm]

theorem needsMark_some (p c : Char) :
    needsMark (some p) c = (c.isUpper && (p.isLower || p.isDigit)) := rfl

theorem ne_underscore_of_isAlphanum (hc : c.isAlphanum = true) : c ≠ '_' := by
  rintro rfl
  cases hc

/-- A letter or digit of the same word. -/
theorem agrees_cons (hc : c.isAlphanum = true) :
    Agrees p q (c :: t) ↔ needsMark (some p) c = needsMark (some q) c ∧ Agrees c c t := by
  have hne := toLower_ne_underscore (ne_underscore_of_isAlphanum hc)
  rw [Agrees, joinWords_cons (isBreak_of_isAlphanum hc), if_neg Bool.false_ne_true,
    underScoreAfter_cons, underScoreAfter_cons, mark_append_inj hne, Agrees]

/-- An underscore comes back only where a word begins that gets a mark. -/
theorem agrees_underscore (ht : ∀ c ∈ t, c.isAlphanum = true ∨ c = '_') :
    Agrees p q ('_' :: t) ↔ ∃ c rest, t = c :: rest ∧ c ≠ '_' ∧
      needsMark (some p) c.toUpper = true ∧ Agrees c.toUpper c rest := by
  have hright : underScoreAfter (some q) ('_' :: t) = '_' :: underScoreAfter (some '_') t := rfl
  rw [Agrees, joinWords_break rfl, hright]
  cases t with
  | nil => simp [joinWords, underScoreAfter]
  | cons c rest =>
    rcases ht c List.mem_cons_self with hc | rfl
    · have hne := ne_underscore_of_isAlphanum hc
      have hmark : '_' :: underScoreAfter (some '_') (c :: rest) =
          (if true then ['_'] else []) ++ c.toLower :: underScoreAfter (some c) rest := by
        have hnone : needsMark (some '_') c = false := Bool.and_false _
        rw [underScoreAfter_cons, hnone]
        rfl
      rw [hmark, joinWords_cons (isBreak_of_isAlphanum hc), if_pos rfl, underScoreAfter_cons,
        Char.toLower_toUpper_eq_toLower, mark_append_inj (toLower_ne_underscore hne)]
      constructor
      · rintro ⟨hmark, hrest⟩
        exact ⟨c, rest, rfl, hne, hmark, hrest⟩
      · rintro ⟨c', rest', heq, -, hmark, hrest⟩
        cases heq
        exact ⟨hmark, hrest⟩
    · -- no mark stands in front of another one
      have hdouble : underScoreAfter (some p) (joinWords true ('_' :: rest)) ≠
          '_' :: underScoreAfter (some '_') ('_' :: rest) := by
        cases hjoin : joinWords true ('_' :: rest) with
        | nil => exact fun h => by cases h
        | cons b s =>
          have hb : isBreak b = false := isBreak_of_mem_joinWords (hjoin ▸ List.mem_cons_self)
          have hne : b.toLower ≠ '_' := toLower_ne_underscore (by rintro rfl; cases hb)
          rw [underScoreAfter_cons]
          intro h
          split at h
          · exact hne (List.cons.inj (List.cons.inj h).2).1
          · exact hne (List.cons.inj h).1
      constructor
      · exact fun h => absurd h hdouble
      · rintro ⟨c', rest', heq, hne, -⟩
        exact absurd (List.cons.inj heq).1.symm hne

/-- Inside of a word the underscores of a rest decide whether it comes out the same. -/
def InnerAgrees (t : Text) : Prop :=
  ∀ (u : Text) (q : Char), u ≠ [] → q.isAlphanum = true → (Agrees q q t ↔ BreaksFrom (u ++ [q]) t)

/-- After the first letter of a word behind an underscore. In camel case this letter is a capital, so that
no mark can follow it. -/
theorem agrees_word_iff (ht : ∀ c ∈ t, c.isAlphanum = true ∨ c = '_') (hinner : InnerAgrees t.tail)
    (hu : u ≠ []) (hc : c.isAlpha = true) : Agrees c.toUpper c t ↔
      (c.isLower = true → ∀ d ∈ t.head?, d ≠ '_' ∧ d.isUpper = false) ∧
        BreaksFrom (u ++ [c]) t := by
  have hdigit : c.toUpper.isDigit = false :=
    isDigit_of_isAlpha (by rwa [Char.isAlpha_toUpper_eq_isAlpha])
  have hnone : ∀ d, needsMark (some c.toUpper) d = false := fun d => by
    rw [needsMark_some, Char.isLower_toUpper_eq_false, hdigit, Bool.or_false, Bool.and_false]
  cases t with
  | nil =>
    have hagrees : Agrees c.toUpper c [] := rfl
    simp [hagrees, breaksFrom_nil]
  | cons d t =>
    rcases ht d List.mem_cons_self with hd | rfl
    · have hne := ne_underscore_of_isAlphanum hd
      have hmark : false = needsMark (some c) d ↔ (c.isLower = true → d.isUpper = false) := by
        rw [needsMark_some, isDigit_of_isAlpha hc, Bool.or_false]
        cases c.isLower <;> cases d.isUpper <;> simp
      have hlater : Agrees d d t ↔ BreaksFrom (u ++ [c] ++ [d]) t :=
        hinner (u ++ [c]) d (by simp) hd
      rw [agrees_cons hd, hnone, hmark, hlater, breaksFrom_cons hne]
      simp [hne]
    · -- one letter alone between two underscores
      have hleft : ¬Agrees c.toUpper c ('_' :: t) := by
        rw [agrees_underscore fun x hx => ht x (List.mem_cons_of_mem _ hx)]
        rintro ⟨x, rest, -, -, hmark, -⟩
        rw [hnone] at hmark
        cases hmark
      refine iff_of_false hleft ?_
      rintro ⟨hlower, hbreaks⟩
      have hnot : c.isLower ≠ true := fun h => (hlower h '_' rfl).1 rfl
      have hupper : c.isUpper = true := (Bool.or_eq_true_iff.1 hc).resolve_right hnot
      rw [breaksFrom_underscore, endsWord_concat] at hbreaks
      exact hu (hbreaks.1 hupper)

/-- At an underscore behind a character that may be a mark's left neighbour exactly if it ends a word. -/
theorem agrees_break_iff (ht : ∀ c ∈ t, c.isAlphanum = true ∨ c = '_')
    (hinner : InnerAgrees t.tail.tail)
    (hends : (p.isLower || p.isDigit) = true ↔ EndsWord u) :
    Agrees p q ('_' :: t) ↔ BreaksFrom u ('_' :: t) := by
  rw [agrees_underscore ht, breaksFrom_underscore, ← hends]
  constructor
  · rintro ⟨c, rest, rfl, hne, hmark, hrest⟩
    rw [needsMark_some, Char.isUpper_toUpper_eq_isAlpha, Bool.and_eq_true] at hmark
    rw [agrees_word_iff (u := u ++ ['_']) (fun x hx => ht x (List.mem_cons_of_mem _ hx)) hinner (by simp)
      hmark.1, ← breaksFrom_cons hne] at hrest
    exact ⟨hmark.2, ⟨c, rest, rfl, hmark.1, hrest.1⟩, hrest.2⟩
  · rintro ⟨hmark, ⟨c, rest, rfl, hc, hfirst⟩, hrest⟩
    have hne : c ≠ '_' := by
      rintro rfl
      cases hc
    refine ⟨c, rest, rfl, hne, ?_, ?_⟩
    · rw [needsMark_some, Char.isUpper_toUpper_eq_isAlpha, hc, hmark, Bool.true_and]
    · rw [agrees_word_iff (u := u ++ ['_']) (fun x hx => ht x (List.mem_cons_of_mem _ hx)) hinner
        (by simp) hc, ← breaksFrom_cons hne]
      exact ⟨hfirst, hrest⟩

/-- Inside of a word. -/
theorem innerAgrees (ht : ∀ c ∈ t, c.isAlphanum = true ∨ c = '_') : InnerAgrees t := by
  induction hn : t.length using Nat.strong_induction_on generalizing t with
  | _ n ih =>
    subst hn
    intro u q hu hq
    cases t with
    | nil => exact iff_of_true rfl (breaksFrom_nil _)
    | cons c t =>
      have ht' : ∀ x ∈ t, x.isAlphanum = true ∨ x = '_' := fun x hx => ht x (List.mem_cons_of_mem _ hx)
      rcases ht c List.mem_cons_self with hc | rfl
      · rw [agrees_cons hc, breaksFrom_cons (ne_underscore_of_isAlphanum hc),
          ih t.length (Nat.lt_succ_self _) ht' rfl (u ++ [q]) c (by simp) hc]
        exact and_iff_right rfl
      · refine agrees_break_iff ht' (ih _ ?_ (fun x hx => ht' x ?_) rfl) ?_
        · rw [List.length_tail, List.length_tail, List.length_cons]
          omega
        · exact List.mem_of_mem_tail (List.mem_of_mem_tail hx)
        · rw [endsWord_concat, isLower_or_isDigit hq]
          simp [hu]

/-- After the first character of a name, which is small in camel case. -/
theorem agrees_first_iff (ht : ∀ c ∈ t, c.isAlphanum = true ∨ c = '_') (hc : c.isAlphanum = true) :
    Agrees c.toLower c t ↔ (∀ d ∈ t.head?, NotBothCapitals c d) ∧ BreaksFrom [c] t := by
  have hends : (c.toLower.isLower || c.toLower.isDigit) = true := by
    rw [isLower_or_isDigit (by rwa [isAlphanum_toLower]), Char.isUpper_toLower_eq_false]
    rfl
  cases t with
  | nil =>
    have hagrees : Agrees c.toLower c [] := rfl
    simp [hagrees, breaksFrom_nil]
  | cons d t =>
    have ht' : ∀ x ∈ t, x.isAlphanum = true ∨ x = '_' := fun x hx => ht x (List.mem_cons_of_mem _ hx)
    rcases ht d List.mem_cons_self with hd | rfl
    · have hmark : needsMark (some c.toLower) d = needsMark (some c) d ↔ NotBothCapitals c d := by
        rw [needsMark_some, needsMark_some, hends, isLower_or_isDigit hc, NotBothCapitals]
        cases c.isUpper <;> cases d.isUpper <;> simp
      have hlater : Agrees d d t ↔ BreaksFrom ([c] ++ [d]) t :=
        innerAgrees ht' [c] d (List.cons_ne_nil c []) hd
      rw [agrees_cons hd, hmark, hlater, breaksFrom_cons (ne_underscore_of_isAlphanum hd)]
      simp
    · have hinner : InnerAgrees t.tail.tail :=
        innerAgrees fun x hx => ht' x (List.mem_of_mem_tail (List.mem_of_mem_tail hx))
      have hword : EndsWord [c] := ⟨[], c, rfl, fun _ => rfl⟩
      rw [agrees_break_iff ht' hinner (iff_of_true hends hword)]
      have hsmall : NotBothCapitals c '_' := fun h => by cases h.2
      simp [hsmall]

theorem keepsBreaks_cons (hc : c ≠ '_') :
    KeepsBreaks (c :: t) ↔ (∀ d ∈ t.head?, NotBothCapitals c d) ∧ BreaksFrom [c] t := by
  rw [← List.nil_append [c], ← breaksFrom_cons hc]
  constructor
  · refine fun h => ⟨fun d hd => ?_, h.breaks⟩
    obtain ⟨rest, rfl⟩ := List.head?_eq_some_iff.1 hd
    exact h.capitals c d rest rfl
  · rintro ⟨hfirst, hbreaks⟩
    refine ⟨fun a b rest heq => ?_, hbreaks⟩
    obtain ⟨rfl, rfl⟩ := List.cons.inj heq
    exact hfirst b rfl

/-! ### Whole names -/

/-- What camel case makes of a name's first character. -/
theorem underScore_camelCase_cons (hname : ∀ d ∈ c :: t, isBlank d = false) (hc : isBreak c = false) :
    underScore (camelCase (c :: t)) =
      c.toLower :: underScoreAfter (some c.toLower) (joinWords false t) := by
  rw [camelCase_of_no_blank hname, joinWords_cons hc, if_pos rfl, lowerFirst,
    Char.toLower_toUpper_eq_toLower, underScore_cons, Char.toLower_toLower_eq_toLower]

theorem underScore_camelCase_eq_iff (hname : ∀ c ∈ name, c.isAlphanum = true ∨ c = '_') :
    underScore (camelCase name) = underScore name ↔ KeepsBreaks name := by
  have hblank : ∀ c ∈ name, isBlank c = false := by
    intro c hc
    rcases hname c hc with h | rfl
    · exact isBlank_of_isAlphanum h
    · rfl
  cases name with
  | nil => exact iff_of_true rfl ⟨fun _ _ _ h => (List.cons_ne_nil _ _ h.symm).elim, breaksFrom_nil []⟩
  | cons c t =>
    rcases hname c List.mem_cons_self with hc | rfl
    · rw [underScore_camelCase_cons hblank (isBreak_of_isAlphanum hc), underScore_cons,
        List.cons_inj_right,
        keepsBreaks_cons (ne_underscore_of_isAlphanum hc),
        ← agrees_first_iff (fun x hx => hname x (List.mem_cons_of_mem _ hx)) hc, Agrees]
    · refine iff_of_false (fun h => ?_) fun h => ?_
      · -- a name in camel case has no underscore, and no mark stands in front
        cases hcamel : camelCase ('_' :: t) with
        | nil =>
          rw [hcamel] at h
          cases h
        | cons b s =>
          have hb : isBreak b = false := isBreak_of_mem_camelCase (hcamel ▸ List.mem_cons_self)
          have hne : b.toLower ≠ '_' := toLower_ne_underscore (by rintro rfl; cases hb)
          rw [hcamel, underScore_cons] at h
          exact hne (List.cons.inj h).1
      · obtain ⟨⟨w, c, heq, -⟩, -⟩ := h.breaks [] t rfl
        simp at heq

/-- **Which underscores come back.** A name of letters, digits and underscores that is put together in
camel case and taken apart again is, but for underscores, the name taken apart as it stands. The
underscores are the same exactly if the name begins neither with an underscore nor with two capitals, and
each of its underscores has in front of it a character that is a capital only where it is the first of
the name, and behind it a letter that is not a small one with a capital or another underscore directly
behind it. -/
theorem underscores_come_back_iff (hname : ∀ c ∈ name, c.isAlphanum = true ∨ c = '_') :
    without '_' (underScore (camelCase name)) = without '_' (underScore name) ∧
      (underScore (camelCase name) = underScore name ↔ KeepsBreaks name) := by
  refine ⟨without_underScore_camelCase fun c hc => ?_, underScore_camelCase_eq_iff hname⟩
  rcases hname c hc with h | rfl
  · exact isBlank_of_isAlphanum h
  · rfl

/-- A name whose underscores come back, a capital behind a digit among its words. -/
theorem underscores_come_back_iff_digits :
    (∀ c ∈ "B_line2Text_x1".toList, c.isAlphanum = true ∨ c = '_') ∧
      underScore (camelCase "B_line2Text_x1".toList) = "b_line2_text_x1".toList ∧
      KeepsBreaks "B_line2Text_x1".toList := by
  have hname : ∀ c ∈ "B_line2Text_x1".toList, c.isAlphanum = true ∨ c = '_' := by
    have hall : "B_line2Text_x1".toList.all (fun c => c.isAlphanum || c == '_') = true := by decide
    intro c hc
    simpa using List.all_eq_true.1 hall c hc
  have heq : underScore (camelCase "B_line2Text_x1".toList) = "b_line2_text_x1".toList := by decide
  have hsame : underScore "B_line2Text_x1".toList = "b_line2_text_x1".toList := by decide
  exact ⟨hname, heq, (underscores_come_back_iff hname).2.1 (heq.trans hsame.symm)⟩

/-- Underscores around a name are lost. -/
theorem exists_underscore_lost :
    ¬∀ name : Text, (∀ c ∈ name, c.isAlphanum = true ∨ c = '_') →
      name.head?.any Char.isDigit = false → underScore (camelCase name) = underScore name := by
  intro h
  have hall : "_created_at_".toList.all (fun c => c.isAlphanum || c == '_') = true := by decide
  have heq := h "_created_at_".toList
    (fun c hc => by simpa using List.all_eq_true.1 hall c hc) (by decide)
  have hne : underScore (camelCase "_created_at_".toList) ≠ underScore "_created_at_".toList := by
    decide
  exact hne heq

end EntityLint.Naming
