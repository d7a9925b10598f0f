import EntityLint.Mapping.Naming
import EntityLint.Proofs.Text.Trimmed
import Mathlib

/-!
# Names put together and taken apart

A name in camel case is put together from words, and taken apart again at its capitals. `joinWords`
puts it together in one pass that knows only whether a word begins; this is what an induction over
the characters can follow.

* `apply_toLower`, `apply_toUpper`: properties that no letter has;
* `joinWords`, `camelCase_eq`, `camelCase_of_no_blank`: names put together in one pass;
* `isTrimmed_camelCase`, `camelCase_camelCase`: names that are put together already;
* `forall_mem_underScore`, `underScoreAfter_of_no_capital`, `underScore_underScore`: names that are taken
  apart already;
* `joinWords_underScoreAfter`, `camelCase_underScore`: names taken apart and put together again.

The main statement is `conversions_undo_and_repeat`.
-/

namespace EntityLint.Naming

open Text

variable {t u v name : Text} {c : Char} {wordStart : Bool}

/-! ### Letters -/

/-- A property that no letter has does not see the case of a character. -/
theorem apply_toLower {p : Char → Bool} (hp : ∀ d : Char, d.isAlpha = true → p d = false) (c : Char) :
    p c.toLower = p c := by
  by_cases hc : c.isAlpha = true
  · rw [hp c hc, hp _ (by rwa [Char.isAlpha_toLower_eq_isAlpha])]
  · rw [Char.toLower_eq_of_not_isUpper fun hupper => hc (by rw [Char.isAlpha, hupper, Bool.true_or])]

theorem apply_toUpper {p : Char → Bool} (hp : ∀ d : Char, d.isAlpha = true → p d = false) (c : Char) :
    p c.toUpper = p c := by
  rw [← apply_toLower hp, Char.toLower_toUpper_eq_toLower, apply_toLower hp]

theorem isBlank_of_isAlpha (d : Char) (hd : d.isAlpha = true) : isBlank d = false :=
  isBlank_of_isAlphanum (by rw [Char.isAlphanum, hd, Bool.true_or])

/-! ### Words -/

/-- The characters between the words of a name. -/
def isBreak (c : Char) : Bool := c == '_' || c == ' '

theorem isBreak_of_isAlpha (d : Char) (hd : d.isAlpha = true) : isBreak d = false := by
  simp only [isBreak, Bool.or_eq_false_iff, beq_eq_false_iff_ne]
  constructor <;> rintro rfl <;> cases hd

/-- The words of a text put together, in one pass. Each begins with a capital; at the beginning of the
text `wordStart` says whether one begins there. -/
def joinWords (wordStart : Bool) : Text → Text
  | [] => []
  | c :: t =>
    if isBreak c then joinWords true t
    else (if wordStart then c.toUpper else c) :: joinWords false t

theorem joinWords_break (hc : isBreak c = true) (t : Text) :
    joinWords wordStart (c :: t) = joinWords true t := by
  rw [joinWords, if_pos hc]

theorem joinWords_cons (hc : isBreak c = false) (t : Text) :
    joinWords wordStart (c :: t) = (if wordStart then c.toUpper else c) :: joinWords false t := by
  rw [joinWords, hc]
  rfl

/-- A break parts a text into words before and after it. -/
theorem joinWords_append_break (hc : isBreak c = true) (wordStart : Bool) (u t : Text) :
    joinWords wordStart (u ++ c :: t) = joinWords wordStart u ++ joinWords true t := by
  induction u generalizing wordStart with
  | nil => exact joinWords_break hc t
  | cons b u ih =>
    rw [List.cons_append, joinWords, joinWords, ih, ih]
    split <;> rfl

theorem joinWords_eq_nil (ht : ∀ c ∈ t, isBreak c = true) : joinWords wordStart t = [] := by
  induction t generalizing wordStart with
  | nil => rfl
  | cons c t ih =>
    obtain ⟨hc, ht⟩ := List.forall_mem_cons.1 ht
    rw [joinWords_break hc, ih ht]

/-- Breaks around a text do not count. -/
theorem joinWords_append_breaks (hu : ∀ c ∈ u, isBreak c = true) (t : Text)
    (hv : ∀ c ∈ v, isBreak c = true) : joinWords true (u ++ (t ++ v)) = joinWords true t := by
  induction u with
  | nil =>
    cases v with
    | nil => rw [List.append_nil, List.nil_append]
    | cons c v =>
      obtain ⟨hc, hv⟩ := List.forall_mem_cons.1 hv
      rw [List.nil_append, joinWords_append_break hc, joinWords_eq_nil hv, List.append_nil]
  | cons c u ih =>
    obtain ⟨hc, hu⟩ := List.forall_mem_cons.1 hu
    rw [List.cons_append, joinWords_break hc, ih hu]

/-- A text that is no break at its end keeps it. -/
theorem exists_joinWords_concat (hc : isBreak c = false) (wordStart : Bool) (t : Text) :
    ∃ d, (d = c ∨ d = c.toUpper) ∧
      joinWords wordStart (t ++ [c]) = joinWords wordStart t ++ [d] := by
  induction t generalizing wordStart with
  | nil =>
    refine ⟨if wordStart then c.toUpper else c, ?_, joinWords_cons hc []⟩
    cases wordStart
    · exact .inl rfl
    · exact .inr rfl
  | cons b t ih =>
    by_cases hb : isBreak b = true
    · obtain ⟨d, hd, heq⟩ := ih true
      exact ⟨d, hd, by rw [List.cons_append, joinWords_break hb, joinWords_break hb, heq]⟩
    · obtain ⟨d, hd, heq⟩ := ih false
      rw [Bool.not_eq_true] at hb
      exact ⟨d, hd, by rw [List.cons_append, joinWords_cons hb, joinWords_cons hb, heq,
        List.cons_append]⟩

/-- No break is left between words that are put together. -/
theorem isBreak_of_mem_joinWords (h : c ∈ joinWords wordStart t) : isBreak c = false := by
  induction t generalizing wordStart with
  | nil => cases h
  | cons b t ih =>
    by_cases hb : isBreak b = true
    · rw [joinWords_break hb] at h
      exact ih h
    · rw [Bool.not_eq_true] at hb
      rw [joinWords_cons hb] at h
      rcases List.mem_cons.1 h with rfl | h
      · split
        · rwa [apply_toUpper isBreak_of_isAlpha]
        · exact hb
      · exact ih h

theorem joinWords_of_no_break (ht : ∀ c ∈ t, isBreak c = false) : joinWords true t = upperFirst t := by
  have hlater : ∀ t : Text, (∀ c ∈ t, isBreak c = false) → joinWords false t = t := by
    intro t ht
    induction t with
    | nil => rfl
    | cons c t ih =>
      obtain ⟨hc, ht⟩ := List.forall_mem_cons.1 ht
      rw [joinWords_cons hc, ih ht]
      rfl
  cases t with
  | nil => rfl
  | cons c t =>
    obtain ⟨hc, ht⟩ := List.forall_mem_cons.1 ht
    rw [joinWords_cons hc, hlater t ht]
    rfl

/-! ### Camel case -/

/-- A name with spaces for underscores. -/
def spaced (name : Text) : Text := name.map fun c => if c = '_' then ' ' else c

theorem mem_spaced (h : c ∈ spaced name) : c = ' ' ∨ c ∈ name ∧ c ≠ '_' := by
  obtain ⟨d, hd, rfl⟩ := List.mem_map.1 h
  split
  · exact .inl rfl
  · next hne => exact .inr ⟨hd, hne⟩

theorem spaced_of_not_mem (h : '_' ∉ name) : spaced name = name := by
  refine (List.map_congr_left fun c hc => ?_).trans (List.map_id name)
  rw [if_neg (ne_of_mem_of_not_mem hc h)]
  rfl

theorem joinWords_spaced (wordStart : Bool) (t : Text) :
    joinWords wordStart (spaced t) = joinWords wordStart t := by
  induction t generalizing wordStart with
  | nil => rfl
  | cons c t ih =>
    show joinWords wordStart ((if c = '_' then ' ' else c) :: spaced t) = _
    by_cases hc : c = '_'
    · rw [hc, if_pos rfl, joinWords_break rfl, joinWords_break rfl, ih]
    · rw [if_neg hc, joinWords, joinWords, ih, ih]

theorem flatMap_upperFirst_pieces (ht : '_' ∉ t) :
    (pieces ' ' t).flatMap upperFirst = joinWords true t := by
  have hone : ∀ u : Text, '_' ∉ u → ' ' ∉ u → joinWords true u = upperFirst u := by
    refine fun u hunderscore hspace => joinWords_of_no_break fun c hc => ?_
    simp only [isBreak, Bool.or_eq_false_iff, beq_eq_false_iff_ne]
    exact ⟨ne_of_mem_of_not_mem hc hunderscore, ne_of_mem_of_not_mem hc hspace⟩
  induction hn : t.length using Nat.strong_induction_on generalizing t with
  | _ n ih =>
    subst hn
    rcases pieces_cases ' ' t with ⟨hspace, hpieces⟩ | ⟨u, more, hspace, rfl, hpieces⟩
    · rw [hpieces, hone t ht hspace, List.flatMap_singleton]
    · have hu : '_' ∉ u := fun h => ht (List.mem_append_left _ h)
      have hmore : '_' ∉ more := fun h => ht (List.mem_append_right _ (List.mem_cons_of_mem _ h))
      have hlt : more.length < (u ++ ' ' :: more).length := by
        rw [List.length_append, List.length_cons]
        omega
      rw [hpieces, List.flatMap_cons, ih _ hlt hmore rfl, joinWords_append_break rfl,
        hone u hu hspace]

/-- A name in camel case is the text, without what is blank around it, put together. -/
theorem camelCase_eq (name : Text) :
    camelCase name = lowerFirst (joinWords true (trim (spaced name))) := by
  have hunderscore : '_' ∉ trim (spaced name) := by
    intro h
    rcases mem_spaced (mem_of_mem_trim h) with h | h
    · cases h
    · exact h.2 rfl
  rw [← flatMap_upperFirst_pieces hunderscore]
  rfl

/-- Where nothing is blank, trimming only takes away breaks. -/
theorem camelCase_of_no_blank (hname : ∀ c ∈ name, isBlank c = false) :
    camelCase name = lowerFirst (joinWords true name) := by
  have hbreak : ∀ c ∈ spaced name, isBlank c = true → isBreak c = true := by
    intro c hc hblank
    rcases mem_spaced hc with rfl | ⟨hmem, -⟩
    · rfl
    · rw [hname c hmem] at hblank
      cases hblank
  obtain ⟨u, v, huv, hu, hv⟩ := trim_spec (spaced name)
  have hjoin := joinWords_append_breaks (u := u) (v := v)
    (fun c hc => hbreak c (by rw [huv]; exact List.mem_append_left _ hc) (hu c hc))
    (trim (spaced name))
    (fun c hc => hbreak c (by
      rw [huv]
      exact List.mem_append_right _ (List.mem_append_right _ hc)) (hv c hc))
  rw [camelCase_eq, ← hjoin, ← huv, joinWords_spaced]

/-! ### Camel case twice -/

theorem lowerFirst_upperFirst_lowerFirst (t : Text) :
    lowerFirst (upperFirst (lowerFirst t)) = lowerFirst t := by
  cases t with
  | nil => rfl
  | cons c t => simp [lowerFirst, upperFirst]

theorem exists_lowerFirst_concat (t : Text) (c : Char) :
    ∃ d, (d = c ∨ d = c.toLower) ∧ lowerFirst (t ++ [c]) = lowerFirst t ++ [d] := by
  cases t with
  | nil => exact ⟨c.toLower, .inr rfl, rfl⟩
  | cons b t => exact ⟨c, .inl rfl, rfl⟩

theorem isBreak_of_mem_camelCase (h : c ∈ camelCase name) : isBreak c = false := by
  rw [camelCase_eq] at h
  cases hjoin : joinWords true (trim (spaced name)) with
  | nil => rw [hjoin] at h; cases h
  | cons b t =>
    have hmem : ∀ d ∈ b :: t, isBreak d = false := fun d hd => isBreak_of_mem_joinWords (hjoin ▸ hd)
    rw [hjoin] at h
    rcases List.mem_cons.1 h with rfl | h
    · rw [apply_toLower isBreak_of_isAlpha]
      exact hmem b List.mem_cons_self
    · exact hmem c (List.mem_cons_of_mem b h)

/-- A name in camel case neither begins nor ends with a blank. -/
theorem isTrimmed_camelCase (h : camelCase name ≠ []) : IsTrimmed (camelCase name) := by
  have hnil : trim (spaced name) ≠ [] := fun hnil => h (by rw [camelCase_eq, hnil]; rfl)
  have htrimmed := isTrimmed_trim hnil
  -- the ends of the trimmed text are no blanks, and underscores have become spaces
  have hbreak : ∀ c ∈ trim (spaced name), isBlank c = false → isBreak c = false := by
    intro c hc hblank
    rcases mem_spaced (mem_of_mem_trim hc) with rfl | ⟨-, hne⟩
    · cases hblank
    · simp only [isBreak, Bool.or_eq_false_iff, beq_eq_false_iff_ne]
      refine ⟨hne, ?_⟩
      rintro rfl
      cases hblank
  refine ⟨h, fun c hc => ?_, fun c hc => ?_⟩
  · obtain ⟨b, t, heq⟩ := List.exists_cons_of_ne_nil hnil
    have hb : isBlank b = false := htrimmed.head b (by rw [heq]; rfl)
    have hbreak := hbreak b (by rw [heq]; exact List.mem_cons_self) hb
    rw [camelCase_eq, heq, joinWords_cons hbreak] at hc
    obtain rfl : b.toUpper.toLower = c := Option.some.inj hc
    rw [apply_toLower isBlank_of_isAlpha, apply_toUpper isBlank_of_isAlpha, hb]
  · obtain ⟨t, e, heq⟩ := (List.eq_nil_or_concat _).resolve_left hnil
    rw [List.concat_eq_append] at heq
    have he : isBlank e = false := htrimmed.last e (by rw [heq]; simp)
    have hbreak := hbreak e (by rw [heq]; simp) he
    obtain ⟨d, hd, hjoin⟩ := exists_joinWords_concat hbreak true t
    obtain ⟨x, hx, hlower⟩ := exists_lowerFirst_concat (joinWords true t) d
    rw [camelCase_eq, heq, hjoin, hlower, List.getLast?_concat] at hc
    obtain rfl : x = c := Option.some.inj hc
    have hdblank : isBlank d = false := by
      rcases hd with rfl | rfl
      · exact he
      · rwa [apply_toUpper isBlank_of_isAlpha]
    rcases hx with rfl | rfl
    · exact hdblank
    · rwa [apply_toLower isBlank_of_isAlpha]

/-- A name in camel case stays as it is. -/
theorem camelCase_camelCase (name : Text) : camelCase (camelCase name) = camelCase name := by
  have hbreak : ∀ c ∈ camelCase name, isBreak c = false := fun c => isBreak_of_mem_camelCase
  have hspaced : spaced (camelCase name) = camelCase name :=
    spaced_of_not_mem fun h => by cases hbreak '_' h
  have htrim : trim (camelCase name) = camelCase name := by
    by_cases hnil : camelCase name = []
    · rw [hnil]
      rfl
    · have heq := (isTrimmed_camelCase hnil).trim_eq 0 0
      rwa [spaces_zero, List.append_nil, List.nil_append] at heq
  calc camelCase (camelCase name)
      = lowerFirst (joinWords true (camelCase name)) := by
        rw [camelCase_eq (camelCase name), hspaced, htrim]
    _ = lowerFirst (upperFirst (camelCase name)) := by rw [joinWords_of_no_break hbreak]
    _ = camelCase name := by rw [camelCase_eq name, lowerFirst_upperFirst_lowerFirst]

/-! ### Names with underscores -/

/-- Whether an underscore goes between two characters when a name is taken apart. -/
def needsMark (before : Option Char) (c : Char) : Bool :=
  c.isUpper && before.any fun b => b.isLower || b.isDigit

theorem underScoreAfter_cons (before : Option Char) (c : Char) (t : Text) :
    underScoreAfter before (c :: t) =
      (if needsMark before c then ['_'] else []) ++ c.toLower :: underScoreAfter (some c) t := rfl

/-- Nothing goes in front of a name. -/
theorem underScore_cons (c : Char) (t : Text) :
    underScore (c :: t) = c.toLower :: underScoreAfter (some c) t := by
  have hmark : needsMark none c = false := by rw [needsMark, Option.any_none, Bool.and_false]
  rw [underScore, underScoreAfter_cons, hmark]
  rfl

theorem underScoreAfter_of_no_capital (ht : ∀ c ∈ t, c.isUpper = false) (before : Option Char) :
    underScoreAfter before t = t := by
  induction t generalizing before with
  | nil => rfl
  | cons c t ih =>
    obtain ⟨hc, ht⟩ := List.forall_mem_cons.1 ht
    have hmark : needsMark before c = false := by rw [needsMark, hc, Bool.false_and]
    rw [underScoreAfter_cons, hmark, ih ht, Char.toLower_eq_of_not_isUpper (by rw [hc]; simp)]
    rfl

theorem isUpper_of_mem_underScoreAfter {before : Option Char} (h : c ∈ underScoreAfter before t) :
    c.isUpper = false := by
  induction t generalizing before with
  | nil => cases h
  | cons b t ih =>
    rw [underScoreAfter_cons] at h
    rcases List.mem_append.1 h with h | h
    · rw [List.mem_singleton.1 (List.mem_ite_nil_right.1 h).2]
      rfl
    · rcases List.mem_cons.1 h with rfl | h
      · exact Char.isUpper_toLower_eq_false b
      · exact ih h

/-- What holds of the characters of a name holds of them in small letters and with underscores, if it
allows both. -/
theorem forall_mem_underScore {p : Char → Prop} (hmark : p '_')
    (hlower : ∀ c, p c → p c.toLower) (hname : ∀ c ∈ name, p c) : ∀ c ∈ underScore name, p c := by
  have hafter : ∀ before, ∀ c ∈ underScoreAfter before name, p c := by
    induction name with
    | nil => exact fun _ _ hc => by cases hc
    | cons d name ih =>
      obtain ⟨hd, hname⟩ := List.forall_mem_cons.1 hname
      intro before c hc
      rw [underScoreAfter_cons] at hc
      rcases List.mem_append.1 hc with hc | hc
      · rw [List.mem_singleton.1 (List.mem_ite_nil_right.1 hc).2]
        exact hmark
      · rcases List.mem_cons.1 hc with rfl | hc
        · exact hlower d hd
        · exact ih hname _ c hc
  exact hafter none

/-- A name with underscores stays as it is. -/
theorem underScore_underScore (name : Text) : underScore (underScore name) = underScore name :=
  underScoreAfter_of_no_capital (fun _ => isUpper_of_mem_underScoreAfter) none

/-! ### There and back -/

/-- Whether two characters are not both capitals. -/
def NotBothCapitals (a b : Char) : Prop := ¬(a.isUpper = true ∧ b.isUpper = true)

instance (a b : Char) : Decidable (NotBothCapitals a b) :=
  inferInstanceAs (Decidable ¬(a.isUpper = true ∧ b.isUpper = true))

theorem isBreak_of_isAlphanum (h : c.isAlphanum = true) : isBreak c = false := by
  simp only [isBreak, Bool.or_eq_false_iff, beq_eq_false_iff_ne]
  constructor <;> rintro rfl <;> cases h

theorem isAlphanum_toLower (c : Char) : c.toLower.isAlphanum = c.isAlphanum := by
  by_cases hc : c.isUpper = true
  · simp [Char.isAlphanum, Char.isAlpha, hc]
  · rw [Char.toLower_eq_of_not_isUpper hc]

/-- Behind a letter or digit that is no capital, the underscores show where the capitals were. -/
theorem joinWords_underScoreAfter {b : Char} (hb : b.isAlphanum = true)
    (ht : ∀ c ∈ t, c.isAlphanum = true) (hcapitals : (b :: t).IsChain NotBothCapitals) :
    joinWords false (underScoreAfter (some b) t) = t := by
  induction t generalizing b with
  | nil => rfl
  | cons c t ih =>
    obtain ⟨hc, ht⟩ := List.forall_mem_cons.1 ht
    obtain ⟨hpair, hcapitals⟩ := List.isChain_cons_cons.1 hcapitals
    have hsmall : isBreak c.toLower = false := isBreak_of_isAlphanum (by rwa [isAlphanum_toLower])
    by_cases hupper : c.isUpper = true
    · have hmark : needsMark (some b) c = true := by
        have hlower : b.isUpper = false := by
          rw [← Bool.not_eq_true]
          exact fun h => hpair ⟨h, hupper⟩
        simpa [needsMark, hupper, Char.isAlphanum, Char.isAlpha, hlower] using hb
      have hback : c.toLower.toUpper = c := by
        rw [Char.toUpper_toLower_eq_toUpper,
          Char.toUpper_eq_of_not_isLower (Char.not_isLower_of_isUpper hupper)]
      rw [underScoreAfter_cons, hmark, if_pos rfl, List.singleton_append, joinWords_break rfl,
        joinWords_cons hsmall, if_pos rfl, hback, ih hc ht hcapitals]
    · have hmark : needsMark (some b) c = false := by
        rw [needsMark, Bool.eq_false_iff.2 hupper, Bool.false_and]
      have hsame := Char.toLower_eq_of_not_isUpper hupper
      rw [hsame] at hsmall
      rw [underScoreAfter_cons, hmark, hsame, if_neg Bool.false_ne_true, List.nil_append,
        joinWords_cons hsmall, ih hc ht hcapitals]
      rfl

theorem isBlank_of_mem_underScore (hname : ∀ c ∈ name, c.isAlphanum = true) :
    ∀ c ∈ underScore name, isBlank c = false := by
  refine forall_mem_underScore (p := fun c => isBlank c = false) rfl (fun c hc => ?_) fun c hc =>
    isBlank_of_isAlphanum (hname c hc)
  rwa [apply_toLower isBlank_of_isAlpha]

/-- A name that begins small and has no two capitals in a row is put together again from its words. -/
theorem camelCase_underScore (hname : ∀ c ∈ name, c.isAlphanum = true)
    (hfirst : name.head?.any Char.isLower = true) (hcapitals : name.IsChain NotBothCapitals) :
    camelCase (underScore name) = name := by
  rw [camelCase_of_no_blank (isBlank_of_mem_underScore hname)]
  cases name with
  | nil => cases hfirst
  | cons c t =>
    obtain ⟨hc, ht⟩ := List.forall_mem_cons.1 hname
    have hlower : c.isLower = true := hfirst
    have hsmall : c.toLower = c :=
      Char.toLower_eq_of_not_isUpper (Char.not_isUpper_of_isLower hlower)
    rw [underScore_cons, hsmall, joinWords_cons (isBreak_of_isAlphanum hc), if_pos rfl,
      joinWords_underScoreAfter hc ht hcapitals, lowerFirst, Char.toLower_toUpper_eq_toLower, hsmall]

/-- **Conversions undo each other, and repeat without effect.** A name of letters and digits that begins
with a small letter and has no two capitals in a row is the same after it has been taken apart at its
capitals and put together again. To take any text apart twice, or to put it together twice, is to do so
once. -/
theorem conversions_undo_and_repeat :
    (∀ name : Text, (∀ c ∈ name, c.isAlphanum = true) → name.head?.any Char.isLower = true →
      name.IsChain NotBothCapitals → camelCase (underScore name) = name) ∧
    (∀ t : Text, underScore (underScore t) = underScore t) ∧
    ∀ t : Text, camelCase (camelCase t) = camelCase t :=
  ⟨fun _ => camelCase_underScore, underScore_underScore, camelCase_camelCase⟩

/-- A name with digits in front of a capital and behind one. -/
theorem conversions_undo_and_repeat_digits :
    (∀ c ∈ "line2Text3d".toList, c.isAlphanum = true) ∧
      "line2Text3d".toList.head?.any Char.isLower = true ∧
      "line2Text3d".toList.IsChain NotBothCapitals ∧
      camelCase (underScore "line2Text3d".toList) = "line2Text3d".toList := by
  have hname : ∀ c ∈ "line2Text3d".toList, c.isAlphanum = true := List.all_eq_true.1 (by decide)
  have hfirst : "line2Text3d".toList.head?.any Char.isLower = true := by decide
  have hcapitals : "line2Text3d".toList.IsChain NotBothCapitals := by decide
  exact ⟨hname, hfirst, hcapitals,
    conversions_undo_and_repeat.1 "line2Text3d".toList hname hfirst hcapitals⟩

end EntityLint.Naming
