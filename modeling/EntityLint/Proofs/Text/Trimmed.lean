import EntityLint.Proofs.Text.Runs
import Mathlib

/-!
# Spaces around a text, and the first occurrence of a character

* `isBlank_of_isAlphanum`: letters and digits are not blank;
* `spaces`, `IsTrimmed`: spaces, and texts that neither begin nor end with a blank;
* `IsTrimmed.trim_eq`: trimming takes away the spaces around such a text;
* `trim_spec`, `isTrimmed_trim`: what trimming takes away from any text, and what it leaves;
* `breakOn_singleton`, `breakOn_singleton_cases`: a text up to the first of a character;
* `exists_run`, `dropEndWhile_spec`: the runs of characters at either end of a text.
-/

namespace EntityLint.Text

/-! ### Blanks -/

theorem isBlank_of_isAlphanum {c : Char} (h : c.isAlphanum = true) : isBlank c = false := by
  have hrange : 48 ≤ c.toNat ∧ c.toNat ≤ 122 := by
    show 48 ≤ c.val.toNat ∧ c.val.toNat ≤ 122
    simp only [Char.isAlphanum, Char.isAlpha, Char.isUpper, Char.isLower, Char.isDigit,
      Bool.or_eq_true, Bool.and_eq_true, decide_eq_true_eq, ge_iff_le, UInt32.le_iff_toNat_le] at h
    rcases h with (⟨hl, hr⟩ | ⟨hl, hr⟩) | ⟨hl, hr⟩
    all_goals exact ⟨le_trans (by decide) hl, le_trans hr (by decide)⟩
  simp only [isBlank, Bool.or_eq_false_iff, Bool.and_eq_false_iff, decide_eq_false_iff_not,
    beq_eq_false_iff_ne]
  omega

/-! ### Spaces -/

/-- A text of spaces. -/
def spaces (n : Nat) : Text := List.replicate n ' '

@[simp] theorem spaces_zero : spaces 0 = [] := rfl

theorem spaces_succ (n : Nat) : spaces (n + 1) = ' ' :: spaces n := rfl

@[simp] theorem mem_spaces {c : Char} {n : Nat} : c ∈ spaces n ↔ n ≠ 0 ∧ c = ' ' := by
  simp [spaces]

theorem isBlank_of_mem_spaces {n : Nat} {c : Char} (hc : c ∈ spaces n) : isBlank c = true := by
  obtain ⟨-, rfl⟩ := mem_spaces.1 hc
  decide

theorem head?_spaces_append {t : Text} (ht : t.head? ≠ some ' ') (n : Nat) :
    ((spaces n ++ t).head? == some ' ') = decide (n ≠ 0) := by
  cases n with
  | zero => simpa using ht
  | succ n => simp [spaces_succ]

theorem dropWhile_spaces_append {t : Text} (ht : t.head? ≠ some ' ') (n : Nat) :
    (spaces n ++ t).dropWhile (· == ' ') = t := by
  refine dropWhile_append_of_head (fun c hc => by simp [(mem_spaces.1 hc).2]) ?_
  cases hc : t.head? with
  | none => rfl
  | some c => simpa [hc] using ht

/-- The text has characters, and neither the first nor the last of them is blank. -/
structure IsTrimmed (t : Text) : Prop where
  ne_nil : t ≠ []
  head : ∀ c ∈ t.head?, isBlank c = false
  last : ∀ c ∈ t.getLast?, isBlank c = false

variable {t u v : Text}

namespace IsTrimmed

theorem append (hu : IsTrimmed u) (hv : IsTrimmed v) (w : Text) : IsTrimmed (u ++ (w ++ v)) where
  ne_nil := by simp [hu.ne_nil]
  head := by
    intro c hc
    rw [List.head?_append_of_ne_nil _ hu.ne_nil] at hc
    exact hu.head c hc
  last := by
    intro c hc
    rw [← List.append_assoc, List.getLast?_append_of_ne_nil _ hv.ne_nil] at hc
    exact hv.last c hc

theorem of_forall (hne : t ≠ []) (ht : ∀ c ∈ t, isBlank c = false) : IsTrimmed t where
  ne_nil := hne
  head := fun c hc => ht c (List.mem_of_mem_head? hc)
  last := fun c hc => ht c (List.mem_of_mem_getLast? hc)

theorem head?_append_ne (ht : IsTrimmed t) (s : Text) : (t ++ s).head? ≠ some ' ' := by
  intro h
  rw [List.head?_append_of_ne_nil _ ht.ne_nil] at h
  exact absurd (ht.head ' ' h) (by decide)

theorem trimStart_eq (ht : IsTrimmed t) (n : Nat) (s : Text) :
    trimStart (spaces n ++ (t ++ s)) = t ++ s := by
  have hhead : (t ++ s).head?.any isBlank = false := by
    rw [List.head?_append_of_ne_nil _ ht.ne_nil]
    cases hc : t.head? with
    | none => rfl
    | some c => exact ht.head c hc
  exact dropWhile_append_of_head (fun c => isBlank_of_mem_spaces) hhead

theorem trimEnd_eq (ht : IsTrimmed t) (n : Nat) : trimEnd (t ++ spaces n) = t := by
  have hhead : t.reverse.head?.any isBlank = false := by
    rw [List.head?_reverse]
    cases hc : t.getLast? with
    | none => rfl
    | some c => exact ht.last c hc
  have hspaces : ∀ c ∈ (spaces n).reverse, isBlank c = true := fun c hc =>
    isBlank_of_mem_spaces (List.mem_reverse.1 hc)
  rw [trimEnd, dropEndWhile, List.reverse_append, dropWhile_append_of_head hspaces hhead,
    List.reverse_reverse]

/-- The spaces around a text are what trimming takes away. -/
theorem trim_eq (ht : IsTrimmed t) (m n : Nat) : trim (spaces m ++ (t ++ spaces n)) = t := by
  rw [trim, ht.trimStart_eq, ht.trimEnd_eq]

/-- Trimming does not reach into such a text from either side. -/
theorem trim_append (ht : IsTrimmed t) (u v : Text) :
    trim (u ++ (t ++ v)) = trimStart u ++ (t ++ trimEnd v) := by
  obtain ⟨c, s, hcs⟩ := List.exists_cons_of_ne_nil ht.ne_nil
  have hstart : trimStart (u ++ (t ++ v)) = trimStart u ++ (t ++ v) := by
    rw [hcs]
    exact dropWhile_append_cons (ht.head c (hcs ▸ rfl)) u (s ++ v)
  obtain ⟨m, e, hme⟩ := List.eq_nil_or_concat t |>.resolve_left ht.ne_nil
  have he : isBlank e = false := ht.last e (by rw [hme]; simp)
  rw [trim, hstart, trimEnd, dropEndWhile, trimEnd, dropEndWhile, hme]
  have hreverse : (trimStart u ++ (m.concat e ++ v)).reverse =
      v.reverse ++ e :: (m.reverse ++ (trimStart u).reverse) := by simp
  rw [hreverse, dropWhile_append_cons he]
  simp

/-- The blanks around a text are what trimming takes away. -/
theorem trim_blanks (ht : IsTrimmed t) (hu : ∀ c ∈ u, isBlank c = true)
    (hv : ∀ c ∈ v, isBlank c = true) : trim (u ++ (t ++ v)) = t := by
  have hstart : trimStart u = [] := List.dropWhile_eq_nil_iff.2 hu
  have hend : trimEnd v = [] := by
    rw [trimEnd, dropEndWhile, List.dropWhile_eq_nil_iff.2 fun c hc => hv c (List.mem_reverse.1 hc)]
    rfl
  rw [ht.trim_append, hstart, hend, List.nil_append, List.append_nil]

theorem all_isBlank_append (ht : IsTrimmed t) (u s : Text) : (u ++ (t ++ s)).all isBlank = false := by
  obtain ⟨c, t, rfl⟩ := List.exists_cons_of_ne_nil ht.ne_nil
  have hc : isBlank c = false := ht.head c rfl
  simp [hc]

end IsTrimmed

theorem mem_of_mem_trim {c : Char} (h : c ∈ trim t) : c ∈ t := by
  have hstart : c ∈ trimStart t :=
    List.mem_reverse.1 ((List.dropWhile_sublist _).subset (List.mem_reverse.1 h))
  exact (List.dropWhile_sublist _).subset hstart

/-! ### The first occurrence of a character -/

/-- The first occurrence of a character that the text before it does not have. -/
theorem breakOn_singleton {c : Char} (ht : c ∉ t) (s : Text) :
    breakOn [c] (t ++ c :: s) = some (t, s) := by
  induction t with
  | nil => simp [breakOn, stripLeading?]
  | cons a t ih =>
    obtain ⟨hne, hmem⟩ := not_or.1 (mt List.mem_cons.2 ht)
    rw [List.cons_append, breakOn, stripLeading?, if_neg hne, ih hmem]
    rfl

theorem breakOn_singleton_cases (c : Char) (t : Text) :
    (c ∉ t ∧ breakOn [c] t = none) ∨
      ∃ before after, c ∉ before ∧ t = before ++ c :: after ∧ breakOn [c] t = some (before, after) := by
  by_cases hmem : c ∈ t
  · obtain ⟨before, after, rfl, hbefore⟩ := List.eq_append_cons_of_mem hmem
    exact .inr ⟨before, after, hbefore, rfl, breakOn_singleton hbefore after⟩
  · refine .inl ⟨hmem, ?_⟩
    cases hbreak : breakOn [c] t with
    | none => rfl
    | some parts =>
      refine absurd ?_ hmem
      rw [← append_of_breakOn hbreak]
      simp

/-! ### Runs at either end -/

/-- The run of characters at the beginning of a text. -/
theorem exists_run (p : Char → Bool) (t : Text) :
    ∃ u rest, t = u ++ rest ∧ (∀ c ∈ u, p c = true) ∧ rest.head?.any p = false :=
  ⟨t.takeWhile p, t.dropWhile p, List.takeWhile_append_dropWhile.symm,
    fun _ hc => List.mem_takeWhile_imp hc, head?_dropWhile p t⟩

theorem dropEndWhile_spec (p : Char → Bool) (t : Text) : ∃ u v, t = u ++ v ∧ dropEndWhile p t = u ∧
    (∀ c ∈ v, p c = true) ∧ u.getLast?.any p = false := by
  refine ⟨dropEndWhile p t, (t.reverse.takeWhile p).reverse, ?_, rfl, fun c hc => ?_, ?_⟩
  · rw [dropEndWhile, ← List.reverse_append, List.takeWhile_append_dropWhile, List.reverse_reverse]
  · exact List.mem_takeWhile_imp (List.mem_reverse.1 hc)
  · rw [dropEndWhile, List.getLast?_reverse]
    exact head?_dropWhile p _

theorem dropEndWhile_append {p : Char → Bool} {u v : Text} (hu : u.getLast?.any p = false)
    (hv : ∀ c ∈ v, p c = true) : dropEndWhile p (u ++ v) = u := by
  rw [dropEndWhile, List.reverse_append, dropWhile_append_of_head (by simpa using hv)
    (by rwa [List.head?_reverse]), List.reverse_reverse]

/-! ### Any text, trimmed -/

theorem trim_spec (t : Text) : ∃ u v, t = u ++ (trim t ++ v) ∧ (∀ c ∈ u, isBlank c = true) ∧
    ∀ c ∈ v, isBlank c = true := by
  obtain ⟨u, r, rfl, hu, hr⟩ := exists_run isBlank t
  obtain ⟨w, v, rfl, htrim, hv, -⟩ := dropEndWhile_spec isBlank r
  refine ⟨u, v, ?_, hu, hv⟩
  rw [trim, trimStart, dropWhile_append_of_head hu hr, trimEnd, htrim]

/-- What is left of a text has no blanks at its ends. -/
theorem isTrimmed_trim (h : trim t ≠ []) : IsTrimmed (trim t) := by
  obtain ⟨u, r, rfl, hu, hr⟩ := exists_run isBlank t
  obtain ⟨w, v, rfl, htrim, -, hw⟩ := dropEndWhile_spec isBlank r
  have heq : trim (u ++ (w ++ v)) = w := by
    rw [trim, trimStart, dropWhile_append_of_head hu hr, trimEnd, htrim]
  rw [heq] at h ⊢
  refine ⟨h, fun c hc => ?_, fun c hc => ?_⟩
  · rw [List.head?_append_of_ne_nil _ h, Option.mem_def.1 hc] at hr
    exact hr
  · rw [Option.mem_def.1 hc] at hw
    exact hw

end EntityLint.Text
