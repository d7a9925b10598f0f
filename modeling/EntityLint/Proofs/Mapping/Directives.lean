import EntityLint.Proofs.Mapping.Suppression

/-!
# Which codes a comment suppresses

A comment is searched for directives, and the search goes on behind the code of each directive that it
finds. No directive begins in what is passed over, since its first character is neither a blank nor part
of a code nor in the rest of a directive. So every directive of a comment is read.

* `NamesCode`, `Directs`: the code behind a directive, and the codes of all directives of a comment;
* `codesIn_cons`, `codesIn_append_of_not_mem`, `codesIn_directive`: the search, step by step;
* `directs_cons`, `directs_append_of_not_mem`, `directs_directive`: where directives begin;
* `mem_codesIn_iff`: the two agree.

The main statement is `contains_parse_iff`.
-/

namespace EntityLint.IgnoreSet

open Text

variable {c : Char} {code comment ruleCode t u x : Text}

/-! ### Codes -/

/-- A text begins with blanks and a code, which goes on as long as it can. -/
def NamesCode (t code : Text) : Prop :=
  ∃ blanks after, t = blanks ++ (code ++ after) ∧ (blanks ≠ [] ∧ ∀ c ∈ blanks, isBlank c = true) ∧
    (code ≠ [] ∧ ∀ c ∈ code, isCodeChar c = true) ∧ after.head?.any isCodeChar = false

theorem namesCode_iff : NamesCode t code ↔ (codeAfter t).1 = code ∧ code ≠ [] := by
  constructor
  · rintro ⟨blanks, after, rfl, ⟨hblanks, hblank⟩, ⟨hcode, hchars⟩, hafter⟩
    rw [codeAfter_append hblanks hblank hcode hchars hafter]
    exact ⟨rfl, hcode⟩
  · rintro ⟨rfl, hcode⟩
    unfold codeAfter at hcode ⊢
    split at hcode
    · next hhead =>
      rw [if_pos hhead]
      obtain ⟨b, hb, hblank⟩ := (Option.any_eq_true _ _).1 hhead
      refine ⟨t.takeWhile isBlank, (trimStart t).dropWhile isCodeChar, ?_, ⟨?_, fun c hc => ?_⟩,
        ⟨hcode, fun c hc => ?_⟩, head?_dropWhile isCodeChar _⟩
      · rw [List.takeWhile_append_dropWhile, trimStart, List.takeWhile_append_dropWhile]
      · obtain ⟨t, rfl⟩ := List.head?_eq_some_iff.1 hb
        rw [List.takeWhile_cons_of_pos hblank]
        exact List.cons_ne_nil _ _
      · exact List.mem_takeWhile_imp hc
      · exact List.mem_takeWhile_imp hc
    · exact absurd rfl hcode

/-- What the code of a directive stands for: the code of the rule in front of it is left out. -/
theorem localCode_eq_iff : localCode ruleCode code = x ↔
    code = ruleCode ++ '.' :: x ∨ code = x ∧ ¬ruleCode ++ ['.'] <+: code := by
  unfold localCode
  cases hstrip : stripLeading? (ruleCode ++ ['.']) code with
  | some rest =>
    obtain rfl := append_of_stripLeading? hstrip
    simp
  | none =>
    have hlead : ¬ruleCode ++ ['.'] <+: code := by
      rintro ⟨rest, hrest⟩
      rw [stripLeading?_eq_some_iff.2 hrest.symm] at hstrip
      cases hstrip
    have hne : code ≠ ruleCode ++ '.' :: x := by
      rintro rfl
      exact hlead ⟨x, by simp⟩
    simp [hlead, hne]

/-! ### The search -/

theorem directive_eq_cons : directive = '@' :: directive.tail := by decide

theorem at_not_mem_tail : '@' ∉ directive.tail := by decide

theorem codesIn_nil : codesIn ruleCode [] = [] := codesIn_eq_nil rfl

/-- Where no directive begins, the search goes on. -/
theorem codesIn_cons (h : stripLeading? directive (c :: t) = none) :
    codesIn ruleCode (c :: t) = codesIn ruleCode t := by
  have hcons : breakOn directive (c :: t) =
      (breakOn directive t).map fun parts => (c :: parts.1, parts.2) := by
    rw [breakOn, h]
  cases ht : breakOn directive t with
  | none =>
    rw [ht, Option.map_none] at hcons
    rw [codesIn_eq_nil hcons, codesIn_eq_nil ht]
  | some parts =>
    rw [ht, Option.map_some] at hcons
    rw [codesIn_of_breakOn hcons, codesIn_of_breakOn ht]

theorem stripLeading?_directive_cons (hc : c ≠ '@') : stripLeading? directive (c :: t) = none := by
  rw [directive_eq_cons]
  exact if_neg (Ne.symm hc)

/-- No directive begins where there is no `@`. -/
theorem codesIn_append_of_not_mem (hu : '@' ∉ u) : codesIn ruleCode (u ++ t) = codesIn ruleCode t := by
  induction u with
  | nil => rfl
  | cons c u ih =>
    obtain ⟨hc, hu⟩ := not_or.1 (mt List.mem_cons.2 hu)
    rw [List.cons_append, codesIn_cons (stripLeading?_directive_cons (Ne.symm hc)), ih hu]

/-- What is passed over for the code of a directive holds no `@`. -/
theorem exists_passed (t : Text) : ∃ u, t = u ++ (codeAfter t).2 ∧ '@' ∉ u := by
  have hnot : ∀ {p : Char → Bool} {v : Text}, p '@' = false → '@' ∉ v.takeWhile p := by
    intro p v hp hmem
    rw [List.mem_takeWhile_imp hmem] at hp
    cases hp
  unfold codeAfter
  split
  · refine ⟨t.takeWhile isBlank ++ (trimStart t).takeWhile isCodeChar, ?_, ?_⟩
    · rw [List.append_assoc, List.takeWhile_append_dropWhile, trimStart,
        List.takeWhile_append_dropWhile]
    · rw [List.mem_append, not_or]
      exact ⟨hnot (by decide), hnot (by decide)⟩
  · exact ⟨[], rfl, List.not_mem_nil⟩

/-- A directive is read, and then all that follows it. -/
theorem codesIn_directive (ruleCode t : Text) : codesIn ruleCode (directive ++ t) =
    if (codeAfter t).1.isEmpty then codesIn ruleCode t
    else localCode ruleCode (codeAfter t).1 :: codesIn ruleCode t := by
  have hbreak : breakOn directive (directive ++ t) = some ([], t) := by
    have hlead := stripLeading?_append directive t
    rw [directive_eq_cons, List.cons_append] at hlead ⊢
    rw [breakOn, hlead]
  obtain ⟨u, hpassed, hu⟩ := exists_passed t
  have hrest : codesIn ruleCode t = codesIn ruleCode (codeAfter t).2 := by
    conv_lhs => rw [hpassed, codesIn_append_of_not_mem hu]
  rw [codesIn_of_breakOn hbreak, hrest]

/-! ### Directives -/

/-- A directive of a comment names a code. -/
def Directs (comment code : Text) : Prop :=
  ∃ before t, comment = before ++ directive ++ t ∧ NamesCode t code

theorem not_directs_nil : ¬Directs [] code := by
  rintro ⟨before, t, h, -⟩
  rw [directive_eq_cons] at h
  simp at h

/-- A directive begins a text or is in the rest of it. -/
theorem directs_cons : Directs (c :: t) code ↔
    (∃ u, c :: t = directive ++ u ∧ NamesCode u code) ∨ Directs t code := by
  constructor
  · rintro ⟨before, u, h, hcode⟩
    cases before with
    | nil => exact .inl ⟨u, h, hcode⟩
    | cons d before => exact .inr ⟨before, u, (List.cons.inj h).2, hcode⟩
  · rintro (⟨u, h, hcode⟩ | ⟨before, u, rfl, hcode⟩)
    · exact ⟨[], u, h, hcode⟩
    · exact ⟨c :: before, u, rfl, hcode⟩

theorem directs_append_of_not_mem (hu : '@' ∉ u) : Directs (u ++ t) code ↔ Directs t code := by
  induction u with
  | nil => rfl
  | cons c u ih =>
    obtain ⟨hc, hu⟩ := not_or.1 (mt List.mem_cons.2 hu)
    rw [List.cons_append, directs_cons, ih hu]
    refine or_iff_right ?_
    rintro ⟨v, hv, -⟩
    rw [directive_eq_cons, List.cons_append] at hv
    exact hc (List.cons.inj hv).1.symm

/-- The directives of a text that begins with one: this one, and those of the rest. -/
theorem directs_directive : Directs (directive ++ t) code ↔ NamesCode t code ∨ Directs t code := by
  have hsplit : directive ++ t = '@' :: (directive.tail ++ t) := by
    rw [← List.cons_append, ← directive_eq_cons]
  have hhead : (∃ u, directive ++ t = directive ++ u ∧ NamesCode u code) ↔ NamesCode t code := by
    constructor
    · rintro ⟨u, h, hcode⟩
      rwa [List.append_cancel_left h]
    · exact fun h => ⟨t, rfl, h⟩
  rw [← hhead, ← directs_append_of_not_mem (t := t) at_not_mem_tail, hsplit]
  exact directs_cons

/-- The search finds the codes of all directives. -/
theorem mem_codesIn_iff : x ∈ codesIn ruleCode comment ↔
    ∃ code, Directs comment code ∧ localCode ruleCode code = x := by
  -- by induction on the length: behind a directive the search goes on with a shorter text
  induction hn : comment.length using Nat.strong_induction_on generalizing comment with
  | _ n ih =>
    subst hn
    cases comment with
    | nil =>
      rw [codesIn_nil]
      refine iff_of_false List.not_mem_nil ?_
      rintro ⟨code, hdirects, -⟩
      exact not_directs_nil hdirects
    | cons c t =>
      cases hlead : stripLeading? directive (c :: t) with
      | none =>
        have hnone : ∀ code, Directs (c :: t) code ↔ Directs t code := by
          intro code
          rw [directs_cons]
          refine or_iff_right ?_
          rintro ⟨u, hu, -⟩
          rw [stripLeading?_eq_some_iff.2 hu] at hlead
          cases hlead
        rw [codesIn_cons hlead, ih _ (Nat.lt_succ_self t.length) rfl]
        simp only [hnone]
      | some rest =>
        rw [stripLeading?_eq_some_iff.1 hlead] at ih ⊢
        have hlt : rest.length < (directive ++ rest).length := by
          rw [List.length_append]
          exact Nat.lt_add_of_pos_left (by decide)
        rw [codesIn_directive]
        simp only [directs_directive, or_and_right, exists_or, ← ih _ hlt rfl]
        by_cases hcode : (codeAfter rest).1 = []
        · rw [hcode, List.isEmpty_nil, if_pos rfl]
          refine (or_iff_right ?_).symm
          rintro ⟨code, hnames, -⟩
          obtain ⟨heq, hne⟩ := namesCode_iff.1 hnames
          exact hne (heq.symm.trans hcode)
        · rw [if_neg (mt List.isEmpty_iff.1 hcode), List.mem_cons]
          refine or_congr_left ?_
          constructor
          · rintro rfl
            exact ⟨_, namesCode_iff.2 ⟨rfl, hcode⟩, rfl⟩
          · rintro ⟨code, hnames, rfl⟩
            rw [(namesCode_iff.1 hnames).1]

/-- **A comment suppresses exactly the codes that its directives name.** Each place counts at which the
directive stands with blanks behind it. The code reaches as far as it can, and the code of the rule in
front of it is left out. So no directive is lost to what stands before it. -/
theorem contains_parse_iff (comment ruleCode : Text) :
    (∀ x, (parse comment ruleCode).contains x = true ↔
      ∃ before blanks code after, comment = before ++ directive ++ (blanks ++ (code ++ after)) ∧
        (blanks ≠ [] ∧ ∀ c ∈ blanks, isBlank c = true) ∧
        (code ≠ [] ∧ ∀ c ∈ code, isCodeChar c = true) ∧ after.head?.any isCodeChar = false ∧
        (code = ruleCode ++ '.' :: x ∨ code = x ∧ ¬ruleCode ++ ['.'] <+: code)) ∧
    ∀ before, (parse comment ruleCode).codes ⊆ (parse (before ++ comment) ruleCode).codes := by
  constructor
  · intro x
    rw [contains, List.contains_iff_mem, parse, mem_codesIn_iff]
    simp only [localCode_eq_iff, Directs, NamesCode]
    constructor
    · rintro ⟨code, ⟨before, _, rfl, blanks, after, rfl, hblanks, hcode, hafter⟩, hx⟩
      exact ⟨before, blanks, code, after, rfl, hblanks, hcode, hafter, hx⟩
    · rintro ⟨before, blanks, code, after, rfl, hblanks, hcode, hafter, hx⟩
      exact ⟨code, ⟨before, _, rfl, blanks, after, rfl, hblanks, hcode, hafter⟩, hx⟩
  · intro before x hx
    obtain ⟨code, ⟨between, t, rfl, hcode⟩, hlocal⟩ := mem_codesIn_iff.1 hx
    refine mem_codesIn_iff.2 ⟨code, ⟨before ++ between, t, ?_, hcode⟩, hlocal⟩
    simp only [List.append_assoc]

/-- Directives that stand close together: one that names nothing, one with no code behind its blanks, and
two that name codes. -/
def adjacentDirectives : Text :=
  "@codingStandardsIgnoreErrorA@codingStandardsIgnoreError\n".toList ++
    "@codingStandardsIgnoreError R.B@codingStandardsIgnoreError\tS.C,".toList

/-- The codes of the last two are suppressed, one of them without its rule. -/
theorem contains_parse_iff_adjacent :
    (parse adjacentDirectives "R".toList).codes = ["B".toList, "S.C".toList] ∧
    ∃ before blanks code after,
      adjacentDirectives = before ++ directive ++ (blanks ++ (code ++ after)) ∧
      (blanks ≠ [] ∧ ∀ c ∈ blanks, isBlank c = true) ∧
      (code ≠ [] ∧ ∀ c ∈ code, isCodeChar c = true) ∧ after.head?.any isCodeChar = false ∧
      (code = "R".toList ++ '.' :: "B".toList ∨
        code = "B".toList ∧ ¬"R".toList ++ ['.'] <+: code) := by
  have hcodes : (parse adjacentDirectives "R".toList).codes = ["B".toList, "S.C".toList] := by
    decide +kernel
  refine ⟨hcodes, ((contains_parse_iff adjacentDirectives "R".toList).1 "B".toList).1 ?_⟩
  rw [contains, hcodes]
  decide

end EntityLint.IgnoreSet
