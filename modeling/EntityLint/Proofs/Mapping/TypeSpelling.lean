import EntityLint.Proofs.Mapping.TypeUnion

/-!
# Types that are widened or spelled in another way

A declared type that satisfies an expected one still does so when it admits more, and a scalar type may
be spelled in its short or in its long form, in either union and at any place of it.

* `TypeName.Satisfies.mono`, `TypeName.pieces_withoutLead_append`: unions with more members;
* `TypeName.IsAlias`, `Satisfies.respell_expected`, `Satisfies.respell_actual`: members that are spelled
  in another way;
* `TypeName.HoldsMember`, `TypeName.exists_pieces_eq`: the place of a member in the text of a union.

The main statement is `TypeName.unions_may_be_widened_and_respelled`.
-/

namespace EntityLint.TypeName

open Text

variable {m n before after : Text} {E A A' P S : List Text}

/-! ### More members -/

/-- A declared union may have more members. -/
theorem Satisfies.mono (h : Satisfies E A) (hsub : A ⊆ A') : Satisfies E A' := by
  rcases h with ⟨hE, m, hm, hshape⟩ | ⟨m, hm, hlong⟩
  · exact .inl ⟨hE, m, hsub hm, hshape⟩
  · exact .inr ⟨m, hsub hm, hlong⟩

/-- The backslashes in front of a union are those in front of its first member. -/
theorem pieces_withoutLead_append (a b : Text) :
    pieces '|' (withoutLead (a ++ '|' :: b)) = pieces '|' (withoutLead a) ++ pieces '|' b := by
  rw [withoutLead, dropWhile_append_cons (by decide), pieces_append_sep]
  rfl

/-! ### Spellings of a member -/

/-- The scalar types that have two spellings, the short one first. -/
def aliases : List (Text × Text) :=
  [("int".toList, "integer".toList), ("bool".toList, "boolean".toList)]

/-- Two spellings of one scalar type. -/
def IsAlias (m n : Text) : Prop := (m, n) ∈ aliases ∨ (n, m) ∈ aliases

theorem IsAlias.symm (h : IsAlias m n) : IsAlias n m := Or.symm h

/-- What is true of both members of each pair is true of a type with two spellings. -/
theorem IsAlias.of_forall {p : Text → Prop} (h : IsAlias m n) (hp : ∀ x ∈ aliases, p x.1 ∧ p x.2) :
    p m := by
  rcases h with h | h
  · exact (hp _ h).1
  · exact (hp _ h).2

theorem IsAlias.longName_eq (h : IsAlias m n) : longName m = longName n := by
  have hall : ∀ x ∈ aliases, longName x.1 = longName x.2 := by decide
  rcases h with h | h
  · exact hall _ h
  · exact (hall _ h).symm

/-- No scalar type is one that an expected union is asked for by itself. -/
theorem IsAlias.ne_singleton (h : IsAlias m n) (P S : List Text) {u : Text}
    (hu : u = "array".toList ∨ u = "DateTime".toList) : P ++ m :: S ≠ [u] := by
  intro heq
  have hmem : m ∈ [u] := heq ▸ List.mem_append_right P List.mem_cons_self
  rw [List.mem_singleton] at hmem
  subst hmem
  have hne := h.of_forall (p := fun m => m ≠ "array".toList ∧ m ≠ "DateTime".toList) (by decide)
  exact hu.elim hne.1 hne.2

/-- An expected union is satisfied by the same types in another spelling. -/
theorem Satisfies.respell_expected (h : IsAlias m n) :
    Satisfies (P ++ m :: S) A ↔ Satisfies (P ++ n :: S) A := by
  have harray := h.ne_singleton P S (.inl rfl)
  have hdate := h.ne_singleton P S (.inr rfl)
  have harray' := h.symm.ne_singleton P S (.inl rfl)
  have hdate' := h.symm.ne_singleton P S (.inr rfl)
  simp only [Satisfies, widened, harray, hdate, harray', hdate', false_and, false_or, if_false,
    List.map_append, List.map_cons, h.longName_eq]

/-- A declared union satisfies the same types in another spelling. -/
theorem Satisfies.respell_actual (h : IsAlias m n) :
    Satisfies E (P ++ m :: S) ↔ Satisfies E (P ++ n :: S) := by
  -- a scalar type is no array of something
  have hshape : ∀ {m n : Text}, IsAlias m n → ¬['[', ']'] <:+ m := fun h =>
    h.of_forall (p := fun m => ¬['[', ']'] <:+ m) (by decide)
  simp only [Satisfies, List.mem_append, List.mem_cons, or_and_right, exists_or, exists_eq_left,
    hshape h, hshape h.symm, h.longName_eq]

/-! ### Members in a text -/

/-- Between two texts there is the place of a member of a union: it begins the union, maybe with
backslashes in front, or stands behind a separator, and it ends the union or stands in front of a
separator. -/
def HoldsMember (before after : Text) : Prop :=
  ((∀ c ∈ before, c = '\\') ∨ before.getLast? = some '|') ∧ (after = [] ∨ after.head? = some '|')

/-- The members of a union around the place of one of them. -/
theorem exists_pieces_eq (h : HoldsMember before after) : ∃ P S, ∀ m n, IsAlias m n →
    pieces '|' (withoutLead (before ++ (m ++ after))) = P ++ m :: S := by
  obtain ⟨S, hS⟩ : ∃ S, ∀ m, '|' ∉ m → pieces '|' (m ++ after) = m :: S := by
    cases after with
    | nil =>
      refine ⟨[], fun m hm => ?_⟩
      rw [List.append_nil, pieces_of_not_mem hm]
    | cons c after =>
      obtain rfl : c = '|' := by simpa using h.2
      exact ⟨pieces '|' after, fun m hm => pieces_append_cons hm after⟩
  have hbar : ∀ {m n : Text}, IsAlias m n → '|' ∉ m := fun h =>
    h.of_forall (p := fun m => '|' ∉ m) (by decide)
  rcases h.1 with hlead | hlast
  · refine ⟨[], S, fun m n hmn => ?_⟩
    have hdrop : withoutLead (before ++ (m ++ after)) = m ++ after := by
      refine dropWhile_append_of_head (fun c hc => by simp [hlead c hc]) ?_
      have hhead := hmn.of_forall (p := fun m => m ≠ [] ∧ m.head? ≠ some '\\') (by decide)
      cases m with
      | nil => exact absurd rfl hhead.1
      | cons c m => simpa using hhead.2
    rw [hdrop, hS m (hbar hmn)]
    rfl
  · obtain ⟨b, rfl⟩ := List.getLast?_eq_some_iff.1 hlast
    refine ⟨pieces '|' (withoutLead b), S, fun m n hmn => ?_⟩
    rw [List.append_assoc, List.singleton_append, pieces_withoutLead_append, hS m (hbar hmn)]

/-! ### The relation -/

theorem isSame_refl (t : Text) : isSame t t = true := by simp [isSame]

theorem isSame_append {expected actual : Text} (h : isSame expected actual = true) (more : Text) :
    isSame expected (actual ++ '|' :: more) = true := by
  rw [isSame_iff, pieces_withoutLead_append]
  exact (isSame_iff ..).1 h |>.mono (List.subset_append_left _ _)

theorem isSame_respell_expected (hplace : HoldsMember before after) (h : IsAlias m n) (t : Text) :
    isSame (before ++ (m ++ after)) t = isSame (before ++ (n ++ after)) t := by
  obtain ⟨P, S, hpieces⟩ := exists_pieces_eq hplace
  rw [Bool.eq_iff_iff, isSame_iff, isSame_iff, hpieces m n h, hpieces n m h.symm]
  exact Satisfies.respell_expected h

theorem isSame_respell_actual (hplace : HoldsMember before after) (h : IsAlias m n) (t : Text) :
    isSame t (before ++ (m ++ after)) = isSame t (before ++ (n ++ after)) := by
  obtain ⟨P, S, hpieces⟩ := exists_pieces_eq hplace
  rw [Bool.eq_iff_iff, isSame_iff, isSame_iff, hpieces m n h, hpieces n m h.symm]
  exact Satisfies.respell_actual h

/-- **A type satisfies itself, a declared union may be widened, and scalar types may be respelled.**
Every type satisfies itself. A type that satisfies another still does so with any union behind it. If a
member of a union is `int`, `integer`, `bool` or `boolean`, its other spelling in its place gives the
same answers, wherever the member stands and whether the union is expected or declared. -/
theorem unions_may_be_widened_and_respelled :
    (∀ a, isSame a a = true) ∧
    (∀ e a b, isSame e a = true → isSame e (a ++ '|' :: b) = true) ∧
    ∀ before m n after, HoldsMember before after → IsAlias m n → ∀ t,
      isSame (before ++ (m ++ after)) t = isSame (before ++ (n ++ after)) t ∧
        isSame t (before ++ (m ++ after)) = isSame t (before ++ (n ++ after)) :=
  ⟨isSame_refl, fun _ _ b h => isSame_append h b, fun _ _ _ _ hplace h t =>
    ⟨isSame_respell_expected hplace h t, isSame_respell_actual hplace h t⟩⟩

/-- An array of numbers that is widened, and a nullable scalar type behind the backslash of a union. -/
theorem unions_may_be_widened_and_respelled_scalar :
    isSame "array".toList "\\int[]".toList = true ∧
    isSame "array".toList ("\\int[]".toList ++ '|' :: "null".toList) = true ∧
    isSame ("\\".toList ++ ("boolean".toList ++ "|null".toList)) "bool".toList =
      isSame ("\\".toList ++ ("bool".toList ++ "|null".toList)) "bool".toList := by
  obtain ⟨-, hwiden, hrespell⟩ := unions_may_be_widened_and_respelled
  have harray : isSame "array".toList "\\int[]".toList = true := by decide
  have hplace : HoldsMember "\\".toList "|null".toList := ⟨.inl (by simp), .inr rfl⟩
  have halias : IsAlias "boolean".toList "bool".toList := .inr (by decide)
  exact ⟨harray, hwiden _ _ _ harray, (hrespell _ _ _ _ hplace halias _).1⟩

end EntityLint.TypeName
