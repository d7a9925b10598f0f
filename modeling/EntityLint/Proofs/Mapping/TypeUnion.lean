import EntityLint.Mapping.TypeName
import EntityLint.Proofs.Text.Runs

/-!
# Types as unions of members

Whether a declared type satisfies an expected one is a matter of the members of the two unions. The
backslash of a qualified name is taken off a union as a whole, so only its first member can have one
and still be found by it.

* `TypeName.hasArrayShape_iff`: a member that is an array of something;
* `TypeName.Satisfies`, `TypeName.isSame_iff`: the relation in terms of the members;
* `TypeName.LeadsFirst`, `TypeName.pieces_withoutLead`: unions in which no later member has a backslash
  at its front.

The main statement is `TypeName.isSame_of_perm`.
-/

namespace EntityLint.TypeName

open Text

variable {t u : Text} {E E' A A' : List Text}

/-! ### Arrays of something -/

theorem hasArrayShape_cons (c : Char) (t : Text) : hasArrayShape (c :: t) = true ↔
    (c = '[' ∧ (t = [']'] ∨ ∃ rest, t = ']' :: '|' :: rest)) ∨ hasArrayShape t = true := by
  rw [hasArrayShape, Bool.or_eq_true]
  refine or_congr_left ?_
  split
  · next h =>
    cases h
    exact iff_of_true rfl ⟨rfl, .inl rfl⟩
  · next rest h =>
    cases h
    exact iff_of_true rfl ⟨rfl, .inr ⟨rest, rfl⟩⟩
  · next hend hmore =>
    refine iff_of_false Bool.false_ne_true ?_
    rintro ⟨rfl, rfl | ⟨rest, rfl⟩⟩
    · exact hend rfl
    · exact hmore rest rfl

/-- A first member is an array of something, or what stands behind it has one. -/
theorem hasArrayShape_append (hu : '|' ∉ u) (ht : ∀ c ∈ t.head?, c = '|') :
    hasArrayShape (u ++ t) = true ↔ ['[', ']'] <:+ u ∨ hasArrayShape t = true := by
  induction u with
  | nil => simp
  | cons c u ih =>
    have hshape : (u ++ t = [']'] ∨ ∃ rest, u ++ t = ']' :: '|' :: rest) ↔ u = [']'] := by
      constructor
      · rcases u with - | ⟨d, - | ⟨e, u⟩⟩
        · rintro (rfl | ⟨rest, rfl⟩) <;> exact absurd (ht ']' rfl) (by decide)
        · rintro (h | ⟨rest, h⟩) <;> rw [(List.cons.inj h).1]
        · rintro (h | ⟨rest, h⟩)
          · cases h
          · cases h
            exact absurd (by simp) hu
      · rintro rfl
        cases t with
        | nil => exact .inl rfl
        | cons c t => exact .inr ⟨t, by rw [ht c rfl]; rfl⟩
    have hsuffix : ['[', ']'] <:+ c :: u ↔ (c = '[' ∧ u = [']']) ∨ ['[', ']'] <:+ u := by
      rw [List.suffix_cons_iff, eq_comm, List.cons.injEq]
    rw [List.cons_append, hasArrayShape_cons, hshape, ih fun h => hu (List.mem_cons_of_mem c h),
      hsuffix, or_assoc]

/-- Some member ends with `[]`. -/
theorem hasArrayShape_iff (t : Text) :
    hasArrayShape t = true ↔ ∃ m ∈ pieces '|' t, ['[', ']'] <:+ m := by
  induction hn : t.length using Nat.strong_induction_on generalizing t with
  | _ n ih =>
    subst hn
    rcases pieces_cases '|' t with ⟨hmem, hpieces⟩ | ⟨u, more, hu, rfl, hpieces⟩
    · have happend := hasArrayShape_append (t := []) hmem (by simp)
      rw [List.append_nil] at happend
      simp [happend, hpieces, hasArrayShape]
    · have hlt : more.length < (u ++ '|' :: more).length := by
        rw [List.length_append, List.length_cons]
        omega
      rw [hasArrayShape_append hu (by simp), hasArrayShape_cons, ih more.length hlt more rfl, hpieces]
      simp

/-! ### The relation between members -/

/-- The members that satisfy an expected union. -/
def widened (expected : List Text) : List Text :=
  if expected = ["DateTime".toList] then
    ["DateTime".toList, "DateTimeInterface".toList, "DateTimeImmutable".toList]
  else expected

/-- Whether the members of a declared union satisfy those of an expected one. -/
def Satisfies (expected actual : List Text) : Prop :=
  (expected = ["array".toList] ∧ ∃ m ∈ actual, ['[', ']'] <:+ m) ∨
    ∃ m ∈ actual, longName m ∈ (widened expected).map longName

theorem subset_widened (E : List Text) : E ⊆ widened E := by
  rw [widened]
  split
  · next h => simp [h]
  · exact List.Subset.refl E

/-- A text without a separator is the only one that has just itself as a member. -/
theorem pieces_eq_singleton_iff (hu : '|' ∉ u) : pieces '|' t = [u] ↔ t = u := by
  constructor
  · intro h
    rcases pieces_cases '|' t with ⟨-, hpieces⟩ | ⟨v, more, -, -, hpieces⟩
    · rw [hpieces] at h
      exact List.singleton_inj.1 h
    · rw [hpieces] at h
      exact absurd (List.cons.inj h).2 (List.splitOnP_ne_nil _ more)
  · rintro rfl
    exact pieces_of_not_mem hu

theorem accepted_eq (expected : Text) :
    accepted expected = (widened (pieces '|' expected)).map longName := by
  have hsingle := pieces_eq_singleton_iff (t := expected) (u := "DateTime".toList) (by decide)
  rw [accepted, widened]
  by_cases h : expected = "DateTime".toList
  · rw [if_pos h, if_pos (hsingle.2 h), members]
    have hpieces : pieces '|' "DateTime|DateTimeInterface|DateTimeImmutable".toList =
        ["DateTime".toList, "DateTimeInterface".toList, "DateTimeImmutable".toList] := by
      decide +kernel
    rw [hpieces]
  · rw [if_neg h, if_neg (mt hsingle.1 h), members]

/-- A type satisfies another as the members of the two do. -/
theorem isSame_iff (expected actual : Text) : isSame expected actual = true ↔
    Satisfies (pieces '|' (withoutLead expected)) (pieces '|' (withoutLead actual)) := by
  rw [isSame]
  generalize withoutLead expected = e, withoutLead actual = a
  have hsingle := pieces_eq_singleton_iff (t := e) (u := "array".toList) (by decide)
  simp only [members, List.any_map, Function.comp_apply, Bool.or_eq_true, Bool.and_eq_true, beq_iff_eq,
    List.any_eq_true, List.contains_iff_mem]
  rw [accepted_eq, hasArrayShape_iff, ← hsingle, or_assoc, ← Satisfies]
  refine or_iff_right_of_imp ?_
  rintro rfl
  -- equal unions share their first member
  obtain ⟨m, more, hm⟩ := List.exists_cons_of_ne_nil (List.splitOnP_ne_nil (· == '|') e)
  have hmem : m ∈ pieces '|' e := by rw [pieces, hm]; exact List.mem_cons_self
  exact .inr ⟨m, hmem, List.mem_map_of_mem (subset_widened _ hmem)⟩

/-- The relation does not ask for the order of members, nor how often one is repeated in a declared
union. -/
theorem Satisfies.congr (hE : E.Perm E') (hA : ∀ m, m ∈ A ↔ m ∈ A') :
    Satisfies E A ↔ Satisfies E' A' := by
  have hsingle (u : Text) : E = [u] ↔ E' = [u] := by
    rw [← List.perm_singleton, ← List.perm_singleton]
    exact ⟨hE.symm.trans, hE.trans⟩
  have hwidened (m : Text) : m ∈ (widened E).map longName ↔ m ∈ (widened E').map longName := by
    rw [widened, widened]
    simp only [hsingle]
    split
    · exact Iff.rfl
    · exact (hE.map longName).mem_iff
  simp only [Satisfies, hsingle, hwidened, hA]

/-! ### Backslashes -/

/-- Only the first member of a union may have a backslash at its front. -/
def LeadsFirst (t : Text) : Prop := ∀ m ∈ (pieces '|' t).tail, m.head? ≠ some '\\'

instance (t : Text) : Decidable (LeadsFirst t) := List.decidableBAll _ _

theorem withoutLead_of_head (h : t.head? ≠ some '\\') : withoutLead t = t := by
  cases t with
  | nil => rfl
  | cons c t =>
    refine List.dropWhile_cons_of_neg ?_
    rw [beq_iff_eq]
    rintro rfl
    exact h rfl

/-- In such a union the backslash of the text is that of its member. -/
theorem pieces_withoutLead (h : LeadsFirst t) :
    pieces '|' (withoutLead t) = (pieces '|' t).map withoutLead := by
  rcases pieces_cases '|' t with ⟨hmem, hpieces⟩ | ⟨u, more, hu, rfl, hpieces⟩
  · have hdrop : '|' ∉ withoutLead t := fun hc => hmem ((List.dropWhile_suffix _).subset hc)
    rw [hpieces, pieces_of_not_mem hdrop]
    rfl
  · have hlater : (pieces '|' more).map withoutLead = pieces '|' more := by
      refine (List.map_congr_left fun m hm => withoutLead_of_head (h m ?_)).trans (List.map_id _)
      rwa [hpieces]
    have hu' : '|' ∉ withoutLead u := fun hc => hu ((List.dropWhile_suffix _).subset hc)
    have hdrop : withoutLead (u ++ '|' :: more) = withoutLead u ++ '|' :: more :=
      dropWhile_append_cons (by decide) u more
    rw [hdrop, pieces_append_cons hu', hpieces, List.map_cons, hlater]

/-! ### The order of the members -/

/-- **The order of the members does not matter.** Take unions in which no member but the first has a
backslash at its front. If the members of two expected unions are the same up to their order, and those
of two declared unions make up the same set, both without regard to backslashes, then the second
declared union satisfies the second expected one exactly if the first does the first. -/
theorem isSame_of_perm {expected expected' actual actual' : Text}
    (hleads : ∀ t ∈ [expected, expected', actual, actual'], LeadsFirst t)
    (hexpected : ((pieces '|' expected).map withoutLead).Perm ((pieces '|' expected').map withoutLead))
    (hactual : ((pieces '|' actual).map withoutLead).toFinset =
      ((pieces '|' actual').map withoutLead).toFinset) :
    isSame expected actual = isSame expected' actual' := by
  simp only [List.forall_mem_cons] at hleads
  obtain ⟨he, he', ha, ha', -⟩ := hleads
  have hmem (m : Text) : m ∈ (pieces '|' actual).map withoutLead ↔
      m ∈ (pieces '|' actual').map withoutLead := by
    rw [← List.mem_toFinset, hactual, List.mem_toFinset]
  rw [Bool.eq_iff_iff, isSame_iff, isSame_iff, pieces_withoutLead he, pieces_withoutLead he',
    pieces_withoutLead ha, pieces_withoutLead ha']
  exact Satisfies.congr hexpected hmem

/-- A nullable class with its backslash in front, and without it behind. -/
theorem isSame_of_perm_nullable : isSame "\\App\\User|null".toList "\\App\\User|int".toList =
    isSame "null|App\\User".toList "int|App\\User|int".toList :=
  isSame_of_perm (by decide +kernel) (by decide +kernel) (by decide +kernel)

/-- Behind `null` the backslash stays on the name, and the two unions share no member. -/
example : isSame "null|\\App\\User".toList "App\\User".toList = false := by decide +kernel

end EntityLint.TypeName
