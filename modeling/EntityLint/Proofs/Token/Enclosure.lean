import EntityLint.Proofs.Token.Owner

/-!
# The openers around an index

Openers around an index wait on a stack for their closers. Scopes and round brackets are followed in
the same way, so both passes are read as one.

* `Family.aroundFrom`, `openersFrom_eq`, `depthsFrom_eq`: the two passes as one;
* `Unclosed.mem_iff`: the stack holds the openers whose closers are still to come;
* `exists_around`: an index is given the openers of the pairs around it;
* `mem_conditionsOf`, `sorted_conditionsOf`: the owners of the openers around an index.
-/

namespace EntityLint

open Pairing

/-- In a list that gives each key one value, a look-up finds every entry. -/
theorem lookup_eq_some_iff_mem {α β : Type} [BEq α] [LawfulBEq α] {l : List (α × β)}
    (hunique : ∀ b v w, (b, v) ∈ l → (b, w) ∈ l → v = w) {b : α} {w : β} :
    l.lookup b = some w ↔ (b, w) ∈ l := by
  constructor
  · intro h
    obtain ⟨before, after, rfl, -⟩ := List.lookup_eq_some_iff.1 h
    simp
  · intro h
    obtain ⟨v, hv⟩ := Option.isSome_iff_exists.1
      (List.lookup_isSome_iff.2 ⟨(b, w), h, beq_self_eq_true b⟩ : (l.lookup b).isSome)
    obtain ⟨before, after, hl, -⟩ := List.lookup_eq_some_iff.1 hv
    rw [hv, hunique b v w (by simp [hl]) h]

namespace Pairing

variable {family : Family} {kinds : List Kind} {i : ℕ} {stack : List ℕ}

/-- For each kind the openers of a family around it, the innermost first. -/
def Family.aroundFrom (family : Family) (stack : List ℕ) (i : ℕ) : List Kind → List (List ℕ)
  | [] => []
  | k :: kinds =>
    if family.opens k then stack :: family.aroundFrom (i :: stack) (i + 1) kinds
    else if family.closes k then stack.tail :: family.aroundFrom stack.tail (i + 1) kinds
    else stack :: family.aroundFrom stack (i + 1) kinds

theorem openersFrom_eq (i : ℕ) (stack : List ℕ) (kinds : List Kind) :
    openersFrom i stack kinds = Family.curly.aroundFrom stack i kinds := by
  induction kinds generalizing i stack with
  | nil => rfl
  | cons k kinds ih =>
    unfold openersFrom
    split
    · next heq => cases heq
    · next heq => cases heq; exact congrArg _ (ih _ _)
    · next heq => cases heq; exact congrArg _ (ih _ _)
    · next h₁ h₂ heq =>
      cases heq
      rw [Family.aroundFrom, if_neg fun h => h₁ (curly_opens_iff.1 h),
        if_neg fun h => h₂ (curly_closes_iff.1 h), ih]

theorem depthsFrom_eq (i : ℕ) (stack : List ℕ) (kinds : List Kind) :
    depthsFrom stack.length kinds = (Family.round.aroundFrom stack i kinds).map List.length := by
  induction kinds generalizing i stack with
  | nil => rfl
  | cons k kinds ih =>
    unfold depthsFrom
    split
    · next heq => cases heq
    · next heq => cases heq; exact congrArg _ (ih (i + 1) (i :: stack))
    · next heq =>
      cases heq
      rw [← List.length_tail]
      exact congrArg _ (ih (i + 1) stack.tail)
    · next h₁ h₂ heq =>
      cases heq
      rw [Family.aroundFrom, if_neg fun h => h₁ (round_opens_iff.1 h),
        if_neg fun h => h₂ (round_closes_iff.1 h), ih (i + 1) stack]
      rfl

namespace Unclosed

/-- Inner openers stand further on. -/
theorem sorted (h : Unclosed family kinds i stack) : (i :: stack).Pairwise (· > ·) := by
  induction h with
  | nil => exact List.pairwise_singleton _ _
  | cons hstack _ hlt _ ih =>
    refine List.pairwise_cons.2 ⟨fun o ho => ?_, ih⟩
    rcases List.mem_cons.1 ho with rfl | ho
    · exact hlt
    · exact lt_trans (List.rel_of_pairwise_cons ih ho) hlt

theorem level_of_mem {o : ℕ} (h : Unclosed family kinds i stack) (ho : o ∈ stack) :
    family.OpensAt kinds o ∧ o < i ∧
      ∀ j, o < j → j ≤ i → family.height kinds (o + 1) ≤ family.height kinds j := by
  induction h with
  | nil => cases ho
  | @cons o' i stack _ hopens hlt hlevel ih =>
    rcases List.mem_cons.1 ho with rfl | ho
    · exact ⟨hopens, hlt, fun j hoj hji => hlevel.2 j hoj hji⟩
    · obtain ⟨hopens', hlt', hlevel'⟩ := ih ho
      -- after a further opener the height is above that of the one before
      refine ⟨hopens', by omega, fun j hoj hji => ?_⟩
      rcases le_or_gt j o' with hjo | hjo
      · exact hlevel' j hoj hjo
      · have h₁ := hlevel' o' hlt' le_rfl
        have h₂ := height_succ_of_opensAt hopens
        have h₃ := hlevel.2 j hjo hji
        omega

/-- The openers on the stack are those whose closers are still to come. -/
theorem mem_iff {o : ℕ} (h : Unclosed family kinds i stack) (hbalanced : family.Balanced kinds) :
    o ∈ stack ↔ ∃ c, family.Matches kinds ⟨o, c⟩ ∧ o < i ∧ i ≤ c := by
  constructor
  · intro ho
    obtain ⟨hopens, hlt, hlevel⟩ := h.level_of_mem ho
    obtain ⟨c, hmatches⟩ := hbalanced.exists_closer hopens
    refine ⟨c, hmatches, hlt, ?_⟩
    by_contra hci
    have h₁ := hlevel (c + 1) (by have : o < c := hmatches.lt; omega) (by omega)
    have h₂ := height_succ_of_closesAt hmatches.closes
    have h₃ := hmatches.level.1
    dsimp only at h₂ h₃
    omega
  · rintro ⟨c, hmatches, hlt, hic⟩
    have hinside := hmatches.level.2
    have hopen := height_succ_of_opensAt hmatches.opens
    dsimp only at hinside hopen
    induction h with
    | @nil i hlevel =>
      have h₁ := hinside i hlt hic
      have h₂ := hlevel.1
      have h₃ := hlevel.2 o (Nat.zero_le o) hlt.le
      omega
    | @cons o' i stack _ hopens hlt' hlevel ih =>
      rcases lt_trichotomy o o' with ho | rfl | ho
      · exact List.mem_cons_of_mem _ (ih ho (by omega))
      · exact List.mem_cons_self
      · have h₁ := hlevel.2 o ho hlt.le
        have h₂ := hinside i hlt hic
        have h₃ := hlevel.1
        omega

/-- At an index that is no closer, the openers on the stack are those of the pairs around it. -/
theorem mem_iff_of_not_closes {o : ℕ} (h : Unclosed family kinds i stack)
    (hbalanced : family.Balanced kinds) (hcloses : ¬family.ClosesAt kinds i) :
    o ∈ stack ↔ ∃ c, family.Matches kinds ⟨o, c⟩ ∧ o < i ∧ i < c := by
  rw [h.mem_iff hbalanced]
  refine exists_congr fun c => and_congr_right fun hmatches => and_congr_right fun _ => ?_
  refine ⟨fun hic => lt_of_le_of_ne hic ?_, le_of_lt⟩
  rintro rfl
  exact hcloses hmatches.closes

/-- At a closer, the openers below the top of the stack are those of the pairs around it. -/
theorem mem_iff_of_closes {o top : ℕ} (h : Unclosed family kinds i (top :: stack))
    (hbalanced : family.Balanced kinds) (hcloses : family.ClosesAt kinds i) :
    o ∈ stack ↔ ∃ c, family.Matches kinds ⟨o, c⟩ ∧ o < i ∧ i < c := by
  have htop := h.matches_top hcloses
  have hbelow : o ∈ stack ↔ o ∈ top :: stack ∧ o ≠ top := by
    refine ⟨fun ho => ⟨List.mem_cons_of_mem _ ho, ?_⟩, fun ⟨ho, hne⟩ => ?_⟩
    · exact (List.rel_of_pairwise_cons h.sorted.of_cons ho).ne
    · exact (List.mem_cons.1 ho).resolve_left hne
  rw [hbelow, h.mem_iff hbalanced]
  constructor
  · rintro ⟨⟨c, hmatches, hlt, hic⟩, hne⟩
    refine ⟨c, hmatches, hlt, lt_of_le_of_ne hic ?_⟩
    rintro rfl
    exact hne (congrArg Range.opener (hmatches.opener_unique htop rfl))
  · rintro ⟨c, hmatches, hlt, hic⟩
    refine ⟨⟨c, hmatches, hlt, le_of_lt hic⟩, ?_⟩
    rintro rfl
    exact hic.ne' (congrArg Range.closer (hmatches.closer_unique htop rfl))

/-- Where brackets are balanced, the stack is not empty at a closer. -/
theorem exists_cons (h : Unclosed family kinds i stack) (hbalanced : family.Balanced kinds)
    (hcloses : family.ClosesAt kinds i) : ∃ o rest, stack = o :: rest := by
  obtain ⟨o, ho⟩ := hbalanced.exists_opener hcloses
  have hmem := (h.mem_iff hbalanced).2 ⟨i, ho, ho.lt, le_rfl⟩
  exact List.exists_cons_of_ne_nil (List.ne_nil_of_mem hmem)

end Unclosed

/-- The openers that `aroundFrom` finds around an index are those of the pairs around it. -/
theorem aroundFrom_spec (hbalanced : family.Balanced kinds) (h : Unclosed family kinds i stack)
    {j : ℕ} {openers : List ℕ}
    (hj : (family.aroundFrom stack i (kinds.drop i))[j]? = some openers) :
    openers.Pairwise (· > ·) ∧
      ∀ o, o ∈ openers ↔ ∃ c, family.Matches kinds ⟨o, c⟩ ∧ o < i + j ∧ i + j < c := by
  -- on the kinds still to come, where `Unclosed` says what the stack stands for
  generalize hrest : kinds.drop i = rest at hj
  induction rest generalizing i stack j with
  | nil => cases hj
  | cons k rest ih =>
    obtain ⟨hk, hrest'⟩ := of_drop_eq_cons hrest
    have hindex : ∀ j, i + 1 + j = i + (j + 1) := by omega
    have hsorted := h.sorted.of_cons
    rw [Family.aroundFrom] at hj
    by_cases hopens : family.opens k = true
    · rw [if_pos hopens] at hj
      have hcloses := not_closesAt_of_opensAt ((opensAt_iff hk).2 hopens)
      cases j with
      | zero => cases hj; exact ⟨hsorted, fun o => h.mem_iff_of_not_closes hbalanced hcloses⟩
      | succ j => rw [← hindex]; exact ih (h.push ⟨k, hk, hopens⟩) hrest' hj
    · by_cases hcloses : family.closes k = true
      · rw [if_neg hopens, if_pos hcloses] at hj
        have hcloses' := (closesAt_iff hk).2 hcloses
        obtain ⟨top, stack, rfl⟩ := h.exists_cons hbalanced hcloses'
        cases j with
        | zero => cases hj; exact ⟨hsorted.of_cons, fun o => h.mem_iff_of_closes hbalanced hcloses'⟩
        | succ j => rw [← hindex]; exact ih (h.pop hcloses') hrest' hj
      · rw [if_neg hopens, if_neg hcloses] at hj
        have hcloses' := mt (closesAt_iff hk).1 hcloses
        cases j with
        | zero => cases hj; exact ⟨hsorted, fun o => h.mem_iff_of_not_closes hbalanced hcloses'⟩
        | succ j => rw [← hindex]; exact ih (h.skip hk hopens hcloses) hrest' hj

theorem length_aroundFrom (stack : List ℕ) (i : ℕ) (kinds : List Kind) :
    (family.aroundFrom stack i kinds).length = kinds.length := by
  induction kinds generalizing stack i with
  | nil => rfl
  | cons k kinds ih =>
    rw [Family.aroundFrom]
    split_ifs <;> simp [ih]

/-- The openers around each index, the outermost first, with the pairs that they belong to. -/
theorem exists_around (hbalanced : family.Balanced kinds) (hi : i < kinds.length) :
    ∃ openers, (family.aroundFrom [] 0 kinds)[i]? = some openers ∧ openers.Pairwise (· > ·) ∧
      ∀ o, o ∈ openers ↔ ∃ c, family.Matches kinds ⟨o, c⟩ ∧ o < i ∧ i < c := by
  obtain ⟨openers, hopeners⟩ : ∃ openers, (family.aroundFrom [] 0 kinds)[i]? = some openers :=
    ⟨_, List.getElem?_eq_getElem (by rwa [length_aroundFrom])⟩
  have hspec := aroundFrom_spec (i := 0) (j := i) hbalanced (.nil (.refl 0)) hopeners
  rw [Nat.zero_add] at hspec
  exact ⟨openers, hopeners, hspec⟩

/-! ### Conditions -/

theorem lookup_scopeOwners {b w : ℕ} :
    (scopeOwnersFrom 0 none kinds).lookup b = some w ↔ Ownership.scopes.Owns kinds w b := by
  rw [lookup_eq_some_iff_mem, mem_scopeOwners_iff]
  intro b v w hv hw
  exact (mem_scopeOwners_iff.1 hv).keyword_unique (mem_scopeOwners_iff.1 hw)

theorem mem_conditionsOf {openers : List ℕ} {w : ℕ} {k : Kind} :
    (w, k) ∈ conditionsOf kinds.toArray (scopeOwnersFrom 0 none kinds) openers ↔
      kinds[w]? = some k ∧ ∃ b ∈ openers, Ownership.scopes.Owns kinds w b := by
  simp only [conditionsOf, List.mem_filterMap, List.mem_reverse, bind, Option.bind_eq_some_iff,
    lookup_scopeOwners, List.getElem?_toArray, pure, Option.some.injEq, Prod.mk.injEq]
  constructor
  · rintro ⟨b, hb, w, howns, k, hk, rfl, rfl⟩
    exact ⟨hk, b, hb, howns⟩
  · rintro ⟨hk, b, hb, howns⟩
    exact ⟨b, hb, w, howns, k, hk, rfl, rfl⟩

/-- Owners stand in the order of their scopes. -/
theorem sorted_conditionsOf {openers : List ℕ} (h : openers.Pairwise (· > ·)) :
    (conditionsOf kinds.toArray (scopeOwnersFrom 0 none kinds) openers).Pairwise
      fun x y => x.1 < y.1 := by
  refine List.Pairwise.filterMap _ (fun b c hbc x hx y hy => ?_) (List.pairwise_reverse.2 h)
  simp only [bind, Option.bind_eq_some_iff, lookup_scopeOwners, pure, Option.some.injEq] at hx hy
  obtain ⟨v, hv, -, -, rfl⟩ := hx
  obtain ⟨w, hw, -, -, rfl⟩ := hy
  exact hv.waits.lt.trans (hv.lt_of_lt hw hbc)

end Pairing

end EntityLint
