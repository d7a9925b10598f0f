import EntityLint.Proofs.Token.Surroundings

/-!
# Padded kinds

A list of kinds is *padded* when blanks are put between its members. Brackets that match in it match
at their new places, and keywords own the same brackets, so the owners around a token are the same ones.

* `Padded`: the kinds of a list at their new places;
* `Padded.word_take`, `Padded.matches_iff`, `Padded.owns_iff`: brackets and their owners.

The main statement is `Padded.ownersAround_eq`.
-/

namespace EntityLint

open Pairing

/-- The members of a list of kinds stand at new places in another list, with blanks between them. -/
structure Padded (place : ℕ → ℕ) (ks ks' : List Kind) : Prop where
  strictMono : StrictMono place
  kind_eq : ∀ i, ks'[place i]? = ks[i]?
  blank : ∀ (j : ℕ) (k : Kind), ks'[j]? = some k → (∃ i, j = place i) ∨ k = .blank

namespace Padded

variable {place : ℕ → ℕ} {ks ks' : List Kind} (h : Padded place ks ks')

include h

/-- What is not blank has been there before. -/
theorem exists_place {j : ℕ} {k : Kind} (hj : ks'[j]? = some k) (hk : k ≠ .blank) :
    ∃ i, j = place i ∧ ks[i]? = some k := by
  obtain ⟨i, rfl⟩ := (h.blank j k hj).resolve_right hk
  exact ⟨i, rfl, h.kind_eq i ▸ hj⟩

/-! ### Brackets -/

section Brackets

variable (family : Family)

/-- The blanks between two places do not count. -/
theorem word_take_of_blank {a b : ℕ} (hab : a ≤ b) (hblank : ∀ j, a ≤ j → j < b → ∀ i, j ≠ place i) :
    family.word (ks'.take b) = family.word (ks'.take a) := by
  induction b, hab using Nat.le_induction with
  | base => rfl
  | succ b hab ih =>
    have hstep : family.word (ks'[b]?.toList) = [] := by
      cases hb : ks'[b]? with
      | none => rfl
      | some k =>
        rcases h.blank b k hb with ⟨i, hi⟩ | rfl
        · exact absurd hi (hblank b hab (Nat.lt_succ_self b) i)
        · cases family <;> rfl
    rw [List.take_add_one, Family.word, List.filterMap_append, ← Family.word, ← Family.word, hstep,
      List.append_nil]
    exact ih fun j hj hlt => hblank j hj (Nat.lt_succ_of_lt hlt)

theorem word_take (i : ℕ) : family.word (ks'.take (place i)) = family.word (ks.take i) := by
  induction i with
  | zero =>
    have hempty := h.word_take_of_blank family (Nat.zero_le (place 0)) fun j _ hj i heq =>
      absurd (h.strictMono.monotone (Nat.zero_le i)) (by omega)
    rw [hempty]
    rfl
  | succ i ih =>
    have hlt := h.strictMono (Nat.lt_succ_self i)
    have hskip := h.word_take_of_blank family (Nat.succ_le_of_lt hlt) fun j hj hlt k heq => by
      have hleft := h.strictMono.lt_iff_lt.1 (heq ▸ Nat.lt_of_succ_le hj)
      have hright := h.strictMono.lt_iff_lt.1 (heq ▸ hlt)
      omega
    rw [hskip, List.take_add_one, List.take_add_one, h.kind_eq]
    simp only [Family.word, List.filterMap_append]
    exact congrArg (· ++ _) ih

theorem word_take_succ (i : ℕ) :
    family.word (ks'.take (place i + 1)) = family.word (ks.take (i + 1)) := by
  rw [List.take_add_one, List.take_add_one, h.kind_eq]
  simp only [Family.word, List.filterMap_append]
  exact congrArg (· ++ _) (h.word_take family i)

theorem balanced_slice_iff {o c : ℕ} (hoc : o < c) :
    family.Balanced ((ks'.take (place c)).drop (place o + 1)) ↔
      family.Balanced ((ks.take c).drop (o + 1)) := by
  have hsplit : ∀ (ls : List Kind) {a b : ℕ}, a ≤ b →
      family.word (ls.take b) = family.word (ls.take a) ++ family.word ((ls.take b).drop a) := by
    intro ls a b hab
    have htake : ls.take a ++ (ls.take b).drop a = ls.take b := by
      conv_rhs => rw [← List.take_append_drop a (ls.take b), List.take_take, Nat.min_eq_left hab]
    exact (congrArg family.word htake).symm.trans List.filterMap_append
  have hword : family.word ((ks'.take (place c)).drop (place o + 1)) =
      family.word ((ks.take c).drop (o + 1)) := by
    have hnew := hsplit ks' (Nat.succ_le_of_lt (h.strictMono hoc))
    rw [h.word_take, h.word_take_succ, hsplit ks (Nat.succ_le_of_lt hoc)] at hnew
    exact (List.append_cancel_left hnew).symm
  rw [Family.Balanced, Family.Balanced, hword]

theorem matches_iff {o c : ℕ} :
    family.Matches ks' ⟨place o, place c⟩ ↔ family.Matches ks ⟨o, c⟩ := by
  constructor
  · rintro ⟨hlt, ho, hc, hbalanced⟩
    have hoc : o < c := h.strictMono.lt_iff_lt.1 hlt
    rw [Family.OpensAt, h.kind_eq] at ho
    rw [Family.ClosesAt, h.kind_eq] at hc
    exact ⟨hoc, ho, hc, (h.balanced_slice_iff family hoc).1 hbalanced⟩
  · rintro ⟨hoc, ho, hc, hbalanced⟩
    refine ⟨h.strictMono hoc, ?_, ?_, (h.balanced_slice_iff family hoc).2 hbalanced⟩
    · rwa [Family.OpensAt, h.kind_eq]
    · rwa [Family.ClosesAt, h.kind_eq]

end Brackets

/-! ### Owners -/

theorem owns_iff {w b : ℕ} :
    Ownership.scopes.Owns ks' (place w) (place b) ↔ Ownership.scopes.Owns ks w b := by
  constructor
  · rintro ⟨⟨hlt, hkeyword, hquiet⟩, hbracket⟩
    rw [h.kind_eq] at hkeyword hbracket
    refine ⟨⟨h.strictMono.lt_iff_lt.1 hlt, hkeyword, fun j hwj hjb k hk => ?_⟩, hbracket⟩
    exact hquiet (place j) (h.strictMono hwj) (h.strictMono hjb) k (h.kind_eq j ▸ hk)
  · rintro ⟨⟨hlt, hkeyword, hquiet⟩, hbracket⟩
    rw [← h.kind_eq] at hkeyword hbracket
    refine ⟨⟨h.strictMono hlt, hkeyword, fun j hwj hjb k hk => ?_⟩, hbracket⟩
    rcases h.blank j k hk with ⟨i, rfl⟩ | rfl
    · exact hquiet i (h.strictMono.lt_iff_lt.1 hwj) (h.strictMono.lt_iff_lt.1 hjb) k (h.kind_eq i ▸ hk)
    · exact ⟨rfl, rfl, rfl⟩

end Padded

/-! ### Tokens -/

open Token

variable {place : ℕ → ℕ} {tokens tokens' : List Token}

theorem Padded.scopeAround_iff (h : Padded place (kinds tokens) (kinds tokens'))
    (hpaired : WellPaired tokens) (hpaired' : WellPaired tokens') {i w : ℕ} {k : Kind} {r : Range} :
    ScopeAround tokens' (place i) (place w) k ⟨place r.opener, place r.closer⟩ ↔
      ScopeAround tokens i w k r := by
  rw [Token.scopeAround_iff hpaired', Token.scopeAround_iff hpaired, h.kind_eq, h.owns_iff,
    h.matches_iff, h.strictMono.lt_iff_lt, h.strictMono.lt_iff_lt]

/-- The owners around a token are the same ones at their new places. -/
theorem Padded.ownersAround_eq (h : Padded place (kinds tokens) (kinds tokens'))
    (hpaired : WellPaired tokens) (hpaired' : WellPaired tokens') (i : ℕ) :
    ownersAround tokens' (place i) =
      (ownersAround tokens i).map fun x => (place x.1, x.2) := by
  have hmem : ∀ x, x ∈ ownersAround tokens' (place i) ↔
      x ∈ (ownersAround tokens i).map fun x => (place x.1, x.2) := by
    rintro ⟨w', k⟩
    constructor
    · intro hx
      obtain ⟨r', haround⟩ := mem_ownersAround.1 hx
      -- both brackets and their owner have been there before
      obtain ⟨hw, howns, hmatches, -, -⟩ := (Token.scopeAround_iff hpaired').1 haround
      obtain ⟨kw, hkw, hkeyword⟩ := howns.waits.keyword
      obtain ⟨w, rfl, -⟩ := h.exists_place hkw fun hk => by rw [hk] at hkeyword; cases hkeyword
      obtain ⟨ko, hko, hopens⟩ := hmatches.opens
      obtain ⟨o, ho, -⟩ := h.exists_place hko fun hk => by rw [hk] at hopens; cases hopens
      obtain ⟨kc, hkc, hcloses⟩ := hmatches.closes
      obtain ⟨c, hc, -⟩ := h.exists_place hkc fun hk => by rw [hk] at hcloses; cases hcloses
      have hr' : r' = ⟨place o, place c⟩ := by
        cases r'
        exact congrArg₂ Range.mk ho hc
      rw [hr'] at haround
      have hold := (h.scopeAround_iff hpaired hpaired' (r := ⟨o, c⟩)).1 haround
      exact List.mem_map.2 ⟨(w, k), mem_ownersAround.2 ⟨_, hold⟩, rfl⟩
    · intro hx
      obtain ⟨⟨w, k'⟩, hold, heq⟩ := List.mem_map.1 hx
      cases heq
      obtain ⟨r, haround⟩ := mem_ownersAround.1 hold
      exact mem_ownersAround.2 ⟨_, (h.scopeAround_iff hpaired hpaired').2 haround⟩
  have hsorted : ((ownersAround tokens i).map fun x => (place x.1, x.2)).Pairwise
      fun x y => x.1 < y.1 :=
    List.pairwise_map.2 (sorted_ownersAround.imp fun hlt => h.strictMono hlt)
  have hperm : (ownersAround tokens' (place i)).Perm
      ((ownersAround tokens i).map fun x => (place x.1, x.2)) :=
    (List.perm_ext_iff_of_nodup (sorted_ownersAround.imp fun hlt heq => by rw [heq] at hlt; omega)
      (hsorted.imp fun hlt heq => by rw [heq] at hlt; omega)).2 hmem
  exact hperm.eq_of_pairwise (fun a b _ _ hab hba => absurd hab (not_lt.2 hba.le)) sorted_ownersAround
    hsorted

end EntityLint
