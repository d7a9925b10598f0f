import EntityLint.Proofs.Token.Brackets

/-!
# Attribute groups around a token

`attributesFrom` carries the current group along. A group that opens inside of another one does not
replace it, so from its opening to its end a group sees one and the same group around it.

* `mem_of_attributesFrom`: a token is inside of the group that it carries;
* `attributesFrom_opener`, `attributesFrom_eq_of_le`: a group is carried from its opening to its
  end;
* `exists_group_around`: the two ends of a group carry the same group.
-/

namespace EntityLint

namespace Pairing

variable {ranges : List Range} {current : Option Range} {i j : ℕ} {kinds : List Kind} {g : Range}

theorem attributesFrom_cons (k : Kind) :
    attributesFrom ranges i current (k :: kinds) =
      current.or (ranges.find? fun r => r.opener == i) ::
        attributesFrom ranges (i + 1)
          ((current.or (ranges.find? fun r => r.opener == i)).filter fun r => i < r.closer) kinds :=
  rfl

/-- A token is inside of the group that it carries. -/
theorem mem_of_attributesFrom (hranges : ∀ r ∈ ranges, r.opener < r.closer)
    (hcurrent : ∀ r, current = some r → r ∈ ranges ∧ r.opener ≤ i ∧ i ≤ r.closer)
    (h : (attributesFrom ranges i current kinds)[j]? = some (some g)) :
    g ∈ ranges ∧ g.opener ≤ i + j ∧ i + j ≤ g.closer := by
  induction kinds generalizing i j current with
  | nil => cases h
  | cons k kinds ih =>
    have hnow : ∀ r, current.or (ranges.find? fun r => r.opener == i) = some r →
        r ∈ ranges ∧ r.opener ≤ i ∧ i ≤ r.closer := by
      intro r hr
      rcases Option.or_eq_some_iff.1 hr with hr | ⟨-, hr⟩
      · exact hcurrent r hr
      · have hmem := List.mem_of_find?_eq_some hr
        have hi : r.opener = i := by simpa using List.find?_some hr
        have := hranges r hmem
        exact ⟨hmem, by omega, by omega⟩
    rw [attributesFrom_cons] at h
    cases j with
    | zero => exact hnow g (by simpa using h)
    | succ j =>
      rw [List.getElem?_cons_succ] at h
      have hrec := ih (fun r hr => ?_) h
      · exact ⟨hrec.1, by omega, by omega⟩
      · obtain ⟨hr, hlt⟩ := Option.filter_eq_some_iff.1 hr
        have hlt : i < r.closer := by simpa using hlt
        obtain ⟨hmem, hle, -⟩ := hnow r hr
        exact ⟨hmem, by omega, by omega⟩

/-- The token that opens a group carries one. -/
theorem attributesFrom_opener (current : Option Range) (kinds : List Kind) {r : Range}
    (hr : r ∈ ranges) (hi : i ≤ r.opener) (hlt : r.opener - i < kinds.length) :
    ∃ g, (attributesFrom ranges i current kinds)[r.opener - i]? = some (some g) := by
  induction kinds generalizing i current with
  | nil => simp at hlt
  | cons k kinds ih =>
    rw [attributesFrom_cons]
    rcases Nat.eq_or_lt_of_le hi with rfl | hi
    · have hsome : (ranges.find? fun s => s.opener == r.opener).isSome :=
        List.find?_isSome.2 ⟨r, hr, by simp⟩
      obtain ⟨g, hg⟩ := Option.isSome_iff_exists.1 (by
        rw [Option.isSome_or, hsome, Bool.or_true] :
        (current.or (ranges.find? fun s => s.opener == r.opener)).isSome)
      exact ⟨g, by rw [Nat.sub_self, List.getElem?_cons_zero, hg]⟩
    · have hsub : r.opener - i = r.opener - (i + 1) + 1 := by omega
      rw [hsub, List.getElem?_cons_succ]
      rw [List.length_cons] at hlt
      exact ih _ hi (by omega)

/-- A group is carried on to the next token, up to its end. -/
theorem attributesFrom_succ (h : (attributesFrom ranges i current kinds)[j]? = some (some g))
    (hlt : i + j < g.closer) (hj : j + 1 < kinds.length) :
    (attributesFrom ranges i current kinds)[j + 1]? = some (some g) := by
  induction kinds generalizing i j current with
  | nil => cases h
  | cons k kinds ih =>
    rw [attributesFrom_cons] at h ⊢
    rw [List.getElem?_cons_succ]
    rw [List.length_cons] at hj
    cases j with
    | zero =>
      have hnow : current.or (ranges.find? fun r => r.opener == i) = some g := by simpa using h
      obtain ⟨k', kinds', rfl⟩ := List.exists_cons_of_length_pos (l := kinds) (by omega)
      have hfilter : (some g : Option Range).filter (fun r => i < r.closer) = some g :=
        Option.filter_eq_some_iff.2 ⟨rfl, by simpa using hlt⟩
      rw [hnow, hfilter, attributesFrom_cons]
      rfl
    | succ j => exact ih (by simpa using h) (by omega) (by omega)

theorem attributesFrom_eq_of_le {b : ℕ}
    (h : (attributesFrom ranges 0 current kinds)[j]? = some (some g)) (hjb : j ≤ b)
    (hb : b ≤ g.closer) (hlen : b < kinds.length) :
    (attributesFrom ranges 0 current kinds)[b]? = some (some g) := by
  induction b, hjb using Nat.le_induction with
  | base => exact h
  | succ b _ ih => exact attributesFrom_succ (ih (by omega) (by omega)) (by omega) hlen

/-- The two ends of a group carry the same group, which is the group itself or around it. -/
theorem exists_group_around (hranges : ∀ r ∈ ranges, Family.square.Matches kinds r) {r : Range}
    (hr : r ∈ ranges) :
    ∃ g ∈ ranges, g.opener ≤ r.opener ∧ r.closer ≤ g.closer ∧
      (attributesFrom ranges 0 none kinds)[r.opener]? = some (some g) ∧
      (attributesFrom ranges 0 none kinds)[r.closer]? = some (some g) := by
  have hmatches := hranges r hr
  have hlen := lt_length_of_closesAt hmatches.closes
  have hlt := hmatches.lt
  obtain ⟨g, hg⟩ := attributesFrom_opener none kinds hr (Nat.zero_le _) (by omega)
  rw [Nat.sub_zero] at hg
  obtain ⟨hmem, hle, hge⟩ := mem_of_attributesFrom (fun s hs => (hranges s hs).lt)
    (fun s hs => by cases hs) hg
  rw [Nat.zero_add] at hle hge
  -- the group that is carried at the opener does not end before the closer
  have hcloser : r.closer ≤ g.closer := by
    rcases Nat.eq_or_lt_of_le hle with h | h
    · rw [(hranges g hmem).closer_unique hmatches h]
    · rcases Nat.eq_or_lt_of_le hge with h' | h'
      · exact absurd (h' ▸ (hranges g hmem).closes) (not_closesAt_of_opensAt hmatches.opens)
      · exact ((hranges g hmem).not_crossing hmatches h h').le
  exact ⟨g, hmem, hle, hcloser, hg, attributesFrom_eq_of_le hg hlt.le hcloser hlen⟩

end Pairing

end EntityLint
