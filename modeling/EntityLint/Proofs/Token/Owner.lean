import EntityLint.Proofs.Token.Brackets

/-!
# Keywords and the brackets they own

A keyword waits for a bracket, and owns the first one that comes up before something ends its wait.
Functions wait for their parameter list and scope owners for their body in the same way, so both
passes are read as one, and what `rangeAt` answers is said for a keyword, an opener and a closer.

* `Ownership`, `Ownership.parens`, `Ownership.scopes`: what waits, for what, and what ends the wait;
* `Ownership.Owns`: the bracket that a keyword owns, said without a scan;
* `mem_ownersFrom`, `mem_parenOwners_iff`, `mem_scopeOwners_iff`: the scans find the owners;
* `rangeAt_of_mem`, `rangeAt_of_owner`, `rangeAt_keyword`: the pair that an index carries.
-/

namespace EntityLint

namespace Pairing

/-- Which keywords wait for the openers of which family, and what makes them give up. -/
structure Ownership where
  keyword : Kind → Bool
  family : Family
  ends : Kind → Bool
  /-- A keyword is no bracket of the family that it waits for. -/
  not_bracket : ∀ k, keyword k = true → family.opens k = false ∧ family.closes k = false

namespace Ownership

/-- Functions wait for the round brackets of their parameters. -/
def parens : Ownership where
  keyword k := k == .kwFunction || k == .kwFn
  family := .round
  ends k := k == .semicolon || k == .openCurly
  not_bracket k hk := by cases k <;> first | exact ⟨rfl, rfl⟩ | cases hk

/-- Class-like structures and functions wait for the curly brackets of their bodies. -/
def scopes : Ownership where
  keyword := Kind.isScopeOwner
  family := .curly
  ends k := k == .semicolon
  not_bracket k hk := by cases k <;> first | exact ⟨rfl, rfl⟩ | cases hk

/-- The brackets that keywords wait for. -/
def bracket (own : Ownership) (k : Kind) : Bool := own.family.opens k

theorem not_keyword (own : Ownership) {k : Kind} (h : own.bracket k = true) :
    own.keyword k = false := by
  cases hk : own.keyword k with
  | false => rfl
  | true => exact ((own.not_bracket k hk).1.symm.trans h).symm

/-- A scan that hands each bracket to the keyword that waits. -/
def ownersFrom (own : Ownership) (i : ℕ) (waiting : Option ℕ) : List Kind → List (ℕ × ℕ)
  | [] => []
  | k :: kinds =>
    if own.keyword k then own.ownersFrom (i + 1) (some i) kinds
    else if own.bracket k then
      (waiting.map (i, ·)).toList ++ own.ownersFrom (i + 1) none kinds
    else own.ownersFrom (i + 1) (if own.ends k then none else waiting) kinds

/-- The keyword at `w` still waits before index `i`. -/
structure WaitsAt (own : Ownership) (kinds : List Kind) (w i : ℕ) : Prop where
  lt : w < i
  keyword : ∃ k, kinds[w]? = some k ∧ own.keyword k = true
  quiet : ∀ j, w < j → j < i → ∀ k, kinds[j]? = some k →
    own.keyword k = false ∧ own.bracket k = false ∧ own.ends k = false

/-- The keyword at `w` owns the bracket at `b`: it is the first one after the keyword, and no
further keyword and no end of the wait stands between them. -/
structure Owns (own : Ownership) (kinds : List Kind) (w b : ℕ) : Prop where
  waits : own.WaitsAt kinds w b
  bracket : ∃ k, kinds[b]? = some k ∧ own.bracket k = true

end Ownership

variable {own : Ownership} {kinds : List Kind}

theorem parenOwnersFrom_eq (i : ℕ) (waiting : Option ℕ) (kinds : List Kind) :
    parenOwnersFrom i waiting kinds = Ownership.parens.ownersFrom i waiting kinds := by
  induction kinds generalizing i waiting with
  | nil => rfl
  | cons k kinds ih =>
    unfold parenOwnersFrom Ownership.ownersFrom
    split
    · exact ih _ _
    · exact ih _ _
    · exact ih _ _
    · exact ih _ _
    · cases waiting with
      | none => exact ih _ _
      | some owner => exact congrArg _ (ih _ _)
    · next h₁ h₂ h₃ h₄ h₅ =>
      have hkeyword : Ownership.parens.keyword k = false := by
        simpa [Ownership.parens] using ⟨h₁, h₂⟩
      have hbracket : Ownership.parens.bracket k = false :=
        Bool.eq_false_iff.2 fun h => h₅ (round_opens_iff.1 h)
      have hends : Ownership.parens.ends k = false := by simpa [Ownership.parens] using ⟨h₃, h₄⟩
      simp only [hkeyword, hbracket, hends, Bool.false_eq_true, if_false]
      exact ih _ _

theorem scopeOwnersFrom_eq (i : ℕ) (waiting : Option ℕ) (kinds : List Kind) :
    scopeOwnersFrom i waiting kinds = Ownership.scopes.ownersFrom i waiting kinds := by
  induction kinds generalizing i waiting with
  | nil => rfl
  | cons k kinds ih =>
    unfold scopeOwnersFrom Ownership.ownersFrom
    show (if k.isScopeOwner then _ else _) = if k.isScopeOwner then _ else _
    by_cases hkeyword : k.isScopeOwner = true
    · rw [if_pos hkeyword, if_pos hkeyword]
      exact ih _ _
    · rw [if_neg hkeyword, if_neg hkeyword]
      split
      · exact ih _ _
      · cases waiting with
        | none => exact ih _ _
        | some owner => exact congrArg _ (ih _ _)
      · next h₁ h₂ =>
        have hbracket : Ownership.scopes.bracket k = false :=
          Bool.eq_false_iff.2 fun h => h₂ (curly_opens_iff.1 h)
        have hends : Ownership.scopes.ends k = false := by simpa [Ownership.scopes] using h₁
        simp only [hbracket, hends, Bool.false_eq_true, if_false]
        exact ih _ _

/-! ### Waiting -/

namespace Ownership

theorem WaitsAt.keyword_of_getElem? {w i : ℕ} {k : Kind} (h : own.WaitsAt kinds w i)
    (hk : kinds[w]? = some k) : own.keyword k = true := by
  obtain ⟨k', hk', hkeyword⟩ := h.keyword
  cases hk.symm.trans hk'
  exact hkeyword

theorem not_waitsAt_zero {w : ℕ} : ¬own.WaitsAt kinds w 0 := fun h => Nat.not_lt_zero _ h.lt

/-- What a wait becomes at one more kind. -/
theorem waitsAt_succ {i w : ℕ} {k : Kind} (hk : kinds[i]? = some k) :
    own.WaitsAt kinds w (i + 1) ↔ (w = i ∧ own.keyword k = true) ∨
      (own.WaitsAt kinds w i ∧ own.keyword k = false ∧ own.bracket k = false ∧
        own.ends k = false) := by
  constructor
  · rintro ⟨hlt, hkeyword, hquiet⟩
    rcases Nat.eq_or_lt_of_le (Nat.le_of_lt_succ hlt) with rfl | hlt
    · exact .inl ⟨rfl, WaitsAt.keyword_of_getElem? ⟨hlt, hkeyword, hquiet⟩ hk⟩
    · exact .inr ⟨⟨hlt, hkeyword, fun j hwj hji => hquiet j hwj (by omega)⟩,
        hquiet i hlt (Nat.lt_succ_self i) k hk⟩
  · rintro (⟨rfl, hkeyword⟩ | ⟨⟨hlt, hkeyword, hquiet⟩, hk'⟩)
    · exact ⟨Nat.lt_succ_self w, ⟨k, hk, hkeyword⟩, fun j hwj hji => by omega⟩
    · refine ⟨by omega, hkeyword, fun j hwj hji k'' hk'' => ?_⟩
      rcases Nat.eq_or_lt_of_le (Nat.le_of_lt_succ hji) with rfl | hji
      · cases hk.symm.trans hk''
        exact hk'
      · exact hquiet j hwj hji k'' hk''

/-- The scan finds the brackets that are owned, from where it begins. -/
theorem mem_ownersFrom {i : ℕ} {waiting : Option ℕ} (hi : i ≤ kinds.length)
    (hwaiting : ∀ w, waiting = some w ↔ own.WaitsAt kinds w i) {b w : ℕ} :
    (b, w) ∈ own.ownersFrom i waiting (kinds.drop i) ↔ i ≤ b ∧ own.Owns kinds w b := by
  -- on the kinds still to come, where `WaitsAt` says what the waiting keyword stands for
  generalize hrest : kinds.drop i = rest
  induction rest generalizing i waiting with
  | nil =>
    refine ⟨nofun, fun ⟨hib, howns⟩ => ?_⟩
    obtain ⟨k, hk, -⟩ := howns.bracket
    have := (List.getElem?_eq_some_iff.1 hk).1
    have := List.drop_eq_nil_iff.1 hrest
    omega
  | cons k rest ih =>
    obtain ⟨hk, hrest'⟩ := of_drop_eq_cons hrest
    have hlt : i < kinds.length := (List.getElem?_eq_some_iff.1 hk).1
    -- the bracket is this kind or a later one
    have hsplit : i ≤ b ∧ own.Owns kinds w b ↔
        (b = i ∧ own.bracket k = true ∧ own.WaitsAt kinds w i) ∨
          (i + 1 ≤ b ∧ own.Owns kinds w b) := by
      constructor
      · rintro ⟨hib, hwaits, k', hk', hbracket⟩
        rcases Nat.eq_or_lt_of_le hib with rfl | hib
        · cases hk.symm.trans hk'
          exact .inl ⟨rfl, hbracket, hwaits⟩
        · exact .inr ⟨hib, hwaits, k', hk', hbracket⟩
      · rintro (⟨rfl, hbracket, hwaits⟩ | ⟨hib, howns⟩)
        · exact ⟨le_rfl, hwaits, k, hk, hbracket⟩
        · exact ⟨by omega, howns⟩
    rw [hsplit, ownersFrom]
    by_cases hkeyword : own.keyword k = true
    · have hbracket : ¬own.bracket k = true := fun h => by
        simp [own.not_keyword h] at hkeyword
      rw [if_pos hkeyword, ih hlt (fun w => ?_) hrest']
      · simp [hbracket]
      · rw [waitsAt_succ hk]
        simp [hkeyword, eq_comm (a := i)]
    · by_cases hbracket : own.bracket k = true
      · rw [if_neg hkeyword, if_pos hbracket, List.mem_append, ih hlt (fun w => ?_) hrest']
        · refine or_congr_left ?_
          rw [← hwaiting w]
          simp only [Option.mem_toList, Option.map_eq_some_iff, Prod.mk.injEq]
          constructor
          · rintro ⟨_, hw, rfl, rfl⟩
            exact ⟨rfl, hbracket, hw⟩
          · rintro ⟨rfl, -, hw⟩
            exact ⟨w, hw, rfl, rfl⟩
        · rw [waitsAt_succ hk]
          simp [hkeyword, hbracket]
      · rw [if_neg hkeyword, if_neg hbracket, ih hlt (fun w => ?_) hrest']
        · simp [hbracket]
        · rw [waitsAt_succ hk, ← hwaiting w]
          by_cases hends : own.ends k = true <;> simp [hkeyword, hbracket, hends]

theorem mem_owners_iff {b w : ℕ} :
    (b, w) ∈ own.ownersFrom 0 none kinds ↔ own.Owns kinds w b := by
  have hwaiting : ∀ w, none = some w ↔ own.WaitsAt kinds w 0 :=
    fun w => ⟨nofun, fun h => absurd h not_waitsAt_zero⟩
  rw [← List.drop_zero (l := kinds), mem_ownersFrom (Nat.zero_le _) hwaiting, List.drop_zero]
  exact and_iff_right (Nat.zero_le b)

end Ownership

theorem mem_parenOwners_iff {b w : ℕ} :
    (b, w) ∈ parenOwnersFrom 0 none kinds ↔ Ownership.parens.Owns kinds w b := by
  rw [parenOwnersFrom_eq, Ownership.mem_owners_iff]

theorem mem_scopeOwners_iff {b w : ℕ} :
    (b, w) ∈ scopeOwnersFrom 0 none kinds ↔ Ownership.scopes.Owns kinds w b := by
  rw [scopeOwnersFrom_eq, Ownership.mem_owners_iff]

namespace Ownership.Owns

variable {w v b c : ℕ}

/-- Of two owned brackets the later one belongs to a keyword after the earlier one. -/
theorem lt_of_lt (hb : own.Owns kinds w b) (hc : own.Owns kinds v c) (h : b < c) : b < v := by
  by_contra hvb
  obtain ⟨k, hk, hbracket⟩ := hb.bracket
  rcases Nat.eq_or_lt_of_le (not_lt.1 hvb) with rfl | hvb
  · have hkeyword := hc.waits.keyword_of_getElem? hk
    rw [own.not_keyword hbracket] at hkeyword
    cases hkeyword
  · have := (hc.waits.quiet b hvb h k hk).2.1
    rw [hbracket] at this
    cases this

/-- A keyword owns one bracket at most. -/
theorem bracket_unique (hb : own.Owns kinds w b) (hc : own.Owns kinds w c) : b = c := by
  rcases lt_trichotomy b c with h | h | h
  · exact absurd (hb.lt_of_lt hc h) (Nat.lt_asymm hb.waits.lt)
  · exact h
  · exact absurd (hc.lt_of_lt hb h) (Nat.lt_asymm hc.waits.lt)

/-- A bracket has one owner at most. -/
theorem keyword_unique (hw : own.Owns kinds w b) (hv : own.Owns kinds v b) : w = v := by
  have aux : ∀ {w v : ℕ}, own.Owns kinds w b → own.Owns kinds v b → ¬w < v := by
    intro w v hw hv h
    obtain ⟨k, hk, hkeyword⟩ := hv.waits.keyword
    have := (hw.waits.quiet v h hv.waits.lt k hk).1
    rw [hkeyword] at this
    cases this
  have h₁ := aux hw hv
  have h₂ := aux hv hw
  omega

end Ownership.Owns

/-! ### The pair that an index carries -/

theorem find?_eq_some_of_unique {α : Type} {l : List α} {p : α → Bool} {a : α} (ha : a ∈ l)
    (hp : p a = true) (hunique : ∀ b ∈ l, p b = true → b = a) : l.find? p = some a := by
  cases h : l.find? p with
  | none => exact absurd hp (List.find?_eq_none.1 h a ha)
  | some b => rw [hunique b (List.mem_of_find?_eq_some h) (List.find?_some h)]

section RangeAt

variable {family : Family} {pairs : List Range} {owners : List (ℕ × ℕ)} {r : Range} {i : ℕ}
  (hpairs : ∀ s ∈ pairs, family.Matches kinds s)

include hpairs

theorem eq_of_sharedEnd {s : Range} (hr : r ∈ pairs) (hs : s ∈ pairs)
    (hri : r.opener = i ∨ r.closer = i) (hsi : s.opener = i ∨ s.closer = i) : s = r := by
  have hr' := hpairs r hr
  have hs' := hpairs s hs
  rcases hri with rfl | rfl <;> rcases hsi with h | h
  · exact hs'.closer_unique hr' h
  · exact absurd (h ▸ hs'.closes) (not_closesAt_of_opensAt hr'.opens)
  · exact absurd hr'.closes (not_closesAt_of_opensAt (h ▸ hs'.opens))
  · exact hs'.opener_unique hr' h

/-- A bracket carries its own pair. -/
theorem rangeAt_of_mem (hr : r ∈ pairs) (hi : r.opener = i ∨ r.closer = i) :
    rangeAt pairs owners i = some r := by
  have hfind : pairs.find? (fun s => s.opener == i || s.closer == i) = some r :=
    find?_eq_some_of_unique hr (by simpa using hi) fun s hs hsi =>
      eq_of_sharedEnd hpairs hr hs hi (by simpa using hsi)
  rw [rangeAt, hfind]

/-- An owner carries the pair of its bracket. -/
theorem rangeAt_of_owner (hnone : ∀ s ∈ pairs, s.opener ≠ i ∧ s.closer ≠ i) (hr : r ∈ pairs)
    (howner : (r.opener, i) ∈ owners) (hunique : ∀ b, (b, i) ∈ owners → b = r.opener) :
    rangeAt pairs owners i = some r := by
  have hfind : pairs.find? (fun s => s.opener == i || s.closer == i) = none :=
    List.find?_eq_none.2 fun s hs => by simpa using hnone s hs
  have howner' : owners.find? (fun o => o.2 == i) = some (r.opener, i) :=
    find?_eq_some_of_unique howner (by simp) fun ⟨b, w⟩ hb hw => by
      obtain rfl : w = i := by simpa using hw
      rw [hunique b hb]
  have hpair : pairs.find? (fun s => s.opener == r.opener) = some r :=
    find?_eq_some_of_unique hr (by simp) fun s hs hsr =>
      eq_of_sharedEnd hpairs hr hs (.inl rfl) (.inl (by simpa using hsr))
  simp only [rangeAt, hfind, howner', bind, Option.bind, hpair]

omit hpairs in
/-- What is neither a bracket nor an owner carries no pair. -/
theorem rangeAt_eq_none (hnone : ∀ s ∈ pairs, s.opener ≠ i ∧ s.closer ≠ i)
    (howner : ∀ b, (b, i) ∉ owners) : rangeAt pairs owners i = none := by
  have hfind : pairs.find? (fun s => s.opener == i || s.closer == i) = none :=
    List.find?_eq_none.2 fun s hs => by simpa using hnone s hs
  have howner' : owners.find? (fun o => o.2 == i) = none :=
    List.find?_eq_none.2 fun ⟨b, w⟩ hb hw => by
      obtain rfl : w = i := by simpa using hw
      exact howner b hb
  simp only [rangeAt, hfind, howner', bind, Option.bind]

end RangeAt

/-- **A keyword carries the pair of the bracket that it owns**, and none where it owns none. -/
theorem rangeAt_keyword (own : Ownership) {pairs : List Range} {owners : List (ℕ × ℕ)} {w : ℕ}
    {k : Kind} (hbalanced : own.family.Balanced kinds)
    (hpairs : ∀ r, r ∈ pairs ↔ own.family.Matches kinds r)
    (howners : ∀ b v, (b, v) ∈ owners ↔ own.Owns kinds v b)
    (hk : kinds[w]? = some k) (hkeyword : own.keyword k = true) :
    (∀ b, own.Owns kinds w b → ∃ c, own.family.Matches kinds ⟨b, c⟩ ∧
      rangeAt pairs owners w = some ⟨b, c⟩) ∧
    ((∀ b, ¬own.Owns kinds w b) → rangeAt pairs owners w = none) := by
  obtain ⟨hopens, hcloses⟩ := own.not_bracket k hkeyword
  have hnone : ∀ s ∈ pairs, s.opener ≠ w ∧ s.closer ≠ w := by
    intro s hs
    have hmatches := (hpairs s).1 hs
    constructor
    · rintro rfl
      rw [(opensAt_iff hk).1 hmatches.opens] at hopens
      cases hopens
    · rintro rfl
      rw [(closesAt_iff hk).1 hmatches.closes] at hcloses
      cases hcloses
  refine ⟨fun b howns => ?_, fun hno => ?_⟩
  · obtain ⟨c, hmatches⟩ := hbalanced.exists_closer howns.bracket
    exact ⟨c, hmatches, rangeAt_of_owner (fun s hs => (hpairs s).1 hs) hnone
      ((hpairs ⟨b, c⟩).2 hmatches) ((howners b w).2 howns)
      fun b' hb' => ((howners b' w).1 hb').bracket_unique howns⟩
  · exact rangeAt_eq_none hnone fun b hb => hno b ((howners b w).1 hb)

end Pairing

end EntityLint
