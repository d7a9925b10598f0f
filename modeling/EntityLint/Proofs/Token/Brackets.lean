import EntityLint.Token.Pairing
import Mathlib.Combinatorics.Enumerative.DyckWord
import Mathlib.Tactic

/-!
# Balanced brackets and their pairs

The brackets of one family in a list of kinds are a word of steps up and down. It is balanced when
it is a Dyck word, and two brackets match when what stands between them is balanced. The stack of
`pairsFrom` is compared with these notions by way of the height, the number of openers less the
number of closers before an index.

* `Family.Balanced`, `balanced_iff`: balanced brackets, and their heights;
* `Family.Matches`, with `Matches.closer_unique`, `Matches.opener_unique`, `Matches.not_crossing`;
* `Unclosed`: the openers that wait on the stack;
* `pairsFrom_spec`, `balanced_iff_pairsFrom`, `mem_pairs_iff`: the stack finds a pair for each
  bracket exactly where the brackets are balanced, and the pairs it finds are those that match.
-/

namespace EntityLint

namespace Pairing

/-! ### Brackets by kind -/

section ByKind

variable {k : Kind}

theorem round_opens_iff : Family.round.opens k = true ↔ k = .openRound := by
  cases k <;> simp [Family.opens]

theorem round_closes_iff : Family.round.closes k = true ↔ k = .closeRound := by
  cases k <;> simp [Family.closes]

theorem square_closes_iff : Family.square.closes k = true ↔ k = .closeSquare := by
  cases k <;> simp [Family.closes]

theorem curly_opens_iff : Family.curly.opens k = true ↔ k = .openCurly := by
  cases k <;> simp [Family.opens]

theorem curly_closes_iff : Family.curly.closes k = true ↔ k = .closeCurly := by
  cases k <;> simp [Family.closes]

end ByKind

/-! ### Words and heights -/

namespace Family

/-- The step that a kind stands for in the word of a family. -/
def step? (family : Family) (k : Kind) : Option DyckStep :=
  if family.opens k then some .U else if family.closes k then some .D else none

/-- The brackets of a family, taken on their own, as steps up and down. -/
def word (family : Family) (kinds : List Kind) : List DyckStep := kinds.filterMap family.step?

/-- The brackets of a family, taken on their own, are balanced. -/
def Balanced (family : Family) (kinds : List Kind) : Prop :=
  ∃ w : DyckWord, w.toList = family.word kinds

/-- A bracket that opens stands at an index. -/
def OpensAt (family : Family) (kinds : List Kind) (i : ℕ) : Prop :=
  ∃ k, kinds[i]? = some k ∧ family.opens k = true

/-- A bracket that closes stands at an index. -/
def ClosesAt (family : Family) (kinds : List Kind) (i : ℕ) : Prop :=
  ∃ k, kinds[i]? = some k ∧ family.closes k = true

/-- An opener and a closer after it match when the brackets between them are balanced. -/
structure Matches (family : Family) (kinds : List Kind) (r : Range) : Prop where
  lt : r.opener < r.closer
  opens : family.OpensAt kinds r.opener
  closes : family.ClosesAt kinds r.closer
  balanced : family.Balanced ((kinds.take r.closer).drop (r.opener + 1))

/-- How much a kind adds to the height. -/
def rise (family : Family) (k : Kind) : ℤ :=
  if family.opens k then 1 else if family.closes k then -1 else 0

/-- The number of openers less the number of closers before an index. -/
def height (family : Family) (kinds : List Kind) (i : ℕ) : ℤ :=
  ((kinds.take i).map family.rise).sum

end Family

variable {family : Family} {kinds : List Kind}

theorem closes_of_opens {k : Kind} (h : family.opens k = true) : family.closes k = false := by
  cases family <;> cases k <;> first | rfl | cases h

theorem not_opens_of_closes {k : Kind} (h : family.closes k = true) : ¬family.opens k = true :=
  fun ho => by rw [closes_of_opens ho] at h; cases h

theorem opensAt_iff {i : ℕ} {k : Kind} (hk : kinds[i]? = some k) :
    family.OpensAt kinds i ↔ family.opens k = true := by
  refine ⟨?_, fun h => ⟨k, hk, h⟩⟩
  rintro ⟨k', hk', h⟩
  cases hk.symm.trans hk'
  exact h

theorem closesAt_iff {i : ℕ} {k : Kind} (hk : kinds[i]? = some k) :
    family.ClosesAt kinds i ↔ family.closes k = true := by
  refine ⟨?_, fun h => ⟨k, hk, h⟩⟩
  rintro ⟨k', hk', h⟩
  cases hk.symm.trans hk'
  exact h

/-- A bracket does not open and close at once. -/
theorem not_closesAt_of_opensAt {i : ℕ} (h : family.OpensAt kinds i) :
    ¬family.ClosesAt kinds i := by
  rintro ⟨k, hk, hcloses⟩
  exact not_opens_of_closes hcloses ((opensAt_iff hk).1 h)

theorem height_succ {i : ℕ} {k : Kind} (h : kinds[i]? = some k) :
    family.height kinds (i + 1) = family.height kinds i + family.rise k := by
  simp [Family.height, List.take_add_one, h]

theorem height_succ_of_opensAt {i : ℕ} (h : family.OpensAt kinds i) :
    family.height kinds (i + 1) = family.height kinds i + 1 := by
  obtain ⟨k, hk, hopens⟩ := h
  rw [height_succ hk, Family.rise, if_pos hopens]

theorem height_succ_of_closesAt {i : ℕ} (h : family.ClosesAt kinds i) :
    family.height kinds (i + 1) = family.height kinds i - 1 := by
  obtain ⟨k, hk, hcloses⟩ := h
  rw [height_succ hk, Family.rise, if_neg (not_opens_of_closes hcloses), if_pos hcloses,
    sub_eq_add_neg]

theorem sum_rise (family : Family) (kinds : List Kind) :
    (kinds.map family.rise).sum = (family.word kinds).count .U - (family.word kinds).count .D := by
  induction kinds with
  | nil => rfl
  | cons k kinds ih =>
    simp only [List.map_cons, List.sum_cons, ih, Family.word, Family.rise, Family.step?,
      List.filterMap_cons]
    split_ifs <;> simp <;> ring

/-- Brackets are balanced when the height ends at zero and is never below. -/
theorem balanced_iff :
    family.Balanced kinds ↔
      family.height kinds kinds.length = 0 ∧ ∀ i, 0 ≤ family.height kinds i := by
  have hsum := fun i => sum_rise family (kinds.take i)
  constructor
  · rintro ⟨w, hw⟩
    refine ⟨?_, fun i => ?_⟩
    · rw [Family.height, hsum, List.take_length, ← hw, w.count_U_eq_count_D, sub_self]
    · have hprefix : family.word (kinds.take i) <+: w.toList :=
        hw ▸ (List.take_prefix i kinds).filterMap _
      rw [Family.height, hsum, List.prefix_iff_eq_take.1 hprefix]
      have := w.count_D_le_count_U (family.word (kinds.take i)).length
      omega
  · rintro ⟨hzero, hpos⟩
    refine ⟨⟨family.word kinds, ?_, fun i => ?_⟩, rfl⟩
    · rw [Family.height, hsum, List.take_length] at hzero
      omega
    · obtain ⟨p, hp, hword⟩ := List.prefix_filterMap_iff.1 (List.take_prefix i (family.word kinds))
      have := hpos p.length
      rw [Family.height, hsum, ← List.prefix_iff_eq_take.1 hp] at this
      change List.take i (family.word kinds) = family.word p at hword
      rw [hword]
      omega

/-! ### Matching brackets -/

/-- From one index to another the height comes back to where it was and is never below. -/
def Family.Level (family : Family) (kinds : List Kind) (a b : ℕ) : Prop :=
  family.height kinds b = family.height kinds a ∧
    ∀ i, a ≤ i → i ≤ b → family.height kinds a ≤ family.height kinds i

theorem height_slice (a b i : ℕ) :
    family.height ((kinds.take b).drop a) i =
      family.height kinds (a + min i (b - a)) - family.height kinds a := by
  simp only [Family.height, List.drop_take, List.take_take, List.take_add, List.map_append,
    List.sum_append]
  ring

theorem balanced_slice_iff {a b : ℕ} (hab : a ≤ b) (hb : b ≤ kinds.length) :
    family.Balanced ((kinds.take b).drop a) ↔ family.Level kinds a b := by
  have hlen : ((kinds.take b).drop a).length = b - a := by
    rw [List.length_drop, List.length_take, Nat.min_eq_left hb]
  simp only [balanced_iff, height_slice, hlen, Nat.min_self, Nat.add_sub_cancel' hab,
    sub_eq_zero, sub_nonneg, Family.Level]
  refine and_congr_right fun _ => ⟨fun h i hai hib => ?_, fun h i => h _ (by omega) (by omega)⟩
  have := h (i - a)
  rwa [show a + min (i - a) (b - a) = i by omega] at this

theorem lt_length_of_closesAt {i : ℕ} (h : family.ClosesAt kinds i) : i < kinds.length := by
  obtain ⟨k, hk, -⟩ := h
  exact (List.getElem?_eq_some_iff.1 hk).1

namespace Family.Matches

variable {r s : Range}

theorem level (h : family.Matches kinds r) : family.Level kinds (r.opener + 1) r.closer :=
  (balanced_slice_iff h.lt (lt_length_of_closesAt h.closes).le).1 h.balanced

theorem closer_unique (hr : family.Matches kinds r) (hs : family.Matches kinds s)
    (h : r.opener = s.opener) : r = s := by
  have aux : ∀ {r s : Range}, family.Matches kinds r → family.Matches kinds s →
      r.opener = s.opener → ¬ r.closer < s.closer := by
    intro r s hr hs h hlt
    have h₁ := height_succ_of_closesAt hr.closes
    have h₂ := hr.level.1
    have h₃ := hs.level.2 (r.closer + 1) (by have := hr.lt; omega) hlt
    rw [h] at h₂
    omega
  have h₁ := aux hr hs h
  have h₂ := aux hs hr h.symm
  cases r; cases s
  simp only [Range.mk.injEq] at *
  omega

theorem opener_unique (hr : family.Matches kinds r) (hs : family.Matches kinds s)
    (h : r.closer = s.closer) : r = s := by
  have aux : ∀ {r s : Range}, family.Matches kinds r → family.Matches kinds s →
      r.closer = s.closer → ¬ r.opener < s.opener := by
    intro r s hr hs h hlt
    have h₁ := height_succ_of_opensAt hs.opens
    have h₂ := hr.level.1
    have h₃ := hs.level.1
    have h₄ := hr.level.2 s.opener hlt (by have := hs.lt; omega)
    rw [h] at h₂
    omega
  have h₁ := aux hr hs h
  have h₂ := aux hs hr h.symm
  cases r; cases s
  simp only [Range.mk.injEq] at *
  omega

/-- Pairs of one family never cross. -/
theorem not_crossing (hr : family.Matches kinds r) (hs : family.Matches kinds s)
    (h₁ : r.opener < s.opener) (h₂ : s.opener < r.closer) : s.closer < r.closer := by
  by_contra hlt
  rcases (not_lt.1 hlt).eq_or_lt with h | h
  · have := hr.opener_unique hs h
    subst this
    omega
  · have h₃ := height_succ_of_closesAt hr.closes
    have h₄ := hr.level.1
    have h₅ := height_succ_of_opensAt hs.opens
    have h₆ := hr.level.2 s.opener h₁ h₂.le
    have h₇ := hs.level.2 (r.closer + 1) (by omega) h
    omega

end Family.Matches

/-! ### The stack -/

section Stack

variable (family kinds)

/-- The openers before an index that wait for their closers, the innermost first. What stands
between two of them, before the first and after the last is balanced. -/
inductive Unclosed : ℕ → List ℕ → Prop
  | nil {i : ℕ} : family.Level kinds 0 i → Unclosed i []
  | cons {o i : ℕ} {stack : List ℕ} : Unclosed o stack → family.OpensAt kinds o → o < i →
      family.Level kinds (o + 1) i → Unclosed i (o :: stack)

end Stack

theorem Family.Level.refl (i : ℕ) : family.Level kinds i i :=
  ⟨rfl, fun j hi hj => by rw [Nat.le_antisymm hi hj]⟩

theorem Family.Level.trans {a b c : ℕ} (hab : family.Level kinds a b)
    (hbc : family.Level kinds b c) : family.Level kinds a c := by
  refine ⟨hbc.1.trans hab.1, fun i hai hic => ?_⟩
  rcases le_total i b with hib | hbi
  · exact hab.2 i hai hib
  · exact hab.1 ▸ hbc.2 i hbi hic

/-- A pair with balanced brackets inside is balanced. -/
theorem Family.Matches.level_around {r : Range} (h : family.Matches kinds r) :
    family.Level kinds r.opener (r.closer + 1) := by
  have hopen := height_succ_of_opensAt h.opens
  have hclose := height_succ_of_closesAt h.closes
  obtain ⟨hend, hinside⟩ := h.level
  refine ⟨by omega, fun i hi hi' => ?_⟩
  rcases Nat.lt_or_ge r.closer i with hlt | hle
  · obtain rfl : i = r.closer + 1 := by omega
    omega
  · rcases Nat.eq_or_lt_of_le hi with rfl | hlt
    · exact le_rfl
    · have := hinside i hlt hle
      omega

namespace Unclosed

variable {i : ℕ} {stack : List ℕ}

theorem trans {j : ℕ} (h : Unclosed family kinds i stack) (hlevel : family.Level kinds i j)
    (hij : i ≤ j) : Unclosed family kinds j stack := by
  cases h with
  | nil h₀ => exact .nil (h₀.trans hlevel)
  | cons hstack hopens hlt h₀ => exact .cons hstack hopens (by omega) (h₀.trans hlevel)

/-- Other kinds leave the stack alone. -/
theorem skip {k : Kind} (h : Unclosed family kinds i stack) (hk : kinds[i]? = some k)
    (hopens : ¬family.opens k = true) (hcloses : ¬family.closes k = true) :
    Unclosed family kinds (i + 1) stack := by
  have hheight : family.height kinds (i + 1) = family.height kinds i := by
    rw [height_succ hk, Family.rise, if_neg hopens, if_neg hcloses, add_zero]
  refine h.trans ⟨hheight, fun j hij hj => ?_⟩ (Nat.le_succ i)
  obtain rfl | rfl : j = i ∨ j = i + 1 := by omega
  · exact le_rfl
  · exact hheight.ge

theorem push (h : Unclosed family kinds i stack) (hopens : family.OpensAt kinds i) :
    Unclosed family kinds (i + 1) (i :: stack) :=
  .cons h hopens (Nat.lt_succ_self i) (.refl (i + 1))

/-- A closer matches the top of the stack. -/
theorem matches_top {o : ℕ} (h : Unclosed family kinds i (o :: stack))
    (hcloses : family.ClosesAt kinds i) : family.Matches kinds ⟨o, i⟩ := by
  cases h with
  | cons _ hopens hlt hlevel =>
    exact ⟨hlt, hopens, hcloses,
      (balanced_slice_iff hlt (lt_length_of_closesAt hcloses).le).2 hlevel⟩

theorem pop {o : ℕ} (h : Unclosed family kinds i (o :: stack))
    (hcloses : family.ClosesAt kinds i) : Unclosed family kinds (i + 1) stack := by
  have hmatches := h.matches_top hcloses
  cases h with
  | cons hstack _ hlt _ => exact hstack.trans hmatches.level_around (by omega)

theorem height_eq (h : Unclosed family kinds i stack) :
    family.height kinds i = stack.length := by
  induction h with
  | nil h => exact h.1
  | cons _ hopens _ hlevel ih =>
    rw [hlevel.1, height_succ_of_opensAt hopens, ih, List.length_cons, Nat.cast_succ]

end Unclosed

section Steps

variable {i : ℕ} {stack : List ℕ} {k : Kind} {rest : List Kind}

theorem pairsFrom_opens (h : family.opens k = true) :
    pairsFrom family i stack (k :: rest) = pairsFrom family (i + 1) (i :: stack) rest := by
  rw [pairsFrom.eq_def]
  simp only [h, if_true]

theorem pairsFrom_closes_nil (h : family.closes k = true) :
    pairsFrom family i [] (k :: rest) = .error i := by
  rw [pairsFrom.eq_def]
  simp only [not_opens_of_closes h, h, if_true]
  rfl

theorem pairsFrom_closes_cons (h : family.closes k = true) {o : ℕ} :
    pairsFrom family i (o :: stack) (k :: rest) =
      (pairsFrom family (i + 1) stack rest).map fun m => { m with pairs := ⟨o, i⟩ :: m.pairs } := by
  rw [pairsFrom.eq_def]
  simp only [not_opens_of_closes h, h, if_true, Bool.false_eq_true, if_false]
  cases pairsFrom family (i + 1) stack rest <;> rfl

theorem pairsFrom_skip (hopens : ¬family.opens k = true) (hcloses : ¬family.closes k = true) :
    pairsFrom family i stack (k :: rest) = pairsFrom family (i + 1) stack rest := by
  rw [pairsFrom.eq_def]
  simp only [hopens, hcloses, Bool.false_eq_true, if_false]

end Steps

/-- What a scan that has come to index `i` sees next. -/
theorem of_drop_eq_cons {α : Type} {l rest : List α} {i : ℕ} {a : α} (h : l.drop i = a :: rest) :
    l[i]? = some a ∧ l.drop (i + 1) = rest := by
  constructor
  · rw [← List.head?_drop, h]
    rfl
  · rw [← List.tail_drop, h]
    rfl

/-- **The stack finds matching brackets.** Either the stack meets a closer with no opener left, or
all pairs it finds match and it ends with the openers that have no closer. -/
theorem pairsFrom_spec {i : ℕ} {stack : List ℕ} (h : Unclosed family kinds i stack)
    (hi : i ≤ kinds.length) :
    match pairsFrom family i stack (kinds.drop i) with
    | .error e => family.ClosesAt kinds e ∧ Unclosed family kinds e []
    | .ok m => (∀ r ∈ m.pairs, family.Matches kinds r) ∧
        Unclosed family kinds kinds.length m.unclosed := by
  -- on the kinds still to come, where `Unclosed` says what the stack stands for
  generalize hrest : kinds.drop i = rest
  induction rest generalizing i stack with
  | nil =>
    obtain rfl : i = kinds.length := le_antisymm hi (List.drop_eq_nil_iff.1 hrest)
    exact ⟨by simp, h⟩
  | cons k rest ih =>
    obtain ⟨hk, hrest'⟩ := of_drop_eq_cons hrest
    have hlt : i < kinds.length := (List.getElem?_eq_some_iff.1 hk).1
    by_cases hopens : family.opens k = true
    · rw [pairsFrom_opens hopens]
      exact ih (h.push ⟨k, hk, hopens⟩) hlt hrest'
    · by_cases hcloses : family.closes k = true
      · cases stack with
        | nil =>
          rw [pairsFrom_closes_nil hcloses]
          exact ⟨⟨k, hk, hcloses⟩, h⟩
        | cons o stack =>
          have hrec := ih (h.pop ⟨k, hk, hcloses⟩) hlt hrest'
          rw [pairsFrom_closes_cons hcloses]
          cases hm : pairsFrom family (i + 1) stack rest with
          | error e => rwa [hm] at hrec
          | ok m =>
            rw [hm] at hrec
            exact ⟨List.forall_mem_cons.2 ⟨h.matches_top ⟨k, hk, hcloses⟩, hrec.1⟩, hrec.2⟩
      · rw [pairsFrom_skip hopens hcloses]
        exact ih (h.skip hk hopens hcloses) hlt hrest'

/-- Brackets are balanced when the stack meets no closer without an opener and ends empty. -/
theorem balanced_iff_pairsFrom :
    family.Balanced kinds ↔ ∃ pairs, pairsFrom family 0 [] kinds = .ok ⟨pairs, []⟩ := by
  have hspec := pairsFrom_spec (.nil (.refl 0) : Unclosed family kinds 0 []) (Nat.zero_le _)
  rw [List.drop_zero] at hspec
  constructor
  · intro hbal
    obtain ⟨hend, hpos⟩ := balanced_iff.1 hbal
    cases hm : pairsFrom family 0 [] kinds with
    | error e =>
      rw [hm] at hspec
      have := hpos (e + 1)
      rw [height_succ_of_closesAt hspec.1, hspec.2.height_eq] at this
      simp at this
    | ok m =>
      rw [hm] at hspec
      rw [hspec.2.height_eq] at hend
      obtain ⟨pairs, unclosed⟩ := m
      obtain rfl : unclosed = [] := List.length_eq_zero_iff.1 (by exact_mod_cast hend)
      exact ⟨pairs, rfl⟩
  · rintro ⟨pairs, hm⟩
    rw [hm] at hspec
    have hlevel : family.Level kinds 0 kinds.length := by cases hspec.2; assumption
    refine balanced_iff.2 ⟨hlevel.1, fun i => ?_⟩
    rcases le_total i kinds.length with h | h
    · exact hlevel.2 i (Nat.zero_le i) h
    · rw [Family.height, List.take_of_length_le h, ← List.take_length (l := kinds)]
      exact hlevel.1.ge

/-! ### Every bracket has its pair -/

theorem exists_ok_of_map {ε α β : Type} {f : α → β} {x : Except ε α} {b : β}
    (h : x.map f = .ok b) : ∃ a, x = .ok a ∧ b = f a := by
  cases x with
  | error e => cases h
  | ok a => cases h; exact ⟨a, rfl, rfl⟩

theorem exists_pair_of_closesAt {i c : ℕ} {stack : List ℕ} {rest : List Kind} {m : Matching}
    (h : pairsFrom family i stack rest = .ok m) (hc : family.ClosesAt rest c) :
    ∃ r ∈ m.pairs, r.closer = i + c := by
  induction rest generalizing i c stack m with
  | nil => obtain ⟨k, hk, -⟩ := hc; simp at hk
  | cons k rest ih =>
    -- a closer that is not the first kind is found by the induction
    have hlater : ∀ {stack m}, pairsFrom family (i + 1) stack rest = .ok m → c ≠ 0 →
        ∃ r ∈ m.pairs, r.closer = i + c := by
      intro stack m hm hne
      obtain ⟨c, rfl⟩ := Nat.exists_eq_succ_of_ne_zero hne
      obtain ⟨r, hr, hrc⟩ := ih hm hc
      exact ⟨r, hr, by omega⟩
    by_cases hcloses : family.closes k = true
    · cases stack with
      | nil => rw [pairsFrom_closes_nil hcloses] at h; cases h
      | cons o stack =>
        rw [pairsFrom_closes_cons hcloses] at h
        obtain ⟨m', hm, rfl⟩ := exists_ok_of_map h
        rcases eq_or_ne c 0 with rfl | hne
        · exact ⟨⟨o, i⟩, List.mem_cons_self, rfl⟩
        · obtain ⟨r, hr, hrc⟩ := hlater hm hne
          exact ⟨r, List.mem_cons_of_mem _ hr, hrc⟩
    · have hne : c ≠ 0 := by
        rintro rfl
        obtain ⟨k', hk, hk'⟩ := hc
        cases hk
        exact hcloses hk'
      by_cases hopens : family.opens k = true
      · rw [pairsFrom_opens hopens] at h
        exact hlater h hne
      · rw [pairsFrom_skip hopens hcloses] at h
        exact hlater h hne

theorem exists_pair_of_opensAt {i o : ℕ} {stack : List ℕ} {rest : List Kind} {m : Matching}
    (h : pairsFrom family i stack rest = .ok m)
    (ho : o ∈ stack ∨ ∃ j, family.OpensAt rest j ∧ o = i + j) :
    o ∈ m.unclosed ∨ ∃ r ∈ m.pairs, r.opener = o := by
  induction rest generalizing i stack m with
  | nil =>
    cases h
    rcases ho with ho | ⟨j, ⟨k, hk, -⟩, -⟩
    · exact .inl ho
    · simp at hk
  | cons k rest ih =>
    by_cases hopens : family.opens k = true
    · rw [pairsFrom_opens hopens] at h
      refine ih h ?_
      rcases ho with ho | ⟨_ | j, hj, rfl⟩
      · exact .inl (List.mem_cons_of_mem _ ho)
      · exact .inl List.mem_cons_self
      · exact .inr ⟨j, hj, by omega⟩
    · -- an opener further on is not the first kind
      have hlater : (∃ j, family.OpensAt (k :: rest) j ∧ o = i + j) →
          ∃ j, family.OpensAt rest j ∧ o = i + 1 + j := by
        rintro ⟨_ | j, ⟨k', hk, hk'⟩, rfl⟩
        · cases hk
          exact absurd hk' hopens
        · exact ⟨j, ⟨k', hk, hk'⟩, by omega⟩
      by_cases hcloses : family.closes k = true
      · cases stack with
        | nil => rw [pairsFrom_closes_nil hcloses] at h; cases h
        | cons top stack =>
          rw [pairsFrom_closes_cons hcloses] at h
          obtain ⟨m', hm, rfl⟩ := exists_ok_of_map h
          have hrec := ih hm
          rcases ho with ho | ho
          · rcases List.mem_cons.1 ho with rfl | ho
            · exact .inr ⟨⟨o, i⟩, List.mem_cons_self, rfl⟩
            · exact (hrec (.inl ho)).imp id fun ⟨r, hr, hro⟩ => ⟨r, List.mem_cons_of_mem _ hr, hro⟩
          · exact (hrec (.inr (hlater ho))).imp id fun ⟨r, hr, hro⟩ =>
              ⟨r, List.mem_cons_of_mem _ hr, hro⟩
      · rw [pairsFrom_skip hopens hcloses] at h
        exact ih h (ho.imp id hlater)

/-- The pairs that the stack finds are those that match. -/
theorem mem_pairs_iff {m : Matching} (h : pairsFrom family 0 [] kinds = .ok m) {r : Range} :
    r ∈ m.pairs ↔ family.Matches kinds r := by
  have hspec := pairsFrom_spec (.nil (.refl 0) : Unclosed family kinds 0 []) (Nat.zero_le _)
  rw [List.drop_zero, h] at hspec
  refine ⟨hspec.1 r, fun hr => ?_⟩
  obtain ⟨s, hs, hsr⟩ := exists_pair_of_closesAt h hr.closes
  rw [Nat.zero_add] at hsr
  rwa [← (hspec.1 s hs).opener_unique hr hsr]

/-- Where brackets are balanced, each opener has a closer. -/
theorem Family.Balanced.exists_closer {o : ℕ} (h : family.Balanced kinds)
    (ho : family.OpensAt kinds o) : ∃ c, family.Matches kinds ⟨o, c⟩ := by
  obtain ⟨pairs, hm⟩ := balanced_iff_pairsFrom.1 h
  rcases exists_pair_of_opensAt hm (.inr ⟨o, ho, (Nat.zero_add o).symm⟩) with hmem | ⟨r, hr, rfl⟩
  · cases hmem
  · exact ⟨r.closer, (mem_pairs_iff hm).1 hr⟩

/-- Where brackets are balanced, each closer has an opener. -/
theorem Family.Balanced.exists_opener {c : ℕ} (h : family.Balanced kinds)
    (hc : family.ClosesAt kinds c) : ∃ o, family.Matches kinds ⟨o, c⟩ := by
  obtain ⟨pairs, hm⟩ := balanced_iff_pairsFrom.1 h
  obtain ⟨r, hr, hrc⟩ := exists_pair_of_closesAt hm hc
  obtain rfl : r.closer = c := by rw [hrc, Nat.zero_add]
  exact ⟨r.opener, (mem_pairs_iff hm).1 hr⟩

/-! ### All families -/

/-- The pairs of a family. -/
def Pairs.ofFamily (pairs : Pairs) : Family → List Range
  | .round => pairs.round
  | .square => pairs.square
  | .curly => pairs.curly

theorem pairAll_eq_ok_iff {pairs : Pairs} :
    pairAll kinds = .ok pairs ↔
      ∀ family, pairsFrom family 0 [] kinds = .ok ⟨pairs.ofFamily family, []⟩ := by
  simp only [pairAll]
  constructor
  · intro h
    split at h
    · next round square curly hround hsquare hcurly =>
      split at h
      · cases h
      · next hnone =>
        cases h
        simp only [Option.orElse_eq_orElse, Option.orElse_eq_or, Option.or_eq_none_iff,
          List.getLast?_eq_none_iff] at hnone
        obtain ⟨hr, hs, hc⟩ := hnone
        rintro (_ | _ | _)
        · rw [hround, Pairs.ofFamily, ← hr]
        · rw [hsquare, Pairs.ofFamily, ← hs]
        · rw [hcurly, Pairs.ofFamily, ← hc]
    · cases h
  · intro h
    simp only [h .round, h .square, h .curly]
    rfl

theorem mem_ofFamily_iff {pairs : Pairs} (h : pairAll kinds = .ok pairs) (family : Family)
    {r : Range} :
    r ∈ pairs.ofFamily family ↔ family.Matches kinds r :=
  mem_pairs_iff (pairAll_eq_ok_iff.1 h family)

/-- All families can be paired where each of them, on its own, is balanced. -/
theorem exists_pairAll_iff :
    (∃ pairs, pairAll kinds = .ok pairs) ↔ ∀ family : Family, family.Balanced kinds := by
  constructor
  · rintro ⟨pairs, h⟩ family
    exact balanced_iff_pairsFrom.2 ⟨_, pairAll_eq_ok_iff.1 h family⟩
  · intro h
    choose pairs hpairs using fun family => balanced_iff_pairsFrom.1 (h family)
    refine ⟨⟨pairs .round, pairs .square, pairs .curly⟩, pairAll_eq_ok_iff.2 ?_⟩
    rintro (_ | _ | _) <;> exact hpairs _

end Pairing

end EntityLint
