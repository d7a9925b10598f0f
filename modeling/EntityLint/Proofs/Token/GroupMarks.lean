import EntityLint.Proofs.Token.Group

/-!
# Marks of attribute groups

A token carries the outermost attribute group around it. The same comes out where the groups are
marked turn by turn while square brackets are paired: an opener is written on the tokens behind it
until some group closes, and when a group closes, it is written on all of its tokens. What is written
of a group that is still open may be that of an inner group, or missing, but all of it is written
over when the group closes.

* `IsOutermost`, `attributesFrom_eq_some_iff`: the outermost range around an index;
* `Marking`, `Marking.turn`, `Marking.run`: what is written on the tokens, turn by turn;
* `Marking.Fits`, `Fits.turn`, `Fits.run`: what is known of it before a turn.

The main statement is `marks_ofKinds`.
-/

namespace EntityLint

namespace Pairing

variable {ranges : List Range} {kinds : List Kind} {i j : ℕ} {g r : Range}

/-! ### The outermost range -/

/-- The outermost one of some ranges around an index. -/
structure IsOutermost (P : Range → Prop) (i : ℕ) (g : Range) : Prop where
  mem : P g
  opener_le : g.opener ≤ i
  le_closer : i ≤ g.closer
  outermost : ∀ r, P r → r.opener ≤ i → i ≤ r.closer → g.opener ≤ r.opener ∧ r.closer ≤ g.closer

/-- Each token of a group carries a group around this one. -/
theorem exists_attributesFrom_of_mem (hranges : ∀ r ∈ ranges, Family.square.Matches kinds r)
    (hr : r ∈ ranges) (hle : r.opener ≤ i) (hge : i ≤ r.closer) :
    ∃ g ∈ ranges, g.opener ≤ r.opener ∧ r.closer ≤ g.closer ∧
      (attributesFrom ranges 0 none kinds)[i]? = some (some g) := by
  obtain ⟨g, hg, hopener, hcloser, hcarry, -⟩ := exists_group_around hranges hr
  have hlt : i < kinds.length := hge.trans_lt (lt_length_of_closesAt (hranges r hr).closes)
  exact ⟨g, hg, hopener, hcloser, attributesFrom_eq_of_le hcarry hle (hge.trans hcloser) hlt⟩

/-- A token carries the outermost group around it. -/
theorem attributesFrom_eq_some_iff (hranges : ∀ r ∈ ranges, Family.square.Matches kinds r) :
    (attributesFrom ranges 0 none kinds)[i]? = some (some g) ↔ IsOutermost (· ∈ ranges) i g := by
  constructor
  · intro hcarry
    obtain ⟨hg, hle, hge⟩ := mem_of_attributesFrom (fun r hr => (hranges r hr).lt)
      (fun r hr => by cases hr) hcarry
    rw [Nat.zero_add] at hle hge
    refine ⟨hg, hle, hge, fun r hr hopener hcloser => ?_⟩
    obtain ⟨g', -, hle', hge', hcarry'⟩ := exists_attributesFrom_of_mem hranges hr hopener hcloser
    obtain rfl : g = g' := by simpa using hcarry.symm.trans hcarry'
    exact ⟨hle', hge'⟩
  · rintro ⟨hg, hle, hge, houtermost⟩
    obtain ⟨g', hg', hle', hge', hcarry⟩ := exists_attributesFrom_of_mem hranges hg hle hge
    obtain ⟨hopener, hcloser⟩ := houtermost g' hg' (hle'.trans hle) (hge.trans hge')
    have hsame : g.opener = g'.opener := Nat.le_antisymm hopener hle'
    rwa [(hranges g hg).closer_unique (hranges g' hg') hsame]

/-! ### Marking turn by turn -/

/-- What is written on the tokens while square brackets are paired. -/
structure Marking where
  /-- The openers that wait for their closers, the innermost first, and whether they open groups. -/
  stack : List (ℕ × Bool)
  /-- The opener that is written on the tokens to come. -/
  current : Option ℕ
  /-- The opener that is written on each token. -/
  opener : ℕ → Option ℕ
  /-- The closer that is written on each token. -/
  closer : ℕ → Option ℕ
  /-- Whether a token has been found to be the end of a group. -/
  isEnd : ℕ → Bool

namespace Marking

/-- Nothing is written yet. -/
def blank : Marking := ⟨[], none, fun _ => none, fun _ => none, fun _ => false⟩

/-- The current opener is written on a token, if there is one. -/
def carry (m : Marking) (i : ℕ) : Marking :=
  { m with opener := Function.update m.opener i (m.current.or (m.opener i)) }

theorem opener_carry_self (m : Marking) (i : ℕ) :
    (m.carry i).opener i = m.current.or (m.opener i) :=
  Function.update_self ..

theorem opener_carry_of_ne (m : Marking) (h : j ≠ i) : (m.carry i).opener j = m.opener j :=
  Function.update_of_ne h ..

/-- A square bracket opens at a token. -/
def openAt (m : Marking) (i : ℕ) : Marking := { m with stack := (i, false) :: m.stack }

/-- A group opens at a token, which is written on it. -/
def openGroup (m : Marking) (i : ℕ) : Marking :=
  { m with
    stack := (i, true) :: m.stack
    current := some i
    opener := Function.update m.opener i (some i) }

theorem opener_openGroup_self (m : Marking) (i : ℕ) : (m.openGroup i).opener i = some i :=
  Function.update_self ..

theorem opener_openGroup_of_ne (m : Marking) (h : j ≠ i) :
    (m.openGroup i).opener j = m.opener j :=
  Function.update_of_ne h ..

/-- A group closes, and is written on all of its tokens. -/
def closeGroup (m : Marking) (r : Range) (stack : List (ℕ × Bool)) : Marking where
  stack := stack
  current := none
  opener j := if r.opener ≤ j ∧ j ≤ r.closer then some r.opener else m.opener j
  closer j := if r.opener ≤ j ∧ j ≤ r.closer then some r.closer else m.closer j
  isEnd := Function.update m.isEnd r.closer true

/-- A square bracket closes at a token. -/
def closeAt (m : Marking) (i : ℕ) : Marking :=
  match m.stack with
  | [] => m
  | (o, true) :: stack => m.closeGroup ⟨o, i⟩ stack
  | (_, false) :: stack => { m with stack }

/-- The turn of a token. -/
def turn (m : Marking) (i : ℕ) : Kind → Marking
  | .openSquare => (m.carry i).openAt i
  | .attributeOpen => (m.carry i).openGroup i
  | .closeSquare => (m.carry i).closeAt i
  | _ => m.carry i

/-- The turns of the tokens from an index on. -/
def run (m : Marking) (i : ℕ) : List Kind → Marking
  | [] => m
  | k :: kinds => (m.turn i k).run (i + 1) kinds

/-- What is written on the tokens in the end. -/
def ofKinds (kinds : List Kind) : Marking := blank.run 0 kinds

/-! ### What is known before a turn -/

/-- A group has ended before an index. -/
def Ended (ranges : List Range) (i : ℕ) (r : Range) : Prop := r ∈ ranges ∧ r.closer < i

/-- What is written when all brackets before index `i` are paired and the current opener has been
written on the tokens before index `n`. On the tokens of groups that have ended it is the outermost of
these groups; on others it is nothing, or the opener of a group that is still open there. -/
structure Fits (m : Marking) (kinds : List Kind) (ranges : List Range) (i n : ℕ) : Prop where
  unclosed : Unclosed .square kinds i (m.stack.map Prod.fst)
  stack : ∀ x ∈ m.stack, x.1 < i ∧ (x.2 = true ↔ kinds[x.1]? = some .attributeOpen)
  current : ∀ a ∈ m.current, (a, true) ∈ m.stack
  isEnd : ∀ j, m.isEnd j = true ↔ ∃ r, Ended ranges i r ∧ r.closer = j
  ended : ∀ j g, IsOutermost (Ended ranges i) j g →
    m.opener j = some g.opener ∧ m.closer j = some g.closer
  waiting : ∀ j, (∀ r, Ended ranges i r → ¬(r.opener ≤ j ∧ j ≤ r.closer)) →
    m.closer j = none ∧ ∀ a ∈ m.opener j, (a, true) ∈ m.stack ∧ a ≤ j ∧ j < n

theorem fits_blank (kinds : List Kind) (ranges : List Range) : blank.Fits kinds ranges 0 0 where
  unclosed := .nil (.refl 0)
  stack := nofun
  current := nofun
  isEnd _ := iff_of_false Bool.false_ne_true fun ⟨_, hr, _⟩ => Nat.not_lt_zero _ hr.2
  ended _ _ hg := absurd hg.mem.2 (Nat.not_lt_zero _)
  waiting _ _ := ⟨rfl, nofun⟩

/-- Where no group ends at an index, the same groups have ended behind it. -/
theorem ended_succ (hno : ∀ r ∈ ranges, r.closer ≠ i) : Ended ranges (i + 1) = Ended ranges i := by
  funext r
  refine propext (and_congr_right fun hr => ?_)
  have := hno r hr
  omega

namespace Fits

variable {m : Marking} {k : Kind}

/-- Only a token behind all groups that have ended is written on with the current opener. -/
theorem carry (h : m.Fits kinds ranges i i) : (m.carry i).Fits kinds ranges i (i + 1) where
  unclosed := h.unclosed
  stack := h.stack
  current := h.current
  isEnd := h.isEnd
  ended j g hg := by
    have hlt : j < i := hg.le_closer.trans_lt hg.mem.2
    obtain ⟨hopener, hcloser⟩ := h.ended j g hg
    exact ⟨(m.opener_carry_of_ne hlt.ne).trans hopener, hcloser⟩
  waiting j hj := by
    obtain ⟨hnone, hopener⟩ := h.waiting j hj
    refine ⟨hnone, fun a ha => ?_⟩
    by_cases hji : j = i
    · subst hji
      rw [opener_carry_self, Option.mem_def, Option.or_eq_some_iff] at ha
      rcases ha with ha | ⟨-, ha⟩
      · exact ⟨h.current a ha, (h.stack _ (h.current a ha)).1.le, Nat.lt_succ_self j⟩
      · exact absurd (hopener a ha).2.2 (lt_irrefl j)
    · rw [opener_carry_of_ne m hji] at ha
      obtain ⟨hmem, hle, hlt⟩ := hopener a ha
      exact ⟨hmem, hle, Nat.lt_succ_of_lt hlt⟩

variable (h : m.Fits kinds ranges i (i + 1))

include h

/-- Openers that wait are before the next index, too. -/
theorem stack_succ : ∀ x ∈ m.stack,
    x.1 < i + 1 ∧ (x.2 = true ↔ kinds[x.1]? = some .attributeOpen) := fun x hx =>
  ⟨Nat.lt_succ_of_lt (h.stack x hx).1, (h.stack x hx).2⟩

/-- What is written does not change with the stack, if the same groups wait on it. -/
theorem restack {stack : List (ℕ × Bool)} (hno : ∀ r ∈ ranges, r.closer ≠ i)
    (hunclosed : Unclosed .square kinds (i + 1) (stack.map Prod.fst))
    (hstack : ∀ x ∈ stack, x.1 < i + 1 ∧ (x.2 = true ↔ kinds[x.1]? = some .attributeOpen))
    (hmem : ∀ a, (a, true) ∈ m.stack → (a, true) ∈ stack) :
    { m with stack }.Fits kinds ranges (i + 1) (i + 1) where
  unclosed := hunclosed
  stack := hstack
  current a ha := hmem a (h.current a ha)
  isEnd := by
    rw [ended_succ hno]
    exact h.isEnd
  ended := by
    rw [ended_succ hno]
    exact h.ended
  waiting j hj := by
    rw [ended_succ hno] at hj
    obtain ⟨hnone, hopener⟩ := h.waiting j hj
    exact ⟨hnone, fun a ha => ⟨hmem a (hopener a ha).1, (hopener a ha).2⟩⟩

theorem skip (hno : ∀ r ∈ ranges, r.closer ≠ i) (hk : kinds[i]? = some k)
    (hopens : ¬Family.square.opens k = true) (hcloses : ¬Family.square.closes k = true) :
    m.Fits kinds ranges (i + 1) (i + 1) :=
  h.restack hno (h.unclosed.skip hk hopens hcloses) h.stack_succ fun _ => id

theorem openAt (hno : ∀ r ∈ ranges, r.closer ≠ i) (hk : kinds[i]? = some .openSquare) :
    (m.openAt i).Fits kinds ranges (i + 1) (i + 1) := by
  refine h.restack hno (h.unclosed.push ⟨_, hk, rfl⟩) ?_ fun a => List.mem_cons_of_mem _
  exact List.forall_mem_cons.2 ⟨⟨Nat.lt_succ_self i, by simp [hk]⟩, h.stack_succ⟩

/-- A square bracket closes that opens no group. -/
theorem closeBracket {o : ℕ} {stack : List (ℕ × Bool)} (hstack : m.stack = (o, false) :: stack)
    (hno : ∀ r ∈ ranges, r.closer ≠ i) (hk : kinds[i]? = some .closeSquare) :
    { m with stack }.Fits kinds ranges (i + 1) (i + 1) := by
  have hunclosed := h.unclosed
  have hsucc := h.stack_succ
  rw [hstack] at hunclosed hsucc
  refine h.restack hno (hunclosed.pop ⟨_, hk, rfl⟩) (List.forall_mem_cons.1 hsucc).2 fun a ha => ?_
  rw [hstack] at ha
  simpa using ha

theorem openGroup (hno : ∀ r ∈ ranges, r.closer ≠ i) (hk : kinds[i]? = some .attributeOpen) :
    (m.openGroup i).Fits kinds ranges (i + 1) (i + 1) where
  unclosed := h.unclosed.push ⟨_, hk, rfl⟩
  stack := List.forall_mem_cons.2 ⟨⟨Nat.lt_succ_self i, by simp [hk]⟩, h.stack_succ⟩
  current a ha := by
    cases ha
    exact List.mem_cons_self
  isEnd := by
    rw [ended_succ hno]
    exact h.isEnd
  ended j g hg := by
    rw [ended_succ hno] at hg
    have hlt : j < i := hg.le_closer.trans_lt hg.mem.2
    obtain ⟨hopener, hcloser⟩ := h.ended j g hg
    exact ⟨(m.opener_openGroup_of_ne hlt.ne).trans hopener, hcloser⟩
  waiting j hj := by
    rw [ended_succ hno] at hj
    obtain ⟨hnone, hopener⟩ := h.waiting j hj
    refine ⟨hnone, fun a ha => ?_⟩
    by_cases hji : j = i
    · subst hji
      rw [opener_openGroup_self] at ha
      cases ha
      exact ⟨List.mem_cons_self, le_rfl, Nat.lt_succ_self j⟩
    · rw [opener_openGroup_of_ne m hji] at ha
      exact ⟨List.mem_cons_of_mem _ (hopener a ha).1, (hopener a ha).2⟩

/-- A group closes. What was written on its tokens is written over. -/
theorem closeGroup {o : ℕ} {stack : List (ℕ × Bool)} (hstack : m.stack = (o, true) :: stack)
    (hend : ∀ r, r ∈ ranges ∧ r.closer = i ↔ r = ⟨o, i⟩) (hk : kinds[i]? = some .closeSquare) :
    (m.closeGroup ⟨o, i⟩ stack).Fits kinds ranges (i + 1) (i + 1) := by
  have hended : ∀ r, Ended ranges (i + 1) r ↔ Ended ranges i r ∨ r = ⟨o, i⟩ := by
    intro r
    rw [← hend r, Ended, Ended, ← and_or_left]
    exact and_congr_right fun _ => Nat.lt_succ_iff_lt_or_eq
  have hgroup : Ended ranges (i + 1) ⟨o, i⟩ := (hended _).2 (.inr rfl)
  constructor
  case unclosed =>
    have hunclosed := h.unclosed
    rw [hstack] at hunclosed
    exact hunclosed.pop ⟨_, hk, rfl⟩
  case stack => exact fun x hx => h.stack_succ x (hstack ▸ List.mem_cons_of_mem _ hx)
  case current => exact nofun
  case isEnd =>
    intro j
    by_cases hji : j = i
    · subst hji
      exact iff_of_true (Function.update_self ..) ⟨_, hgroup, rfl⟩
    · have hsame : (m.closeGroup ⟨o, i⟩ stack).isEnd j = m.isEnd j := Function.update_of_ne hji _ _
      rw [hsame, h.isEnd j]
      refine exists_congr fun r => ⟨fun ⟨hr, hj⟩ => ⟨(hended r).2 (.inl hr), hj⟩, ?_⟩
      rintro ⟨hr, rfl⟩
      rcases (hended r).1 hr with hr | rfl
      · exact ⟨hr, rfl⟩
      · exact absurd rfl hji
  case ended =>
    intro j g hg
    by_cases hj : o ≤ j ∧ j ≤ i
    · -- no group around the one that closes has ended
      obtain ⟨-, hle⟩ := hg.outermost _ hgroup hj.1 hj.2
      obtain rfl := (hend g).1 ⟨hg.mem.1, Nat.le_antisymm (Nat.le_of_lt_succ hg.mem.2) hle⟩
      exact ⟨if_pos hj, if_pos hj⟩
    · have hbefore : IsOutermost (Ended ranges i) j g := by
        refine ⟨((hended g).1 hg.mem).resolve_right ?_, hg.opener_le, hg.le_closer, fun r hr =>
          hg.outermost r ((hended r).2 (.inl hr))⟩
        rintro rfl
        exact hj ⟨hg.opener_le, hg.le_closer⟩
      obtain ⟨hopener, hcloser⟩ := h.ended j g hbefore
      exact ⟨(if_neg hj).trans hopener, (if_neg hj).trans hcloser⟩
  case waiting =>
    intro j hj
    have hout : ¬(o ≤ j ∧ j ≤ i) := hj _ hgroup
    obtain ⟨hnone, hopener⟩ := h.waiting j fun r hr => hj r ((hended r).2 (.inl hr))
    refine ⟨(if_neg hout).trans hnone, fun a ha => ?_⟩
    obtain ⟨hmem, hle, hlt⟩ := hopener a ((if_neg hout).symm.trans ha)
    refine ⟨?_, hle, hlt⟩
    rw [hstack] at hmem
    rcases List.mem_cons.1 hmem with heq | hmem
    · cases heq
      exact absurd ⟨hle, Nat.le_of_lt_succ hlt⟩ hout
    · exact hmem

end Fits

/-! ### All turns -/

theorem square_opens_iff {k : Kind} :
    Family.square.opens k = true ↔ k = .openSquare ∨ k = .attributeOpen := by
  cases k <;> simp [Family.opens]

/-- Where brackets are balanced, an opener waits for each closer. -/
theorem ne_nil_of_unclosed {family : Family} {stack : List ℕ} (hbalanced : family.Balanced kinds)
    (h : Unclosed family kinds i stack) (hcloses : family.ClosesAt kinds i) : stack ≠ [] := by
  rintro rfl
  have hheight := (balanced_iff.1 hbalanced).2 (i + 1)
  rw [height_succ_of_closesAt hcloses, h.height_eq] at hheight
  simp at hheight

/-- Where brackets are balanced, no opener waits in the end. -/
theorem eq_nil_of_unclosed {family : Family} {stack : List ℕ} (hbalanced : family.Balanced kinds)
    (h : Unclosed family kinds kinds.length stack) : stack = [] := by
  have hheight := (balanced_iff.1 hbalanced).1
  rw [h.height_eq] at hheight
  exact List.length_eq_zero_iff.1 (by exact_mod_cast hheight)

section Turns

variable (hbalanced : Family.square.Balanced kinds)
  (hranges : ∀ r, r ∈ ranges ↔
    Family.square.Matches kinds r ∧ kinds[r.opener]? = some .attributeOpen)

include hbalanced hranges

namespace Fits

variable {m : Marking} {k : Kind}

theorem closeAt (h : m.Fits kinds ranges i (i + 1)) (hk : kinds[i]? = some .closeSquare) :
    (m.closeAt i).Fits kinds ranges (i + 1) (i + 1) := by
  have hcloses : Family.square.ClosesAt kinds i := ⟨_, hk, rfl⟩
  have hunclosed := h.unclosed
  have hopens := h.stack
  unfold Marking.closeAt
  split
  · next hnil =>
    rw [hnil] at hunclosed
    exact absurd rfl (ne_nil_of_unclosed hbalanced hunclosed hcloses)
  · next o stack hstack =>
    rw [hstack] at hunclosed hopens
    have hmatches : Family.square.Matches kinds ⟨o, i⟩ := hunclosed.matches_top hcloses
    refine h.closeGroup hstack (fun r => ⟨fun ⟨hr, hi⟩ => ?_, ?_⟩) hk
    · exact ((hranges r).1 hr).1.opener_unique hmatches hi
    · rintro rfl
      exact ⟨(hranges _).2 ⟨hmatches, (hopens _ List.mem_cons_self).2.1 rfl⟩, rfl⟩
  · next o stack hstack =>
    rw [hstack] at hunclosed hopens
    have hmatches : Family.square.Matches kinds ⟨o, i⟩ := hunclosed.matches_top hcloses
    refine h.closeBracket hstack (fun r hr hi => ?_) hk
    obtain ⟨hr, hgroup⟩ := (hranges r).1 hr
    obtain rfl := hr.opener_unique hmatches hi
    exact absurd ((hopens _ List.mem_cons_self).2.2 hgroup) Bool.false_ne_true

/-- **One turn.** -/
theorem turn (h : m.Fits kinds ranges i i) (hk : kinds[i]? = some k) :
    (m.turn i k).Fits kinds ranges (i + 1) (i + 1) := by
  have hno : k ≠ .closeSquare → ∀ r ∈ ranges, r.closer ≠ i := by
    rintro hne r hr rfl
    exact hne (square_closes_iff.1 ((closesAt_iff hk).1 ((hranges r).1 hr).1.closes))
  unfold Marking.turn
  split
  · exact h.carry.openAt (hno nofun) hk
  · exact h.carry.openGroup (hno nofun) hk
  · exact h.carry.closeAt hbalanced hranges hk
  · next hopen hgroup hclose =>
    exact h.carry.skip (hno hclose) hk
      (fun hopens => (square_opens_iff.1 hopens).elim hopen hgroup)
      fun hcloses => hclose (square_closes_iff.1 hcloses)

/-- **All turns.** -/
theorem run {rest : List Kind} (h : m.Fits kinds ranges i i) (hi : i ≤ kinds.length)
    (hrest : kinds.drop i = rest) :
    (m.run i rest).Fits kinds ranges kinds.length kinds.length := by
  induction rest generalizing m i with
  | nil =>
    obtain rfl : i = kinds.length := le_antisymm hi (List.drop_eq_nil_iff.1 hrest)
    exact h
  | cons k rest ih =>
    obtain ⟨hk, hrest⟩ := of_drop_eq_cons hrest
    exact ih (h.turn hbalanced hranges hk) (List.getElem?_eq_some_iff.1 hk).1 hrest

end Fits

/-- **What is written in the end is the outermost group around each token**, and the closers of groups
have been found to be their ends. -/
theorem marks_ofKinds (j : ℕ) :
    (ofKinds kinds).opener j =
        (((attributesFrom ranges 0 none kinds)[j]?).getD none).map Range.opener ∧
      (ofKinds kinds).closer j =
        (((attributesFrom ranges 0 none kinds)[j]?).getD none).map Range.closer ∧
      ((ofKinds kinds).isEnd j = true ↔ ∃ r ∈ ranges, r.closer = j) := by
  have hfits := (fits_blank kinds ranges).run hbalanced hranges (Nat.zero_le _) List.drop_zero
  have hmatches := fun r hr => ((hranges r).1 hr).1
  have hall : ∀ r, Ended ranges kinds.length r ↔ r ∈ ranges := fun r =>
    ⟨And.left, fun hr => ⟨hr, lt_length_of_closesAt (hmatches r hr).closes⟩⟩
  have hisEnd := hfits.isEnd j
  simp only [hall] at hisEnd
  rw [← and_assoc]
  refine ⟨?_, hisEnd⟩
  cases hcarry : ((attributesFrom ranges 0 none kinds)[j]?).getD none with
  | some g =>
    have hsome : (attributesFrom ranges 0 none kinds)[j]? = some (some g) := by
      cases hat : (attributesFrom ranges 0 none kinds)[j]? <;> rw [hat] at hcarry <;> cases hcarry
      rfl
    obtain ⟨hmem, hle, hge, houtermost⟩ := (attributesFrom_eq_some_iff hmatches).1 hsome
    exact hfits.ended j g ⟨(hall g).2 hmem, hle, hge, fun r hr => houtermost r ((hall r).1 hr)⟩
  | none =>
    have hout : ∀ r, Ended ranges kinds.length r → ¬(r.opener ≤ j ∧ j ≤ r.closer) := by
      rintro r hr ⟨hle, hge⟩
      obtain ⟨g, -, -, -, hg⟩ :=
        exists_attributesFrom_of_mem hmatches ((hall r).1 hr) hle hge
      rw [hg] at hcarry
      cases hcarry
    obtain ⟨hcloser, hopener⟩ := hfits.waiting j hout
    have hstack := eq_nil_of_unclosed hbalanced hfits.unclosed
    refine ⟨Option.eq_none_iff_forall_not_mem.2 fun a ha => ?_, hcloser⟩
    have hmem := (hopener a ha).1
    rw [List.map_eq_nil_iff.1 hstack] at hmem
    cases hmem

end Turns

end Marking

end Pairing

end EntityLint
