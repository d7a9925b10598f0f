import EntityLint.Proofs.Edit.Operation
import Mathlib

/-!
# What holds of a draft at any time

Whatever steps are run, in whatever order and however many of them are refused, a draft stays sound:
unchanged tokens have the texts of the file, staged edits are in range, and changes are counted.

* `Draft.modified`: the tokens that have been changed;
* `Draft.Sound`, `Sound.of_moves`, `Sound.of_run`: the invariant, its step and its run;
* `getElem?_eq_of_moves`: what has been changed stays as it is;
* `Draft.Refused`, `refused_of_error`: what a refused operation leaves as it was.
-/

namespace EntityLint

namespace Draft

/-- The tokens that have been changed. -/
def modified (d : Draft) : Finset ℕ := (Finset.range d.cells.size).filter fun i => d.isModified i

/-- The draft belongs to a file. -/
structure Sound (f : SourceFile) (d : Draft) : Prop where
  size : d.cells.size = f.tokens.size
  /-- A token that is not marked as changed has its text from the file. -/
  text_eq : ∀ i, d.isModified i = false → d.cells[i]?.map Cell.text = f.tokens[i]?.map Token.text
  staged_lt : ∀ x ∈ d.staged.getD [], x.1 < d.cells.size
  fixes_le : d.fixes ≤ d.modified.card
  modified_eq_empty : d.fixes = 0 → d.modified = ∅

/-- What a refused operation leaves as it was: all but the changeset, and that too unless it was to
be committed. -/
structure Refused (s : Step) (d d' : Draft) : Prop where
  cells : d'.cells = d.cells
  fixes : d'.fixes = d.fixes
  closed : s = .commit → d'.staged = none
  staged : s ≠ .commit → d'.staged = d.staged

variable {f : SourceFile} {d d' : Draft} {i : ℕ} {c : Cell}

theorem mem_modified : i ∈ d.modified ↔ d.isModified i = true := by
  rw [modified, Finset.mem_filter, Finset.mem_range, and_iff_right_iff_imp]
  intro h
  by_contra hi
  rw [isModified, Array.getElem?_eq_none (not_lt.1 hi)] at h
  cases h

theorem isModified_of_getElem? (h : d.cells[i]? = some c) : d.isModified i = c.modified := by
  rw [isModified, h]
  rfl

/-! ### Changed tokens -/

/-- A token that has been changed keeps its text and its mark. -/
theorem Moves.getElem?_eq (h : Moves d d') (hc : d.cells[i]? = some c) (hm : c.modified = true) :
    d'.cells[i]? = some c := by
  cases h with
  | stage staged _ => exact hc
  | make edits _ _ hnew =>
    have hlookup : edits.lookup i = none := by
      refine List.lookup_eq_none_iff.2 fun x hx => bne_iff_ne.2 ?_
      rintro rfl
      have := hnew x hx
      rw [isModified_of_getElem? hc, hm] at this
      cases this
    rw [getElem?_make, hc, hlookup]
    rfl

theorem getElem?_eq_of_moves (h : Relation.ReflTransGen Moves d d') (hc : d.cells[i]? = some c)
    (hm : c.modified = true) : d'.cells[i]? = some c := by
  induction h with
  | refl => exact hc
  | tail _ hmove ih => exact hmove.getElem?_eq ih hm

/-- Made edits change tokens that have not been changed before. -/
theorem card_modified_lt {edits : List (ℕ × Text)} (hne : edits ≠ [])
    (hlt : ∀ x ∈ edits, x.1 < d.cells.size) (hnew : ∀ x ∈ edits, d.isModified x.1 = false) :
    d.modified.card < (d.make edits).modified.card := by
  obtain ⟨x, hx⟩ := List.exists_mem_of_ne_nil edits hne
  refine Finset.card_lt_card (Finset.ssubset_iff_of_subset ?_ |>.2 ⟨x.1, ?_, ?_⟩)
  · intro i hi
    exact mem_modified.2 (isModified_make.2 (.inl (mem_modified.1 hi)))
  · exact mem_modified.2 (isModified_make.2 (.inr ⟨hlt x hx, x, hx, rfl⟩))
  · rw [mem_modified, hnew x hx]
    exact Bool.false_ne_true

/-! ### Soundness -/

theorem sound_ofFile (f : SourceFile) (fixing : Bool) : Sound f (ofFile f fixing) := by
  have hnot : ∀ i, (ofFile f fixing).isModified i = false := by
    intro i
    rw [isModified, ofFile, Array.getElem?_map]
    cases f.tokens[i]? <;> rfl
  have hempty : (ofFile f fixing).modified = ∅ := by
    refine Finset.eq_empty_of_forall_notMem fun i hi => ?_
    rw [mem_modified, hnot i] at hi
    cases hi
  constructor
  case size => exact Array.size_map
  case text_eq =>
    intro i _
    rw [ofFile, Array.getElem?_map, Option.map_map]
    rfl
  case staged_lt => exact fun _ hx => by cases hx
  case fixes_le => exact Nat.zero_le _
  case modified_eq_empty => exact fun _ => hempty

theorem Sound.of_moves (hd : Sound f d) (h : Moves d d') : Sound f d' := by
  have hlt : ∀ x : ℕ × Text, x ∈ d.staged.getD [] ∨ x.1 < d.cells.size → x.1 < d.cells.size :=
    fun x hx => hx.elim (hd.staged_lt x) id
  cases h with
  | stage staged hstaged =>
    exact ⟨hd.size, hd.text_eq, fun x hx => hlt x (hstaged x hx), hd.fixes_le,
      hd.modified_eq_empty⟩
  | make edits hne hstaged hnew =>
    have hcard := card_modified_lt hne (fun x hx => hlt x (hstaged x hx)) hnew
    constructor
    case size => rw [size_make, hd.size]
    case text_eq =>
      intro i hi
      have hnot := not_or.1 (mt isModified_make.2 (Bool.eq_false_iff.1 hi))
      rw [← hd.text_eq i (Bool.eq_false_iff.2 hnot.1), getElem?_make]
      -- a token that is not marked has not been among the edits
      rcases lt_or_ge i d.cells.size with hlt | hge
      · have hlookup : edits.lookup i = none :=
          List.lookup_eq_none_iff.2 fun x hx => bne_iff_ne.2 fun h => hnot.2 ⟨hlt, x, hx, h.symm⟩
        rw [hlookup, Option.map_map]
        rfl
      · rw [Array.getElem?_eq_none hge]
        rfl
    case staged_lt =>
      rw [staged_make]
      exact fun _ hx => by cases hx
    case fixes_le =>
      have := hd.fixes_le
      rw [fixes_make]
      omega
    case modified_eq_empty => exact fun h => by cases h

theorem Sound.of_run (hd : Sound f d) (h : Relation.ReflTransGen Moves d d') : Sound f d' := by
  induction h with
  | refl => exact hd
  | tail _ hmove ih => exact ih.of_moves hmove

theorem refused_of_error {s : Step} {e : EditError} (hs : s.isPrimitive = true)
    (h : (s.run d).1 = .error e) : Refused s d (s.run d).2 := by
  obtain ⟨hcommit, hother⟩ := run_of_error hs h
  by_cases hs' : s = .commit
  · rw [hcommit hs']
    exact ⟨rfl, rfl, fun _ => rfl, fun hne => absurd hs' hne⟩
  · rw [hother hs']
    exact ⟨rfl, rfl, fun heq => absurd heq hs', fun _ => rfl⟩

end Draft

open Draft

/-- **After any steps a draft is sound**, what has been changed stays as it is whatever steps
follow, and an operation that is then refused leaves all texts, all marks and the count as they
were. -/
theorem sound_of_steps (f : SourceFile) (fixing : Bool) (steps : List Step) :
    let d := (ofFile f fixing).after steps
    Sound f d ∧
    (∀ (more : List Step) (i : ℕ) (c : Cell), d.cells[i]? = some c → c.modified = true →
      ((ofFile f fixing).after (steps ++ more)).cells[i]? = some c) ∧
    (∀ (s : Step) (e : EditError), s.isPrimitive = true → (s.run d).1 = .error e →
      Refused s d (s.run d).2) := by
  intro d
  refine ⟨(sound_ofFile f fixing).of_run (moves_after _ steps), fun more i c hc hm => ?_,
    fun s e => refused_of_error⟩
  rw [after_append]
  exact getElem?_eq_of_moves (moves_after d more) hc hm

/-- A token that has been replaced keeps its text, and a further edit of it is refused. -/
theorem sound_of_replace : ∃ f d, SourceFile.parse "a.php" "<?php $a;".toList = .ok f ∧
    d = (ofFile f true).after [.edit (.replace 2 ['b'])] ∧ Sound f d ∧
    (d.after [.rollback]).cells[2]? = some ⟨['b'], true⟩ ∧
    ((Step.edit (.append 2 ['c'])).run d).1 = .error (.conflict 2) ∧
    Refused (.edit (.append 2 ['c'])) d ((Step.edit (.append 2 ['c'])).run d).2 := by
  obtain ⟨f, h, hcell, herror⟩ : ∃ f, SourceFile.parse "a.php" "<?php $a;".toList = .ok f ∧
      ((ofFile f true).after [.edit (.replace 2 ['b'])]).cells[2]? = some ⟨['b'], true⟩ ∧
      ((Step.edit (.append 2 ['c'])).run
        ((ofFile f true).after [.edit (.replace 2 ['b'])])).1 = .error (.conflict 2) :=
    ⟨_, by cbv, by cbv, by cbv⟩
  obtain ⟨hsound, hkeeps, hrefused⟩ := sound_of_steps f true [.edit (.replace 2 ['b'])]
  exact ⟨f, _, h, rfl, hsound, hkeeps [.rollback] 2 _ hcell rfl, herror,
    hrefused _ _ rfl herror⟩

end EntityLint
