import EntityLint.Edit.Draft
import Mathlib.Data.Finset.Card
import Mathlib.Logic.Relation

/-!
# What the operations of a draft do

An operation either restages edits or makes edits for good. Both are said once, for all operations,
and every run of steps is made of them.

* `Draft.make`, `getElem?_make`: some edits made at once;
* `commit_cases`, `edit_cases`: what the operations answer, case by case;
* `Draft.Moves`, `moves_run`: what a step makes of a draft;
* `Draft.after`, `moves_after`: what a run of steps makes of a draft, whatever is refused;
* `run_of_error`: what a refused step leaves behind.
-/

namespace EntityLint

namespace Draft

variable {d : Draft} {edits : List (ℕ × Text)} {i : ℕ}

/-! ### Made edits -/

/-- The draft after some edits, the latest first. -/
def writeAll (d : Draft) (edits : List (ℕ × Text)) : Draft :=
  edits.foldr (fun (i, text) d => d.write i text) d

/-- The draft after some edits are made as one change. -/
def make (d : Draft) (edits : List (ℕ × Text)) : Draft :=
  { d.rollback.writeAll edits with fixes := d.fixes + 1 }

@[simp] theorem staged_writeAll : (d.writeAll edits).staged = d.staged := by
  induction edits with
  | nil => rfl
  | cons x edits ih => exact ih

@[simp] theorem size_writeAll : (d.writeAll edits).cells.size = d.cells.size := by
  induction edits with
  | nil => rfl
  | cons x edits ih => exact Array.size_setIfInBounds.trans ih

@[simp] theorem lineEnd_writeAll : (d.writeAll edits).lineEnd = d.lineEnd := by
  induction edits with
  | nil => rfl
  | cons x edits ih => exact ih

theorem getElem?_write (text : Text) (j : ℕ) :
    (d.write i text).cells[j]? = if i = j then d.cells[j]?.map fun _ => ⟨text, true⟩
      else d.cells[j]? := by
  rw [write, Array.getElem?_setIfInBounds]
  split_ifs with hij hi
  · subst hij
    rw [Array.getElem?_eq_getElem hi, Option.map_some]
  · subst hij
    rw [Array.getElem?_eq_none (Nat.le_of_not_lt hi), Option.map_none]
  · rfl

/-- A cell takes the latest text that it is given. -/
theorem getElem?_writeAll (i : ℕ) : (d.writeAll edits).cells[i]? =
    d.cells[i]?.map fun c => (edits.lookup i).elim c fun text => ⟨text, true⟩ := by
  induction edits with
  | nil => exact Option.map_id'.symm
  | cons x edits ih =>
    obtain ⟨j, text⟩ := x
    show ((d.writeAll edits).write j text).cells[i]? = _
    rw [getElem?_write, ih, List.lookup_cons]
    by_cases hij : i = j
    · subst hij
      rw [if_pos rfl, beq_self_eq_true, Option.map_map]
      rfl
    · rw [if_neg (Ne.symm hij), beq_eq_false_iff_ne.2 hij]

@[simp] theorem staged_make : (d.make edits).staged = none := staged_writeAll

@[simp] theorem size_make : (d.make edits).cells.size = d.cells.size := size_writeAll

@[simp] theorem lineEnd_make : (d.make edits).lineEnd = d.lineEnd := lineEnd_writeAll

@[simp] theorem fixes_make : (d.make edits).fixes = d.fixes + 1 := rfl

theorem getElem?_make (i : ℕ) : (d.make edits).cells[i]? =
    d.cells[i]?.map fun c => (edits.lookup i).elim c fun text => ⟨text, true⟩ :=
  getElem?_writeAll i

theorem isModified_make : (d.make edits).isModified i = true ↔
    d.isModified i = true ∨ i < d.cells.size ∧ ∃ x ∈ edits, x.1 = i := by
  have hmem : (edits.lookup i).isSome = true ↔ ∃ x ∈ edits, x.1 = i := by
    rw [List.lookup_isSome_iff]
    exact exists_congr fun x => and_congr_right fun _ => beq_iff_eq.trans eq_comm
  rw [isModified, isModified, getElem?_make, ← hmem]
  rcases lt_or_ge i d.cells.size with hi | hi
  · rw [Array.getElem?_eq_getElem hi]
    cases edits.lookup i <;> simp [hi]
  · rw [Array.getElem?_eq_none hi]
    simp [Nat.not_lt.2 hi]

theorem rollback_of_staged_eq_none (h : d.staged = none) : d.rollback = d := by
  rw [rollback, ← h]

/-! ### Case by case -/

theorem commit_cases (d : Draft) :
    (d.staged = none ∧ d.commit = (.error .noChangeset, d)) ∨
    ∃ edits, d.staged = some edits ∧
      ((∃ x, (edits.reverse.find? fun x => d.isModified x.1) = some x ∧
        d.commit = (.error (.conflict x.1), d.rollback)) ∨
      (∀ x ∈ edits, d.isModified x.1 = false) ∧
        (edits = [] ∧ d.commit = (.ok (), d.rollback) ∨
          edits ≠ [] ∧ d.commit = (.ok (), d.make edits))) := by
  unfold commit
  cases hstaged : d.staged with
  | none => exact .inl ⟨rfl, rfl⟩
  | some edits =>
    refine .inr ⟨edits, rfl, ?_⟩
    dsimp only
    cases hfind : edits.reverse.find? fun x => d.isModified x.1 with
    | some x => exact .inl ⟨x, rfl, rfl⟩
    | none =>
      refine .inr ⟨fun x hx => ?_, ?_⟩
      · exact Bool.eq_false_iff.2 (List.find?_eq_none.1 hfind x (List.mem_reverse.2 hx))
      · cases edits with
        | nil => exact .inl ⟨rfl, rfl⟩
        | cons x edits => exact .inr ⟨List.cons_ne_nil x edits, rfl⟩

/-- The text that an edit gives to its token. -/
def edited (d : Draft) (e : Edit) : Text :=
  e.newText d.lineEnd ((d.current? e.token).getD [])

theorem edit_cases (d : Draft) (e : Edit) :
    (d.cells.size ≤ e.token ∧ d.edit e = (.error (.invalidToken e.token), d)) ∨
    e.token < d.cells.size ∧
      ((∃ edits, d.staged = some edits ∧
        d.edit e = (.ok (), { d with staged := some ((e.token, d.edited e) :: edits) })) ∨
      d.staged = none ∧
        (d.isModified e.token = true ∧ d.edit e = (.error (.conflict e.token), d) ∨
          d.isModified e.token = false ∧ d.edit e = (.ok (), d.make [(e.token, d.edited e)]))) := by
  unfold edit
  by_cases hlt : e.token < d.cells.size
  · refine .inr ⟨hlt, ?_⟩
    rw [if_pos hlt, put]
    cases hstaged : d.staged with
    | some edits => exact .inl ⟨edits, rfl, rfl⟩
    | none =>
      refine .inr ⟨rfl, ?_⟩
      cases hmodified : d.isModified e.token with
      | true => exact .inl ⟨rfl, rfl⟩
      | false =>
        refine .inr ⟨rfl, ?_⟩
        rw [make, rollback_of_staged_eq_none hstaged]
        rfl
  · exact .inl ⟨not_lt.1 hlt, if_neg hlt⟩

/-! ### Moves -/

/-- What one operation can make of a draft: edits are staged again, each of which was staged before
or has its token in range, or some such edits of unchanged tokens are made. -/
inductive Moves (d : Draft) : Draft → Prop
  | stage (staged : Option (List (ℕ × Text)))
    (hstaged : ∀ x ∈ staged.getD [], x ∈ d.staged.getD [] ∨ x.1 < d.cells.size) :
    Moves d { d with staged := staged }
  | make (edits : List (ℕ × Text)) (hne : edits ≠ [])
    (hstaged : ∀ x ∈ edits, x ∈ d.staged.getD [] ∨ x.1 < d.cells.size)
    (hnew : ∀ x ∈ edits, d.isModified x.1 = false) : Moves d (d.make edits)

theorem Moves.refl (d : Draft) : Moves d d := .stage d.staged fun _ hx => .inl hx

theorem moves_rollback (d : Draft) : Moves d d.rollback := .stage none fun _ hx => by cases hx

theorem moves_openChangeset (d : Draft) : Moves d d.openChangeset.2 := by
  unfold openChangeset
  split
  · exact .refl d
  · exact .stage (some []) fun _ hx => by cases hx

theorem moves_commit (d : Draft) : Moves d d.commit.2 := by
  rcases commit_cases d with ⟨-, h⟩ | ⟨edits, hstaged, ⟨x, -, h⟩ | ⟨hnew, ⟨-, h⟩ | ⟨hne, h⟩⟩⟩
  · rw [h]
    exact .refl d
  · rw [h]
    exact moves_rollback d
  · rw [h]
    exact moves_rollback d
  · rw [h]
    exact .make edits hne (fun x hx => .inl (by rwa [hstaged])) hnew

theorem moves_edit (d : Draft) (e : Edit) : Moves d (d.edit e).2 := by
  rcases edit_cases d e with ⟨-, h⟩ | ⟨hlt, ⟨edits, hstaged, h⟩ | ⟨-, ⟨-, h⟩ | ⟨hnew, h⟩⟩⟩
  · rw [h]
    exact .refl d
  · rw [h]
    refine .stage _ fun x hx => ?_
    rcases List.mem_cons.1 hx with rfl | hx
    · exact .inr hlt
    · exact .inl (by rwa [hstaged])
  · rw [h]
    exact .refl d
  · rw [h]
    refine .make _ (List.cons_ne_nil _ _) (fun x hx => ?_) fun x hx => ?_
    · obtain rfl := List.mem_singleton.1 hx
      exact .inr hlt
    · obtain rfl := List.mem_singleton.1 hx
      exact hnew

end Draft

open Draft

mutual

/-- A step is made of moves, however deep its changesets are nested. -/
theorem moves_run (s : Step) (d : Draft) : Relation.ReflTransGen Moves d (s.run d).2 := by
  cases s with
  | openChangeset => exact .single (moves_openChangeset d)
  | commit => exact .single (moves_commit d)
  | rollback => exact .single (moves_rollback d)
  | edit e => exact .single (moves_edit d e)
  | changeset steps =>
    rw [Step.run]
    have hopen := moves_openChangeset d
    split
    · next heq => rw [heq] at hopen; exact .single hopen
    · next d₁ heq =>
      rw [heq] at hopen
      have hall := moves_runAll steps d₁
      -- the changeset is committed or rolled back, by what its steps answer
      split
      · next heq => rw [heq] at hall; exact (hall.head hopen).tail (moves_commit _)
      · next heq => rw [heq] at hall; exact (hall.head hopen).tail (moves_rollback _)

theorem moves_runAll (steps : List Step) (d : Draft) :
    Relation.ReflTransGen Moves d (Step.runAll steps d).2 := by
  cases steps with
  | nil => exact .refl
  | cons s steps =>
    rw [Step.runAll]
    have hfirst := moves_run s d
    split
    · next d₁ heq => rw [heq] at hfirst; exact hfirst.trans (moves_runAll steps d₁)
    · next heq => rw [heq] at hfirst; exact hfirst

end

/-- The draft after some steps, all of which are run, whether or not some are refused. -/
def Draft.after (d : Draft) (steps : List Step) : Draft :=
  steps.foldl (fun d s => (s.run d).2) d

theorem Draft.after_append (d : Draft) (steps more : List Step) :
    d.after (steps ++ more) = (d.after steps).after more :=
  List.foldl_append

theorem moves_after (d : Draft) (steps : List Step) :
    Relation.ReflTransGen Moves d (d.after steps) := by
  induction steps generalizing d with
  | nil => exact .refl
  | cons s steps ih => exact (moves_run s d).trans (ih _)

/-! ### Refused steps -/

/-- Whether a step is a single operation. -/
def Step.isPrimitive : Step → Bool
  | changeset _ => false
  | _ => true

/-- A refused step leaves the draft alone, apart from a refused commit, which closes the
changeset. -/
theorem run_of_error {s : Step} {d : Draft} {e : EditError} (hs : s.isPrimitive = true)
    (h : (s.run d).1 = .error e) :
    (s = .commit → (s.run d).2 = d.rollback) ∧ (s ≠ .commit → (s.run d).2 = d) := by
  cases s with
  | openChangeset =>
    refine ⟨nofun, fun _ => ?_⟩
    rw [Step.run] at h ⊢
    unfold openChangeset at h ⊢
    split at h
    · rfl
    · cases h
  | commit =>
    refine ⟨fun _ => ?_, fun hne => absurd rfl hne⟩
    rw [Step.run] at h ⊢
    rcases commit_cases d with
      ⟨hstaged, hrun⟩ | ⟨edits, -, ⟨x, -, hrun⟩ | ⟨-, ⟨-, hrun⟩ | ⟨-, hrun⟩⟩⟩
    · rw [hrun, rollback_of_staged_eq_none hstaged]
    · rw [hrun]
    · rw [hrun]
    · rw [hrun] at h
      cases h
  | rollback => cases h
  | edit e' =>
    refine ⟨nofun, fun _ => ?_⟩
    rw [Step.run] at h ⊢
    rcases edit_cases d e' with ⟨-, hrun⟩ | ⟨-, ⟨edits, -, hrun⟩ | ⟨-, ⟨-, hrun⟩ | ⟨-, hrun⟩⟩⟩
    · rw [hrun]
    · rw [hrun] at h
      cases h
    · rw [hrun]
    · rw [hrun] at h
      cases h
  | changeset steps => cases hs

end EntityLint
