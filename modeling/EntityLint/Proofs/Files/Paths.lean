import EntityLint.Files.Search
import Mathlib

/-!
# The order of paths

Paths are put in order by their components, and the files of a search are listed in this order, each of
them once.

* `Path.le_iff`, `Path.same_iff`: the order of paths is that of their keys;
* `Path.Before`: the strict order;
* `Search.listed?`: what the patterns of a search lead to, pattern by pattern;
* `exists_of_mem_eraseRepsBy`, `Path.pairwise_eraseRepsBy`: what is left of a sorted list of paths.

The main statement is `Search.exists_paths_of_listed?`.
-/

namespace EntityLint

namespace Path

/-! ### The order -/

theorem lex_blt_iff {a b : List ℕ} : a.lex b Nat.blt = true ↔ a < b := by
  rw [List.lex_eq_true_iff_lex]
  simp only [Nat.blt_eq]
  rfl

theorem lex_lex_iff {a b : List (List ℕ)} :
    (a.lex b fun x y => x.lex y Nat.blt) = true ↔ a < b := by
  rw [List.lex_eq_true_iff_lex]
  simp only [lex_blt_iff]
  rfl

/-- Paths have the order of their keys. -/
theorem le_iff {a b : Text} : le a b = true ↔ key a ≤ key b := by
  rw [le, Bool.not_eq_true', ← Bool.not_eq_true, lex_lex_iff, not_lt]

theorem Component.ext_key {c d : Component} (h : c.rank :: c.codes = d.rank :: d.codes) : c = d := by
  obtain ⟨hrank, hcodes⟩ := List.cons.inj h
  have hinj : Function.Injective Char.toNat := fun _ _ h => Char.toNat_inj.1 h
  cases c <;> cases d <;> first | rfl | exact congrArg name (hinj.list_map hcodes) | cases hrank

/-- Paths with one key are the same. -/
theorem same_iff {a b : Text} : same a b = true ↔ key a = key b := by
  have hinj : Function.Injective fun c : Component => c.rank :: c.codes := fun _ _ h =>
    Component.ext_key h
  rw [same, beq_iff_eq, key, key, hinj.list_map.eq_iff]

/-- A path comes before another one. -/
def Before (a b : Text) : Prop := le a b = true ∧ same a b = false

instance : DecidableRel Before := fun a b =>
  inferInstanceAs (Decidable (le a b = true ∧ same a b = false))

theorem before_iff {a b : Text} : Before a b ↔ key a < key b := by
  rw [Before, le_iff, ← Bool.not_eq_true, same_iff, lt_iff_le_and_ne]

/-- A list of paths that come one before the other is told by its elements. -/
theorem eq_of_pairwise_before {paths paths' : List Text} (h : paths.Pairwise Before)
    (h' : paths'.Pairwise Before) (hmem : ∀ path, path ∈ paths ↔ path ∈ paths') : paths = paths' := by
  have hne : ∀ {a b : Text}, Before a b → a ≠ b := fun hab heq =>
    absurd (before_iff.1 hab) (heq ▸ lt_irrefl _)
  have hperm : paths.Perm paths' :=
    (List.perm_ext_iff_of_nodup (h.imp hne) (h'.imp hne)).2 hmem
  refine List.Perm.eq_of_pairwise (fun a b _ _ hab hba => ?_) h h' hperm
  exact absurd (before_iff.1 hab) (before_iff.1 hba).asymm

end Path

/-! ### Sorted lists without repetitions -/

section EraseReps

variable {α : Type} {r : α → α → Bool}

theorem eraseRepsBy_loop (r : α → α → Bool) (a : α) (l acc : List α) :
    List.eraseRepsBy.loop r a l acc = acc.reverse ++ (a :: l).eraseRepsBy r := by
  induction l generalizing a acc with
  | nil => simp [List.eraseRepsBy, List.eraseRepsBy.loop]
  | cons b l ih =>
    rw [List.eraseRepsBy, List.eraseRepsBy.loop, List.eraseRepsBy.loop]
    split
    · rw [ih, ih a []]
      rfl
    · rw [ih, ih b [a]]
      simp

theorem eraseRepsBy_cons_cons (r : α → α → Bool) (a b : α) (l : List α) :
    (a :: b :: l).eraseRepsBy r =
      if r a b then (a :: l).eraseRepsBy r else a :: (b :: l).eraseRepsBy r := by
  rw [List.eraseRepsBy, List.eraseRepsBy.loop]
  split
  · next h => rw [if_pos h, eraseRepsBy_loop]; rfl
  · next h => rw [if_neg (by simp [h]), eraseRepsBy_loop]; rfl

theorem eraseRepsBy_sublist (r : α → α → Bool) : ∀ l : List α, (l.eraseRepsBy r).Sublist l
  | [] => .slnil
  | [a] => .refl [a]
  | a :: b :: l => by
    rw [eraseRepsBy_cons_cons]
    split
    · exact (eraseRepsBy_sublist r (a :: l)).trans ((List.sublist_cons_self b l).cons_cons a)
    · exact (eraseRepsBy_sublist r (b :: l)).cons_cons a

/-- What is left out stands behind something that it repeats. -/
theorem exists_of_mem_eraseRepsBy (hrefl : ∀ a, r a a = true)
    (htrans : ∀ a b c, r a b = true → r b c = true → r a c = true) :
    ∀ (l : List α) (a : α), a ∈ l → ∃ b ∈ l.eraseRepsBy r, r b a = true
  | [], a, h => by cases h
  | [b], a, h => ⟨a, h, hrefl a⟩
  | b :: c :: l, a, h => by
    rw [eraseRepsBy_cons_cons]
    split
    · next hbc =>
      obtain rfl | hac | hal : a = b ∨ a = c ∨ a ∈ l := by simpa using h
      · exact exists_of_mem_eraseRepsBy hrefl htrans (a :: l) a List.mem_cons_self
      · obtain ⟨d, hd, hdb⟩ :=
          exists_of_mem_eraseRepsBy hrefl htrans (b :: l) b List.mem_cons_self
        exact ⟨d, hd, hac ▸ htrans d b c hdb hbc⟩
      · exact exists_of_mem_eraseRepsBy hrefl htrans (b :: l) a (List.mem_cons_of_mem b hal)
    · rcases List.mem_cons.1 h with rfl | h
      · exact ⟨a, List.mem_cons_self, hrefl a⟩
      · obtain ⟨d, hd, hda⟩ := exists_of_mem_eraseRepsBy hrefl htrans (c :: l) a h
        exact ⟨d, List.mem_cons_of_mem b hd, hda⟩

end EraseReps

namespace Path

/-- The paths that are left of a sorted list come one before the other. -/
theorem pairwise_eraseRepsBy : ∀ {paths : List Text},
    paths.Pairwise (fun a b => le a b = true) → (paths.eraseRepsBy same).Pairwise Before
  | [], _ => .nil
  | [a], _ => List.pairwise_singleton Before a
  | a :: b :: paths, h => by
    obtain ⟨ha, hb, hpaths⟩ : (∀ c ∈ b :: paths, le a c = true) ∧
        (∀ c ∈ paths, le b c = true) ∧ paths.Pairwise fun a b => le a b = true := by
      simpa using h
    rw [eraseRepsBy_cons_cons]
    split
    · exact pairwise_eraseRepsBy
        (List.pairwise_cons.2 ⟨fun c hc => ha c (List.mem_cons_of_mem b hc), hpaths⟩)
    · next hne =>
      refine List.pairwise_cons.2 ⟨fun c hc => ?_, pairwise_eraseRepsBy (List.pairwise_cons.2 ⟨hb, hpaths⟩)⟩
      have hab : Before a b := ⟨ha b List.mem_cons_self, Bool.eq_false_iff.2 hne⟩
      rcases List.mem_cons.1 ((eraseRepsBy_sublist same (b :: paths)).subset hc) with rfl | hc
      · exact hab
      · exact before_iff.2 ((before_iff.1 hab).trans_le (le_iff.1 (hb c hc)))

end Path

/-! ### The files of a search -/

namespace Search

/-- What the patterns of a search lead to, one list for each extension. -/
def listed? (s : Search) (t : FileTree) : Option (List (List Text)) :=
  s.extensions.mapM fun extension => t.glob? (s.patternFor extension)

/-- The paths of a search are those that its patterns lead to and that are not left out, one before the
other. Of paths that are the same, one is taken. -/
theorem exists_paths_of_listed? {s : Search} {t : FileTree} {listed : List (List Text)}
    (h : s.listed? t = some listed) : ∃ paths, s.paths? t = some paths ∧
      paths.Pairwise Path.Before ∧
      (∀ path ∈ paths, path ∈ listed.flatten ∧ s.isExcluded path = false) ∧
      ∀ path ∈ listed.flatten, s.isExcluded path = false →
        ∃ p ∈ paths, Path.same p path = true := by
  generalize hsorted : (listed.flatten.filter fun path => !s.isExcluded path).mergeSort Path.le = sorted
  have hmem : ∀ path, path ∈ sorted ↔ path ∈ listed.flatten ∧ s.isExcluded path = false := by
    intro path
    rw [← hsorted, List.mem_mergeSort, List.mem_filter, Bool.not_eq_true']
  have hpairwise : sorted.Pairwise fun a b => Path.le a b = true := by
    rw [← hsorted]
    refine List.pairwise_mergeSort (fun a b c hab hbc => ?_) (fun a b => ?_) _
    · exact Path.le_iff.2 ((Path.le_iff.1 hab).trans (Path.le_iff.1 hbc))
    · rw [Bool.or_eq_true, Path.le_iff, Path.le_iff]
      exact le_total _ _
  refine ⟨sorted.eraseRepsBy Path.same, ?_, Path.pairwise_eraseRepsBy hpairwise,
    fun path hpath => (hmem path).1 ((eraseRepsBy_sublist _ _).subset hpath),
    fun path hlisted hexcluded => ?_⟩
  · unfold listed? at h
    rw [paths?, h, ← hsorted]
    rfl
  · refine exists_of_mem_eraseRepsBy (fun a => ?_) (fun a b c hab hbc => ?_) _ path
      ((hmem path).2 ⟨hlisted, hexcluded⟩)
    · exact Path.same_iff.2 rfl
    · exact Path.same_iff.2 ((Path.same_iff.1 hab).trans (Path.same_iff.1 hbc))

/-- What is left out is not searched. -/
theorem isExcluded_of_mem_paths {s : Search} {t : FileTree} {paths : List Text}
    (h : s.paths? t = some paths) {path : Text} (hpath : path ∈ paths) : s.isExcluded path = false := by
  cases hlisted : s.listed? t with
  | none =>
    unfold listed? at hlisted
    rw [paths?, hlisted] at h
    cases h
  | some listed =>
    obtain ⟨paths', hpaths', -, hfound, -⟩ := exists_paths_of_listed? hlisted
    cases h.symm.trans hpaths'
    exact (hfound path hpath).2

end Search

end EntityLint
