import EntityLint.Files.FileTree
import Mathlib

/-!
# Writing to files that are there

A write to a file that is there changes its text and nothing else: the tree has the files and
directories that it had, and paths lead where they led.

* `FileTree.SameNames`: trees with the same files and directories, whatever the files hold;
* `FileTree.SameNames.resolve?_eq`: paths lead to the same addresses in both;
* `FileTree.sameNames_writeTo`, `FileTree.content?_writeTo`: one write.
-/

namespace EntityLint.FileTree

/-- Trees with the same directories and files, in this order, whatever the files hold. -/
structure SameNames (t t' : FileTree) : Prop where
  directories : t'.directories = t.directories
  files : t'.files.map Prod.fst = t.files.map Prod.fst

variable {t t' t'' : FileTree}

theorem SameNames.refl (t : FileTree) : t.SameNames t := ⟨rfl, rfl⟩

theorem SameNames.trans (h : t.SameNames t') (h' : t'.SameNames t'') : t.SameNames t'' :=
  ⟨h'.directories.trans h.directories, h'.files.trans h.files⟩

/-! ### What is told by names -/

theorem content?_isSome_iff {l : Address} : (t.content? l).isSome = true ↔ l ∈ t.files.map Prod.fst := by
  rw [content?, ← Option.ne_none_iff_isSome, Ne, List.lookup_eq_none_iff, List.mem_map]
  simp only [not_forall, bne_iff_ne, ne_eq, not_not, exists_prop, @eq_comm _ l]

namespace SameNames

variable (h : t.SameNames t')

include h

theorem isSome_content?_eq (l : Address) : (t'.content? l).isSome = (t.content? l).isSome :=
  Bool.eq_iff_iff.2 (by rw [content?_isSome_iff, content?_isSome_iff, h.files])

theorem isDirectory_eq (l : Address) : t'.isDirectory l = t.isDirectory l := by
  rw [isDirectory, isDirectory, named, named, h.directories, h.files]

theorem enter?_eq (p : Place) (part : Text) : t'.enter? p part = t.enter? p part := by
  rw [enter?, enter?, isPresent, isPresent, h.isDirectory_eq, h.isDirectory_eq, h.isSome_content?_eq]

/-- Paths lead to the same addresses. -/
theorem resolve?_eq (path : Text) : t'.resolve? path = t.resolve? path := by
  have henter : t'.enter? = t.enter? := funext fun p => funext (h.enter?_eq p)
  rw [resolve?, resolve?, henter]

end SameNames

/-! ### Writes -/

/-- A write to a file that is there keeps all names. -/
theorem map_fst_writeIn {l : Address} {files : List (Address × Text)} (h : l ∈ files.map Prod.fst)
    (text : Text) : (writeIn l text files).map Prod.fst = files.map Prod.fst := by
  induction files with
  | nil => cases h
  | cons file files ih =>
    obtain ⟨m, old⟩ := file
    by_cases hm : m = l
    · rw [writeIn, if_pos hm, List.map_cons, List.map_cons, hm]
    · have hl : l ∈ files.map Prod.fst := (List.mem_cons.1 h).resolve_left (Ne.symm hm)
      rw [writeIn, if_neg hm, List.map_cons, List.map_cons, ih hl]

variable {path : Text} {l : Address}

theorem sameNames_writeTo (hpath : t.resolve? path = some l) (hl : (t.content? l).isSome = true)
    (text : Text) : t.SameNames (t.writeTo path text) := by
  rw [writeTo, hpath]
  exact ⟨rfl, map_fst_writeIn (content?_isSome_iff.1 hl) text⟩

/-- After a write, the file that the path leads to has the new text and all others have their old ones. -/
theorem content?_writeTo (hpath : t.resolve? path = some l) (text : Text) (m : Address) :
    (t.writeTo path text).content? m = if m = l then some text else t.content? m := by
  rw [writeTo, hpath]
  dsimp only
  split
  · next h => rw [h, content?_write_self]
  · next h => exact content?_write_of_ne t h text

end EntityLint.FileTree
