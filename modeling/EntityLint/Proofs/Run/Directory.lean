import EntityLint.Proofs.Files.Paths
import EntityLint.Proofs.Run.Independence
import EntityLint.Proofs.Source.Reading
import EntityLint.Run.Directory

/-!
# Directories, file by file

The result for a directory is made of the results for its files, one after the other in the order of their
paths. The violations are in order then: those of a file are, and all of them have the path of their file.

* `Violation.precedes_iff`, `Violation.precedes_trans`, `Violation.precedes_total`: the order of violations;
* `Linter.resultAt?`: the result for the file at a path;
* `Linter.checkPaths_eq_ok`: the results for some files, one after the other;
* `Linter.pairwise_violations`: violations of files that come one before the other.

The main statement is `Linter.directory_is_checked_file_by_file`.
-/

namespace EntityLint

/-! ### The order of violations -/

namespace Violation

variable {u v w : Violation}

/-- Violations are put in order by the key of the path, and then by line and column. -/
theorem precedes_iff : v.precedes w = true ↔
    Path.key v.location.file.toList < Path.key w.location.file.toList ∨
    Path.key v.location.file.toList = Path.key w.location.file.toList ∧
      v.location.notAfter w.location = true := by
  unfold precedes
  dsimp only
  split
  · next hsame =>
    have heq := Path.same_iff.1 hsame
    rw [heq]
    simp [Location.notAfter]
  · next hother =>
    rw [Path.same_iff] at hother
    rw [Path.le_iff, le_iff_lt_or_eq]
    simp [hother]

theorem precedes_trans (huv : u.precedes v = true) (hvw : v.precedes w = true) :
    u.precedes w = true := by
  rw [precedes_iff] at huv hvw ⊢
  rcases huv with huv | ⟨heq, huv⟩ <;> rcases hvw with hvw | ⟨heq', hvw⟩
  · exact .inl (huv.trans hvw)
  · exact .inl (heq' ▸ huv)
  · exact .inl (heq ▸ hvw)
  · refine .inr ⟨heq.trans heq', ?_⟩
    rw [Location.notAfter_iff] at huv hvw ⊢
    omega

theorem precedes_total (v w : Violation) : (v.precedes w || w.precedes v) = true := by
  rw [Bool.or_eq_true, precedes_iff, precedes_iff]
  rcases lt_trichotomy (Path.key v.location.file.toList) (Path.key w.location.file.toList) with
    hlt | heq | hlt
  · exact .inl (.inl hlt)
  · simp only [Location.notAfter_iff, heq, true_and]
    omega
  · exact .inr (.inl hlt)

end Violation

theorem pairwise_sortViolations (violations : List Violation) :
    (sortViolations violations).Pairwise fun v w => v.precedes w = true := by
  have htrans : ∀ u v w : Violation, u.precedes v = true → v.precedes w = true →
      u.precedes w = true := fun _ _ _ => Violation.precedes_trans
  unfold sortViolations
  exact @List.pairwise_mergeSort _ Violation.precedes htrans Violation.precedes_total violations

/-! ### Files -/

namespace LintResult

/-- Results one after the other, behind a first one. -/
theorem foldl_extend (results : List LintResult) (r : LintResult) : results.foldl extend r =
    ⟨r.violations ++ results.flatMap violations, r.filesChecked + (results.map filesChecked).sum,
      r.fixedFiles ++ results.flatMap fixedFiles⟩ := by
  induction results generalizing r with
  | nil => simp
  | cons result results ih =>
    rw [List.foldl_cons, ih]
    simp [extend, Nat.add_assoc]

/-- Empty results do not count. -/
theorem foldl_extend_getD {α : Type} (g : α → Option LintResult) (xs : List α) (r : LintResult) :
    (xs.map fun x => (g x).getD empty).foldl extend r = (xs.filterMap g).foldl extend r := by
  induction xs generalizing r with
  | nil => rfl
  | cons x xs ih =>
    rw [List.map_cons, List.foldl_cons, ih]
    cases hx : g x with
    | none =>
      rw [List.filterMap_cons_none hx]
      simp [extend, empty]
    | some result =>
      rw [List.filterMap_cons_some hx]
      rfl

end LintResult

namespace Linter

variable {l : Linter} {s : Search} {t : FileTree} {path : Text} {r : LintResult}

/-- The result for the file at a path, if it can be read and has a token stream. -/
def resultAt? (l : Linter) (t : FileTree) (path : Text) : Option LintResult :=
  (t.read? path).bind fun source => (l.check (String.ofList path) source).toOption

/-- The result for a file is about one file, and its violations are in order and have its path. -/
theorem resultAt?_spec (h : l.resultAt? t path = some r) :
    r.filesChecked = 1 ∧ (∀ v ∈ r.violations, v.location.file.toList = path) ∧
      r.violations.Pairwise fun v w => v.precedes w = true := by
  obtain ⟨source, -, hcheck⟩ := Option.bind_eq_some_iff.1 h
  unfold check at hcheck
  cases hparse : SourceFile.parse (String.ofList path) source with
  | error e =>
    rw [hparse] at hcheck
    cases hcheck
  | ok f =>
    rw [hparse] at hcheck
    cases hcheck
    obtain ⟨_, -, rfl⟩ := SourceFile.exists_tokens_of_parse hparse
    refine ⟨rfl, fun v hv => ?_, pairwise_sortViolations _⟩
    rw [violations_checkFile, sortViolations, List.mem_mergeSort] at hv
    obtain ⟨rule, -, hv⟩ := List.mem_flatMap.1 hv
    rw [(mem_violationsOf hv).2, String.toList_ofList]

/-- A file without a token stream is passed over. -/
theorem checkPath_eq_ok (hread : (t.read? path).isSome = true) :
    l.checkPath false t path = .ok ((l.resultAt? t path).getD .empty) := by
  obtain ⟨source, hsource⟩ := Option.isSome_iff_exists.1 hread
  unfold checkPath
  rw [resultAt?, hsource, Option.bind_some]
  dsimp only
  cases hcheck : l.check (String.ofList path) source <;> rfl

/-- The results for some files, one after the other. -/
theorem checkPaths_eq_ok {paths : List Text}
    (hread : ∀ path ∈ paths, (t.read? path).isSome = true) :
    l.checkPaths false t paths = .ok
      ⟨(paths.filterMap (l.resultAt? t)).flatMap LintResult.violations,
        (paths.filterMap (l.resultAt? t)).length,
        (paths.filterMap (l.resultAt? t)).flatMap LintResult.fixedFiles⟩ := by
  have hresults : paths.mapM (l.checkPath false t) =
      .ok (paths.map fun path => (l.resultAt? t path).getD .empty) := by
    induction paths with
    | nil => rfl
    | cons path paths ih =>
      obtain ⟨hpath, hread⟩ := List.forall_mem_cons.1 hread
      rw [List.mapM_cons, checkPath_eq_ok hpath, ih hread]
      rfl
  have hcounted : ∀ r ∈ paths.filterMap (l.resultAt? t), r.filesChecked = 1 := by
    intro r hr
    obtain ⟨path, -, hpath⟩ := List.mem_filterMap.1 hr
    exact (resultAt?_spec hpath).1
  have hcount : ((paths.filterMap (l.resultAt? t)).map LintResult.filesChecked).sum =
      (paths.filterMap (l.resultAt? t)).length := by
    rw [List.map_congr_left (g := fun _ => 1) hcounted]
    simp
  rw [checkPaths, hresults]
  refine congrArg Except.ok ?_
  rw [LintResult.foldl_extend_getD, LintResult.foldl_extend, hcount]
  simp [LintResult.empty]

/-- The violations of files that come one before the other are in order. -/
theorem pairwise_violations {paths : List Text} (h : paths.Pairwise Path.Before) :
    ((paths.filterMap (l.resultAt? t)).flatMap LintResult.violations).Pairwise
      fun v w => v.precedes w = true := by
  refine List.pairwise_flatMap.2 ⟨fun r hr => ?_, List.Pairwise.filterMap _ ?_ h⟩
  · obtain ⟨path, -, hpath⟩ := List.mem_filterMap.1 hr
    exact (resultAt?_spec hpath).2.2
  · intro p q hpq r hr r' hr' v hv w hw
    refine Violation.precedes_iff.2 (.inl ?_)
    rw [(resultAt?_spec hr).2.1 v hv, (resultAt?_spec hr').2.1 w hw]
    exact Path.before_iff.1 hpq

/-- **A directory is checked file by file.** If what its patterns lead to can be read, the result is that
of the files with a token stream, one after the other: the paths come one before the other, they are those
that some pattern leads to and none excludes, each is there once, and the violations are in order. -/
theorem directory_is_checked_file_by_file (l : Linter) (s : Search) (t : FileTree)
    (hread : ∀ listed, s.listed? t = some listed → ∀ path ∈ listed.flatten,
      s.isExcluded path = false → (t.read? path).isSome = true) :
    match s.listed? t with
    | none => l.checkDirectory false s t = .error .badPattern
    | some listed => ∃ paths : List Text,
      paths.Pairwise Path.Before ∧
      (∀ path ∈ paths, path ∈ listed.flatten ∧ s.isExcluded path = false) ∧
      (∀ path ∈ listed.flatten, s.isExcluded path = false → ∃ p ∈ paths, Path.same p path = true) ∧
      let results := paths.filterMap (l.resultAt? t)
      l.checkDirectory false s t = .ok ⟨results.flatMap LintResult.violations, results.length,
        results.flatMap LintResult.fixedFiles⟩ ∧
      (results.flatMap LintResult.violations).Pairwise fun v w => v.precedes w = true := by
  cases hlisted : s.listed? t with
  | none =>
    have hpaths : s.paths? t = none := by
      unfold Search.listed? at hlisted
      rw [Search.paths?, hlisted]
      rfl
    show l.checkDirectory false s t = .error .badPattern
    rw [checkDirectory, hpaths]
  | some listed =>
    obtain ⟨paths, hpaths, hbefore, hfound, hall⟩ := Search.exists_paths_of_listed? hlisted
    have hsorted := pairwise_violations (l := l) (t := t) hbefore
    refine ⟨paths, hbefore, hfound, hall, ?_, hsorted⟩
    have hresult := checkPaths_eq_ok (l := l) (t := t) fun path hpath =>
      hread listed hlisted path (hfound path hpath).1 (hfound path hpath).2
    rw [checkDirectory, hpaths]
    dsimp only
    rw [hresult]
    simp only [bind, Except.bind, pure, Except.pure, sortViolations]
    rw [List.mergeSort_of_pairwise hsorted]

/-- Two patterns that lead to the same files: one that is left out, one without a token stream, and two
others. -/
theorem directory_is_checked_file_by_file_twice : ∃ (s : Search) (t : FileTree) (listed : List (List Text)),
    s.extensions = ["php".toList, "php".toList] ∧ s.listed? t = some listed ∧
    listed.flatten = ["/a/d.php".toList, "/a/c.php".toList, "/a/b/e.php".toList,
      "/a/vendor/f.php".toList, "/a/d.php".toList, "/a/c.php".toList, "/a/b/e.php".toList,
      "/a/vendor/f.php".toList] ∧
    (∀ path ∈ listed.flatten, s.isExcluded path = false → (t.read? path).isSome = true) ∧
    ∃ results, results = ["/a/b/e.php".toList, "/a/c.php".toList, "/a/d.php".toList].filterMap
        (resultAt? ⟨RuleSet.all, {}, true⟩ t) ∧ results.length = 2 ∧
      checkDirectory ⟨RuleSet.all, {}, true⟩ false s t = .ok ⟨results.flatMap LintResult.violations, 2,
        results.flatMap LintResult.fixedFiles⟩ ∧
      (results.flatMap LintResult.violations).Pairwise fun v w => v.precedes w = true := by
  let s : Search := ⟨"/a".toList, ["**/vendor/**".toList], ["php".toList, "php".toList]⟩
  let t : FileTree := ⟨[], [(["a".toList, "d.php".toList], "<?php interface D\x7b\x7d".toList),
    (["a".toList, "c.php".toList], "<?php (".toList),
    (["a".toList, "b".toList, "e.php".toList], "<?php interface E\x7b\x7d".toList),
    (["a".toList, "vendor".toList, "f.php".toList], "<?php".toList)]⟩
  let sorted : List Text := ["/a/b/e.php".toList, "/a/c.php".toList, "/a/d.php".toList]
  have heval : (s.listed? t).any (fun listed =>
      listed.flatten = ["/a/d.php".toList, "/a/c.php".toList, "/a/b/e.php".toList,
        "/a/vendor/f.php".toList, "/a/d.php".toList, "/a/c.php".toList, "/a/b/e.php".toList,
        "/a/vendor/f.php".toList] ∧
      (∀ path ∈ listed.flatten, s.isExcluded path = false →
        (t.read? path).isSome = true ∧ path ∈ sorted ∧
          ∀ p ∈ listed.flatten, Path.same p path = true → p = path) ∧
      ∀ path ∈ sorted, path ∈ listed.flatten ∧ s.isExcluded path = false) = true := by
    decide +kernel
  have hcount : (sorted.filterMap (resultAt? ⟨RuleSet.all, {}, true⟩ t)).length = 2 := by
    decide +kernel
  obtain ⟨listed, hlisted, hfiles⟩ := (Option.any_eq_true _ _).1 heval
  obtain ⟨hflatten, hwanted, hsorted⟩ := of_decide_eq_true hfiles
  have hread : ∀ path ∈ listed.flatten, s.isExcluded path = false → (t.read? path).isSome = true :=
    fun path hpath hexcluded => (hwanted path hpath hexcluded).1
  have hdirectory := directory_is_checked_file_by_file ⟨RuleSet.all, {}, true⟩ s t
    fun listed' hlisted' => Option.some.inj (hlisted.symm.trans hlisted') ▸ hread
  rw [hlisted] at hdirectory
  obtain ⟨paths, hbefore, hfound, hall, hcheck, hviolations⟩ := hdirectory
  obtain rfl : paths = sorted := by
    have hstrict : sorted.Pairwise Path.Before := by decide +kernel
    refine Path.eq_of_pairwise_before hbefore hstrict fun path => ⟨fun hpath => ?_, fun hpath => ?_⟩
    · exact (hwanted path (hfound path hpath).1 (hfound path hpath).2).2.1
    · obtain ⟨hpath, hexcluded⟩ := hsorted path hpath
      obtain ⟨p, hp, hsame⟩ := hall path hpath hexcluded
      exact (hwanted path hpath hexcluded).2.2 p (hfound p hp).1 hsame ▸ hp
  rw [hcount] at hcheck
  exact ⟨s, t, listed, rfl, hlisted, hflatten, hread, _, rfl, hcount, hcheck, hviolations⟩

end Linter

end EntityLint
