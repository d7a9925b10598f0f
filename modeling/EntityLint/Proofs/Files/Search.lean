import EntityLint.Proofs.Files.Patterns

/-!
# The files of a search

A search in a directory finds the files inside of it, at any depth, whose names end in a point and one of
the extensions. The path of the directory is pasted in front of a pattern, so this holds only if it has no
character that patterns give a meaning. A directory whose name has such an end is found as well, and cannot
be read.

* `Search.EndsIn`: names with an extension that is searched for;
* `Search.exists_listed`: what the patterns lead to.

The main statement is `Search.paths_are_files_below`.
-/

namespace EntityLint.Search

/-- The last of some names ends in a point and an extension that is searched for. -/
def EndsIn (s : Search) (names : Address) : Prop :=
  ∃ extension ∈ s.extensions, '.' :: extension <:+ names.getLastD []

instance (s : Search) (names : Address) : Decidable (s.EndsIn names) :=
  inferInstanceAs (Decidable (∃ extension ∈ s.extensions, '.' :: extension <:+ names.getLastD []))

variable {s : Search} {t : FileTree}

theorem isLiteral_of_isAlphanum {u : Text} (h : ∀ c ∈ u, c.isAlphanum = true) :
    Glob.IsLiteral u ∧ '/' ∉ u := by
  have hne : ∀ d : Char, d.isAlphanum = false → ∀ c ∈ u, c ≠ d := by
    rintro d hd c hc rfl
    rw [h c hc] at hd
    cases hd
  exact ⟨fun c hc => ⟨hne _ (by decide) c hc, hne _ (by decide) c hc, hne _ (by decide) c hc⟩,
    fun hslash => hne '/' (by decide) '/' hslash rfl⟩

/-- The patterns lead to what is inside the directory and has a name with an extension. -/
theorem exists_listed (habsolute : Path.isAbsolute s.root = true) (hliteral : Glob.IsLiteral s.root)
    (hextensions : ∀ e ∈ s.extensions, ∀ c ∈ e, c.isAlphanum = true) :
    ∃ listed, s.listed? t = some listed ∧ ∀ path, path ∈ listed.flatten ↔
      ∃ p names, t.place? s.root = some p ∧ names ∈ t.below p.address ∧ s.EndsIn names ∧
        path = (p.within names).path := by
  have hpattern := fun e he => glob?_patternFor (t := t) habsolute hliteral
    (isLiteral_of_isAlphanum (hextensions e he)).1 (isLiteral_of_isAlphanum (hextensions e he)).2
  refine ⟨_, mapM_eq_some_map hpattern, fun path => ?_⟩
  rw [List.mem_flatten]
  cases t.place? s.root with
  | none => simp
  | some p =>
    simp only [Option.elim_some, List.mem_map, exists_exists_and_eq_and, List.mem_filter,
      List.isSuffixOf_iff_suffix, Option.some.injEq, exists_and_left, exists_eq_left', EndsIn]
    constructor
    · rintro ⟨e, he, names, ⟨hnames, hend⟩, rfl⟩
      exact ⟨names, hnames, ⟨e, he, hend⟩, rfl⟩
    · rintro ⟨names, hnames, ⟨e, he, hend⟩, rfl⟩
      exact ⟨e, he, names, ⟨hnames, hend⟩, rfl⟩

/-- **A search finds the files inside its directory.** Let the path of the directory have no character that
patterns give a meaning, and let no directory inside that is not left out have a name with such an
end. Then the search finds the files inside, at any depth, whose names end in a point and an extension
and that are not left out, each of them once, and it reads them. Nothing is found if the path leads
nowhere. -/
theorem paths_are_files_below (ht : t.IsProper) (habsolute : Path.isAbsolute s.root = true)
    (hliteral : Glob.IsLiteral s.root)
    (hextensions : ∀ e ∈ s.extensions, ∀ c ∈ e, c.isAlphanum = true)
    (hdirectories : ∀ p names, t.place? s.root = some p → names ≠ [] → s.EndsIn names →
      s.isExcluded (p.within names).path = false → t.isDirectory (p.address ++ names) = false) :
    ∃ paths, s.paths? t = some paths ∧ paths.Pairwise Path.Before ∧
      match t.place? s.root with
      | none => paths = []
      | some p => t.resolve? s.root = some p.address ∧
        (∀ path, path ∈ paths ↔ ∃ names, names ≠ [] ∧ path = (p.within names).path ∧
          (t.content? (p.address ++ names)).isSome = true ∧ s.EndsIn names ∧
          s.isExcluded path = false) ∧
        ∀ names, names ≠ [] → (t.content? (p.address ++ names)).isSome = true →
          t.read? (p.within names).path = t.content? (p.address ++ names) := by
  obtain ⟨listed, hlisted, hmem⟩ := exists_listed (t := t) habsolute hliteral hextensions
  obtain ⟨paths, hpaths, hbefore, hfound, hall⟩ := exists_paths_of_listed? hlisted
  refine ⟨paths, hpaths, hbefore, ?_⟩
  cases hroot : t.place? s.root with
  | none =>
    refine List.eq_nil_iff_forall_not_mem.2 fun path hpath => ?_
    obtain ⟨p, _, hp, -⟩ := (hmem path).1 (hfound path hpath).1
    rw [hroot] at hp
    cases hp
  | some p =>
    have hleads := FileTree.leadsTo_of_place? hroot
    have hnames : ∀ names, t.isPresent (p.address ++ names) = true → ∀ n ∈ names, IsEntryName n :=
      fun names hpresent => ht.isEntryName hpresent
    have hfile : ∀ names, (t.content? (p.address ++ names)).isSome = true →
        t.isPresent (p.address ++ names) = true := by
      intro names hcontent
      rw [FileTree.isPresent, hcontent, Bool.or_true]
    refine ⟨?_, fun path => ⟨fun hpath => ?_, ?_⟩, fun names hne hcontent => ?_⟩
    · exact congrArg (Option.map Place.address) hroot
    · obtain ⟨hpath, hexcluded⟩ := hfound path hpath
      obtain ⟨q, names, hq, hbelow, hend, rfl⟩ := (hmem path).1 hpath
      cases hroot.symm.trans hq
      obtain ⟨hne, hpresent⟩ := FileTree.mem_below_iff.1 hbelow
      have hdirectory := hdirectories p names hroot hne hend hexcluded
      rw [FileTree.isPresent, hdirectory, Bool.false_or] at hpresent
      exact ⟨names, hne, rfl, hpresent, hend, hexcluded⟩
    · rintro ⟨names, hne, rfl, hcontent, hend, hexcluded⟩
      have hpresent := hfile names hcontent
      have hpath := (hmem _).2
        ⟨p, names, hroot, FileTree.mem_below_iff.2 ⟨hne, hpresent⟩, hend, rfl⟩
      -- of the paths that are the same, one is there, and it is this one
      obtain ⟨path', hpath', hsame⟩ := hall _ hpath hexcluded
      obtain ⟨q, names', hq, hbelow', -, rfl⟩ := (hmem path').1 (hfound path' hpath').1
      cases hroot.symm.trans hq
      have heq := Path.eq_of_same_within hleads.isAbsolute
        (hnames names' (FileTree.mem_below_iff.1 hbelow').2) (hnames names hpresent) hsame
      rwa [heq] at hpath'
    · have hwithin := FileTree.leadsTo_within hleads (hnames names (hfile names hcontent))
        fun _ => hfile names hcontent
      rw [FileTree.read?, hwithin.resolve?]
      rfl

/-- A search that finds a file in a directory with brackets in its name and one whose name begins with a
point, but not one that is left out. -/
theorem paths_are_files_below_brackets : ∃ (s : Search) (t : FileTree) (p : Place),
    t.IsProper ∧ Path.isAbsolute s.root = true ∧ Glob.IsLiteral s.root ∧
    (∀ e ∈ s.extensions, ∀ c ∈ e, c.isAlphanum = true) ∧ s.extensions.length = 2 ∧
    t.files.length = 4 ∧ t.place? s.root = some p ∧
    (∀ p names, t.place? s.root = some p → names ≠ [] → s.EndsIn names →
      s.isExcluded (p.within names).path = false → t.isDirectory (p.address ++ names) = false) ∧
    ∃ paths, s.paths? t = some paths ∧ "/a b/[c]/x.php".toList ∈ paths ∧
      "/a b/.inc".toList ∈ paths ∧ "/a b/vendor/y.php".toList ∉ paths ∧
      t.read? "/a b/[c]/x.php".toList = some "<?php".toList := by
  let s : Search := ⟨"/a b".toList, ["**/vendor/**".toList], ["php".toList, "inc".toList]⟩
  let t : FileTree := ⟨[], [(["a b".toList, "[c]".toList, "x.php".toList], "<?php".toList),
    (["a b".toList, ".inc".toList], []), (["a b".toList, "vendor".toList, "y.php".toList], []),
    (["a b".toList, "z.txt".toList], [])]⟩
  let p : Place := ⟨"/a b".toList, ["a b".toList]⟩
  have hproper : t.IsProper := by
    unfold FileTree.IsProper
    decide
  have hliteral : Glob.IsLiteral s.root := by decide
  have hextensions : ∀ e ∈ s.extensions, ∀ c ∈ e, c.isAlphanum = true :=
    fun e he => List.all_eq_true.1 ((by decide : ∀ e ∈ s.extensions, e.all Char.isAlphanum = true) e he)
  have hplace : t.place? s.root = some p := by decide +kernel
  have hbelow : ∀ names ∈ t.below p.address, s.EndsIn names →
      t.isDirectory (p.address ++ names) = false := by
    decide +kernel
  have hdirectories : ∀ p names, t.place? s.root = some p → names ≠ [] → s.EndsIn names →
      s.isExcluded (p.within names).path = false → t.isDirectory (p.address ++ names) = false := by
    intro q names hq hne hend _
    cases hplace.symm.trans hq
    rw [← Bool.not_eq_true]
    intro hdirectory
    have hpresent : t.isPresent (p.address ++ names) = true := by
      rw [FileTree.isPresent, hdirectory, Bool.true_or]
    have := hbelow names (FileTree.mem_below_iff.2 ⟨hne, hpresent⟩) hend
    rw [hdirectory] at this
    cases this
  obtain ⟨paths, hpaths, -, hfiles⟩ :=
    paths_are_files_below hproper rfl hliteral hextensions hdirectories
  rw [hplace] at hfiles
  obtain ⟨-, hmem, hread⟩ := hfiles
  refine ⟨s, t, p, hproper, rfl, hliteral, hextensions, rfl, rfl, hplace, hdirectories, paths, hpaths,
    (hmem _).2 ⟨["[c]".toList, "x.php".toList], by decide +kernel⟩,
    (hmem _).2 ⟨[".inc".toList], by decide +kernel⟩, fun hpath => ?_,
    hread ["[c]".toList, "x.php".toList] (by decide) (by decide +kernel)⟩
  obtain ⟨-, -, -, -, -, hexcluded⟩ := (hmem _).1 hpath
  have : s.isExcluded "/a b/vendor/y.php".toList = true := by decide +kernel
  rw [this] at hexcluded
  cases hexcluded

end EntityLint.Search
