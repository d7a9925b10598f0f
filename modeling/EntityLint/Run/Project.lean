import EntityLint.Run.ConfigurationSource
import EntityLint.Run.Directory

/-!
# Runs over a project

A run loads the configuration of a project, checks its files, and writes the fixed ones back.

* `RunError`, `RunReport`;
* `Project`, `Project.plan`: what a run finds, before anything is written;
* `Project.run`: the report of a run, and the files after it.

A run that fails changes nothing.
-/

namespace EntityLint

/-- Why a run fails. -/
inductive RunError
  | configuration (e : ConfigurationError)
  | directory (e : DirectoryError)
  deriving DecidableEq, Repr

/-- The outcome of a run. -/
structure RunReport where
  source : ConfigurationSource
  result : LintResult
  /-- The paths of the files that were written. -/
  written : List String
  deriving DecidableEq, Repr

/-- A project. -/
structure Project where
  /-- The directory of the project. -/
  directory : Text
  /-- The directory of the configuration for all projects. -/
  globalDirectory : Text
  /-- The path of the configuration that is asked for. -/
  explicit : Option Text
  deriving DecidableEq, Repr

namespace Project

/-- The files of a project that a configuration speaks of. -/
def search (p : Project) (c : Configuration) : Search :=
  .inDirectory (Path.join p.directory c.files.root) c.files.exclude c.files.extensions

/-- The linter of a configuration. It mends violations if that is asked for or configured. -/
def linter (c : Configuration) (fix : Bool) : Linter :=
  ⟨RuleSet.ofConfiguration c, c, fix || c.files.fix⟩

/-- Where the configuration of a project comes from. -/
def source (p : Project) (t : FileTree) : ConfigurationSource :=
  .find t p.directory p.globalDirectory p.explicit

/-- What a run finds. -/
def plan (p : Project) (fix : Bool) (t : FileTree) : Except RunError RunReport :=
  match (p.source t).load t with
  | .error e => .error (.configuration e)
  | .ok c =>
    match (linter c fix).checkDirectory false (p.search c) t with
    | .error e => .error (.directory e)
    | .ok result => .ok ⟨p.source t, result, result.fixedFiles.map FixedFile.path⟩

/-- The files after fixed ones are written back. -/
def writeBack (t : FileTree) (files : List FixedFile) : FileTree :=
  files.foldl (fun t f => t.writeTo f.path.toList f.content.toList) t

/-- Run over a project. -/
def run (p : Project) (fix : Bool) (t : FileTree) : Except RunError RunReport × FileTree :=
  match p.plan fix t with
  | .error e => (.error e, t)
  | .ok report => (.ok report, writeBack t report.result.fixedFiles)

end Project

end EntityLint
