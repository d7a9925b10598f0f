import EntityLint.Configuration
import EntityLint.Files.FileTree

/-!
# Where a configuration comes from

The configuration of a project is the one that is asked for, or else one in the project, or else one
for all projects.

* `ConfigurationSource`, `ConfigurationSource.find`;
* `ConfigurationSource.load`.

What is found is not looked into before it is loaded: a directory is found as well as a file, and
one that is asked for need not be there.
-/

namespace EntityLint

/-- Where a configuration comes from. -/
inductive ConfigurationSource
  | explicit (path : Text)
  | project (path : Text)
  | global (path : Text)
  /-- There is none, and nothing is said. -/
  | standard
  deriving DecidableEq, Repr

/-- Why a configuration cannot be loaded. -/
inductive ConfigurationError
  /-- There is no file at its path. -/
  | unreadable
  /-- The text is not that of a configuration. -/
  | malformed
  deriving DecidableEq, Repr

namespace ConfigurationSource

/-- The path of a configuration. -/
def path? : ConfigurationSource → Option Text
  | explicit path | project path | global path => some path
  | standard => none

/-- What a configuration in a project is called, the first choice first. -/
def projectNames : List Text := ["ormsniff.toml".toList, ".ormsniff.toml".toList]

/-- What a configuration for all projects is called. -/
def globalName : Text := "config.toml".toList

/-- Whether a path leads to a file or directory. -/
def leadsSomewhere (t : FileTree) (path : Text) : Bool := (t.resolve? path).isSome

/-- Where the configuration of a project comes from. -/
def find (t : FileTree) (projectDirectory globalDirectory : Text) :
    Option Text → ConfigurationSource
  | some path => explicit path
  | none =>
    let inProject := (projectNames.map (Path.join projectDirectory)).find? (leadsSomewhere t)
    let forAll := [Path.join globalDirectory globalName].find? (leadsSomewhere t)
    ((inProject.map project).or (forAll.map global)).getD standard

/-- The configuration that comes from a source. -/
def load (t : FileTree) (s : ConfigurationSource) : Except ConfigurationError Configuration :=
  match s.path? with
  | none => .ok {}
  | some path =>
    match t.read? path with
    | none => .error .unreadable
    | some text =>
      match Configuration.parse? text with
      | some c => .ok c
      | none => .error .malformed

end ConfigurationSource

end EntityLint
