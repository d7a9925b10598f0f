import EntityLint.Files.FileTree
import EntityLint.Files.Glob

/-!
# Searching files

The files of a directory are found by a pattern for each extension, and those that a pattern
excludes are left out.

* `Segment`: a component of a pattern;
* `FileTree.matching`: the places that a pattern leads to;
* `Search`, `Search.isExcluded`, `Search.paths?`: the files that are searched, in order.

A component without signs is followed as it is. Other components are compared with the names in a
directory, and so is every component that follows `**`.
-/

namespace EntityLint

/-! ### Components of patterns -/

/-- A component of a pattern. -/
inductive Segment
  /-- Any number of directories. -/
  | anyDirectories
  /-- A name, or an empty one, or points. -/
  | name (t : Text)
  | pattern (tokens : List Glob.Token)
  deriving DecidableEq, Repr

namespace Segment

/-- Whether a token stands for itself. -/
def isPlain : Glob.Token → Bool
  | .char _ => true
  | _ => false

/-- The component that a text writes. -/
def ofText? (t : Text) : Option Segment :=
  (Glob.parse? t).map fun tokens =>
    if tokens = [.anyDirectories] then anyDirectories
    else if tokens.all isPlain then name t
    else pattern tokens

/-- Whether a component stands for a name. -/
def fits : Segment → Text → Bool
  | anyDirectories, _ => true
  | name t, n => t == n
  | pattern tokens, n => Glob.accepts tokens n

/-- The parts between the slashes of a text. A slash at its end ends the last part. -/
def parts (t : Text) : List Text :=
  let all := Text.pieces '/' t
  if all.getLast? = some [] then all.dropLast else all

/-- The components of a pattern that begins with a slash, if the pattern as a whole and each
component are well formed. -/
def ofPattern? (t : Text) : Option (List Segment) := do
  let _ ← Glob.parse? t
  (parts (t.drop 1)).mapM ofText?

end Segment

/-! ### Following patterns -/

namespace FileTree

/-- The places inside a directory, at any depth. -/
def placesBelow (t : FileTree) (p : Place) : List Place := (t.below p.address).map p.within

/-- The places in a directory. -/
def placesIn (t : FileTree) (p : Place) : List Place :=
  ((t.below p.address).filter fun l => l.length = 1).map p.within

/-- The name of a place. -/
def nameOf (p : Place) : Text := p.address.getLastD []

/-- The points that a component stands for. Such a component begins with a point. -/
def pointsFor (tokens : List Glob.Token) : List Text :=
  if tokens.head? = some (.char '.') then
    [['.'], ['.', '.']].filter (Glob.accepts tokens)
  else []

/-- The places that the components of a pattern lead to from a place. -/
def matching (t : FileTree) : List Segment → Place → List Place
  | [], p => [p]
  | .name n :: rest, p => (t.enter? p n).elim [] (matching t rest)
  | .pattern tokens :: rest, p =>
    let named := (t.placesIn p).filter fun q => Glob.accepts tokens (nameOf q)
    let pointed := if t.isDirectory p.address then (pointsFor tokens).filterMap (t.enter? p) else []
    (named ++ pointed).flatMap (matching t rest)
  | [.anyDirectories], p => (t.placesBelow p).filter fun q => t.isDirectory q.address
  | .anyDirectories :: .anyDirectories :: rest, p => matching t (.anyDirectories :: rest) p
  | .anyDirectories :: segment :: rest, p =>
    ((t.placesBelow p).filter fun q => segment.fits (nameOf q)).flatMap (matching t rest)

/-- The paths that a pattern from the root leads to, if it is well formed. A pattern that ends in a
slash leads to directories. -/
def glob? (t : FileTree) (pattern : Text) : Option (List Text) :=
  (Segment.ofPattern? pattern).map fun segments =>
    let found := t.matching segments Place.root
    let wanted :=
      if Text.endsWith pattern ['/'] then found.filter fun q => t.isDirectory q.address else found
    wanted.map Place.path

end FileTree

/-! ### Searches -/

/-- Which files are searched. -/
structure Search where
  /-- The directory, as a path from the root. -/
  root : Text
  /-- Patterns of paths that are left out. -/
  exclude : List Text
  /-- The extensions of the files, without points. -/
  extensions : List Text
  deriving DecidableEq, Repr

namespace Search

/-- What is left out where nothing is said. -/
def standardExclude : List Text := ["**/vendor/**".toList, "**/var/cache/**".toList]

/-- What is searched for where nothing is said. -/
def standardExtensions : List Text := ["php".toList]

/-- A search in a directory, where empty lists say nothing. -/
def inDirectory (root : Text) (exclude extensions : List Text) : Search where
  root := root
  exclude := if exclude.isEmpty then standardExclude else exclude
  extensions := if extensions.isEmpty then standardExtensions else extensions

/-- Whether a pattern excludes a path: it stands for the path, or the path contains it without its
double stars. -/
def excludes (pattern path : Text) : Bool :=
  let needle := Text.withoutAll ['*', '*'] pattern.length pattern
  (Glob.parse? pattern).any (Glob.accepts · path)
    || (!needle.isEmpty && Text.includes path needle)

/-- Whether a path is left out. -/
def isExcluded (s : Search) (path : Text) : Bool := s.exclude.any (excludes · path)

/-- The pattern of the files with an extension. -/
def patternFor (s : Search) (extension : Text) : Text := s.root ++ "/**/*.".toList ++ extension

/-- The paths that are searched, each of them once and in their order, if all patterns are well
formed. -/
def paths? (s : Search) (t : FileTree) : Option (List Text) := do
  let found ← s.extensions.mapM fun extension => t.glob? (s.patternFor extension)
  let wanted := found.flatten.filter fun path => !s.isExcluded path
  return (wanted.mergeSort Path.le).eraseRepsBy Path.same

end Search

end EntityLint
