import EntityLint.Files.Path

/-!
# Trees of files

* `Address`: where a file or directory is, by the names from the root on;
* `FileTree`: the files with their texts, and directories that may be empty;
* `FileTree.isDirectory`, `FileTree.below`, `FileTree.content?`, `FileTree.write`;
* `Place`, `FileTree.enter?`: addresses that are reached by a written path;
* `FileTree.resolve?`, `FileTree.read?`.

Every directory on the way to a file is there.
-/

namespace EntityLint

/-- Where a file or directory is: the names of the directories from the root on, and its own. -/
abbrev Address := List Text

/-- Files and directories. -/
structure FileTree where
  /-- Directories that are there even if they hold nothing. -/
  directories : List Address
  files : List (Address × Text)
  deriving DecidableEq, Repr

namespace FileTree

/-- The text of a file. -/
def content? (t : FileTree) (l : Address) : Option Text := t.files.lookup l

/-- The addresses that are named, from which all others follow. -/
def named (t : FileTree) : List Address := t.directories ++ t.files.map Prod.fst

/-- The rest of an address after that of a directory, if it is inside. -/
def inside? (directory l : Address) : Option Address :=
  if directory.isPrefixOf l ∧ directory.length < l.length then some (l.drop directory.length)
  else none

/-- Whether there is a directory at an address. The root always is one. -/
def isDirectory (t : FileTree) (l : Address) : Bool :=
  l.isEmpty || t.directories.contains l || t.named.any fun m => (inside? l m).isSome

/-- Whether there is a file or directory at an address. -/
def isPresent (t : FileTree) (l : Address) : Bool := t.isDirectory l || (t.content? l).isSome

/-- The beginnings of an address, without the empty one. -/
def beginnings (l : Address) : List Address := (List.range l.length).map fun n => l.take (n + 1)

/-- The files and directories inside a directory, at any depth. Each is given by the names from the
directory on. -/
def below (t : FileTree) (l : Address) : List Address :=
  ((t.named.filterMap (inside? l)).flatMap beginnings).eraseDups

/-- Give a file a text. A file that is not there is made. -/
def writeIn (l : Address) (text : Text) : List (Address × Text) → List (Address × Text)
  | [] => [(l, text)]
  | (m, old) :: files => if m = l then (l, text) :: files else (m, old) :: writeIn l text files

/-- The tree in which a file has a text. -/
def write (t : FileTree) (l : Address) (text : Text) : FileTree :=
  { t with files := writeIn l text t.files }

theorem lookup_writeIn_self (l : Address) (text : Text) (files : List (Address × Text)) :
    (writeIn l text files).lookup l = some text := by
  induction files with
  | nil => simp [writeIn]
  | cons f files ih =>
    obtain ⟨m, old⟩ := f
    by_cases h : m = l
    · simp [writeIn, h]
    · have h' : (l == m) = false := by simpa using fun e => h e.symm
      simp [writeIn, h, List.lookup_cons, h', ih]

theorem lookup_writeIn_of_ne {l m : Address} (h : m ≠ l) (text : Text)
    (files : List (Address × Text)) : (writeIn l text files).lookup m = files.lookup m := by
  have hb : (m == l) = false := by simpa using h
  induction files with
  | nil => simp [writeIn, List.lookup_cons, hb]
  | cons f files ih =>
    obtain ⟨n, old⟩ := f
    by_cases hn : n = l
    · simp [writeIn, hn, List.lookup_cons, hb]
    · simp only [writeIn, hn, if_false, List.lookup_cons]
      split <;> simp [ih]

/-- A file that has been given a text has it. -/
@[simp] theorem content?_write_self (t : FileTree) (l : Address) (text : Text) :
    (t.write l text).content? l = some text := lookup_writeIn_self l text t.files

/-- All other files keep their texts. -/
theorem content?_write_of_ne (t : FileTree) {l m : Address} (h : m ≠ l) (text : Text) :
    (t.write l text).content? m = t.content? m := lookup_writeIn_of_ne h text t.files

end FileTree

/-! ### Places -/

/-- An address with the path by which it was reached. -/
structure Place where
  path : Text
  address : Address
  deriving DecidableEq, Repr

namespace Place

/-- The root. -/
def root : Place := ⟨['/'], []⟩

/-- A place inside a directory, by the names from there on. -/
def within (p : Place) (names : Address) : Place :=
  ⟨names.foldl Path.append p.path, p.address ++ names⟩

end Place

namespace FileTree

/-- The address that a part of a path leads to. An empty part and a point stay where they are, and
two points lead up. -/
def addressAfter (l : Address) (part : Text) : Address :=
  if part.isEmpty || part == ['.'] then l
  else if part = ['.', '.'] then l.dropLast
  else l ++ [part]

/-- The place that a part of a path leads to from a directory, if something is there. -/
def enter? (t : FileTree) (p : Place) (part : Text) : Option Place :=
  let l := addressAfter p.address part
  if t.isDirectory p.address && t.isPresent l then some ⟨Path.append p.path part, l⟩ else none

/-- The address that a path from the root leads to. -/
def resolve? (t : FileTree) (path : Text) : Option Address :=
  ((Text.pieces '/' path).foldlM t.enter? Place.root).map Place.address

/-- The text of the file at the end of a path. -/
def read? (t : FileTree) (path : Text) : Option Text := (t.resolve? path).bind t.content?

/-- The tree in which the file at the end of a path has a text. -/
def writeTo (t : FileTree) (path text : Text) : FileTree :=
  match t.resolve? path with
  | some l => t.write l text
  | none => t

/-- The tree of some files and directories. -/
def ofFiles (directories : List Address) (files : List (Address × Text)) : FileTree :=
  files.foldl (fun t (l, text) => t.write l text) ⟨directories, []⟩

end FileTree

end EntityLint
