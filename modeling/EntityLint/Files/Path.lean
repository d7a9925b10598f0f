import EntityLint.Text.Basic

/-!
# Paths

A path is a text. Paths are told apart and put in order by their components, so that double slashes
and points in the middle do not count.

* `Path.Component`, `Path.components`;
* `Path.le`, `Path.same`: the order, and equality in it;
* `Path.join`: a path inside a directory.
-/

namespace EntityLint.Path

/-- A component of a path. -/
inductive Component
  /-- The slash at the beginning. -/
  | root
  /-- A point at the beginning. -/
  | here
  | parent
  | name (t : Text)
  deriving DecidableEq, Repr

/-- The component of a part between slashes, if it is one. -/
def Component.ofPart? (t : Text) : Option Component :=
  if t.isEmpty || t == ['.'] then none
  else if t = ['.', '.'] then some .parent
  else some (.name t)

/-- Whether a path begins at the root. -/
def isAbsolute (t : Text) : Bool := t.head? == some '/'

/-- The components of a path. -/
def components (t : Text) : List Component :=
  let parts := Text.pieces '/' t
  let first :=
    if isAbsolute t then [.root] else if parts.head? = some ['.'] then [.here] else []
  first ++ parts.filterMap Component.ofPart?

/-! ### Order -/

/-- The place of a component among the sorts of components. -/
def Component.rank : Component → Nat
  | root => 0
  | here => 1
  | parent => 2
  | name _ => 3

/-- The characters of a component by number. The order of these lists is that of the bytes. -/
def Component.codes : Component → List Nat
  | name t => t.map Char.toNat
  | _ => []

/-- What a path is ordered by: the ranks and characters of its components. -/
def key (t : Text) : List (List Nat) := (components t).map fun c => c.rank :: c.codes

/-- The order of paths: component by component, and within names byte by byte. -/
def le (a b : Text) : Bool :=
  !(key b).lex (key a) fun x y => x.lex y Nat.blt

/-- Whether two paths have the same components. -/
def same (a b : Text) : Bool := components a == components b

/-! ### Joining -/

/-- A path with one more part, and a slash in between if there is none. -/
def append (base part : Text) : Text :=
  if base.isEmpty || Text.endsWith base ['/'] then base ++ part else base ++ '/' :: part

/-- A path inside a directory. One that begins at the root stays as it is. -/
def join (base path : Text) : Text := if isAbsolute path then path else append base path

end EntityLint.Path
