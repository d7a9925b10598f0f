import EntityLint.Toml.Value

/-!
# Building tables

A configuration text is a list of statements, each of which makes a table or gives a key a value.

* `Statement`: the three kinds of statements;
* `Origin`, `Node`: what stands under a key, and how a table came to be;
* `editAt`: an edit of the table at the end of a path;
* `Entry.insert`, `Builder.step`, `build?`: what statements do.

A key has one value, and a table is made once. A table that is only passed through on a path is made
on the way, and may be made in full later if it was on the path of a header.
-/

namespace EntityLint.Toml

/-- A key with a value, under a path of keys. -/
structure Entry where
  path : List Text
  key : Text
  value : Value

/-- A statement. Headers say which table the entries after them belong to. -/
inductive Statement
  /-- The header of a table. -/
  | header (path : List Text) (key : Text)
  /-- The header of one more table of a list. -/
  | item (path : List Text) (key : Text)
  | entry (e : Entry)

/-- How a table came to be. -/
inductive Origin
  /-- It has a header, or is the whole text. -/
  | header
  /-- It is on the path of a header. -/
  | passed
  /-- It is on the path of an entry. -/
  | dotted
  deriving DecidableEq, Repr

/-- What stands under a key while a text is read. -/
inductive Node
  | value (v : Value)
  | table (origin : Origin) (fields : List (Text × Node))
  /-- A list of tables that is never empty: those before the last one, and the last one. -/
  | tables (earlier : List (List (Text × Node))) (last : List (Text × Node))

/-- The fields of a table while a text is read, in the order in which their keys came up. -/
abbrev Fields := List (Text × Node)

namespace Fields

/-- Give a key a new node, in its place if it is there. -/
def set (fields : Fields) (key : Text) (node : Node) : Fields :=
  match fields with
  | [] => [(key, node)]
  | (k, n) :: rest => if k = key then (key, node) :: rest else (k, n) :: set rest key node

/-- The fields without a key. -/
def without (fields : Fields) (key : Text) : Fields := fields.filter fun (k, _) => k != key

end Fields

/-- Edit the table at the end of a path that begins in a table. Tables that are missing on the way
are made, of an origin that tells what sort of path it is. A path of an entry does not lead into a
table with a header. -/
def editAt (made : Origin) (edit : Origin → Fields → Option Fields) :
    List Text → Origin → Fields → Option Fields
  | [], origin, fields => edit origin fields
  | key :: path, _, fields =>
    match fields.lookup key with
    | none => do
      let inner ← editAt made edit path made []
      return fields.set key (.table made inner)
    | some (.value _) => none
    | some (.tables earlier last) => do
      let inner ← editAt made edit path .header last
      return fields.set key (.tables earlier inner)
    | some (.table origin inner) => do
      guard ¬(made = .dotted ∧ origin = .header)
      let inner ← editAt made edit path origin inner
      return fields.set key (.table origin inner)

namespace Entry

/-- Put an entry into a table. The table at the end of a path of keys must be one that was made for
such paths. -/
def insert (e : Entry) (origin : Origin) (fields : Fields) : Option Fields :=
  editAt .dotted
    (fun reached fields => do
      guard (e.path.isEmpty ↔ reached ≠ .dotted)
      guard (fields.lookup e.key).isNone
      return fields.set e.key (.value e.value))
    e.path origin fields

end Entry

/-- Make the table of a header in the table that its path leads to. A table that was passed through
moves to the end. -/
def openTable (key : Text) (_ : Origin) (fields : Fields) : Option Fields :=
  match fields.lookup key with
  | none => some (fields.set key (.table .header []))
  | some (.table .passed inner) => some ((fields.without key).set key (.table .header inner))
  | _ => none

/-- Add a table to a list of tables. -/
def openItem (key : Text) (_ : Origin) (fields : Fields) : Option Fields :=
  match fields.lookup key with
  | none => some (fields.set key (.tables [] []))
  | some (.tables earlier last) => some (fields.set key (.tables (earlier ++ [last]) []))
  | _ => none

/-! ### Statements -/

/-- The tables made so far, and the path of the header that was read last. -/
structure Builder where
  current : List Text
  root : Fields

/-- Take in a statement. -/
def Builder.step (b : Builder) : Statement → Option Builder
  | .header path key => do
    let root ← editAt .passed (openTable key) path .header b.root
    return ⟨path ++ [key], root⟩
  | .item path key => do
    let root ← editAt .passed (openItem key) path .header b.root
    return ⟨path ++ [key], root⟩
  | .entry e => do
    let root ← editAt .passed e.insert b.current .header b.root
    return { b with root }

/-! ### Values -/

mutual

/-- The value of a node. -/
def Node.toValue : Node → Value
  | .value v => v
  | .table _ fields => .table (fieldValues fields)
  | .tables earlier last => .array (tableValues earlier ++ [.table (fieldValues last)])

/-- The fields of a table with their values. -/
def fieldValues : List (Text × Node) → List (Text × Value)
  | [] => []
  | (key, node) :: rest => (key, node.toValue) :: fieldValues rest

/-- The values of some tables. -/
def tableValues : List (List (Text × Node)) → List Value
  | [] => []
  | fields :: rest => .table (fieldValues fields) :: tableValues rest

end

/-- The fields that some statements make, if they agree. -/
def build? (statements : List Statement) : Option (List (Text × Value)) := do
  let b ← statements.foldlM Builder.step ⟨[], []⟩
  return fieldValues b.root

/-- The table of some entries on their own. -/
def tableOf? (entries : List Entry) : Option Value :=
  (build? (entries.map .entry)).map .table

end EntityLint.Toml
