import EntityLint.Text.Basic

/-!
# Attributes of an annotation

* `Dialect`: the two ways to write an annotation;
* `AttributeValue`, with its text `AttributeValue.text` and `AttributeValue.isTruthy`;
* `AttributeMap`: named values in the order in which the names first came up.

`get?_insert` and `names_insert` say what an insertion does.
-/

namespace EntityLint

/-- How an annotation is written: `name="value"` in a doc comment, `name: 'value'` in an attribute
group of the code. -/
inductive Dialect
  | doc
  | native
  deriving DecidableEq, Repr

namespace Dialect

/-- The character between a name and its value. -/
def delimiter : Dialect → Char
  | doc => '='
  | native => ':'

/-- The quote around a text. -/
def quote : Dialect → Char
  | doc => '"'
  | native => '\''

/-- The bracket that opens a literal. -/
def opening : Dialect → Char
  | doc => '\x7b'
  | native => '['

/-- The bracket that closes a literal. -/
def closing : Dialect → Char
  | doc => '\x7d'
  | native => ']'

end Dialect

/-- The value of an attribute. -/
inductive AttributeValue
  /-- A quoted text, or a bare one that is no number and no truth value. -/
  | string (text : Text)
  /-- A bare number, without its fraction. -/
  | integer (value : Int)
  /-- A bare truth value. -/
  | boolean (value : Bool)
  /-- A bracketed literal with its brackets. -/
  | raw (text : Text)
  deriving DecidableEq, Repr

namespace AttributeValue

/-- The text of a value. A truth value is written `1` or not at all. -/
def text : AttributeValue → Text
  | string text | raw text => text
  | integer value => (toString value).toList
  | boolean true => ['1']
  | boolean false => []

/-- The text of a value that is a text. -/
def string? : AttributeValue → Option Text
  | string text => some text
  | _ => none

/-- Whether a value counts as set. -/
def isTruthy : AttributeValue → Bool
  | string text | raw text => !text.isEmpty && text != ['0']
  | integer value => value != 0
  | boolean value => value

end AttributeValue

/-- Attributes in the order in which their names first came up. -/
structure AttributeMap where
  entries : List (Text × AttributeValue)
  deriving DecidableEq, Repr

namespace AttributeMap

/-- The map without attributes. -/
def empty : AttributeMap := ⟨[]⟩

/-- The entries with a value set: in its place if the name is there, else at the end. -/
def insertEntry (name : Text) (value : AttributeValue) :
    List (Text × AttributeValue) → List (Text × AttributeValue)
  | [] => [(name, value)]
  | entry :: entries =>
    if entry.1 = name then (name, value) :: entries else entry :: insertEntry name value entries

/-- Set the value of a name. -/
def insert (m : AttributeMap) (name : Text) (value : AttributeValue) : AttributeMap :=
  ⟨insertEntry name value m.entries⟩

/-- The value of a name. -/
def get? (m : AttributeMap) (name : Text) : Option AttributeValue := m.entries.lookup name

/-- The text of a name whose value is a text. -/
def getString? (m : AttributeMap) (name : Text) : Option Text :=
  (m.get? name).bind AttributeValue.string?

/-- Whether a name has a value. -/
def contains (m : AttributeMap) (name : Text) : Bool := (m.get? name).isSome

/-- The names in order. -/
def names (m : AttributeMap) : List Text := m.entries.map Prod.fst

/-- The number of attributes. -/
def size (m : AttributeMap) : Nat := m.entries.length

/-- The map after some insertions, in order. -/
def ofList (entries : List (Text × AttributeValue)) : AttributeMap :=
  entries.foldl (fun m (name, value) => m.insert name value) empty

/-! ### Insertions -/

theorem lookup_insertEntry (name key : Text) (value : AttributeValue)
    (entries : List (Text × AttributeValue)) :
    (insertEntry name value entries).lookup key
      = if key = name then some value else entries.lookup key := by
  induction entries with
  | nil =>
    by_cases h : key = name
    · subst h; simp [insertEntry]
    · simp [insertEntry, List.lookup_cons, h, beq_false_of_ne h]
  | cons entry entries ih =>
    obtain ⟨k, v⟩ := entry
    by_cases hk : k = name
    · subst hk
      by_cases h : key = k
      · subst h; simp [insertEntry]
      · simp [insertEntry, List.lookup_cons, h, beq_false_of_ne h]
    · by_cases h : key = k
      · subst h; simp [insertEntry, hk]
      · simp [insertEntry, hk, List.lookup_cons, beq_false_of_ne h, ih]

/-- After an insertion its name has the new value and any other name has the value it had. -/
@[simp] theorem get?_insert (m : AttributeMap) (name key : Text) (value : AttributeValue) :
    (m.insert name value).get? key = if key = name then some value else m.get? key :=
  lookup_insertEntry name key value m.entries

/-- A new name goes to the end and a known one keeps its place. -/
theorem names_insert (m : AttributeMap) (name : Text) (value : AttributeValue) :
    (m.insert name value).names = if name ∈ m.names then m.names else m.names ++ [name] := by
  obtain ⟨entries⟩ := m
  simp only [insert, names]
  induction entries with
  | nil => simp [insertEntry]
  | cons entry entries ih =>
    simp only [insertEntry]
    by_cases hk : entry.1 = name
    · simp [hk]
    · rw [if_neg hk, List.map_cons, ih]
      have hk' : ¬ name = entry.1 := fun h => hk h.symm
      by_cases hm : name ∈ entries.map Prod.fst <;> simp_all

end AttributeMap

end EntityLint
