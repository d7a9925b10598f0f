import EntityLint.Number.Shortest
import EntityLint.Toml.Datetime

/-!
# Values of a configuration text

* `Real`, `Value`;
* `Value.bool?`, `Value.string?`, `Value.integer?`, `Value.list?`, `Value.fields?`: values of one
  sort;
* `Value.withDates?`: the value in which tables that stand for dates and times are these.
-/

namespace EntityLint.Toml

/-- A number with a fraction or an exponent, or what takes the place of one. -/
inductive Real
  | finite (x : Binary64)
  | infinite (negative : Bool)
  | undefined
  deriving DecidableEq, Repr

/-- The text of a number. -/
def Real.text : Real → String
  | finite x => x.text
  | infinite true => "-inf"
  | infinite false => "inf"
  | undefined => "NaN"

/-- A value. The keys of a table are distinct. -/
inductive Value
  | string (t : Text)
  | integer (n : Int)
  | float (x : Real)
  | boolean (b : Bool)
  | datetime (d : Datetime)
  | array (items : List Value)
  | table (fields : List (Text × Value))
  deriving Inhabited

namespace Value

/-- The value as a truth value. -/
def bool? : Value → Option Bool
  | boolean b => some b
  | _ => none

/-- The value as a text. -/
def string? : Value → Option Text
  | string t => some t
  | _ => none

/-- The value as a whole number. -/
def integer? : Value → Option Int
  | integer n => some n
  | _ => none

/-- The value as a text, where dates and times count as their texts. -/
def asText? : Value → Option Text
  | string t => some t
  | datetime d => some d.text
  | _ => none

/-- The items of a list, if all of them can be read. -/
def list? (read : Value → Option α) : Value → Option (List α)
  | array items => items.mapM read
  | _ => none

/-- The key under which a date or time stands where a table is expected. -/
def datetimeKey : Text := "$__toml_private_datetime".toList

/-- The fields of a table. A date or time is a table with a key of its own. -/
def fields? : Value → Option (List (Text × Value))
  | table fields => some fields
  | datetime d => some [(datetimeKey, string d.text)]
  | _ => none

/-- Whether a table with some fields stands for a date or time: it begins with the key for them. -/
def marksDate (fields : List (Text × Value)) : Bool :=
  fields.head?.any fun (key, _) => key == datetimeKey

/-- The date or time that a table with some fields stands for: there is one field, whose text writes
it. -/
def dateOf? : List (Text × Value) → Option Datetime
  | [(_, string t)] => Datetime.read? t
  | _ => none

mutual

/-- The value in which every table that stands for a date or time is replaced by it, if there is one
for each of them. -/
def withDates? : Value → Option Value
  | array items => (itemsWithDates? items).map array
  | table fields =>
    if marksDate fields then (dateOf? fields).map datetime
    else (fieldsWithDates? fields).map table
  | value => some value

/-- The items of a list with their dates and times. -/
def itemsWithDates? : List Value → Option (List Value)
  | [] => some []
  | value :: rest => do
    let value ← withDates? value
    return value :: (← itemsWithDates? rest)

/-- The fields of a table with their dates and times. -/
def fieldsWithDates? : List (Text × Value) → Option (List (Text × Value))
  | [] => some []
  | (key, value) :: rest => do
    let value ← withDates? value
    return (key, value) :: (← fieldsWithDates? rest)

end

/-- The fields of a table, if all of their values can be read. -/
def map? (read : Value → Option α) : Value → Option (List (Text × α))
  | table fields => fields.mapM fun (key, value) => (read value).map fun a => (key, a)
  | _ => none

/-- Whether a list or table holds nothing. -/
def isEmptyGroup : Value → Bool
  | array items => items.isEmpty
  | table fields => fields.isEmpty
  | _ => false

end Value

end EntityLint.Toml
