import EntityLint.Text.Basic

/-!
# Names

Conversions between the names of properties, columns, methods and classes. They treat ASCII letters
only.

* `upperFirst`, `lowerFirst`, `camelCase`, `underScore`, `singular?`;
* `soundsLikeClass`, `isClassReference`, `shortClassName`, `classReference`.
-/

namespace EntityLint.Naming

/-- The name with its first letter made a capital. -/
def upperFirst : Text → Text
  | [] => []
  | c :: t => c.toUpper :: t

/-- The name with its first letter made small. -/
def lowerFirst : Text → Text
  | [] => []
  | c :: t => c.toLower :: t

/-- The words between underscores and spaces, joined as in `firstName`. -/
def camelCase (name : Text) : Text :=
  let spaced := name.map fun c => if c = '_' then ' ' else c
  lowerFirst ((Text.pieces ' ' (Text.trim spaced)).flatMap upperFirst)

/-- The rest of a name in small letters, after a given character. An underscore goes between a small
letter or digit and a capital. -/
def underScoreAfter (before : Option Char) : Text → Text
  | [] => []
  | c :: t =>
    let mark := if c.isUpper && before.any fun b => b.isLower || b.isDigit then ['_'] else []
    mark ++ c.toLower :: underScoreAfter (some c) t

/-- The name in small letters with underscores between its words, as in `first_name`. -/
def underScore (name : Text) : Text := underScoreAfter none name

/-- The singular of a plural name, which ends in `s`: `categories` gives `category`, `addresses`
gives `address`. -/
def singular? (plural : Text) : Option Text := do
  let stem ← Text.stripTrailing? ['s'] plural
  match Text.stripTrailing? ['i', 'e'] stem with
  | some base => return base ++ ['y']
  | none => return if Text.endsWith stem ['s', 'e'] then stem.dropLast else stem

/-- Whether a name does not begin with a small letter. -/
def soundsLikeClass (name : Text) : Bool := !name.head?.any Char.isLower

/-- What makes the name of a class a reference to it. -/
def classSuffix : Text := "::class".toList

/-- Whether a text is a name with `::class` after it. -/
def isClassReference (t : Text) : Bool :=
  classSuffix.length < t.length && Text.endsWith t classSuffix

/-- The last part of a name with backslashes, and without `::class`. -/
def shortClassName (name : Text) : Text :=
  let short := (name.reverse.takeWhile (· != '\\')).reverse
  if isClassReference short then short.take (short.length - classSuffix.length) else short

/-- A reference to a class by its name. -/
def classReference (name : Text) : Text := name ++ classSuffix

end EntityLint.Naming
