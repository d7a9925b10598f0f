import EntityLint.Text.Basic

/-!
# Type texts

A type text is a union of names with `|` between them.

* `TypeName.longName`: `int` and `bool` have longer spellings;
* `TypeName.isSame`: whether a declared type satisfies an expected one.
-/

namespace EntityLint.TypeName

/-- The long spelling of a scalar type. -/
def longName (name : Text) : Text :=
  if name = "bool".toList then "boolean".toList
  else if name = "int".toList then "integer".toList
  else name

/-- The members of a union, in their long spelling. -/
def members (union : Text) : List Text := (Text.pieces '|' union).map longName

/-- Whether a member of a union is an array of something, written with `[]` at its end. -/
def hasArrayShape : Text → Bool
  | [] => false
  | c :: t =>
    (match c :: t with
      | ['[', ']'] => true
      | '[' :: ']' :: '|' :: _ => true
      | _ => false) || hasArrayShape t

/-- A type text without the backslashes that begin it. -/
def withoutLead (t : Text) : Text := t.dropWhile (· == '\\')

/-- The members that satisfy an expected type. -/
def accepted (expected : Text) : List Text :=
  if expected = "DateTime".toList then
    members "DateTime|DateTimeInterface|DateTimeImmutable".toList
  else members expected

/-- Whether a declared type satisfies an expected one: they share a member, or are equal, or an
array is expected and a member is an array of something. -/
def isSame (expected actual : Text) : Bool :=
  let expected := withoutLead expected
  let actual := withoutLead actual
  expected == actual || (expected == "array".toList && hasArrayShape actual)
    || (members actual).any fun m => (accepted expected).contains m

end EntityLint.TypeName
