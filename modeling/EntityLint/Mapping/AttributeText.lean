import EntityLint.Mapping.Attribute
import EntityLint.Number.Numeral

/-!
# Reading the arguments of an annotation

The text between the parentheses of an annotation is read attribute by attribute. What is not well
formed is reported and read all the same.

* `AttributeIssue`: what is reported;
* `readValue`, `readAttribute`, `readStep`: a value, an attribute, and the next part of a text;
* `parseAttributes`.

A bracketed literal ends at its first closing bracket. An argument without a name is stored under
`positionalName`. The main statement is `length_rest_readStep`: each part takes some of the text.
-/

namespace EntityLint

/-- What is wrong with the way an attribute is written. -/
inductive AttributeIssue
  | spaceAroundName (name : Text)
  | spaceBeforeValue (name : Text)
  | noSpaceBeforeValue (name : Text)
  | spaceAfterValue (name : Text)
  | unclosedString
  | unclosedArray
  deriving DecidableEq, Repr

namespace AttributeIssue

/-- The message code. -/
def code : AttributeIssue → String
  | spaceAroundName _ | spaceBeforeValue _ | spaceAfterValue _ => "ExtraSpace"
  | noSpaceBeforeValue _ => "NeedSpace"
  | unclosedString | unclosedArray => "UnexpectedEnd"

/-- The wording. -/
def message : AttributeIssue → String
  | spaceAroundName name => s!"Found extra space before attribute \"{String.ofList name}\" name"
  | spaceBeforeValue name => s!"Found extra space before attribute \"{String.ofList name}\" value"
  | noSpaceBeforeValue name => s!"Need space before attribute \"{String.ofList name}\" value"
  | spaceAfterValue name => s!"Extra space after attribute \"{String.ofList name}\" value"
  | unclosedString => "Unexpected end of string"
  | unclosedArray => "Unexpected end of array"

end AttributeIssue

/-- The name of arguments without a name. -/
def positionalName : Text := "value".toList

/-! ### Values -/

/-- The number that a bare text writes, without its fraction. A number that does not fit in 64 bits
is taken for the nearest that does, and one that is not finite is none. -/
def wholeNumber? (text : Text) : Option Int :=
  match (Numeral.signed? text).filter Numeral.inWord with
  | some n => some n
  | none => ((Numeral.decimal? text).bind Numeral.Decimal.toBinary64?).map fun x =>
      Numeral.saturate x.truncate

/-- The value of a bare text. -/
def bareValue (text : Text) : AttributeValue :=
  if Text.asciiLower text = "true".toList then .boolean true
  else if Text.asciiLower text = "false".toList then .boolean false
  else match wholeNumber? (Text.trim text) with
    | some n => .integer n
    | none => .string text

/-- A value with an issue, if it has one, and the text after it. -/
structure ValueReading where
  value : AttributeValue
  issue : Option AttributeIssue
  rest : Text
  deriving DecidableEq, Repr

/-- A bare value reaches to the next comma, less blanks before it. -/
def readBare (t : Text) : ValueReading :=
  let text := Text.trimEnd (t.takeWhile (· != ','))
  ⟨bareValue text, none, t.drop text.length⟩

/-- The value that begins a text. -/
def readValue (d : Dialect) : Text → ValueReading
  | [] => readBare []
  | c :: t =>
    if c = d.quote then
      match Text.breakOn [d.quote] t with
      | some (text, rest) => ⟨.string text, none, rest⟩
      | none => ⟨.string t, some .unclosedString, []⟩
    else if c = d.opening then
      match Text.breakOn [d.closing] t with
      | some (text, rest) => ⟨.raw (c :: (text ++ [d.closing])), none, rest⟩
      | none => ⟨.raw (c :: t), some .unclosedArray, []⟩
    else readBare (c :: t)

/-! ### Attributes -/

/-- The parts before and after the first delimiter. Two colons in a row are none. -/
def breakAtDelimiter (d : Dialect) (before : Option Char) : Text → Option (Text × Text)
  | [] => none
  | c :: t =>
    if c = d.delimiter ∧ (d = .doc ∨ t.head? ≠ some ':' ∧ before ≠ some ':') then some ([], t)
    else (breakAtDelimiter d (some c) t).map fun (name, rest) => (c :: name, rest)

/-- Characters of an attribute name. -/
def isNameChar (c : Char) : Bool := c.isAlphanum || c == '_'

/-- The name that begins a text with the blanks around it, and the text after its delimiter. -/
def splitName? (d : Dialect) (t : Text) : Option (Text × Text) := do
  let (name, rest) ← breakAtDelimiter d none t
  let word := Text.trim name
  if !word.isEmpty && word.all isNameChar then some (name, rest) else none

/-- A part of the arguments: an attribute, if it has one, the issues in order, and the text after
it. -/
structure AttributeReading where
  entry : Option (Text × AttributeValue)
  issues : List AttributeIssue
  rest : Text
  deriving DecidableEq, Repr

/-- Whether spaces around a name are an issue. In an attribute group a name may stand on a line of
its own. -/
def isSpacedName (d : Dialect) (name : Text) : Bool :=
  name.contains ' ' && (d == .doc || !name.contains '\n')

/-- The issue of the space between a delimiter and its value: there is one in an attribute group and
none in a doc comment. -/
def spacingIssue? (d : Dialect) (name : Text) (rest : Text) : Option AttributeIssue :=
  match d, rest.head? == some ' ' with
  | .doc, true => some (.spaceBeforeValue name)
  | .native, false => some (.noSpaceBeforeValue name)
  | _, _ => none

/-- The text after the character that ends an attribute, and after a space that follows a comma. -/
def afterSeparator : Text → Text
  | ',' :: ' ' :: t => t
  | _ :: t => t
  | [] => []

/-- The value of an attribute and what is around it, given the issues found before. -/
def readNamed (d : Dialect) (name : Text) (issues : List AttributeIssue) (t : Text) :
    AttributeReading :=
  let reading := readValue d t
  let spaced := reading.rest.head? == some ' '
  { entry := some (name, reading.value)
    issues := issues ++ reading.issue.toList ++ (if spaced then [.spaceAfterValue name] else [])
    rest := afterSeparator (reading.rest.dropWhile (· == ' ')) }

/-- The attribute that begins a text. -/
def readAttribute (d : Dialect) (t : Text) : AttributeReading :=
  match splitName? d t with
  | none => readNamed d positionalName [] t
  | some (raw, rest) =>
    let name := Text.trim raw
    let issues := (if isSpacedName d raw then [.spaceAroundName name] else [])
      ++ (spacingIssue? d name rest).toList
    readNamed d name issues (rest.dropWhile (· == ' '))

/-- The text after a literal without a name, which is no attribute. -/
def skipLiteral? (d : Dialect) (t : Text) : Option Text :=
  if t.head? = some d.opening then
    (Text.breakOn [d.closing] t).map fun (_, rest) =>
      rest.dropWhile fun c => c == ',' || Text.isBlank c
  else none

/-- The next part of some arguments. -/
def readStep (d : Dialect) (t : Text) : AttributeReading :=
  let t := t.dropWhile (· == ',')
  if t.all Text.isBlank then ⟨none, [], []⟩
  else match skipLiteral? d t with
    | some rest => ⟨none, [], rest⟩
    | none => readAttribute d t

/-! ### Each part takes some of the text -/

theorem length_dropWhile_le (p : Char → Bool) (t : Text) : (t.dropWhile p).length ≤ t.length :=
  (List.dropWhile_sublist p).length_le

theorem length_of_breakOn {needle t before after : Text}
    (h : Text.breakOn needle t = some (before, after)) :
    before.length + needle.length + after.length = t.length := by
  simpa [Nat.add_assoc] using congrArg List.length (Text.append_of_breakOn h)

theorem length_rest_readValue (d : Dialect) (t : Text) :
    (readValue d t).rest.length ≤ t.length := by
  unfold readValue
  split
  · simp [readBare]
  · repeat' split
    all_goals first
      | (rename_i h; have := length_of_breakOn h; simp_all; omega)
      | simp [readBare]

theorem length_afterSeparator (t : Text) : (afterSeparator t).length ≤ t.length - 1 := by
  unfold afterSeparator
  split <;> simp

/-- A text that is not empty is never left as it is: its value takes a part of it, or spaces are
passed over, or the character that ends an attribute is. -/
theorem length_rest_readNamed {d : Dialect} {name : Text} {issues : List AttributeIssue}
    {t : Text} : (readNamed d name issues t).rest.length ≤ t.length - 1 := by
  have h₁ := length_rest_readValue d t
  have h₂ := length_dropWhile_le (· == ' ') (readValue d t).rest
  have h₃ := length_afterSeparator ((readValue d t).rest.dropWhile (· == ' '))
  simp only [readNamed]
  omega

theorem length_of_breakAtDelimiter {d : Dialect} {before : Option Char} {t name rest : Text}
    (h : breakAtDelimiter d before t = some (name, rest)) : rest.length < t.length := by
  induction t generalizing before name rest with
  | nil => simp [breakAtDelimiter] at h
  | cons c t ih =>
    simp only [breakAtDelimiter] at h
    split at h
    · cases h; simp
    · simp only [Option.map_eq_some_iff, Prod.mk.injEq, Prod.exists] at h
      obtain ⟨n, r, hnr, -, rfl⟩ := h
      have := ih hnr
      simp only [List.length_cons]
      omega

theorem length_of_splitName? {d : Dialect} {t name rest : Text}
    (h : splitName? d t = some (name, rest)) : rest.length < t.length := by
  simp only [splitName?, Option.bind_eq_bind, Option.bind_eq_some_iff, Prod.exists] at h
  obtain ⟨n, r, hnr, hif⟩ := h
  split at hif
  · cases hif; exact length_of_breakAtDelimiter hnr
  · simp at hif

theorem length_rest_readAttribute {d : Dialect} {t : Text} (h : t ≠ []) :
    (readAttribute d t).rest.length < t.length := by
  have hpos : 0 < t.length := List.length_pos_iff.2 h
  unfold readAttribute
  split
  · have := @length_rest_readNamed d positionalName [] t
    omega
  · next raw rest hs =>
    have h₁ := length_of_splitName? hs
    have h₂ := length_dropWhile_le (· == ' ') rest
    have h₃ := @length_rest_readNamed d (Text.trim raw)
      ((if isSpacedName d raw then [.spaceAroundName (Text.trim raw)] else [])
        ++ (spacingIssue? d (Text.trim raw) rest).toList) (rest.dropWhile (· == ' '))
    simp only
    omega

theorem length_of_skipLiteral? {d : Dialect} {t rest : Text} (h : skipLiteral? d t = some rest) :
    rest.length < t.length := by
  simp only [skipLiteral?] at h
  split at h
  · simp only [Option.map_eq_some_iff, Prod.exists] at h
    obtain ⟨b, a, hb, rfl⟩ := h
    have h₁ := length_of_breakOn hb
    have h₂ := length_dropWhile_le (fun c => c == ',' || Text.isBlank c) a
    simp only [List.length_singleton] at h₁
    omega
  · simp at h

/-- The text after a part is shorter than the text before it, if that is more than blanks. -/
theorem length_rest_readStep {d : Dialect} {t : Text} (h : t.all Text.isBlank = false) :
    (readStep d t).rest.length < t.length := by
  have hne : t ≠ [] := by rintro rfl; simp at h
  have hpos : 0 < t.length := List.length_pos_iff.2 hne
  have hd := length_dropWhile_le (· == ',') t
  simp only [readStep]
  split
  · exact hpos
  · next hb =>
    split
    · next rest hs =>
      have := length_of_skipLiteral? hs
      exact Nat.lt_of_lt_of_le this hd
    · have hne' : t.dropWhile (· == ',') ≠ [] := by
        intro he
        simp [he] at hb
      exact Nat.lt_of_lt_of_le (length_rest_readAttribute hne') hd

/-! ### All attributes -/

/-- The parts of some arguments, in order. -/
def attributeReadings (d : Dialect) (t : Text) : List AttributeReading :=
  if h : t.all Text.isBlank = true then []
  else
    have : (readStep d t).rest.length < t.length := length_rest_readStep (by simpa using h)
    readStep d t :: attributeReadings d (readStep d t).rest
termination_by t.length

/-- The attributes of an annotation and the issues found on the way. -/
structure ParsedAttributes where
  attributes : AttributeMap
  issues : List AttributeIssue
  deriving DecidableEq, Repr

/-- Read the text between the parentheses of an annotation. -/
def parseAttributes (d : Dialect) (text : Text) : ParsedAttributes :=
  let readings := attributeReadings d (Text.trim text)
  ⟨.ofList (readings.filterMap AttributeReading.entry),
    readings.flatMap AttributeReading.issues⟩

end EntityLint
