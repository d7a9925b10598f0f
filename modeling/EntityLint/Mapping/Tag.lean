import EntityLint.Mapping.AttributeText
import EntityLint.Mapping.MappingKind
import EntityLint.Source.Declaration
import EntityLint.Suppression

/-!
# The annotations of a property

A property is annotated in the doc comment and in the attribute groups in front of it.

* `MappingTag`: an annotation, where it stands and what it holds;
* `DocEntry`, `SourceFile.docTags`: the annotations of a doc comment;
* `SourceFile.attributeGroups`, `SourceFile.nativeTags`: those of attribute groups;
* `PropertyTags`, `SourceFile.propertyTags`: all that is known of a property.

Only names that begin with `ORM` count, and the arguments of `ORM\JoinTable` are not looked into.
-/

namespace EntityLint

/-- An annotation of a property. -/
structure MappingTag where
  /-- The name as written. -/
  name : Text
  kind : MappingKind
  /-- The token that its faults are reported at. -/
  position : Nat
  /-- The first token of the name and its arguments. -/
  start : Nat
  /-- The token after the name and its arguments. -/
  stop : Nat
  dialect : Dialect
  attributes : AttributeMap
  issues : List AttributeIssue
  deriving DecidableEq, Repr

namespace MappingTag

/-- The name of an annotation without its namespace. -/
def bareName (name : Text) : Text := (Text.stripLeading? "ORM\\".toList name).getD name

/-- Whether a name is that of an annotation that counts. -/
def isMapping (name : Text) : Bool :=
  Text.startsWith name "ORM".toList && name != "ORM\\JoinTable".toList

/-- The annotation with some arguments. -/
def ofArguments (name : Text) (position start stop : Nat) (dialect : Dialect) (arguments : Text) :
    MappingTag :=
  let parsed := parseAttributes dialect arguments
  ⟨name, .ofName (bareName name), position, start, stop, dialect, parsed.attributes,
    parsed.issues⟩

end MappingTag

namespace SourceFile

/-- The kinds that something written in front of a declaration can belong to. -/
def declarationKinds : List Kind := [.variable, .kwClass, .kwInterface, .kwFunction]

/-- The declaration that a doc comment or attribute group belongs to: the first one after its
end. -/
def ownerOf? (f : SourceFile) (stop : Nat) : Option Nat :=
  f.nextOfKind? declarationKinds (stop + 1) none false

/-- The doc comment in front of a declaration. -/
def docCommentOf? (f : SourceFile) (declaration : Nat) : Option Range := do
  guard (0 < declaration)
  let close ← f.previousOfKind? [.docClose] (declaration - 1) none false
  guard (f.ownerOf? close = some declaration)
  (← f.tokens[close]?).comment

/-! ### Doc comments -/

/-- The text of some tokens of a doc comment through the first closing parenthesis, without the
opening one and joined with a space, after some text before them. -/
def argumentsFrom (before : Text) : List (Token × Nat) → Option (Text × Nat)
  | [] => none
  | (token, i) :: rest =>
    if token.kind = .docText ∨ token.kind = .docTag then
      let text := if before.isEmpty then token.text else before ++ ' ' :: token.text
      match Text.breakOn [')'] text with
      | some (inner, _) => some (inner.drop 1, i + 1)
      | none => argumentsFrom text rest
    else argumentsFrom before rest

/-- The arguments of a tag in a doc comment that closes at `close`, and the token after them. -/
def docArguments (f : SourceFile) (close tag : Nat) : Text × Nat :=
  let opens := f.holdsAt (fun t => t.kind == .docText && t.text.head? == some '(') (tag + 1)
  let tokens := (f.tokens.toList.zipIdx.drop (tag + 1)).take (close - (tag + 1))
  match if opens then argumentsFrom [] tokens else none with
  | some found => found
  | none => ([], tag + 1)

/-- The first type that a `@var` tag names, on its own line. -/
def varType? (f : SourceFile) (close tag : Nat) : Option Text := do
  let space ← f.tokens[tag + 1]?
  let type ← f.tokens[tag + 2]?
  guard (tag + 2 < close && space.kind = .docBlank && !space.text.contains '\n'
    && type.kind = .docText)
  let word ← (Text.words type.text).head?
  (Text.pieces '|' word).find? fun part => !part.isEmpty

end SourceFile

/-- A tag of a doc comment that is not part of the arguments of another one. -/
inductive DocEntry
  /-- The tag that gives the type of a variable. -/
  | var (tag : Nat)
  /-- Any other tag, its arguments and the token after them. -/
  | tag (tag : Nat) (arguments : Text) (stop : Nat)
  deriving DecidableEq, Repr

namespace SourceFile

/-- The entries among some tags of a doc comment, from a token on. -/
def docEntries (f : SourceFile) (close start : Nat) : List Nat → List DocEntry
  | [] => []
  | tag :: tags =>
    if tag < start then f.docEntries close start tags
    else if f.textAt tag = "@var".toList then .var tag :: f.docEntries close start tags
    else
      let (arguments, stop) := f.docArguments close tag
      .tag tag arguments stop :: f.docEntries close stop tags

/-- The entries of a doc comment. -/
def docEntriesOf (f : SourceFile) (comment : Range) : List DocEntry :=
  f.docEntries comment.closer comment.opener ((f.tokens[comment.opener]?.map Token.docTags).getD [])

/-- The annotation of an entry, if it is one that counts. -/
def docTag? (f : SourceFile) : DocEntry → Option MappingTag
  | .var _ => none
  | .tag tag arguments stop =>
    let name := (f.textAt tag).dropWhile (· == '@')
    if MappingTag.isMapping name then
      some (.ofArguments name tag tag stop .doc arguments)
    else none

/-- The annotations of a doc comment. -/
def docTags (f : SourceFile) (comment : Range) : List MappingTag :=
  (f.docEntriesOf comment).filterMap f.docTag?

/-- The variable type of a doc comment, the last one it gives. -/
def docVarType? (f : SourceFile) (comment : Range) : Option Text :=
  ((f.docEntriesOf comment).filterMap fun
    | .var tag => f.varType? comment.closer tag
    | .tag _ _ _ => none).getLast?

/-! ### Attribute groups -/

/-- The attribute groups in front of a declaration that end before `start`, the last one first. A
group opens before it closes. -/
def attributeGroupsBefore (f : SourceFile) (declaration start : Nat) : List Range :=
  if _ : start = 0 then []
  else
    match _found : f.previousOfKind? [.attributeClose] (start - 1) none false with
    | none => []
    | some close =>
      match f.tokens[close]?.bind Token.attrGroup with
      | none => []
      | some group =>
        if f.ownerOf? close = some declaration then
          ⟨group.opener, close⟩ :: f.attributeGroupsBefore declaration (Nat.min group.opener close)
        else []
termination_by start
decreasing_by
  have := (previous?_eq_some _found).1
  have : Nat.min group.opener close ≤ close := Nat.min_le_right _ _
  omega

/-- The attribute groups in front of a declaration, in order. -/
def attributeGroups (f : SourceFile) (declaration : Nat) : List Range :=
  (f.attributeGroupsBefore declaration declaration).reverse

/-- The attribute between two tokens of a group that opens at `opener`, if it is an annotation that
counts. -/
def nativeTag? (f : SourceFile) (opener start stop : Nat) : Option MappingTag :=
  let paren := f.nextOfKind? [.openRound] start (some stop) false
  let name := f.codeBetween start (paren.getD stop)
  if MappingTag.isMapping name then
    match paren.bind fun i => (f.tokens[i]?.bind Token.parens).map fun r => (i, r.closer) with
    | some (i, close) =>
      some (.ofArguments name opener start (close + 1) .native (f.textBetween (i + 1) close))
    | none => some (.ofArguments name opener start stop .native [])
  else none

/-- The annotations of an attribute group. -/
def groupTags (f : SourceFile) (group : Range) : List MappingTag :=
  let start := group.opener + 1
  (f.partBounds [.openRound, .openSquare] group.closer start start).filterMap fun (start, stop) =>
    f.nativeTag? group.opener start stop

/-- The annotations of the attribute groups in front of a declaration. -/
def nativeTags (f : SourceFile) (declaration : Nat) : List MappingTag :=
  (f.attributeGroups declaration).flatMap f.groupTags

end SourceFile

/-! ### Properties -/

/-- What the doc comment and the attribute groups say of a property. -/
structure PropertyTags where
  /-- The annotations, those of the doc comment first. -/
  tags : List MappingTag
  /-- The type that the doc comment gives. -/
  varType : Option Text
  /-- The message codes that the doc comment suppresses. -/
  ignored : IgnoreSet
  deriving DecidableEq, Repr

namespace PropertyTags

/-- The kinds of the annotations. -/
def kinds (p : PropertyTags) : List MappingKind := p.tags.map MappingTag.kind

/-- Whether there is an annotation of a kind. -/
def has (p : PropertyTags) (kind : MappingKind) : Bool := p.kinds.contains kind

/-- The first annotation of a kind. -/
def first? (p : PropertyTags) (kind : MappingKind) : Option MappingTag :=
  p.tags.find? fun tag => tag.kind = kind

end PropertyTags

/-- What is known of the property that is declared by the variable at an index, for a rule with the
given code. -/
def SourceFile.propertyTags (f : SourceFile) (declaration : Nat) (ruleCode : Text) : PropertyTags :=
  match f.docCommentOf? declaration with
  | none => ⟨f.nativeTags declaration, none, .empty⟩
  | some comment =>
    { tags := f.docTags comment ++ f.nativeTags declaration
      varType := f.docVarType? comment
      ignored := .parse (f.textBetween comment.opener (comment.closer + 1)) ruleCode }

end EntityLint
