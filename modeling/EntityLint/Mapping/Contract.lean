import EntityLint.Mapping.ClassFacts
import EntityLint.Mapping.MappingKind
import EntityLint.Mapping.Naming
import EntityLint.Mapping.Tag
import EntityLint.Mapping.TypeName
import EntityLint.Report.Reporter

/-!
# Accessors that a mapping implies

* `Contract`: the name of a method, what it returns and what its first argument is;
* `docReturnType?`, `docParamType?`: the types that a doc comment gives;
* `Contract.findings`: what is wrong with the method of a file that a contract names.
-/

namespace EntityLint

/-- What an accessor is for. -/
inductive AccessorRole
  | getter
  | setter
  | adder
  | remover
  deriving DecidableEq, Repr

/-- The name of a role in a message. -/
def AccessorRole.name : AccessorRole → String
  | getter => "getter"
  | setter => "setter"
  | adder => "adder"
  | remover => "remover"

/-- The name of a role in a message code. -/
def AccessorRole.codeName : AccessorRole → String
  | getter => "Getter"
  | setter => "Setter"
  | adder => "Adder"
  | remover => "Remover"

/-- What an accessor returns. -/
inductive ReturnSpec
  /-- The object itself. -/
  | fluent
  | type (type : Text)
  deriving DecidableEq, Repr

/-- What the first argument of an accessor is. -/
structure ArgumentSpec where
  /-- The name without its dollar sign. -/
  name : Text
  /-- The type, if it is checked. -/
  type : Option Text
  /-- Whether the argument may be `null`. -/
  nullable : Bool
  deriving DecidableEq, Repr

/-- A method that a mapping implies. -/
structure Contract where
  kind : MappingKind
  role : AccessorRole
  name : Text
  /-- Whether it is a fault if the method is not there. -/
  required : Bool
  returns : Option ReturnSpec
  argument : Option ArgumentSpec
  deriving DecidableEq, Repr

namespace Contract

/-- The message code with a given end. -/
def code (c : Contract) (ending : String) : String := s!"{c.kind.name}{c.role.codeName}{ending}"

/-- The beginning of a message about a method with a given name. -/
def subject (c : Contract) (name : Text) : String :=
  s!"{c.kind.name} {c.role.name} \"{String.ofList name}\""

/-- A fault at a token. -/
def fault (c : Contract) (token : Nat) (ending message : String) : Finding :=
  { token, code := c.code ending, message }

end Contract

/-! ### Names and doc comments of methods -/

/-- The other name that a getter may have: `getActive` and `getIsActive` may be `isActive`. -/
def booleanGetterName? (getter : Text) : Option Text := do
  let short := Naming.lowerFirst (← Text.stripLeading? "get".toList getter)
  return if Text.startsWith short "is".toList then short
    else "is".toList ++ Naming.upperFirst short

/-- The texts after the occurrences of a tag that blanks follow, without these blanks. -/
def tagBodies (tag : Text) : Text → List Text
  | [] => []
  | c :: t =>
    match Text.stripLeading? tag (c :: t) with
    | some after =>
      if after.head?.any Text.isBlank then Text.trimStart after :: tagBodies tag t
      else tagBodies tag t
    | none => tagBodies tag t

/-- The type that begins the text after a tag. A list of type arguments is kept up to the last `>`
of its line. -/
def leadingType? (body : Text) : Option Text :=
  let isEnd (c : Char) : Bool := Text.isBlank c || c == '<'
  let type := body.takeWhile (!isEnd ·)
  let rest := body.dropWhile (!isEnd ·)
  if type.isEmpty then none
  else
    let line := rest.takeWhile (· != '\n')
    if rest.head? = some '<' then some (type ++ Text.dropEndWhile (· != '>') line) else some type

/-- The type that the first `@return` tag with a type gives. -/
def docReturnType? (comment : Text) : Option Text :=
  (tagBodies "@return".toList comment).findSome? leadingType?

/-- The type that the first `@param` tag with a type gives. -/
def docParamType? (comment : Text) : Option Text :=
  (tagBodies "@param".toList comment).findSome? fun body => (Text.words body).head?

/-- A type without the question marks that begin it. -/
def withoutMark (type : Text) : Text := type.dropWhile (· == '?')

namespace SourceFile

/-- The text of the doc comment in front of a declaration, after its opening. -/
def docCommentText? (f : SourceFile) (declaration : Nat) : Option Text :=
  (f.docCommentOf? declaration).map fun r => f.textBetween (r.opener + 1) (r.closer + 1)

/-- Whether there is a return statement in the body of a function. -/
def hasReturn (f : SourceFile) (method : Nat) : Bool :=
  match f.tokens[method]?.bind Token.scope with
  | some body => (f.previousOfKind? [.kwReturn] body.closer (some body.opener) false).isSome
  | none => false

end SourceFile

/-! ### Checking a method -/

/-- The base classes that arguments may be typed with instead of a concrete class. -/
abbrev BaseTypes := List (Text × Text)

/-- Whether a base class may stand for an expected class. -/
def BaseTypes.allow (bases : BaseTypes) (expected hint : Text) : Bool :=
  List.lookup expected bases == some hint

namespace Contract

/-- The method that a contract names, and the name it goes by. -/
def find? (c : Contract) (f : SourceFile) : Option (Nat × Text) :=
  match f.method? c.name with
  | some method => some (method, c.name)
  | none => do
    let other ← booleanGetterName? c.name
    let method ← f.method? other
    return (method, other)

/-- What is wrong with the return type of a method, for an expected type. -/
def returnFindings (c : Contract) (f : SourceFile) (method : Nat) (name expected : Text) :
    List Finding :=
  let signature := f.signature method
  let declared := withoutMark signature.returnType
  let subject := c.subject name
  let type := String.ofList expected
  let silent := declared.isEmpty && signature.hasBody && !f.hasReturn method
  let undocumented := (f.docCommentText? method).any fun comment =>
    !(docReturnType? comment).any fun t => TypeName.isSame expected (withoutMark t)
  let mistyped := !declared.isEmpty && !TypeName.isSame expected declared
  (if silent then
    [c.fault method "ReturnRequired"
      s!"{subject} must have return statement which returns {type}"] else [])
  ++ (if undocumented then
    [c.fault method "ReturnDocType"
      s!"{subject} must have return type \"{type}\" in doc-comment"] else [])
  ++ (if mistyped then
    [c.fault method "ReturnType" s!"{subject} must have return type \"{type}\""] else [])

/-- Whether a parameter may be `null`: by a question mark, by a member of its type, or by its
default. -/
def admitsNull (p : Parameter) : Bool :=
  let isNull (t : Text) : Bool := Text.asciiLower t == "null".toList
  p.isNullable || (Text.pieces '|' (withoutMark p.typeText)).any isNull || p.default.any isNull

/-- What is wrong with the first parameter of a method. -/
def parameterFindings (c : Contract) (bases : BaseTypes) (f : SourceFile) (method : Nat)
    (name : Text) (argument : ArgumentSpec) (p : Parameter) : List Finding :=
  let subject := c.subject name
  let hint := withoutMark p.typeText
  let typed := !p.typeText.isEmpty
  let misnamed := p.name.dropWhile (· == '$') != argument.name
  let mistyped := argument.type.filter fun expected =>
    typed && !TypeName.isSame expected hint && !bases.allow expected hint
  let undocumented := argument.type.filter fun expected =>
    (f.docCommentText? method).any fun comment =>
      !(docParamType? comment).any fun t =>
        TypeName.isSame expected (withoutMark t) || bases.allow expected hint
  let argumentName := String.ofList argument.name
  let hintName := String.ofList hint
  (if misnamed then
    [c.fault method "ArgumentName" s!"{subject} argument must have name \"{argumentName}\""]
    else [])
  ++ (mistyped.map fun expected =>
    let type := String.ofList expected
    let wanted := s!"{subject} argument must have typehint \"{type}\""
    c.fault method "ArgumentType" s!"{wanted}, instead of typehint \"{hintName}\"").toList
  ++ (if typed && !admitsNull p && argument.nullable then
    [c.fault method "ArgumentNullable" s!"{subject} argument must be nullable"] else [])
  ++ (if typed && admitsNull p && !argument.nullable then
    [c.fault method "ArgumentNotNullable" s!"{subject} argument must be not-nullable"] else [])
  ++ (undocumented.map fun expected =>
    let type := String.ofList expected
    c.fault method "ArgumentDocType"
      s!"{subject} must have param \"{argumentName}\" with type \"{type}\" in doc-comment").toList

/-- What is wrong with the first argument of a method. -/
def argumentFindings (c : Contract) (bases : BaseTypes) (f : SourceFile) (method : Nat)
    (name : Text) (argument : ArgumentSpec) : List Finding :=
  match f.parameters method with
  | [] => [c.fault method "ArgumentRequired" s!"{c.subject name} must have at least one argument"]
  | p :: _ => c.parameterFindings bases f method name argument p

/-- The type that a method has to return. A fluent one returns its class, by name or as `self` or
`static`. -/
def expectedReturn (f : SourceFile) (method : Nat) : ReturnSpec → StateM FileMemo Text
  | .type type => pure type
  | .fluent => do return (← FileMemo.classNameAt f method) ++ "|self|static".toList

/-- What is wrong with the method that a contract names. If the method is not there, the fault is at
the annotation. -/
def findings (c : Contract) (bases : BaseTypes) (f : SourceFile) (tagToken : Nat) :
    StateM FileMemo (List Finding) := do
  match c.find? f with
  | none =>
    let name := String.ofList c.name
    let message := s!"{c.kind.name} must have {c.role.name} method named \"{name}\""
    return if c.required then [c.fault tagToken "Required" message] else []
  | some (method, name) =>
    let returned ← match c.returns with
      | none => pure []
      | some spec => do
        let expected ← expectedReturn f method spec
        pure (c.returnFindings f method name expected)
    let passed := match c.argument with
      | none => []
      | some argument => c.argumentFindings bases f method name argument
    return returned ++ passed

end Contract

end EntityLint
