import EntityLint.Source.File

/-!
# Declarations in a source file

What a file says about its classes, functions, parameters and properties, read off the tokens
around a declaring token.

* `SourceFile.declarationName?`, `SourceFile.enclosingClass?`;
* `Signature`, `SourceFile.signature`: modifiers, return type and body of a function;
* `Parameter`, `SourceFile.parameters`;
* `Property`, `SourceFile.property?`, `SourceFile.propertyTokens`.
-/

namespace EntityLint

/-- The visibility of a method or property. -/
inductive Visibility
  | isPublic
  | isProtected
  | isPrivate
  deriving DecidableEq, Repr

/-- The visibility that a keyword states. -/
def Visibility.ofKind? : Kind → Option Visibility
  | .kwPublic => some isPublic
  | .kwProtected => some isProtected
  | .kwPrivate => some isPrivate
  | _ => none

/-- The last visibility stated by a list of kinds. -/
def Visibility.last? (kinds : List Kind) : Option Visibility :=
  (kinds.filterMap Visibility.ofKind?).getLast?

/-- Kinds that may be part of a written type. -/
def Kind.isTypePart : Kind → Bool
  | .word | .backslash | .nullable | .pipe | .ampersand | .kwArray | .kwStatic | .kwNull | .kwTrue
  | .kwFalse | .kwSelf | .kwParent | .openRound | .closeRound => true
  | _ => false

namespace SourceFile

/-- The name of a class-like structure or function that a keyword declares. A reference mark may
stand before the name. -/
def declarationName? (f : SourceFile) (i : Nat) : Option Text := do
  let token ← f.tokens[i]?
  guard token.kind.isScopeOwner
  let next ← f.nextSignificant? (i + 1) none
  let next ← if f.kindAt next = some .ampersand then f.nextSignificant? (next + 1) none
    else some next
  guard (f.kindAt next = some .word)
  return f.textAt next

/-- The innermost class-like declaration around a token. -/
def enclosingClass? (f : SourceFile) (i : Nat) : Option Nat := do
  let token ← f.tokens[i]?
  let (owner, _) ← token.conditions.reverse.find? fun (_, kind) => kind.isClassLike
  return owner

end SourceFile

/-! ### Signatures -/

/-- The facts of a function declaration apart from its parameters. -/
structure Signature where
  /-- The stated visibility, public where none is stated. -/
  visibility : Visibility
  /-- Whether a visibility is stated. -/
  isExplicit : Bool
  /-- The return type as written, without blanks and comments, and empty where none is written. -/
  returnType : Text
  isAbstract : Bool
  isFinal : Bool
  isStatic : Bool
  hasBody : Bool
  deriving DecidableEq, Repr

namespace Signature

/-- The facts of a function that is not there. -/
def absent : Signature := ⟨.isPublic, false, [], false, false, false, false⟩

/-- Whether the return type admits `null` by a leading question mark. -/
def isNullable (s : Signature) : Bool := s.returnType.head? == some '?'

end Signature

/-- Keywords that may stand in front of a function declaration. -/
def Kind.isMethodModifier : Kind → Bool
  | .kwPublic | .kwProtected | .kwPrivate | .kwAbstract | .kwFinal | .kwStatic => true
  | _ => false

namespace SourceFile

/-- The index of the first significant token after the parameter list of a function and after the
list of variables that a closure uses. -/
def afterParameters? (f : SourceFile) (token : Token) : Option Nat := do
  let parens ← token.parens
  let next ← f.nextSignificant? (parens.closer + 1) none
  if f.kindAt next = some .kwUse then
    let opener ← f.nextOfKind? [.openRound] next none false
    let uses ← (← f.tokens[opener]?).parens
    f.nextSignificant? (uses.closer + 1) none
  else some next

/-- The declared return type of a function. -/
def returnType (f : SourceFile) (token : Token) : Text :=
  match f.afterParameters? token with
  | none => []
  | some next =>
    if f.kindAt next = some .colon then
      let stop := f.nextOfKind? [.openCurly, .semicolon, .doubleArrow] (next + 1) none false
      f.codeBetween (next + 1) (stop.getD f.tokens.size)
    else []

/-- The facts of the function declared by the token at an index. -/
def signature (f : SourceFile) (i : Nat) : Signature :=
  match f.tokens[i]? with
  | none => .absent
  | some token =>
    let modifiers := ((f.significantBefore i).map Token.kind).takeWhile Kind.isMethodModifier
    { visibility := (Visibility.last? modifiers).getD .isPublic
      isExplicit := (Visibility.last? modifiers).isSome
      returnType := f.returnType token
      isAbstract := modifiers.contains .kwAbstract
      isFinal := modifiers.contains .kwFinal
      isStatic := modifiers.contains .kwStatic
      hasBody := token.scope.isSome }

end SourceFile

/-! ### Parameters -/

/-- A parameter of a function declaration. -/
structure Parameter where
  /-- The index of the variable. -/
  token : Nat
  /-- The variable with its dollar sign. -/
  name : Text
  /-- The text of the whole parameter. -/
  content : Text
  /-- The type as written, without blanks and comments, and empty where none is written. -/
  typeText : Text
  /-- The text of the default value. -/
  default : Option Text
  byReference : Bool
  isVariadic : Bool
  /-- The visibility of a property that the parameter declares. -/
  visibility : Option Visibility
  deriving DecidableEq, Repr

/-- Whether the type admits `null` by a leading question mark. -/
def Parameter.isNullable (p : Parameter) : Bool := p.typeText.head? == some '?'

namespace SourceFile

/-- The index after a bracket pair or attribute group that opens at a token, or else after the
token. -/
def afterGroup (i : Nat) (token : Token) : Nat :=
  let range := match token.kind with
    | .openRound => token.parens
    | .openSquare => token.brackets
    | .attributeOpen => token.attrGroup
    | .openCurly => token.scope
    | _ => none
  max (i + 1) (range.elim 0 fun r => r.closer + 1)

theorem lt_afterGroup (i : Nat) (token : Token) : i < afterGroup i token := by
  simp only [afterGroup]; omega

/-- The bounds of the parts of a list that ends at `stop`: they are parted by commas outside of the
groups that open with one of the given kinds. The current part begins at `start`. -/
def partBounds (f : SourceFile) (groups : List Kind) (stop start i : Nat) : List (Nat × Nat) :=
  if h : i < stop then
    match f.tokens[i]? with
    | none => [(start, stop)]
    | some token =>
      have : stop - afterGroup i token < stop - i := by
        have := lt_afterGroup i token
        omega
      if token.kind = .comma then (start, i) :: f.partBounds groups stop (i + 1) (i + 1)
      else if groups.contains token.kind then
        f.partBounds groups stop start (afterGroup i token)
      else f.partBounds groups stop start (i + 1)
  else [(start, stop)]
termination_by stop - i

/-- The kinds that open a group in a parameter list. -/
def parameterGroups : List Kind := [.openRound, .openSquare, .attributeOpen, .openCurly]

/-- The tokens from index `i` on that stand before the first variable, outside of attribute groups,
and the index of that variable. -/
def parameterHead? (f : SourceFile) (stop i : Nat) : Option (List Nat × Nat) :=
  if h : i < stop then
    match f.tokens[i]? with
    | none => none
    | some token =>
      have : stop - afterGroup i token < stop - i := by
        have := lt_afterGroup i token
        omega
      if token.kind = .variable then some ([], i)
      else if token.kind = .attributeOpen then f.parameterHead? stop (afterGroup i token)
      else (f.parameterHead? stop (i + 1)).map fun (before, var) => (i :: before, var)
  else none
termination_by stop - i

/-- An ampersand stands for a reference in front of a variable or an ellipsis, and joins types
elsewhere. -/
def isReferenceMark (f : SourceFile) (stop i : Nat) : Bool :=
  f.kindAt i == some .ampersand &&
    match (f.nextSignificant? (i + 1) (some stop)).bind f.kindAt with
    | some .variable | some .ellipsis => true
    | _ => false

/-- The text that a token in front of the variable adds to the type of a parameter. -/
def typeTextAt (f : SourceFile) (stop i : Nat) : Text :=
  match f.kindAt i with
  | some kind => if kind.isTypePart && !f.isReferenceMark stop i then f.textAt i else []
  | none => []

/-- The parameter between two bounds, if it has a variable. -/
def parameter? (f : SourceFile) (start stop : Nat) : Option Parameter := do
  let (head, var) ← f.parameterHead? stop start
  let default := (f.nextOfKind? [.equals] (var + 1) (some stop) false).map fun i =>
    Text.trim (f.textBetween (i + 1) stop)
  return {
    token := var
    name := f.textAt var
    content := Text.trim (f.textBetween start stop)
    typeText := head.flatMap (f.typeTextAt stop)
    default
    byReference := head.any (f.isReferenceMark stop)
    isVariadic := head.any fun i => f.kindAt i == some .ellipsis
    visibility := Visibility.last? (head.filterMap f.kindAt) }

/-- The parameters of the function declared by the token at an index. -/
def parameters (f : SourceFile) (i : Nat) : List Parameter :=
  match f.tokens[i]?.bind Token.parens with
  | none => []
  | some parens =>
    let start := parens.opener + 1
    (f.partBounds parameterGroups parens.closer start start).filterMap fun (start, stop) =>
      f.parameter? start stop

end SourceFile

/-! ### Properties -/

/-- The facts of a property declaration. -/
structure Property where
  /-- The stated visibility, public where none is stated. -/
  visibility : Visibility
  /-- Whether a visibility is stated. -/
  isExplicit : Bool
  isStatic : Bool
  isReadonly : Bool
  /-- The type as written, without blanks and comments. -/
  typeText : Option Text
  deriving DecidableEq, Repr

namespace Property

/-- The facts of a property before which nothing is written. -/
def bare : Property := ⟨.isPublic, false, false, false, none⟩

/-- Whether the type admits `null` by a leading question mark. -/
def isNullable (p : Property) : Bool := p.typeText.any fun t => t.head? == some '?'

/-- The facts with one more significant token taken in, going left from the variable, or `none`
where the declaration begins after that token. A type stands after the visibility. -/
def takeIn (p : Property) (token : Token) : Option Property :=
  match Visibility.ofKind? token.kind with
  | some visibility => some { p with visibility, isExplicit := true }
  | none =>
    match token.kind with
    | .kwStatic => some { p with isStatic := true }
    | .kwReadonly => some { p with isReadonly := true }
    | .kwVar => some p
    | kind =>
      if kind.isTypePart && !p.isExplicit then
        some { p with typeText := some (token.text ++ p.typeText.getD []) }
      else none

/-- The facts of a declaration, from the significant tokens before the variable, the nearest
first. -/
def ofTokens (p : Property) : List Token → Property
  | [] => p
  | token :: tokens =>
    match p.takeIn token with
    | some p => ofTokens p tokens
    | none => p

end Property

namespace SourceFile

/-- The facts of the property that is declared by the variable at an index. An index past the end
of the stream has no answer. -/
def property? (f : SourceFile) (i : Nat) : Option Property :=
  if i ≤ f.tokens.size then some (Property.bare.ofTokens (f.significantBefore i)) else none

/-- Whether a token is a variable that a class-like body declares as a property. Parameters that
declare properties are not among them. -/
def isPropertyToken (t : Token) : Bool :=
  t.kind == .variable && t.parenDepth == 0 && t.attrGroup.isNone
    && t.conditions.getLast?.any fun (_, kind) => kind.isClassLike

/-- The variables that are declared as properties. -/
def propertyTokens (f : SourceFile) : List Nat :=
  (f.tokens.toList.zipIdx.filter fun (t, _) => isPropertyToken t).map Prod.snd

end SourceFile

end EntityLint
