import EntityLint.Source.Declaration

/-!
# Facts about the classes of a file

* `SourceFile.methods`, `SourceFile.method?`: the named functions;
* `SourceFile.outerClassName`: the class around a token;
* `SourceFile.assignmentsIn`, `SourceFile.constructorAssignments`: what a constructor assigns;
* `FileMemo`: what is remembered from one property of a file to the next.

The class name is looked up once for a file, and the lack of a constructor comes up once.
-/

namespace EntityLint

/-- The kinds of declarations whose name is a class name. -/
def Kind.hasClassName : Kind → Bool
  | .kwClass | .kwInterface | .kwTrait => true
  | _ => false

namespace SourceFile

/-- The named functions of a file, with their tokens. -/
def methods (f : SourceFile) : List (Nat × Text) :=
  (f.tokens.toList.zipIdx.filter fun (t, _) => t.kind == .kwFunction).filterMap fun (_, i) =>
    (f.declarationName? i).map fun name => (i, name)

/-- The first function with a given name. -/
def method? (f : SourceFile) (name : Text) : Option Nat :=
  (f.methods.find? fun (_, n) => n == name).map Prod.fst

/-- The name of the outermost declaration around a token, if that is a class, an interface or a
trait, and else the empty name. -/
def outerClassName (f : SourceFile) (i : Nat) : Text :=
  (do
    let token ← f.tokens[i]?
    let (owner, kind) ← token.conditions.head?
    guard kind.hasClassName
    f.declarationName? owner).getD []

/-! ### Assignments of a constructor -/

/-- The member name and the value text of the assignment between `$this` at an index and the end of
its statement. -/
def assignmentAt? (f : SourceFile) (target stop : Nat) : Option (Text × Text) := do
  let arrow ← f.nextOfKind? [.arrow] (target + 1) (some stop) false
  let name ← f.nextOfKind? [.word] (arrow + 1) (some stop) false
  let equals ← f.nextOfKind? [.equals] (name + 1) (some stop) false
  let value ← f.nextOfKind? [.blank] (equals + 1) (some stop) true
  return (f.textAt name, f.textBetween value stop)

/-- The assignments to members of `$this` after a token, up to the end of a body. -/
def assignmentsIn (f : SourceFile) (close start : Nat) : List (Text × Text) :=
  match _found : f.nextWithText? [.variable] (start + 1) (some close) "$this".toList with
  | none => []
  | some target =>
    match f.nextOfKind? [.semicolon] (target + 1) none false with
    | none => []
    | some stop => (f.assignmentAt? target stop).toList ++ f.assignmentsIn close target
termination_by f.tokens.size - start
decreasing_by
  obtain ⟨h₁, h₂, -⟩ := next?_eq_some _found
  omega

/-- The name of a constructor. -/
def constructorName : Text := "__construct".toList

/-- The assignments in the body of the constructor, in order. -/
def constructorAssignments (f : SourceFile) : List (Text × Text) :=
  match (f.method? constructorName).bind fun i => f.tokens[i]?.bind Token.scope with
  | some body => f.assignmentsIn body.closer body.opener
  | none => []

/-- The value text that the constructor last assigns to a member. -/
def initialValue? (f : SourceFile) (name : Text) : Option Text :=
  f.constructorAssignments.reverse.lookup name

end SourceFile

/-! ### Memory -/

/-- What is remembered while the properties of a file are checked. -/
structure FileMemo where
  /-- The class name, once it has been looked up. -/
  className : Option Text
  /-- Whether the constructor has been looked for. -/
  soughtConstructor : Bool
  deriving DecidableEq, Repr

namespace FileMemo

/-- The memory before the first property. -/
def empty : FileMemo := ⟨none, false⟩

/-- The class name of a file, as it was found when it was first asked for. -/
def classNameAt (f : SourceFile) (i : Nat) : StateM FileMemo Text := fun memo =>
  match memo.className with
  | some name => (name, memo)
  | none =>
    let name := f.outerClassName i
    (name, { memo with className := some name })

/-- Whether the file turns out to have no constructor, which comes up at the first question only. -/
def lacksConstructor (f : SourceFile) : StateM FileMemo Bool := fun memo =>
  (!memo.soughtConstructor && (f.method? SourceFile.constructorName).isNone,
    { memo with soughtConstructor := true })

end FileMemo

end EntityLint
