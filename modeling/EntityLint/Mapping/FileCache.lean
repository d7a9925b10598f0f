import EntityLint.Mapping.ClassFacts

/-!
# The cache of a file

What has been looked up in a file is kept for later questions, whichever of its members they come
from.

* `FileCache`: what is known of a file, each part filled when it is first asked for;
* `FileCache.methods`, `method?`, `classNameAt`, `assignments`: the questions;
* `FileQuery`, `FileAnswer`, `FileCache.ask`, `FileCache.askAll`: questions one after the other.

The class name is kept for the whole file. `FileCache.memo` is the part of a cache that answers depend
on.
-/

namespace EntityLint

/-- What is known of a file. -/
structure FileCache where
  /-- The named functions, with their tokens. -/
  knownMethods : Option (List (Nat × Text))
  /-- The class name. -/
  knownClass : Option Text
  /-- What the constructor assigns. -/
  knownAssignments : Option (List (Text × Text))
  deriving DecidableEq, Repr

namespace FileCache

/-- The cache of a file of which nothing is known. -/
def empty : FileCache := ⟨none, none, none⟩

/-- The part of a cache that later answers depend on. -/
def memo (c : FileCache) : FileMemo := ⟨c.knownClass, c.knownAssignments.isSome⟩

/-- The named functions. -/
def methods (f : SourceFile) : StateM FileCache (List (Nat × Text)) := fun c =>
  match c.knownMethods with
  | some methods => (methods, c)
  | none => (f.methods, { c with knownMethods := some f.methods })

/-- The first function with a given name. -/
def method? (f : SourceFile) (name : Text) : StateM FileCache (Option Nat) := do
  return ((← methods f).find? fun (_, n) => n == name).map Prod.fst

/-- The class name, which is that of the first token that it is asked for. -/
def classNameAt (f : SourceFile) (i : Nat) : StateM FileCache Text := fun c =>
  match c.knownClass with
  | some name => (name, c)
  | none => (f.outerClassName i, { c with knownClass := some (f.outerClassName i) })

/-- The assignments in the body of a constructor. -/
def assignmentsOf (f : SourceFile) (constructor : Option Nat) : List (Text × Text) :=
  match constructor.bind fun i => f.tokens[i]?.bind Token.scope with
  | some body => f.assignmentsIn body.closer body.opener
  | none => []

/-- What the constructor assigns, and whether it turns out now that there is none. -/
def assignments (f : SourceFile) : StateM FileCache (List (Text × Text) × Bool) := do
  match (← get).knownAssignments with
  | some known => return (known, false)
  | none =>
    let constructor ← method? f SourceFile.constructorName
    modify fun c => { c with knownAssignments := some (assignmentsOf f constructor) }
    return (assignmentsOf f constructor, constructor.isNone)

end FileCache

/-- A question about a file. -/
inductive FileQuery
  | methods
  | method (name : Text)
  | className (token : Nat)
  | assignments
  deriving DecidableEq, Repr

/-- An answer to a question about a file. -/
inductive FileAnswer
  | methods (methods : List (Nat × Text))
  | method (token : Option Nat)
  | className (name : Text)
  | assignments (members : List (Text × Text)) (missing : Bool)
  deriving DecidableEq, Repr

/-- The token that a question is about, if it is one for the class name. -/
def FileQuery.pointer? : FileQuery → Option Nat
  | className i => some i
  | _ => none

namespace FileCache

/-- The answer to a question. -/
def ask (f : SourceFile) : FileQuery → StateM FileCache FileAnswer
  | .methods => return .methods (← methods f)
  | .method name => return .method (← method? f name)
  | .className i => return .className (← classNameAt f i)
  | .assignments => do
    let (members, missing) ← assignments f
    return .assignments members missing

/-- The answers to some questions, one after the other. -/
def askAll (f : SourceFile) (queries : List FileQuery) : StateM FileCache (List FileAnswer) :=
  queries.mapM (ask f)

/-- The cache after some questions. -/
def after (f : SourceFile) (queries : List FileQuery) : FileCache :=
  ((askAll f queries).run empty).2

end FileCache

end EntityLint
