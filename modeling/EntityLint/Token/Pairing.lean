import EntityLint.Token.Kind

/-!
# Bracket pairs and what owns them

Brackets are paired family by family with a stack. Each pass below runs over the kinds of a token
stream and counts indices along the way.

* `Family`, `pairsFrom`, `pairAll`: the pairs of each family, or the first fault;
* `parenOwnersFrom`, `scopeOwnersFrom`: the keyword that a pair belongs to;
* `openersFrom`, `conditionsOf`, `depthsFrom`, `attributesFrom`: what surrounds each token.
-/

namespace EntityLint

/-- The opening and closing token of a pair, by index. -/
structure Range where
  opener : Nat
  closer : Nat
  deriving DecidableEq, Repr

namespace Pairing

/-- Brackets of one family pair only with each other. The opening of an attribute group is a square
bracket. -/
inductive Family
  | round
  | square
  | curly
  deriving DecidableEq, Repr

/-- Whether a kind opens a pair of a family. -/
def Family.opens : Family → Kind → Bool
  | round, .openRound | square, .openSquare | square, .attributeOpen | curly, .openCurly => true
  | _, _ => false

/-- Whether a kind closes a pair of a family. -/
def Family.closes : Family → Kind → Bool
  | round, .closeRound | square, .closeSquare | curly, .closeCurly => true
  | _, _ => false

/-- The pairs found, each listed where it closes, and the openers left, the innermost first. -/
structure Matching where
  pairs : List Range
  unclosed : List Nat
  deriving DecidableEq, Repr

/-- Pair the brackets of a family from index `i` on, over a stack of openers. The error is the index
of the first closer without an opener. -/
def pairsFrom (family : Family) (i : Nat) (stack : List Nat) : List Kind → Except Nat Matching
  | [] => .ok ⟨[], stack⟩
  | k :: kinds =>
    if family.opens k then pairsFrom family (i + 1) (i :: stack) kinds
    else if family.closes k then
      match stack with
      | [] => .error i
      | opener :: stack => do
        let rest ← pairsFrom family (i + 1) stack kinds
        return { rest with pairs := ⟨opener, i⟩ :: rest.pairs }
    else pairsFrom family (i + 1) stack kinds

/-- The pairs of all families. -/
structure Pairs where
  round : List Range
  square : List Range
  curly : List Range
  deriving DecidableEq, Repr

/-- The smaller of two indices, where there are any. -/
def earliest : List (Except Nat Matching) → Option Nat
  | [] => none
  | .ok _ :: rest => earliest rest
  | .error i :: rest => some ((earliest rest).elim i (min i))

/-- Pair the brackets of all families. The error is the index of the first closer without an opener,
else of the first opener left open: a round one, else a square one, else a curly one. -/
def pairAll (kinds : List Kind) : Except Nat Pairs :=
  let round := pairsFrom .round 0 [] kinds
  let square := pairsFrom .square 0 [] kinds
  let curly := pairsFrom .curly 0 [] kinds
  match round, square, curly with
  | .ok round, .ok square, .ok curly =>
    match round.unclosed.getLast? <|> square.unclosed.getLast? <|> curly.unclosed.getLast? with
    | some i => .error i
    | none => .ok ⟨round.pairs, square.pairs, curly.pairs⟩
  | _, _, _ => .error ((earliest [round, square, curly]).getD 0)

/-! ### Owners -/

/-- The function keyword that each round opener belongs to, as pairs of opener and owner. A keyword
waits for the next opener and is dropped at a semicolon, a curly opener or a further keyword. -/
def parenOwnersFrom (i : Nat) (waiting : Option Nat) : List Kind → List (Nat × Nat)
  | [] => []
  | k :: kinds =>
    match k with
    | .kwFunction | .kwFn => parenOwnersFrom (i + 1) (some i) kinds
    | .semicolon | .openCurly => parenOwnersFrom (i + 1) none kinds
    | .openRound =>
      match waiting with
      | some owner => (i, owner) :: parenOwnersFrom (i + 1) none kinds
      | none => parenOwnersFrom (i + 1) none kinds
    | _ => parenOwnersFrom (i + 1) waiting kinds

/-- The keyword that each curly opener belongs to, as pairs of opener and owner. A keyword waits for
the next opener and is dropped at a semicolon or a further keyword. -/
def scopeOwnersFrom (i : Nat) (waiting : Option Nat) : List Kind → List (Nat × Nat)
  | [] => []
  | k :: kinds =>
    if k.isScopeOwner then scopeOwnersFrom (i + 1) (some i) kinds
    else match k with
    | .semicolon => scopeOwnersFrom (i + 1) none kinds
    | .openCurly =>
      match waiting with
      | some owner => (i, owner) :: scopeOwnersFrom (i + 1) none kinds
      | none => scopeOwnersFrom (i + 1) none kinds
    | _ => scopeOwnersFrom (i + 1) waiting kinds

/-- The pair that a bracket or an owner at index `i` carries. -/
def rangeAt (pairs : List Range) (owners : List (Nat × Nat)) (i : Nat) : Option Range :=
  match pairs.find? fun r => r.opener == i || r.closer == i with
  | some range => some range
  | none => do
    let (opener, _) ← owners.find? fun o => o.2 == i
    pairs.find? fun r => r.opener == opener

/-! ### Surroundings -/

/-- For each token the openers of the curly pairs around it, the innermost first. A bracket is not
inside its own pair. -/
def openersFrom (i : Nat) (stack : List Nat) : List Kind → List (List Nat)
  | [] => []
  | .openCurly :: kinds => stack :: openersFrom (i + 1) (i :: stack) kinds
  | .closeCurly :: kinds => stack.tail :: openersFrom (i + 1) stack.tail kinds
  | _ :: kinds => stack :: openersFrom (i + 1) stack kinds

/-- The owners of the curly openers around a token, the outermost first. -/
def conditionsOf (kinds : Array Kind) (owners : List (Nat × Nat)) (openers : List Nat) :
    List (Nat × Kind) :=
  openers.reverse.filterMap fun opener => do
    let owner ← owners.lookup opener
    let kind ← kinds[owner]?
    return (owner, kind)

/-- For each token the number of round pairs around it. -/
def depthsFrom (depth : Nat) : List Kind → List Nat
  | [] => []
  | .openRound :: kinds => depth :: depthsFrom (depth + 1) kinds
  | .closeRound :: kinds => (depth - 1) :: depthsFrom (depth - 1) kinds
  | _ :: kinds => depth :: depthsFrom depth kinds

/-- For each token the attribute range it lies in. A range that begins inside of another one is part
of that other one. -/
def attributesFrom (ranges : List Range) (i : Nat) (current : Option Range) :
    List Kind → List (Option Range)
  | [] => []
  | _ :: kinds =>
    let current := current.or (ranges.find? fun r => r.opener == i)
    current :: attributesFrom ranges (i + 1) (current.filter fun r => i < r.closer) kinds

end Pairing

end EntityLint
