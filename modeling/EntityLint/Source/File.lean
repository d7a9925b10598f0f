import EntityLint.Token.Basic

/-!
# Source files and searches in their token streams

* `SourceFile`, `SourceFile.parse`: a path, a text and its tokens;
* `findUp`, `findDown`: the first index that satisfies a predicate, in either direction;
* `SourceFile.next?`, `SourceFile.previous?` and their variants for kinds and significant tokens;
* `SourceFile.textOf`, `SourceFile.lineEnd`.

An index or a bound past the end of the stream finds what a bound at its end would find.
-/

namespace EntityLint

/-! ### Searches over indices -/

/-- The first of the `count` indices from `start` on that satisfies `p`. -/
def findUp (p : Nat → Bool) (start : Nat) : Nat → Option Nat
  | 0 => none
  | count + 1 => if p start then some start else findUp p (start + 1) count

/-- The last index below `stop`, and not below `low`, that satisfies `p`. -/
def findDown (p : Nat → Bool) (low : Nat) : Nat → Option Nat
  | 0 => none
  | stop + 1 =>
    if stop < low then none else if p stop then some stop else findDown p low stop

theorem findUp_eq_some {p : Nat → Bool} {start count i : Nat} (h : findUp p start count = some i) :
    start ≤ i ∧ i < start + count ∧ p i = true := by
  induction count generalizing start with
  | zero => simp [findUp] at h
  | succ count ih =>
    simp only [findUp] at h
    split at h
    · next hp => cases h; exact ⟨Nat.le_refl _, by omega, hp⟩
    · obtain ⟨h₁, h₂, h₃⟩ := ih h
      exact ⟨by omega, by omega, h₃⟩

theorem findDown_eq_some {p : Nat → Bool} {low stop i : Nat} (h : findDown p low stop = some i) :
    low ≤ i ∧ i < stop ∧ p i = true := by
  induction stop with
  | zero => simp [findDown] at h
  | succ stop ih =>
    simp only [findDown] at h
    split at h
    · simp at h
    · next hl =>
      split at h
      · next hp => cases h; exact ⟨by omega, by omega, hp⟩
      · obtain ⟨h₁, h₂, h₃⟩ := ih h
        exact ⟨h₁, by omega, h₃⟩

/-! ### Files -/

/-- A source text with its token stream. -/
structure SourceFile where
  path : String
  source : Text
  tokens : Array Token

namespace SourceFile

/-- The file of a text, if it has a token stream. -/
def parse (path : String) (source : Text) : Except LexError SourceFile := do
  let tokens ← tokenize source
  return ⟨path, source, tokens.toArray⟩

/-- The line end of a text is that of its first line, and a line feed where no line ends. -/
def lineEnd (f : SourceFile) : Text :=
  match Text.breakOn ['\n'] f.source with
  | some (before, _) => if before.getLast? = some '\r' then ['\r', '\n'] else ['\n']
  | none => ['\n']

/-- The kind of the token at an index. -/
def kindAt (f : SourceFile) (i : Nat) : Option Kind := f.tokens[i]?.map Token.kind

/-- The text of the token at an index. -/
def textAt (f : SourceFile) (i : Nat) : Text := (f.tokens[i]?.map Token.text).getD []

/-- Whether the token at an index exists and satisfies `p`. -/
def holdsAt (f : SourceFile) (p : Token → Bool) (i : Nat) : Bool := f.tokens[i]?.any p

/-! ### Searches -/

/-- The first token at or after `start`, and before `stop`, that satisfies `p`. -/
def next? (f : SourceFile) (p : Token → Bool) (start : Nat) (stop : Option Nat) : Option Nat :=
  findUp (f.holdsAt p) start (min (stop.getD f.tokens.size) f.tokens.size - start)

/-- The last token at or before `start`, and not before `low`, that satisfies `p`. -/
def previous? (f : SourceFile) (p : Token → Bool) (start : Nat) (low : Option Nat) : Option Nat :=
  findDown (f.holdsAt p) (low.getD 0) (min (start + 1) f.tokens.size)

theorem next?_eq_some {f : SourceFile} {p : Token → Bool} {start : Nat} {stop : Option Nat}
    {i : Nat} (h : f.next? p start stop = some i) :
    start ≤ i ∧ i < f.tokens.size ∧ f.holdsAt p i = true := by
  obtain ⟨h₁, h₂, h₃⟩ := findUp_eq_some h
  exact ⟨h₁, by omega, h₃⟩

theorem previous?_eq_some {f : SourceFile} {p : Token → Bool} {start : Nat} {low : Option Nat}
    {i : Nat} (h : f.previous? p start low = some i) :
    i ≤ start ∧ i < f.tokens.size ∧ f.holdsAt p i = true := by
  obtain ⟨-, h₂, h₃⟩ := findDown_eq_some h
  exact ⟨by omega, by omega, h₃⟩

/-- The first token whose kind is among the given ones, or is not among them if `exclude` is set. -/
def nextOfKind? (f : SourceFile) (kinds : List Kind) (start : Nat) (stop : Option Nat)
    (exclude : Bool) : Option Nat :=
  f.next? (fun t => kinds.contains t.kind != exclude) start stop

/-- The last token whose kind is among the given ones, or is not among them if `exclude` is set. -/
def previousOfKind? (f : SourceFile) (kinds : List Kind) (start : Nat) (low : Option Nat)
    (exclude : Bool) : Option Nat :=
  f.previous? (fun t => kinds.contains t.kind != exclude) start low

/-- The first token whose kind is among the given ones and that has the given text. -/
def nextWithText? (f : SourceFile) (kinds : List Kind) (start : Nat) (stop : Option Nat)
    (text : Text) : Option Nat :=
  f.next? (fun t => kinds.contains t.kind && t.text == text) start stop

/-- The first token that is not trivia. -/
def nextSignificant? (f : SourceFile) (start : Nat) (stop : Option Nat) : Option Nat :=
  f.next? (fun t => !t.kind.isTrivia) start stop

/-- The last token that is not trivia. -/
def previousSignificant? (f : SourceFile) (start : Nat) (low : Option Nat) : Option Nat :=
  f.previous? (fun t => !t.kind.isTrivia) start low

/-- The last significant token before an index. -/
def significantBefore? (f : SourceFile) (i : Nat) : Option Nat :=
  if i = 0 then none else f.previousSignificant? (i - 1) none

/-! ### Texts -/

/-- The tokens from `start` on and before `stop`. -/
def slice (f : SourceFile) (start stop : Nat) : List Token :=
  (f.tokens.toList.drop start).take (stop - start)

/-- The text of the tokens from `start` on and before `stop`. -/
def textBetween (f : SourceFile) (start stop : Nat) : Text :=
  (f.slice start stop).flatMap Token.text

/-- The text of the significant tokens from `start` on and before `stop`. -/
def codeBetween (f : SourceFile) (start stop : Nat) : Text :=
  ((f.slice start stop).filter fun t => !t.kind.isTrivia).flatMap Token.text

/-- The text of up to `length` tokens from `start` on. -/
def textOf (f : SourceFile) (start length : Nat) : Text := f.textBetween start (start + length)

/-- The significant tokens before an index, the nearest first. -/
def significantBefore (f : SourceFile) (i : Nat) : List Token :=
  ((f.tokens.toList.take i).reverse).filter fun t => !t.kind.isTrivia

end SourceFile

end EntityLint
