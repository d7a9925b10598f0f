import EntityLint.Proofs.Bounds.Access
import EntityLint.Proofs.Bounds.Links
import EntityLint.Source.Declaration

/-!
# Searches in a file, with every index checked

The searches in a token stream, once more, with each index into the stream, each part of it and each
difference checked. They come to a result at all arguments.

* `Guarded.tokenAt`, `kindAt`, `textAt`: the token at an index;
* `Guarded.next?`, `previous?`: searches up and down the stream;
* `Guarded.slice`, `textOf`, `lineEnd`: texts.
-/

namespace EntityLint.Guarded

open Checked

variable {f : SourceFile} {i : ℕ}

/-- The token at an index. -/
def tokenAt (f : SourceFile) (i : Nat) : Checked Token := item f.tokens.toList i

theorem tokenAt_eq {t : Token} (h : f.tokens[i]? = some t) : tokenAt f i = .ok t :=
  item_eq (by rwa [Array.getElem?_toList])

theorem exists_tokenAt_eq (h : i < f.tokens.size) :
    ∃ t, f.tokens[i]? = some t ∧ tokenAt f i = .ok t :=
  ⟨_, Array.getElem?_eq_getElem h, tokenAt_eq (Array.getElem?_eq_getElem h)⟩

/-- The kind of the token at an index. -/
def kindAt (f : SourceFile) (i : Nat) : Checked Kind := Token.kind <$> tokenAt f i

theorem exists_kindAt_eq (h : i < f.tokens.size) :
    ∃ k, f.kindAt i = some k ∧ kindAt f i = .ok k := by
  obtain ⟨t, ht, htoken⟩ := exists_tokenAt_eq h
  exact ⟨t.kind, congrArg (Option.map Token.kind) ht, by rw [kindAt, htoken, map_ok]⟩

/-- The text of the token at an index. -/
def textAt (f : SourceFile) (i : Nat) : Checked Text := Token.text <$> tokenAt f i

theorem textAt_eq (h : i < f.tokens.size) : textAt f i = .ok (f.textAt i) := by
  obtain ⟨t, ht, htoken⟩ := exists_tokenAt_eq h
  rw [textAt, htoken, map_ok, SourceFile.textAt, ht]
  rfl

/-! ### Line ends -/

/-- The line end of a text is that of its first line. -/
def lineEnd (f : SourceFile) : Checked Text :=
  match Text.offsetOf? ['\n'] f.source with
  | some i =>
    if 0 < i then do
      let before ← item f.source.bytes (← minus i 1)
      return if before = '\r' then ['\r', '\n'] else ['\n']
    else return ['\n']
  | none => return ['\n']

theorem lineEnd_eq (f : SourceFile) : lineEnd f = .ok f.lineEnd := by
  rw [lineEnd, SourceFile.lineEnd, Text.offsetOf?]
  cases hbreak : Text.breakOn ['\n'] f.source with
  | none => rfl
  | some parts =>
    obtain ⟨before, after⟩ := parts
    obtain hsource : before ++ ['\n'] ++ after = f.source := Text.append_of_breakOn hbreak
    dsimp only [Option.map_some]
    rcases List.eq_nil_or_concat before with rfl | ⟨u, c, rfl⟩
    · rfl
    · rw [List.concat_eq_append] at *
      have hpos : 0 < Text.utf8Length (u ++ [c]) := by
        rw [Text.utf8Length_append, Text.utf8Length_cons]
        have := c.utf8Size_pos
        omega
      -- the byte before the line feed belongs to the last character before it
      obtain ⟨b, hb, hascii⟩ := Text.exists_getLast?_bytesOf c
      have hcr : b = '\r' ↔ c = '\r' := hascii (by decide)
      have hitem : item f.source.bytes (Text.utf8Length (u ++ [c]) - 1) = .ok b := by
        refine item_eq ?_
        rw [← hsource, List.append_assoc, Text.bytes_append, List.getElem?_append_left,
          ← Text.length_bytes, ← List.getLast?_eq_getElem?, Text.bytes_append, Text.bytes_cons,
          Text.bytes_nil, List.append_nil, List.getLast?_append, hb]
        · rfl
        · rw [Text.length_bytes]
          omega
      rw [if_pos hpos, minus_eq hpos, ok_bind, hitem, ok_bind, pure_eq, List.getLast?_concat]
      simp only [hcr, Option.some.injEq]

/-! ### Searches -/

/-- The first of the `count` indices from `start` on that satisfies `p`. -/
def findUp (p : Nat → Checked Bool) (start : Nat) : Nat → Checked (Option Nat)
  | 0 => return none
  | count + 1 => do if ← p start then return some start else findUp p (start + 1) count

/-- The last index below `stop`, and not below `low`, that satisfies `p`. -/
def findDown (p : Nat → Checked Bool) (low : Nat) : Nat → Checked (Option Nat)
  | 0 => return none
  | stop + 1 =>
    if stop < low then return none
    else do if ← p stop then return some stop else findDown p low stop

theorem findUp_eq {p : Nat → Checked Bool} {q : Nat → Bool} {start count : Nat}
    (h : ∀ i, start ≤ i → i < start + count → p i = .ok (q i)) :
    findUp p start count = .ok (EntityLint.findUp q start count) := by
  induction count generalizing start with
  | zero => rfl
  | succ count ih =>
    rw [findUp, h start (Nat.le_refl start) (by omega), ok_bind, EntityLint.findUp,
      ih fun i hi hlt => h i (by omega) (by omega)]
    split <;> rfl

theorem findDown_eq {p : Nat → Checked Bool} {q : Nat → Bool} {low stop : Nat}
    (h : ∀ i < stop, p i = .ok (q i)) :
    findDown p low stop = .ok (EntityLint.findDown q low stop) := by
  induction stop with
  | zero => rfl
  | succ stop ih =>
    rw [findDown, h stop (Nat.lt_succ_self stop), ok_bind, EntityLint.findDown,
      ih fun i hi => h i (Nat.lt_succ_of_lt hi)]
    split_ifs <;> rfl

/-- Whether the token at an index satisfies `p`. -/
def holdsAt (f : SourceFile) (p : Token → Bool) (i : Nat) : Checked Bool := p <$> tokenAt f i

theorem holdsAt_eq (p : Token → Bool) (h : i < f.tokens.size) :
    holdsAt f p i = .ok (f.holdsAt p i) := by
  obtain ⟨t, ht, htoken⟩ := exists_tokenAt_eq h
  rw [holdsAt, htoken, map_ok, SourceFile.holdsAt, ht]
  rfl

/-- The first token at or after `start`, and before `stop`, that satisfies `p`. -/
def next? (f : SourceFile) (p : Token → Bool) (start : Nat) (stop : Option Nat) :
    Checked (Option Nat) :=
  findUp (holdsAt f p) start (min (stop.getD f.tokens.size) f.tokens.size - start)

/-- The last token at or before `start`, and not before `low`, that satisfies `p`. -/
def previous? (f : SourceFile) (p : Token → Bool) (start : Nat) (low : Option Nat) :
    Checked (Option Nat) :=
  if f.tokens.size = 0 then return none
  else do
    let start := min start (← minus f.tokens.size 1)
    if start < low.getD 0 then return none else findDown (holdsAt f p) (low.getD 0) (start + 1)

@[simp] theorem next?_eq (f : SourceFile) (p : Token → Bool) (start : Nat) (stop : Option Nat) :
    next? f p start stop = .ok (f.next? p start stop) :=
  findUp_eq fun i _ hi => holdsAt_eq p (by omega)

@[simp] theorem previous?_eq (f : SourceFile) (p : Token → Bool) (start : Nat)
    (low : Option Nat) : previous? f p start low = .ok (f.previous? p start low) := by
  rw [previous?, SourceFile.previous?]
  split
  · next hsize => rw [hsize, Nat.min_zero]; rfl
  · next hsize =>
    have hmin : min start (f.tokens.size - 1) + 1 = min (start + 1) f.tokens.size := by omega
    have hdown : findDown (holdsAt f p) (low.getD 0) (min start (f.tokens.size - 1) + 1) =
        .ok (EntityLint.findDown (f.holdsAt p) (low.getD 0) (min start (f.tokens.size - 1) + 1)) :=
      findDown_eq fun i hi => holdsAt_eq p (by omega)
    rw [minus_eq (by omega), ok_bind, ← hmin]
    dsimp only
    rw [hdown]
    split
    · next hlow => rw [EntityLint.findDown, if_pos hlow]; rfl
    · rfl

/-- The first token whose kind is among the given ones, or is not among them if `exclude` is set. -/
def nextOfKind? (f : SourceFile) (kinds : List Kind) (start : Nat) (stop : Option Nat)
    (exclude : Bool) : Checked (Option Nat) :=
  next? f (fun t => kinds.contains t.kind != exclude) start stop

/-- The last token whose kind is among the given ones, or is not among them if `exclude` is set. -/
def previousOfKind? (f : SourceFile) (kinds : List Kind) (start : Nat) (low : Option Nat)
    (exclude : Bool) : Checked (Option Nat) :=
  previous? f (fun t => kinds.contains t.kind != exclude) start low

/-- The first token whose kind is among the given ones and that has the given text. -/
def nextWithText? (f : SourceFile) (kinds : List Kind) (start : Nat) (stop : Option Nat)
    (text : Text) : Checked (Option Nat) :=
  next? f (fun t => kinds.contains t.kind && t.text == text) start stop

/-- The first token that is not trivia. -/
def nextSignificant? (f : SourceFile) (start : Nat) (stop : Option Nat) : Checked (Option Nat) :=
  next? f (fun t => !t.kind.isTrivia) start stop

/-- The last token that is not trivia. -/
def previousSignificant? (f : SourceFile) (start : Nat) (low : Option Nat) :
    Checked (Option Nat) :=
  previous? f (fun t => !t.kind.isTrivia) start low

@[simp] theorem nextOfKind?_eq (f : SourceFile) (kinds : List Kind) (start : Nat)
    (stop : Option Nat) (exclude : Bool) :
    nextOfKind? f kinds start stop exclude = .ok (f.nextOfKind? kinds start stop exclude) :=
  next?_eq f _ start stop

@[simp] theorem previousOfKind?_eq (f : SourceFile) (kinds : List Kind) (start : Nat)
    (low : Option Nat) (exclude : Bool) :
    previousOfKind? f kinds start low exclude = .ok (f.previousOfKind? kinds start low exclude) :=
  previous?_eq f _ start low

@[simp] theorem nextWithText?_eq (f : SourceFile) (kinds : List Kind) (start : Nat)
    (stop : Option Nat) (text : Text) :
    nextWithText? f kinds start stop text = .ok (f.nextWithText? kinds start stop text) :=
  next?_eq f _ start stop

@[simp] theorem nextSignificant?_eq (f : SourceFile) (start : Nat) (stop : Option Nat) :
    nextSignificant? f start stop = .ok (f.nextSignificant? start stop) :=
  next?_eq f _ start stop

@[simp] theorem previousSignificant?_eq (f : SourceFile) (start : Nat) (low : Option Nat) :
    previousSignificant? f start low = .ok (f.previousSignificant? start low) :=
  previous?_eq f _ start low

/-- What a search finds is in the stream. -/
theorem tokenAt_of_next? {p : Token → Bool} {start : Nat} {stop : Option Nat}
    (h : f.next? p start stop = some i) : ∃ t, f.tokens[i]? = some t ∧ tokenAt f i = .ok t :=
  exists_tokenAt_eq (SourceFile.next?_eq_some h).2.1

theorem kindAt_of_next? {p : Token → Bool} {start : Nat} {stop : Option Nat}
    (h : f.next? p start stop = some i) : ∃ k, f.kindAt i = some k ∧ kindAt f i = .ok k :=
  exists_kindAt_eq (SourceFile.next?_eq_some h).2.1

/-- A search for a kind finds a token of this kind. -/
theorem tokenAt_of_nextOfKind? {k : Kind} {start : Nat} {stop : Option Nat}
    (h : f.nextOfKind? [k] start stop false = some i) :
    ∃ t, f.tokens[i]? = some t ∧ tokenAt f i = .ok t ∧ t.kind = k := by
  obtain ⟨-, hsize, hholds⟩ := SourceFile.next?_eq_some h
  obtain ⟨t, ht, htoken⟩ := exists_tokenAt_eq hsize
  exact ⟨t, ht, htoken, by simpa [SourceFile.holdsAt, ht] using hholds⟩

theorem tokenAt_of_previousOfKind? {k : Kind} {start : Nat} {low : Option Nat}
    (h : f.previousOfKind? [k] start low false = some i) :
    ∃ t, f.tokens[i]? = some t ∧ tokenAt f i = .ok t ∧ t.kind = k := by
  obtain ⟨-, hsize, hholds⟩ := SourceFile.previous?_eq_some h
  obtain ⟨t, ht, htoken⟩ := exists_tokenAt_eq hsize
  exact ⟨t, ht, htoken, by simpa [SourceFile.holdsAt, ht] using hholds⟩

/-! ### Texts -/

/-- The tokens from `start` on and before `stop`. -/
def slice (f : SourceFile) (start stop : Nat) : Checked (List Token) :=
  part f.tokens.toList start stop

theorem slice_eq {start stop : Nat} (h : start ≤ stop) (hstop : stop ≤ f.tokens.size) :
    slice f start stop = .ok (f.slice start stop) :=
  part_eq h (by simpa using hstop)

/-- The text of up to `length` tokens from `start` on. -/
def textOf (f : SourceFile) (start length : Nat) : Checked Text :=
  if min (start + length) f.tokens.size ≤ start then return []
  else do return (← slice f start (min (start + length) f.tokens.size)).flatMap Token.text

@[simp] theorem textOf_eq (f : SourceFile) (start length : Nat) :
    textOf f start length = .ok (f.textOf start length) := by
  rw [textOf, SourceFile.textOf, SourceFile.textBetween, SourceFile.slice, Nat.add_sub_cancel_left]
  split
  · next hle =>
    have hnone : (f.tokens.toList.drop start).take length = [] := by
      rcases Nat.eq_zero_or_pos length with rfl | hpos
      · rfl
      · rw [List.drop_eq_nil_of_le (by rw [Array.length_toList]; omega), List.take_nil]
    rw [hnone]
    rfl
  · next hlt =>
    rw [slice_eq (by omega) (Nat.min_le_right _ _), ok_bind, SourceFile.slice]
    rcases Nat.le_total (start + length) f.tokens.size with hle | hle
    · rw [Nat.min_eq_left hle, Nat.add_sub_cancel_left]
      rfl
    · rw [Nat.min_eq_right hle, List.take_of_length_le (by simp),
        List.take_of_length_le (by simp; omega)]
      rfl

/-- The text of the tokens between two indices is the text of as many tokens as there are between
them. -/
theorem textOf_sub {start stop : Nat} (h : start ≤ stop) :
    (do textOf f start (← minus stop start)) = .ok (f.textBetween start stop) := by
  rw [minus_eq h, ok_bind, textOf_eq, SourceFile.textOf, Nat.add_sub_cancel' h]

end EntityLint.Guarded
