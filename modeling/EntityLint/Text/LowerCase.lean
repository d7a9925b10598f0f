import EntityLint.Text.Basic
import EntityLint.Text.CaseTable

/-!
# Small letters

The text with all capitals made small, by the Unicode rules: one capital, the dotted `İ`, becomes
two characters, and a sigma at the end of a word becomes the final sigma.

* `Text.smallForm`, `Text.isFinalSigma`, `Text.lower`.
-/

namespace EntityLint.Text

/-- Whether a character lies in one of some ranges. -/
def inRanges (ranges : List (Nat × Nat)) (c : Char) : Bool :=
  ranges.any fun (first, last) => first ≤ c.toNat && c.toNat ≤ last

/-- The small form of a character by itself. -/
def smallForm (c : Char) : Char :=
  if c.toNat < 128 then c.toLower
  else
    let run := smallForms.find? fun (first, last, step, _) =>
      first ≤ c.toNat && c.toNat ≤ last && (c.toNat - first) % step == 0
    match run with
    | some (_, _, _, offset) => Char.ofNat (Int.toNat (c.toNat + offset))
    | none => c

/-- Whether the first character that is not passed over is cased. -/
def meetsCased (t : Text) : Bool :=
  (t.find? fun c => !inRanges caseIgnorableRanges c).any (inRanges casedRanges)

/-- A sigma is final after a cased character and not before one. The text before it is given in
reverse. -/
def isFinalSigma (before after : Text) : Bool := meetsCased before && !meetsCased after

/-- The small forms of a text, given what stands before it in reverse. -/
def lowerAfter (before : Text) : Text → Text
  | [] => []
  | c :: t =>
    let small :=
      if c = 'Σ' then [if isFinalSigma before t then 'ς' else 'σ']
      else if c = 'İ' then ['i', '\u0307']
      else [smallForm c]
    small ++ lowerAfter (c :: before) t

/-- The text with its capitals made small. -/
def lower (t : Text) : Text := lowerAfter [] t

end EntityLint.Text
