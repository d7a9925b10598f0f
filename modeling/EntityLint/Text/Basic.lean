/-!
# Text as a list of characters

Source text is handled as the list of its characters, so that cutting, searching and trimming are
list operations with list lemmas.

* `Text`, `Text.utf8Length`;
* `isBlank`, the characters with the Unicode property `White_Space`, and the functions `trimStart`,
  `trimEnd`, `trim` and `words` that go by it;
* `stripLeading?`, `breakOn`, `includes`: leading parts and first occurrences.

The main statements are `append_of_stripLeading?` and `append_of_breakOn`: a cut loses nothing.
-/

namespace EntityLint

/-- A text is the list of its characters. -/
abbrev Text := List Char

namespace Text

/-- The number of bytes a text takes in UTF-8. -/
def utf8Length : Text → Nat
  | [] => 0
  | c :: t => c.utf8Size + utf8Length t

@[simp] theorem utf8Length_nil : utf8Length [] = 0 := rfl

@[simp] theorem utf8Length_cons (c : Char) (t : Text) :
    utf8Length (c :: t) = c.utf8Size + utf8Length t := rfl

@[simp] theorem utf8Length_append (s t : Text) :
    utf8Length (s ++ t) = utf8Length s + utf8Length t := by
  induction s with
  | nil => simp
  | cons c s ih => simp [ih, Nat.add_assoc]

/-! ### Blanks -/

/-- A character is blank when it has the Unicode property `White_Space`. -/
def isBlank (c : Char) : Bool :=
  let n := c.toNat
  (9 ≤ n && n ≤ 13) || n == 0x20 || n == 0x85 || n == 0xA0 || n == 0x1680
    || (0x2000 ≤ n && n ≤ 0x200A) || n == 0x2028 || n == 0x2029 || n == 0x202F
    || n == 0x205F || n == 0x3000

/-- A space or a tab, the blanks that may stand inside a line. -/
def isSpaceOrTab (c : Char) : Bool := c == ' ' || c == '\t'

/-- The text without the longest end part whose characters all satisfy `p`. -/
def dropEndWhile (p : Char → Bool) (t : Text) : Text := (t.reverse.dropWhile p).reverse

/-- The text without its leading blanks. -/
def trimStart (t : Text) : Text := t.dropWhile isBlank

/-- The text without its trailing blanks. -/
def trimEnd (t : Text) : Text := dropEndWhile isBlank t

/-- The text without leading and trailing blanks. -/
def trim (t : Text) : Text := trimEnd (trimStart t)

/-- The maximal runs of characters that are not blank, in order. -/
def words (t : Text) : List Text := (t.splitOnP isBlank).filter (!·.isEmpty)

/-! ### Leading parts and occurrences -/

/-- The rest of a text after a given beginning, if it has that beginning. -/
def stripLeading? : Text → Text → Option Text
  | [], t => some t
  | _ :: _, [] => none
  | a :: lead, c :: t => if a = c then stripLeading? lead t else none

theorem append_of_stripLeading? {lead t rest : Text} (h : stripLeading? lead t = some rest) :
    lead ++ rest = t := by
  fun_induction stripLeading? lead t with
  | case1 => simpa using h.symm
  | case2 => simp at h
  | case3 a lead t ih => simp [ih h]
  | case4 => simp at h

@[simp] theorem stripLeading?_append (lead rest : Text) :
    stripLeading? lead (lead ++ rest) = some rest := by
  induction lead with
  | nil => rfl
  | cons a lead ih => simp [stripLeading?, ih]

theorem stripLeading?_eq_some_iff {lead t rest : Text} :
    stripLeading? lead t = some rest ↔ t = lead ++ rest :=
  ⟨fun h => (append_of_stripLeading? h).symm, fun h => h ▸ stripLeading?_append lead rest⟩

/-- Whether a text begins with another. -/
def startsWith (t lead : Text) : Bool := (stripLeading? lead t).isSome

/-- Whether a text ends with another. -/
def endsWith (t tail : Text) : Bool := (stripLeading? tail.reverse t.reverse).isSome

/-- The text without a given end, if it has that end. -/
def stripTrailing? (tail t : Text) : Option Text :=
  (stripLeading? tail.reverse t.reverse).map List.reverse

/-- The parts before and after the first occurrence of a text, if it occurs. -/
def breakOn (needle : Text) : Text → Option (Text × Text)
  | [] => (stripLeading? needle []).map ([], ·)
  | c :: t =>
    match stripLeading? needle (c :: t) with
    | some rest => some ([], rest)
    | none => (breakOn needle t).map fun (before, after) => (c :: before, after)

theorem append_of_breakOn {needle t before after : Text}
    (h : breakOn needle t = some (before, after)) : before ++ needle ++ after = t := by
  induction t generalizing before after with
  | nil =>
    simp only [breakOn, Option.map_eq_some_iff, Prod.mk.injEq] at h
    obtain ⟨rest, hr, rfl, rfl⟩ := h
    simpa using append_of_stripLeading? hr
  | cons c t ih =>
    simp only [breakOn] at h
    split at h
    · next rest hr =>
      cases h
      simpa using append_of_stripLeading? hr
    · simp only [Option.map_eq_some_iff, Prod.mk.injEq, Prod.exists] at h
      obtain ⟨b, a, hba, rfl, rfl⟩ := h
      simpa using ih hba

/-- A first occurrence stays the first one when more text follows. -/
theorem breakOn_append {needle t before after : Text} (h : breakOn needle t = some (before, after))
    (s : Text) : breakOn needle (t ++ s) = some (before, after ++ s) := by
  induction t generalizing before with
  | nil =>
    simp only [breakOn, Option.map_eq_some_iff, Prod.mk.injEq] at h
    obtain ⟨rest, hr, rfl, rfl⟩ := h
    obtain ⟨rfl, rfl⟩ := List.append_eq_nil_iff.1 (append_of_stripLeading? hr)
    cases s <;> rfl
  | cons c t ih =>
    simp only [breakOn] at h
    rw [List.cons_append, breakOn]
    split at h
    · next rest hr =>
      cases h
      have ht := append_of_stripLeading? hr
      rw [← List.cons_append, ← ht, List.append_assoc, stripLeading?_append]
    · next hr =>
      obtain ⟨⟨b, a⟩, hba, heq⟩ := Option.map_eq_some_iff.1 h
      cases heq
      -- the occurrence in `t` is long enough for none to begin at `c` and end in `s`
      have hlen := congrArg List.length (append_of_breakOn hba)
      have hnone : stripLeading? needle (c :: (t ++ s)) = none := by
        cases hs : stripLeading? needle (c :: (t ++ s)) with
        | none => rfl
        | some rest =>
          have hpre : needle <+: c :: t := by
            refine List.prefix_of_prefix_length_le ⟨rest, append_of_stripLeading? hs⟩
              ⟨s, List.cons_append⟩ ?_
            simp only [List.length_append, List.length_cons] at hlen ⊢
            omega
          obtain ⟨rest', hrest'⟩ := hpre
          rw [stripLeading?_eq_some_iff.2 hrest'.symm] at hr
          cases hr
      rw [hnone]
      dsimp only
      rw [ih hba]
      rfl

/-- Whether a text occurs in another. -/
def includes (t needle : Text) : Bool := (breakOn needle t).isSome

/-- The parts of a text between the occurrences of a separator character. -/
def pieces (sep : Char) (t : Text) : List Text := t.splitOnP (· == sep)

/-- The texts of a list, with a separator between neighbours. -/
def join (sep : Text) (parts : List Text) : Text := (parts.intersperse sep).flatten

/-- Every occurrence of a character left out. -/
def without (c : Char) (t : Text) : Text := t.filter (· != c)

/-- Every occurrence of a non-empty text left out, from left to right. -/
def withoutAll (needle : Text) : Nat → Text → Text
  | 0, t => t
  | fuel + 1, t =>
    match breakOn needle t with
    | some (before, after) => before ++ withoutAll needle fuel after
    | none => t

/-! ### ASCII letter case -/

/-- The text with its ASCII capitals made small. -/
def asciiLower (t : Text) : Text := t.map Char.toLower

end Text

end EntityLint
