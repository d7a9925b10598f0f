import EntityLint.Mapping.AttributeText
import EntityLint.Proofs.Bounds.Lexeme

/-!
# The arguments of an annotation, read by byte offsets

The text between the parentheses of an annotation is read once more, with a cursor that goes by
bytes: it looks at bytes around it and cuts names and values out of the text.

* `Bytewise.skipSpaces`, `delimiterFrom?`, `splitName?`: spaces and names;
* `Bytewise.readValue`, `readAttribute`, `readStep`: a value, an attribute, and the next part;
* `Bytewise.parseAttributes`.

The main statement is `Bytewise.parseAttributes_eq`: the cursor stays between characters, each part
takes some of the text, and what is read is what `EntityLint.parseAttributes` reads.
-/

namespace EntityLint.Bytewise

open Text

variable {d : Dialect}

/-! ### Bytes at a cursor -/

/-- The byte at the end of a part is the first byte of the next character. -/
theorem getElem?_bytes_eq_some_iff {b : Char} (hb : b.toNat < 128) (u t : Text) :
    (Text.bytes (u ++ t))[u.utf8Length]? = some b ↔ t.head? = some b := by
  rw [bytes_append, List.getElem?_append_right (by rw [length_bytes]), length_bytes, Nat.sub_self]
  cases t with
  | nil => rfl
  | cons c t =>
    rw [bytes_cons]
    rcases bytesOf_cases c with ⟨-, hbytes⟩ | ⟨hc, b', more, hbytes, hb', -⟩
    · rw [hbytes]
      rfl
    · rw [hbytes]
      refine iff_of_false ?_ ?_
      · rintro heq
        cases heq
        omega
      · rintro heq
        cases heq
        omega

/-- The offset after the spaces at a cursor. -/
def skipSpaces (bytes : List Char) (i : Nat) : Nat :=
  if i < bytes.length ∧ bytes[i]? = some ' ' then skipSpaces bytes (i + 1) else i
termination_by bytes.length - i

theorem skipSpaces_eq (u t : Text) : skipSpaces (Text.bytes (u ++ t)) u.utf8Length =
    u.utf8Length + utf8Length (t.takeWhile (· == ' ')) := by
  induction t generalizing u with
  | nil =>
    rw [skipSpaces, if_neg]
    · rfl
    · rw [List.append_nil, length_bytes]
      exact fun h => Nat.lt_irrefl _ h.1
  | cons c t ih =>
    have hiff := getElem?_bytes_eq_some_iff (b := ' ') (by decide) u (c :: t)
    rw [skipSpaces]
    by_cases hc : c = ' '
    · subst hc
      have hnext := ih (u ++ [' '])
      have hone : utf8Length (u ++ [' ']) = u.utf8Length + 1 := utf8Length_append _ _
      rw [List.append_assoc, hone] at hnext
      have hlt : u.utf8Length < (Text.bytes (u ++ ' ' :: t)).length :=
        (List.getElem?_eq_some_iff.1 (hiff.2 rfl)).1
      rw [if_pos ⟨hlt, hiff.2 rfl⟩, List.takeWhile_cons_of_pos rfl, utf8Length_cons]
      exact hnext.trans (Nat.add_assoc _ _ _)
    · rw [if_neg fun h => hc (Option.some.inj (hiff.1 h.2)),
        List.takeWhile_cons_of_neg (by simpa using hc)]
      rfl

/-! ### Names -/

/-- Whether the byte at an index is the delimiter after a name. Two colons in a row are none. -/
def isDelimiter (d : Dialect) (bytes : List Char) (i : Nat) : Checked Bool := do
  let b ← Checked.item bytes i
  if b = d.delimiter then
    if d = .doc then return true
    else if bytes[i + 1]? = some ':' then return false
    else if i = 0 then return true
    else return (← Checked.item bytes (← Checked.minus i 1)) != ':'
  else return false

/-- The index of the first delimiter from an index on. -/
def delimiterFrom? (d : Dialect) (bytes : List Char) (i : Nat) : Checked (Option Nat) :=
  if i < bytes.length then do
    if ← isDelimiter d bytes i then return some i else delimiterFrom? d bytes (i + 1)
  else return none
termination_by bytes.length - i

/-- The offset of the delimiter after the name that begins a text. -/
def splitName? (d : Dialect) (t : Text) : Checked (Option Nat) := do
  match ← delimiterFrom? d t.bytes 0 with
  | none => return none
  | some i =>
    let word := Text.trim (← cutTo t i)
    return if !word.isEmpty && word.all isNameChar then some i else none

theorem delimiter_lt (d : Dialect) : d.delimiter.toNat < 128 := by cases d <;> decide

section Delimiter

variable {bytes : List Char} {before : Option Char} {i : ℕ}

/-- The byte before an index ends the character `before`. -/
structure Follows (bytes : List Char) (i : ℕ) (before : Option Char) : Prop where
  start : i = 0 → before = none
  byte : 0 < i → ∃ b, bytes[i - 1]? = some b ∧ (b = ':' ↔ before = some ':')

theorem isDelimiter_of_ne {b : Char} (hb : bytes[i]? = some b) (hne : b ≠ d.delimiter) :
    isDelimiter d bytes i = .ok false := by
  rw [isDelimiter, Checked.item_eq hb, Checked.ok_bind, if_neg hne]
  rfl

/-- A delimiter is recognised by the bytes around it. -/
theorem isDelimiter_eq (hbefore : Follows bytes i before) {c : Char} {t : Text}
    (h : bytes.drop i = bytesOf c ++ Text.bytes t) : isDelimiter d bytes i =
      .ok (decide (c = d.delimiter ∧ (d = .doc ∨ t.head? ≠ some ':' ∧ before ≠ some ':'))) := by
  rcases bytesOf_cases c with ⟨-, hbytes⟩ | ⟨hc, b, more, hbytes, hb, -⟩ <;> rw [hbytes] at h
  · obtain ⟨hitem, hrest⟩ := Pairing.of_drop_eq_cons h
    by_cases hdelimiter : c = d.delimiter
    · rw [isDelimiter, Checked.item_eq hitem, Checked.ok_bind, if_pos hdelimiter]
      by_cases hdoc : d = .doc
      · rw [if_pos hdoc]
        simp [hdelimiter, hdoc]
      · have hnext : bytes[i + 1]? = some ':' ↔ t.head? = some ':' := by
          rw [← getElem?_bytes_eq_some_iff (by decide) [] t, ← List.head?_drop, hrest]
          exact Iff.of_eq (congrArg (· = some ':') List.head?_eq_getElem?)
        rw [if_neg hdoc]
        by_cases hcolon : bytes[i + 1]? = some ':'
        · rw [if_pos hcolon]
          simp [hdoc, hnext.1 hcolon]
        · rw [if_neg hcolon]
          have hhead : ¬t.head? = some ':' := fun heq => hcolon (hnext.2 heq)
          by_cases hi : i = 0
          · rw [if_pos hi]
            simp [hdelimiter, hhead, hbefore.start hi]
          · obtain ⟨b, hb, hiff⟩ := hbefore.byte (Nat.pos_of_ne_zero hi)
            rw [if_neg hi, Checked.minus_eq (Nat.pos_of_ne_zero hi), Checked.ok_bind,
              Checked.item_eq hb, Checked.ok_bind]
            simp [hdelimiter, hdoc, hhead, ← hiff, bne, beq_eq_decide]
    · rw [isDelimiter_of_ne hitem hdelimiter]
      simp [hdelimiter]
  · have hne : b ≠ d.delimiter := ne_ascii hb (delimiter_lt d)
    have hcne : c ≠ d.delimiter := ne_ascii hc (delimiter_lt d)
    rw [isDelimiter_of_ne (Pairing.of_drop_eq_cons h).1 hne]
    simp [hcne]

theorem passesOver_delimiterFrom? : PassesOver (delimiterFrom? d bytes) bytes := by
  intro i b hitem hb
  rw [delimiterFrom?, if_pos (List.getElem?_eq_some_iff.1 hitem).1,
    isDelimiter_of_ne hitem (ne_ascii hb (delimiter_lt d)), Checked.ok_bind,
    if_neg Bool.false_ne_true]

/-- What is known of the byte after a character. -/
theorem follows_char {c : Char} {rest : List Char} (h : bytes.drop i = bytesOf c ++ rest) :
    Follows bytes (i + c.utf8Size) (some c) := by
  have hpos := c.utf8Size_pos
  refine ⟨fun hzero => by omega, fun _ => ?_⟩
  have hlast : bytes[i + c.utf8Size - 1]? = (bytesOf c).getLast? := by
    rw [show i + c.utf8Size - 1 = i + (c.utf8Size - 1) by omega, ← List.getElem?_drop, h,
      List.getElem?_append_left (by rw [length_bytesOf]; omega), List.getLast?_eq_getElem?,
      length_bytesOf]
  obtain ⟨b, hb, hiff⟩ := exists_getLast?_bytesOf c
  refine ⟨b, hlast.trans hb, ?_⟩
  rw [Option.some.injEq]
  exact hiff (by decide)

/-- **The end of a name in bytes.** -/
theorem delimiterFrom?_eq {t : Text} (hbefore : Follows bytes i before)
    (h : bytes.drop i = Text.bytes t) : delimiterFrom? d bytes i =
      .ok ((breakAtDelimiter d before t).map fun x => i + utf8Length x.1) := by
  induction t generalizing i before with
  | nil =>
    rw [delimiterFrom?, if_neg (Nat.not_lt_of_le (List.drop_eq_nil_iff.1 h))]
    rfl
  | cons c t ih =>
    rw [bytes_cons] at h
    have hlt : i < bytes.length := by
      by_contra hle
      have hnil := List.drop_eq_nil_of_le (Nat.le_of_not_lt hle)
      have hlength := congrArg List.length (hnil.symm.trans h)
      rw [List.length_append, length_bytesOf] at hlength
      have := c.utf8Size_pos
      simp at hlength
      omega
    rw [delimiterFrom?, if_pos hlt, isDelimiter_eq hbefore h, Checked.ok_bind, breakAtDelimiter]
    by_cases hdelimiter : c = d.delimiter ∧ (d = .doc ∨ t.head? ≠ some ':' ∧ before ≠ some ':')
    · rw [if_pos hdelimiter, if_pos (decide_eq_true hdelimiter)]
      rfl
    · rw [if_neg hdelimiter, if_neg (by simpa using hdelimiter), passesOver_delimiterFrom?.succ h,
        ih (follows_char h) (drop_bytesOf h), Option.map_map]
      refine congrArg Except.ok (Option.map_congr fun x _ => ?_)
      rw [Function.comp_apply, utf8Length_cons, Nat.add_assoc]

end Delimiter

theorem append_of_breakAtDelimiter {before : Option Char} {t name rest : Text}
    (h : breakAtDelimiter d before t = some (name, rest)) : name ++ d.delimiter :: rest = t := by
  induction t generalizing before name with
  | nil => cases h
  | cons c t ih =>
    rw [breakAtDelimiter] at h
    split at h
    · next hc => cases h; rw [hc.1]; rfl
    · obtain ⟨⟨name', rest'⟩, hrec, heq⟩ := Option.map_eq_some_iff.1 h
      cases heq
      rw [List.cons_append, ih hrec]

theorem splitName?_eq (d : Dialect) (t : Text) :
    splitName? d t = .ok ((EntityLint.splitName? d t).map fun x => utf8Length x.1) := by
  have hstart : Follows t.bytes 0 none := ⟨fun _ => rfl, fun h => absurd h (Nat.lt_irrefl 0)⟩
  rw [splitName?, delimiterFrom?_eq hstart (List.drop_zero), Checked.ok_bind,
    EntityLint.splitName?]
  cases hbreak : breakAtDelimiter d none t with
  | none => rfl
  | some x =>
    obtain ⟨name, rest⟩ := x
    dsimp only [Option.map_some]
    rw [Nat.zero_add, cutTo_eq (append_of_breakAtDelimiter hbreak).symm rfl, Checked.ok_bind]
    simp only [Option.bind_eq_bind, Option.bind_some]
    split <;> rfl

/-! ### Values -/

/-- A bare value that begins at an offset, and the offset after it. -/
def readBare (t : Text) (i : Nat) : Checked (AttributeValue × Option AttributeIssue × Nat) := do
  let inner ← cutFrom t i
  let comma := ((offsetOf? [','] inner).map (i + ·)).getD t.utf8Length
  let text := trimEnd (← cut t i comma)
  return (bareValue text, none, i + text.utf8Length)

/-- A value that begins at an offset, its issue, and the offset after it. -/
def readValue (d : Dialect) (t : Text) (i : Nat) :
    Checked (AttributeValue × Option AttributeIssue × Nat) := do
  if (Text.bytes t)[i]? = some d.quote then
    let inner ← cutFrom t (i + 1)
    match offsetOf? [d.quote] inner with
    | some length =>
      return (.string (← cut t (i + 1) (i + 1 + length)), none, i + 1 + length + 1)
    | none => return (.string (← cutFrom t (i + 1)), some .unclosedString, t.utf8Length)
  else if (Text.bytes t)[i]? = some d.opening then
    let inner ← cutFrom t (i + 1)
    match offsetOf? [d.closing] inner with
    | some length =>
      return (.raw (← cut t i (i + 1 + length + 1)), none, i + 1 + length + 1)
    | none => return (.raw (← cutFrom t i), some .unclosedArray, t.utf8Length)
  else readBare t i

theorem quote_lt (d : Dialect) : d.quote.toNat < 128 := by cases d <;> decide

theorem opening_lt (d : Dialect) : d.opening.toNat < 128 := by cases d <;> decide

theorem closing_lt (d : Dialect) : d.closing.toNat < 128 := by cases d <;> decide

theorem utf8Length_singleton {c : Char} (hc : c.toNat < 128) : utf8Length [c] = 1 := by
  rw [utf8Length_cons, utf8Size_of_lt hc]
  rfl

/-- A text through the first occurrence of a character. -/
theorem offsetOf?_singleton (c : Char) (t : Text) :
    (offsetOf? [c] t).getD t.utf8Length = utf8Length (t.takeWhile (· != c)) := by
  rcases breakOn_singleton_cases c t with ⟨hnone, hbreak⟩ | ⟨u, v, hu, rfl, hbreak⟩
  · rw [offsetOf?, hbreak, List.takeWhile_eq_self_iff.2]
    · rfl
    · intro e he
      simpa using ne_of_mem_of_not_mem he hnone
  · rw [offsetOf?, hbreak, takeWhile_append_cons (by simp), List.takeWhile_eq_self_iff.2]
    · rfl
    · intro e he
      simpa using ne_of_mem_of_not_mem he hu

theorem readBare_eq (u t : Text) : ∃ v, t = v ++ (EntityLint.readBare t).rest ∧
    readBare (u ++ t) u.utf8Length = .ok ((EntityLint.readBare t).value,
      (EntityLint.readBare t).issue, u.utf8Length + v.utf8Length) := by
  have hparts : t.takeWhile (· != ',') ++ t.dropWhile (· != ',') = t :=
    List.takeWhile_append_dropWhile
  obtain ⟨v, w, hvw, htrim, -⟩ := dropEndWhile_spec isBlank (t.takeWhile (· != ','))
  have ht : v ++ (w ++ t.dropWhile (· != ',')) = t := by rw [← List.append_assoc, ← hvw, hparts]
  have hcomma : ((offsetOf? [','] t).map (u.utf8Length + ·)).getD (utf8Length (u ++ t)) =
      u.utf8Length + utf8Length (t.takeWhile (· != ',')) := by
    rw [← offsetOf?_singleton, utf8Length_append]
    cases offsetOf? [','] t <;> rfl
  refine ⟨v, ?_, ?_⟩
  · rw [EntityLint.readBare, trimEnd, htrim]
    exact (List.prefix_iff_eq_append.1 ⟨_, ht⟩).symm
  · rw [readBare, cutFrom_eq rfl rfl, Checked.ok_bind]
    dsimp only
    rw [hcomma, cut_eq (w := t.dropWhile (· != ',')) (by rw [hparts]) rfl rfl, Checked.ok_bind,
      EntityLint.readBare, trimEnd, htrim]
    rfl

/-- **A value.** The offset after it is the end of a part of the text. -/
theorem readValue_eq (d : Dialect) (u t : Text) : ∃ v, t = v ++ (EntityLint.readValue d t).rest ∧
    readValue d (u ++ t) u.utf8Length = .ok ((EntityLint.readValue d t).value,
      (EntityLint.readValue d t).issue, u.utf8Length + v.utf8Length) := by
  have hbyte : ∀ {b : Char}, b.toNat < 128 →
      ((Text.bytes (u ++ t))[u.utf8Length]? = some b ↔ t.head? = some b) :=
    fun hb => getElem?_bytes_eq_some_iff hb u t
  rw [readValue]
  simp only [hbyte (quote_lt d), hbyte (opening_lt d)]
  cases t with
  | nil => exact readBare_eq u []
  | cons c t =>
    simp only [List.head?_cons, Option.some.injEq]
    have hassoc : u ++ c :: t = (u ++ [c]) ++ t := by rw [List.append_assoc]; rfl
    have hone : ∀ {b : Char}, c = b → b.toNat < 128 →
        u.utf8Length + 1 = utf8Length (u ++ [c]) := fun hc hb => by
      rw [utf8Length_append, hc, utf8Length_singleton hb]
    have hcut : ∀ {b : Char}, c = b → b.toNat < 128 →
        cutFrom (u ++ c :: t) (u.utf8Length + 1) = .ok t := fun hc hb =>
      cutFrom_eq hassoc (hone hc hb)
    rw [EntityLint.readValue]
    by_cases hquote : c = d.quote
    · have hlength := hone hquote (quote_lt d)
      rw [if_pos hquote, if_pos hquote, hcut hquote (quote_lt d), Checked.ok_bind, offsetOf?]
      cases hbreak : breakOn [d.quote] t with
      | none =>
        refine ⟨c :: t, (List.append_nil _).symm, ?_⟩
        rw [utf8Length_append]
        rfl
      | some x =>
        obtain ⟨text, rest⟩ := x
        have ht : text ++ [d.quote] ++ rest = t := append_of_breakOn hbreak
        refine ⟨c :: (text ++ [d.quote]), by rw [List.cons_append, ht], ?_⟩
        have htext : cut (u ++ c :: t) (u.utf8Length + 1) (u.utf8Length + 1 + text.utf8Length) =
            .ok text :=
          cut_eq (w := [d.quote] ++ rest) (by simp only [← ht, List.append_assoc]; rfl) hlength
            (by rw [hlength])
        dsimp only [Option.map_some]
        rw [htext, utf8Length_cons, utf8Length_append, utf8Length_singleton (quote_lt d),
          hquote, utf8Size_of_lt (quote_lt d)]
        simp only [Checked.ok_bind, Checked.pure_eq, Nat.add_assoc]
    · rw [if_neg hquote, if_neg hquote]
      by_cases hopening : c = d.opening
      · rw [if_pos hopening, if_pos hopening, hcut hopening (opening_lt d), Checked.ok_bind,
          offsetOf?]
        cases hbreak : breakOn [d.closing] t with
        | none =>
          refine ⟨c :: t, (List.append_nil _).symm, ?_⟩
          dsimp only [Option.map_none]
          rw [cutFrom_eq rfl rfl, utf8Length_append]
          rfl
        | some x =>
          obtain ⟨text, rest⟩ := x
          have ht : text ++ [d.closing] ++ rest = t := append_of_breakOn hbreak
          refine ⟨c :: (text ++ [d.closing]), by rw [List.cons_append, ht], ?_⟩
          have hsize : utf8Length (c :: (text ++ [d.closing])) = 1 + (text.utf8Length + 1) := by
            rw [utf8Length_cons, utf8Length_append, utf8Length_singleton (closing_lt d), hopening,
              utf8Size_of_lt (opening_lt d)]
          have htext : cut (u ++ c :: t) u.utf8Length (u.utf8Length + 1 + text.utf8Length + 1) =
              .ok (c :: (text ++ [d.closing])) :=
            cut_eq (w := rest) (by rw [List.cons_append, ht]) rfl (by rw [hsize]; omega)
          dsimp only [Option.map_some]
          rw [htext, hsize]
          simp only [Checked.ok_bind, Checked.pure_eq, Nat.add_assoc]
      · rw [if_neg hopening, if_neg hopening]
        exact readBare_eq u (c :: t)

/-! ### Attributes -/

/-- The offset after the character that ends an attribute, and after a space that follows a comma. -/
def afterSeparator (t : Text) (i : Nat) : Checked Nat := do
  let rest ← cutFrom t i
  match rest.head? with
  | some c =>
    return (if c = ',' ∧ (Text.bytes t)[i + 1]? = some ' ' then i + 1 else i) + c.utf8Size
  | none => return i

/-- The value of an attribute at an offset and what is around it, given the issues found before. -/
def readNamed (d : Dialect) (name : Text) (issues : List AttributeIssue) (t : Text) (i : Nat) :
    Checked AttributeReading := do
  let (value, issue, stop) ← readValue d t i
  let spaced : Bool := (Text.bytes t)[stop]? = some ' '
  let stop ← afterSeparator t (if spaced then skipSpaces t.bytes stop else stop)
  return {
    entry := some (name, value)
    issues := issues ++ issue.toList ++ (if spaced then [.spaceAfterValue name] else [])
    rest := ← cutFrom t stop }

/-- The issue of the space between a delimiter and its value, by the byte after the delimiter. -/
def spacingIssue? (d : Dialect) (name : Text) (next : Option Char) : Option AttributeIssue :=
  match d, next == some ' ' with
  | .doc, true => some (.spaceBeforeValue name)
  | .native, false => some (.noSpaceBeforeValue name)
  | _, _ => none

/-- The attribute that begins a text. -/
def readAttribute (d : Dialect) (t : Text) : Checked AttributeReading := do
  match ← splitName? d t with
  | none => readNamed d positionalName [] t 0
  | some i =>
    let raw ← cutTo t i
    let name := Text.trim raw
    let issues := (if isSpacedName d raw then [.spaceAroundName name] else [])
      ++ (spacingIssue? d name (Text.bytes t)[i + 1]?).toList
    readNamed d name issues t (skipSpaces t.bytes (i + 1))

/-- The text after a literal without a name, which is no attribute. -/
def skipLiteral? (d : Dialect) (t : Text) : Checked (Option Text) :=
  if (Text.bytes t)[0]? = some d.opening then
    match offsetOf? [d.closing] t with
    | some i => do
      return some ((← cutFrom t (i + 1)).dropWhile fun c => c == ',' || Text.isBlank c)
    | none => return none
  else return none

/-- The next part of some arguments. -/
def readStep (d : Dialect) (t : Text) : Checked AttributeReading :=
  let t := t.dropWhile (· == ',')
  if t.all Text.isBlank then return ⟨none, [], []⟩
  else do
    match ← skipLiteral? d t with
    | some rest => return ⟨none, [], rest⟩
    | none => readAttribute d t

/-- The parts of some arguments, in order. -/
def attributeReadings (d : Dialect) (t : Text) : Checked (List AttributeReading) :=
  if t.all Text.isBlank then return []
  else do
    let reading ← readStep d t
    if reading.rest.length < t.length then return reading :: (← attributeReadings d reading.rest)
    else throw .stuck
termination_by t.length

/-- Read the text between the parentheses of an annotation. -/
def parseAttributes (d : Dialect) (text : Text) : Checked ParsedAttributes := do
  let readings ← attributeReadings d (Text.trim text)
  return ⟨.ofList (readings.filterMap AttributeReading.entry),
    readings.flatMap AttributeReading.issues⟩

theorem afterSeparator_eq (u t : Text) : ∃ v, t = v ++ EntityLint.afterSeparator t ∧
    afterSeparator (u ++ t) u.utf8Length = .ok (u.utf8Length + v.utf8Length) := by
  rw [afterSeparator, cutFrom_eq rfl rfl, Checked.ok_bind]
  cases t with
  | nil => exact ⟨[], rfl, rfl⟩
  | cons c t =>
    dsimp only [List.head?_cons]
    by_cases hc : c = ','
    · subst hc
      have hone : u.utf8Length + 1 = utf8Length (u ++ [',']) :=
        (utf8Length_append u [',']).symm
      have hbyte : (Text.bytes (u ++ ',' :: t))[u.utf8Length + 1]? = some ' ' ↔ t.head? = some ' ' := by
        rw [hone, ← List.singleton_append, ← List.append_assoc]
        exact getElem?_bytes_eq_some_iff (by decide) _ t
      simp only [hbyte, true_and]
      by_cases hspace : t.head? = some ' '
      · obtain ⟨t, rfl⟩ := List.head?_eq_some_iff.1 hspace
        exact ⟨[',', ' '], rfl, rfl⟩
      · have hafter : EntityLint.afterSeparator (',' :: t) = t := by
          unfold EntityLint.afterSeparator
          split
          · next heq => cases heq; exact absurd rfl hspace
          · next heq => cases heq; rfl
          · next heq => cases heq
        refine ⟨[','], by rw [hafter]; rfl, ?_⟩
        rw [if_neg hspace]
        rfl
    · have hafter : EntityLint.afterSeparator (c :: t) = t := by
        unfold EntityLint.afterSeparator
        split
        · next heq => cases heq; exact absurd rfl hc
        · next heq => cases heq; rfl
        · next heq => cases heq
      refine ⟨[c], by rw [hafter]; rfl, ?_⟩
      rw [if_neg fun h => hc h.1]
      rfl

/-- The spaces at the end of a part, if there are any, are passed over. -/
theorem skipSpaces_spaced (u t : Text) :
    (if t.head? == some ' ' then skipSpaces (Text.bytes (u ++ t)) u.utf8Length else u.utf8Length) =
      utf8Length (u ++ t.takeWhile (· == ' ')) := by
  rw [utf8Length_append]
  split
  · exact skipSpaces_eq u t
  · next h =>
    have hnone : t.takeWhile (· == ' ') = [] := by
      cases t with
      | nil => rfl
      | cons c t => exact List.takeWhile_cons_of_neg (by simpa using h)
    rw [hnone]
    rfl

theorem readNamed_eq (d : Dialect) (name : Text) (issues : List AttributeIssue) (u t : Text) :
    readNamed d name issues (u ++ t) u.utf8Length = .ok (EntityLint.readNamed d name issues t) := by
  obtain ⟨v, hv, hvalue⟩ := readValue_eq d u t
  rw [readNamed, hvalue, Checked.ok_bind, EntityLint.readNamed]
  generalize EntityLint.readValue d t = reading at hv ⊢
  subst hv
  -- the text is what stands before the cursor, the value, the spaces after it, and the rest
  obtain ⟨w, hw, hseparator⟩ := afterSeparator_eq (u ++ v ++ reading.rest.takeWhile (· == ' '))
    (reading.rest.dropWhile (· == ' '))
  have hassoc : u ++ (v ++ reading.rest) = (u ++ v) ++ reading.rest := by rw [List.append_assoc]
  have hspaces : u ++ (v ++ reading.rest) =
      (u ++ v ++ reading.rest.takeWhile (· == ' ')) ++ reading.rest.dropWhile (· == ' ') := by
    rw [hassoc, List.append_assoc (u ++ v), List.takeWhile_append_dropWhile]
  have hspaced : decide ((Text.bytes (u ++ v ++ reading.rest))[utf8Length (u ++ v)]? = some ' ') =
      (reading.rest.head? == some ' ') := by
    rw [beq_eq_decide]
    exact decide_eq_decide.2 (getElem?_bytes_eq_some_iff (by decide) (u ++ v) reading.rest)
  dsimp only
  rw [hassoc, ← utf8Length_append, hspaced, skipSpaces_spaced, ← hassoc, hspaces, hseparator,
    Checked.ok_bind, cutFrom_eq (u := u ++ v ++ reading.rest.takeWhile (· == ' ') ++ w)
      (v := EntityLint.afterSeparator (reading.rest.dropWhile (· == ' ')))]
  · rfl
  · rw [List.append_assoc _ w, ← hw]
  · rw [utf8Length_append _ w]

theorem readAttribute_eq (d : Dialect) (t : Text) :
    readAttribute d t = .ok (EntityLint.readAttribute d t) := by
  rw [readAttribute, splitName?_eq, Checked.ok_bind, EntityLint.readAttribute]
  cases hsplit : EntityLint.splitName? d t with
  | none => exact readNamed_eq d positionalName [] [] t
  | some x =>
    obtain ⟨raw, rest⟩ := x
    obtain ⟨y, hy, hif⟩ := Option.bind_eq_some_iff.1 hsplit
    obtain rfl : y = (raw, rest) := by
      obtain ⟨name, after⟩ := y
      dsimp only at hif
      split at hif
      · exact Option.some.inj hif
      · cases hif
    have ht := append_of_breakAtDelimiter hy
    have ht' : (raw ++ [d.delimiter]) ++ rest = t := by rw [List.append_assoc]; exact ht
    have hone : raw.utf8Length + 1 = utf8Length (raw ++ [d.delimiter]) := by
      rw [utf8Length_append, utf8Length_singleton (delimiter_lt d)]
    have hspaces : (raw ++ [d.delimiter] ++ rest.takeWhile (· == ' ')) ++
        rest.dropWhile (· == ' ') = t := by
      rw [List.append_assoc, List.takeWhile_append_dropWhile, ht']
    have hspacing : spacingIssue? d (Text.trim raw) (Text.bytes t)[raw.utf8Length + 1]? =
        EntityLint.spacingIssue? d (Text.trim raw) rest := by
      have hiff := getElem?_bytes_eq_some_iff (b := ' ') (by decide) (raw ++ [d.delimiter]) rest
      rw [ht', ← hone] at hiff
      have hbeq : ((Text.bytes t)[raw.utf8Length + 1]? == some ' ') = (rest.head? == some ' ') := by
        rw [beq_eq_decide, beq_eq_decide]
        exact decide_eq_decide.2 hiff
      cases d <;> cases hspace : rest.head? == some ' ' <;>
        simp only [spacingIssue?, EntityLint.spacingIssue?, hbeq, hspace]
    have hskip : skipSpaces t.bytes (raw.utf8Length + 1) =
        utf8Length (raw ++ [d.delimiter] ++ rest.takeWhile (· == ' ')) := by
      rw [hone, ← ht', skipSpaces_eq, ← utf8Length_append]
    dsimp only [Option.map_some]
    rw [cutTo_eq ht.symm rfl, Checked.ok_bind, hspacing, hskip]
    conv_lhs => rw [← hspaces]
    exact readNamed_eq d _ _ _ _

theorem skipLiteral?_eq (d : Dialect) (t : Text) :
    skipLiteral? d t = .ok (EntityLint.skipLiteral? d t) := by
  have hbyte : (Text.bytes t)[0]? = some d.opening ↔ t.head? = some d.opening :=
    getElem?_bytes_eq_some_iff (opening_lt d) [] t
  rw [skipLiteral?, EntityLint.skipLiteral?]
  simp only [hbyte]
  split
  · rw [offsetOf?]
    cases hbreak : breakOn [d.closing] t with
    | none => rfl
    | some x =>
      obtain ⟨inner, rest⟩ := x
      dsimp only [Option.map_some]
      rw [cutFrom_eq (append_of_breakOn hbreak).symm
        (by rw [utf8Length_append, utf8Length_singleton (closing_lt d)])]
      rfl
  · rfl

/-! ### All attributes -/

theorem readStep_eq (d : Dialect) (t : Text) : readStep d t = .ok (EntityLint.readStep d t) := by
  rw [readStep, EntityLint.readStep]
  split
  · rfl
  · rw [skipLiteral?_eq, Checked.ok_bind]
    cases EntityLint.skipLiteral? d (t.dropWhile (· == ',')) with
    | some rest => rfl
    | none => exact readAttribute_eq d _

/-- **The arguments of an annotation.** Each part takes some of the text. -/
theorem attributeReadings_eq (d : Dialect) (t : Text) :
    attributeReadings d t = .ok (EntityLint.attributeReadings d t) := by
  fun_induction EntityLint.attributeReadings d t with
  | case1 t hblank =>
    rw [attributeReadings, if_pos hblank]
    rfl
  | case2 t hblank hlt ih =>
    rw [attributeReadings, if_neg hblank, readStep_eq, Checked.ok_bind, if_pos hlt, ih]
    rfl

theorem parseAttributes_eq (d : Dialect) (text : Text) :
    parseAttributes d text = .ok (EntityLint.parseAttributes d text) := by
  rw [parseAttributes, attributeReadings_eq]
  rfl

end EntityLint.Bytewise
