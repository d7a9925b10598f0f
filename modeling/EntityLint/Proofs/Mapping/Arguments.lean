import EntityLint.Mapping.AttributeText
import EntityLint.Proofs.Mapping.Suppression
import EntityLint.Proofs.Text.Trimmed
import Mathlib

/-!
# Reading back arguments that were written

Named attributes that are written one after the other, with commas between them and any spaces
around their names and values, are read back as they are. A text in quotes or in brackets may have
every character in it but the one that ends it.

* `WrittenValue`, `WrittenAttribute`, `writeAttributes`: arguments as they are written;
* `IsTidy`: spaces that are no issue;
* `readValue_text`, `readStep_body`: one value and one attribute are read back, whatever follows;
* `readings_writeFrom`, `issuesFrom_eq_nil_iff`: all attributes are, and the issues are those of each.

The main statement is `parseAttributes_writeAttributes`.
-/

namespace EntityLint

/-! ### Numbers -/

namespace Numeral

theorem natural?_toDigits (n : Nat) : natural? (Nat.toDigits 10 n) = some n := by
  have hne : Nat.toDigits 10 n ≠ [] := Nat.toDigits_ne_nil
  have hall : (Nat.toDigits 10 n).all Char.isDigit = true := by
    rw [List.all_eq_true]
    intro c hc
    exact Nat.isDigit_of_mem_toDigits (by omega) (by omega) hc
  have hvalue : value (Nat.toDigits 10 n) = n := by
    show (Nat.toDigits 10 n).foldl (fun n c => 10 * n + (c.toNat - '0'.toNat)) 0 = n
    rw [← Nat.ofDigitChars_eq_foldl, Nat.ofDigitChars_ten_toDigits]
  simp [natural?, hne, hall, hvalue]

theorem toList_toString_negSucc (n : Nat) :
    (toString (Int.negSucc n)).toList = '-' :: Nat.toDigits 10 (n + 1) := by
  simp [Int.toString_eq_repr, Int.repr, Nat.repr_eq_ofList_toDigits]

theorem toList_toString_ofNat (n : Nat) :
    (toString (Int.ofNat n)).toList = Nat.toDigits 10 n := by
  simp [Int.toString_eq_repr, Int.repr, Nat.repr_eq_ofList_toDigits]

theorem sign_toDigits (n : Nat) : sign (Nat.toDigits 10 n) = (false, Nat.toDigits 10 n) := by
  have hdigit : ∀ c ∈ Nat.toDigits 10 n, c.isDigit = true := fun c hc =>
    Nat.isDigit_of_mem_toDigits (by omega) (by omega) hc
  unfold sign
  split
  · next heq => exact absurd (hdigit '-' (heq ▸ List.mem_cons_self)) (by decide)
  · next heq => exact absurd (hdigit '+' (heq ▸ List.mem_cons_self)) (by decide)
  · rfl

/-- A number is read back from its digits and sign. -/
theorem signed?_toString (n : Int) : signed? (toString n).toList = some n := by
  cases n with
  | ofNat n =>
    rw [toList_toString_ofNat]
    simp [signed?, sign_toDigits, natural?_toDigits]
  | negSucc n =>
    rw [toList_toString_negSucc]
    simp [signed?, sign, natural?_toDigits, Int.negSucc_eq]

end Numeral

/-! ### Written values -/

/-- A text that may stand without quotes: it ends where it is trimmed and nothing in it is a
comma. -/
structure IsPlain (d : Dialect) (t : Text) : Prop extends Text.IsTrimmed t where
  not_comma : ',' ∉ t
  head_ne : ∀ c ∈ t.head?, c ≠ d.quote ∧ c ≠ d.opening ∧ c ≠ d.delimiter

/-- A value as it is written in some dialect. -/
inductive WrittenValue (d : Dialect)
  /-- A text in quotes. -/
  | quoted (text : Text) (h : d.quote ∉ text)
  /-- A number of 64 bits with a sign. -/
  | integer (n : Int) (h : Numeral.inWord n = true)
  /-- A truth value in capitals, small letters or both. -/
  | boolean (value : Bool) (spelling : Text)
    (h : Text.asciiLower spelling = if value then "true".toList else "false".toList)
  /-- A literal in brackets. -/
  | bracketed (inner : Text) (h : d.closing ∉ inner)
  /-- A text without quotes that is neither a number nor a truth value. -/
  | bare (text : Text) (plain : IsPlain d text) (number : wholeNumber? text = none)
    (boolean : Text.asciiLower text ≠ "true".toList ∧ Text.asciiLower text ≠ "false".toList)

namespace WrittenValue

variable {d : Dialect}

/-- The text of a written value. -/
def text : WrittenValue d → Text
  | quoted text _ => d.quote :: (text ++ [d.quote])
  | integer n _ => (toString n).toList
  | boolean _ spelling _ => spelling
  | bracketed inner _ => d.opening :: (inner ++ [d.closing])
  | bare text _ _ _ => text

/-- The value that a text was written for. -/
def value : WrittenValue d → AttributeValue
  | quoted text _ => .string text
  | integer n _ => .integer n
  | boolean value _ _ => .boolean value
  | bracketed inner _ => .raw (d.opening :: (inner ++ [d.closing]))
  | bare text _ _ _ => .string text

end WrittenValue

theorem isBlank_of_isNameChar {c : Char} (h : isNameChar c = true) : Text.isBlank c = false := by
  rcases Bool.or_eq_true_iff.1 h with hc | hc
  · exact Text.isBlank_of_isAlphanum hc
  · rw [beq_iff_eq.1 hc]
    decide

namespace IsPlain

variable {d : Dialect} {t : Text}

theorem of_forall (hne : t ≠ []) (ht : ∀ c ∈ t, c.isAlphanum = true ∨ c = '-') : IsPlain d t := by
  refine ⟨.of_forall hne ?_, ?_, ?_⟩
  · intro c hc
    rcases ht c hc with h | rfl
    · exact Text.isBlank_of_isAlphanum h
    · decide
  · intro hmem
    exact absurd (ht ',' hmem) (by decide)
  · intro c hc
    have hchar := ht c (List.mem_of_mem_head? hc)
    refine ⟨?_, ?_, ?_⟩ <;> rintro rfl <;> revert hchar <;> cases d <;> decide

end IsPlain

/-- A bare value is read to the blanks before the comma or the end. -/
theorem readBare_append {t w s : Text} (hcomma : ',' ∉ t)
    (hlast : ∀ c ∈ t.getLast?, Text.isBlank c = false) (hw : ∀ c ∈ w, Text.isBlank c = true)
    (hs : ∀ c ∈ s.head?, c = ',') :
    readBare (t ++ (w ++ s)) = ⟨bareValue t, none, w ++ s⟩ := by
  have hrest : ∀ c ∈ t ++ w, (c != ',') = true := by
    intro c hc
    refine bne_iff_ne.2 ?_
    rintro rfl
    rcases List.mem_append.1 hc with hmem | hmem
    · exact hcomma hmem
    · exact absurd (hw ',' hmem) (by decide)
  have hhead : s.head?.any (· != ',') = false := by
    cases hc : s.head? with
    | none => rfl
    | some c => simp [hs c hc]
  have hrun : (t ++ (w ++ s)).takeWhile (· != ',') = t ++ w := by
    rw [← List.append_assoc, Text.takeWhile_append_of_head hrest hhead]
  have htrim : Text.trimEnd (t ++ w) = t := by
    refine Text.dropEndWhile_append ?_ hw
    cases hc : t.getLast? with
    | none => rfl
    | some c => exact hlast c hc
  simp [readBare, hrun, htrim]

theorem readValue_of_isPlain {d : Dialect} {t w s : Text} (ht : IsPlain d t)
    (hw : ∀ c ∈ w, Text.isBlank c = true) (hs : ∀ c ∈ s.head?, c = ',') :
    readValue d (t ++ (w ++ s)) = ⟨bareValue t, none, w ++ s⟩ := by
  rw [← readBare_append ht.not_comma ht.last hw hs]
  obtain ⟨c, t, rfl⟩ := List.exists_cons_of_ne_nil ht.ne_nil
  obtain ⟨hquote, hopening, -⟩ := ht.head_ne c rfl
  simp [readValue, hquote, hopening]

namespace WrittenValue

variable {d : Dialect}

theorem isAlpha_of_mem_boolean {value : Bool} {spelling : Text}
    (h : Text.asciiLower spelling = if value then "true".toList else "false".toList) :
    ∀ c ∈ spelling, c.isAlpha = true := by
  have hword : ∀ x ∈ if value then "true".toList else "false".toList, x.isAlpha = true := by
    cases value <;> simp
  intro c hc
  rw [← Char.isAlpha_toLower_eq_isAlpha]
  exact hword _ (h ▸ List.mem_map_of_mem hc)

theorem isPlain_boolean {value : Bool} {spelling : Text}
    (h : Text.asciiLower spelling = if value then "true".toList else "false".toList) :
    IsPlain d spelling := by
  refine .of_forall ?_ fun c hc => .inl (Bool.or_eq_true_iff.2 (.inl (isAlpha_of_mem_boolean h c hc)))
  rintro rfl
  cases value <;> simp [Text.asciiLower] at h

theorem bareValue_boolean {value : Bool} {spelling : Text}
    (h : Text.asciiLower spelling = if value then "true".toList else "false".toList) :
    bareValue spelling = .boolean value := by
  cases value <;> simp [bareValue, h]

theorem digits_of_integer (n : Int) :
    (toString n).toList ≠ [] ∧ ∀ c ∈ (toString n).toList, c.isDigit = true ∨ c = '-' := by
  have hdigit : ∀ m, ∀ c ∈ Nat.toDigits 10 m, c.isDigit = true := fun m c hc =>
    Nat.isDigit_of_mem_toDigits (by omega) (by omega) hc
  cases n with
  | ofNat n =>
    rw [Numeral.toList_toString_ofNat]
    exact ⟨Nat.toDigits_ne_nil, fun c hc => .inl (hdigit n c hc)⟩
  | negSucc n =>
    rw [Numeral.toList_toString_negSucc]
    refine ⟨List.cons_ne_nil _ _, fun c hc => ?_⟩
    rcases List.mem_cons.1 hc with rfl | hc
    · exact .inr rfl
    · exact .inl (hdigit (n + 1) c hc)

theorem isPlain_integer (n : Int) : IsPlain d (toString n).toList := by
  obtain ⟨hne, hdigits⟩ := digits_of_integer n
  refine .of_forall hne fun c hc => ?_
  rcases hdigits c hc with h | h
  · exact .inl (by simp [Char.isAlphanum, h])
  · exact .inr h

/-- A number may have blanks around it. -/
theorem bareValue_integer {n : Int} (h : Numeral.inWord n = true) {t : Text}
    (ht : Text.trim t = (toString n).toList) : bareValue t = .integer n := by
  obtain ⟨hne, hdigits⟩ := digits_of_integer n
  have hsigned := Numeral.signed?_toString n
  rw [← ht] at hne hdigits hsigned
  obtain ⟨c, s, hcs⟩ := List.exists_cons_of_ne_nil hne
  have hc : c ∈ Text.trim t := hcs ▸ List.mem_cons_self
  have hletter : c.isAlpha = false := by
    rcases hdigits c hc with hdigit | rfl
    · grind [Char.isDigit, Char.isAlpha, Char.isUpper, Char.isLower]
    · decide
  have hboolean : ∀ word : Text, (∀ e ∈ word, e.isAlpha = true) → Text.asciiLower t ≠ word := by
    rintro word hword rfl
    have hlower := hword c.toLower (List.mem_map_of_mem (Text.mem_of_mem_trim hc))
    rw [Char.isAlpha_toLower_eq_isAlpha, hletter] at hlower
    cases hlower
  rw [bareValue, if_neg (hboolean _ (by simp)), if_neg (hboolean _ (by simp))]
  simp [wholeNumber?, hsigned, Option.filter, h]

/-- A written value is read back and nothing after it is taken. -/
theorem readValue_text (v : WrittenValue d) {w s : Text} (hw : ∀ c ∈ w, Text.isBlank c = true)
    (hs : ∀ c ∈ s.head?, c = ',') :
    readValue d (v.text ++ (w ++ s)) = ⟨v.value, none, w ++ s⟩ := by
  cases v with
  | quoted text h =>
    have hbreak := Text.breakOn_singleton h (w ++ s)
    simp [WrittenValue.text, readValue, hbreak, value]
  | integer m h =>
    have htrim : Text.trim (toString m).toList = (toString m).toList := by
      simpa using (isPlain_integer (d := d) m).trim_eq 0 0
    rw [WrittenValue.text, readValue_of_isPlain (isPlain_integer m) hw hs, bareValue_integer h htrim,
      value]
  | boolean b spelling h =>
    rw [WrittenValue.text, readValue_of_isPlain (isPlain_boolean h) hw hs, bareValue_boolean h, value]
  | bracketed inner h =>
    have hne : d.opening ≠ d.quote := by cases d <;> decide
    have hbreak := Text.breakOn_singleton h (w ++ s)
    simp [WrittenValue.text, readValue, hbreak, value, hne]
  | bare text plain number boolean =>
    have htrim : Text.trim text = text := by simpa using plain.trim_eq 0 0
    rw [WrittenValue.text, readValue_of_isPlain plain hw hs, bareValue, if_neg boolean.1,
      if_neg boolean.2, htrim, number, value]

theorem isTrimmed_text (v : WrittenValue d) : Text.IsTrimmed v.text := by
  have henclosed : ∀ a b : Char, Text.isBlank a = false → Text.isBlank b = false →
      ∀ t : Text, Text.IsTrimmed (a :: (t ++ [b])) := by
    intro a b ha hb t
    exact .append (.of_forall (t := [a]) (by simp) (by simpa using ha))
      (.of_forall (t := [b]) (by simp) (by simpa using hb)) t
  cases v with
  | quoted text h => exact henclosed _ _ (by cases d <;> decide) (by cases d <;> decide) text
  | integer n h => exact (isPlain_integer (d := d) n).toIsTrimmed
  | boolean b spelling h => exact (isPlain_boolean (d := d) h).toIsTrimmed
  | bracketed inner h => exact henclosed _ _ (by cases d <;> decide) (by cases d <;> decide) inner
  | bare text plain number boolean => exact plain.toIsTrimmed

theorem head_text_ne (v : WrittenValue d) : v.text.head? ≠ some d.delimiter := by
  intro hhead
  have hplain : ∀ t, t.head? = some d.delimiter → ¬IsPlain d t := fun t ht hplain =>
    (hplain.head_ne _ ht).2.2 rfl
  cases v with
  | quoted text h => revert hhead; cases d <;> simp [WrittenValue.text, Dialect.quote, Dialect.delimiter]
  | integer n h => exact hplain _ hhead (isPlain_integer n)
  | boolean b spelling h => exact hplain _ hhead (isPlain_boolean h)
  | bracketed inner h => revert hhead; cases d <;> simp [WrittenValue.text, Dialect.opening, Dialect.delimiter]
  | bare text plain number boolean => exact hplain _ hhead plain

end WrittenValue

/-! ### Written attributes -/

/-- A named attribute as it is written, with numbers of spaces around its name and its value. -/
structure WrittenAttribute (d : Dialect) where
  name : Text
  value : WrittenValue d
  beforeName : Nat
  afterName : Nat
  beforeValue : Nat
  afterValue : Nat
  name_ne_nil : name ≠ []
  isNameChar_of_mem : ∀ c ∈ name, isNameChar c = true

namespace WrittenAttribute

variable {d : Dialect}

/-- The text of an attribute without the spaces around it. -/
def body (a : WrittenAttribute d) : Text :=
  a.name ++ (Text.spaces a.afterName ++ d.delimiter :: (Text.spaces a.beforeValue ++ a.value.text))

/-- The text of an attribute. -/
def text (a : WrittenAttribute d) : Text :=
  Text.spaces a.beforeName ++ (a.body ++ Text.spaces a.afterValue)

/-- The name and the value that are written. -/
def entry (a : WrittenAttribute d) : Text × AttributeValue := (a.name, a.value.value)

/-- The issues of some spaces between a delimiter and a value. -/
def gapIssues (name : Text) (n : Nat) : Dialect → List AttributeIssue
  | .doc => if n = 0 then [] else [.spaceBeforeValue name]
  | .native => if n = 0 then [.noSpaceBeforeValue name] else []

/-- The issues of an attribute with some spaces before and after it. -/
def issues (a : WrittenAttribute d) (before after : Nat) : List AttributeIssue :=
  (if before = 0 ∧ a.afterName = 0 then [] else [.spaceAroundName a.name])
    ++ gapIssues a.name a.beforeValue d
    ++ (if after = 0 then [] else [.spaceAfterValue a.name])

end WrittenAttribute

/-- The attributes one after the other with commas between them. -/
def writeAttributes {d : Dialect} (as : List (WrittenAttribute d)) : Text :=
  Text.join [','] (as.map WrittenAttribute.text)

/-- There is at most one space after each comma, none between a name and its delimiter and none
before a comma. After a delimiter there is none in a doc comment and at least one in an attribute
group. -/
structure IsTidy {d : Dialect} (as : List (WrittenAttribute d)) : Prop where
  beforeName : ∀ a ∈ as.tail, a.beforeName ≤ 1
  afterName : ∀ a ∈ as, a.afterName = 0
  beforeValue : ∀ a ∈ as, (d = .doc → a.beforeValue = 0) ∧ (d = .native → 1 ≤ a.beforeValue)
  afterValue : ∀ a ∈ as.dropLast, a.afterValue = 0

/-! ### Reading an attribute -/

/-- The first delimiter is the one that follows the name. -/
theorem breakAtDelimiter_append {d : Dialect} {u t : Text} (hu : d.delimiter ∉ u)
    (ht : t.head? ≠ some d.delimiter) (before : Option Char) (hbefore : before ≠ some d.delimiter) :
    breakAtDelimiter d before (u ++ d.delimiter :: t) = some (u, t) := by
  induction u generalizing before with
  | nil =>
    cases d with
    | doc => simp [breakAtDelimiter]
    | native =>
      simp only [Dialect.delimiter] at ht hbefore
      simp [breakAtDelimiter, Dialect.delimiter, ht, hbefore]
  | cons c u ih =>
    obtain ⟨hne, hmem⟩ := not_or.1 (mt List.mem_cons.2 hu)
    have hc : c ≠ d.delimiter := Ne.symm hne
    have hrest := ih hmem (some c) (by simpa using hc)
    simp [breakAtDelimiter, hc, hrest]

namespace WrittenAttribute

variable {d : Dialect}

theorem isTrimmed_name (a : WrittenAttribute d) : Text.IsTrimmed a.name :=
  .of_forall a.name_ne_nil fun c hc => isBlank_of_isNameChar (a.isNameChar_of_mem c hc)

theorem isTrimmed_body (a : WrittenAttribute d) : Text.IsTrimmed a.body := by
  have happend := a.isTrimmed_name.append a.value.isTrimmed_text
    (Text.spaces a.afterName ++ d.delimiter :: Text.spaces a.beforeValue)
  simpa [body] using happend

/-- The name of an attribute ends at its delimiter. -/
theorem splitName?_body (a : WrittenAttribute d) (k : Nat) (s : Text) :
    splitName? d (Text.spaces k ++ (a.body ++ s)) =
      some (Text.spaces k ++ (a.name ++ Text.spaces a.afterName),
        Text.spaces a.beforeValue ++ (a.value.text ++ s)) := by
  have hname : d.delimiter ∉ Text.spaces k ++ (a.name ++ Text.spaces a.afterName) := by
    have hchar : isNameChar d.delimiter = false := by cases d <;> decide
    have hspace : d.delimiter ≠ ' ' := by cases d <;> decide
    have hmem : d.delimiter ∉ a.name := by
      intro h
      rw [a.isNameChar_of_mem _ h] at hchar
      cases hchar
    simp [hmem, hspace]
  have hvalue : (Text.spaces a.beforeValue ++ (a.value.text ++ s)).head? ≠ some d.delimiter := by
    cases a.beforeValue with
    | zero =>
      rw [Text.spaces_zero, List.nil_append,
        List.head?_append_of_ne_nil _ a.value.isTrimmed_text.ne_nil]
      exact a.value.head_text_ne
    | succ n =>
      simp only [Text.spaces_succ, List.cons_append, List.head?_cons]
      cases d <;> decide
  have hbreak := breakAtDelimiter_append hname hvalue none (by simp)
  have hword := a.isTrimmed_name.trim_eq k a.afterName
  have hall : a.name.all isNameChar = true := List.all_eq_true.2 a.isNameChar_of_mem
  have htext : Text.spaces k ++ (a.body ++ s) =
      Text.spaces k ++ (a.name ++ Text.spaces a.afterName)
        ++ d.delimiter :: (Text.spaces a.beforeValue ++ (a.value.text ++ s)) := by
    simp [body]
  rw [htext, splitName?, hbreak]
  simp only [Option.bind_eq_bind, Option.bind_some, hword, hall]
  simp [a.name_ne_nil]

theorem isSpacedName_append (a : WrittenAttribute d) (k : Nat) :
    isSpacedName d (Text.spaces k ++ (a.name ++ Text.spaces a.afterName)) =
      decide (¬(k = 0 ∧ a.afterName = 0)) := by
  have hname : ∀ c, isNameChar c = false → c ∉ a.name := by
    intro c hc hmem
    rw [a.isNameChar_of_mem c hmem] at hc
    cases hc
  have hspace : ' ' ∉ a.name := hname ' ' (by decide)
  have hline : '\n' ∉ a.name := hname '\n' (by decide)
  simp [isSpacedName, hspace, hline]

theorem gapIssues_eq_nil_iff (name : Text) (n : Nat) (d : Dialect) :
    gapIssues name n d = [] ↔ (d = .doc → n = 0) ∧ (d = .native → 1 ≤ n) := by
  cases d <;> simp [gapIssues, Nat.one_le_iff_ne_zero]

theorem issues_eq_nil_iff (a : WrittenAttribute d) (before after : Nat) :
    a.issues before after = [] ↔ before = 0 ∧ a.afterName = 0 ∧
      ((d = .doc → a.beforeValue = 0) ∧ (d = .native → 1 ≤ a.beforeValue)) ∧ after = 0 := by
  simp [issues, gapIssues_eq_nil_iff, and_assoc]

theorem spacingIssue?_append (a : WrittenAttribute d) (s : Text) :
    (spacingIssue? d a.name (Text.spaces a.beforeValue ++ (a.value.text ++ s))).toList =
      gapIssues a.name a.beforeValue d := by
  have hspace := Text.head?_spaces_append (a.value.isTrimmed_text.head?_append_ne s) a.beforeValue
  unfold spacingIssue?
  rw [hspace]
  by_cases hzero : a.beforeValue = 0 <;> cases d <;> simp [hzero, gapIssues]

theorem head?_body_append (a : WrittenAttribute d) (k : Nat) (s : Text) :
    ∃ c, (Text.spaces k ++ (a.body ++ s)).head? = some c ∧ (isNameChar c = true ∨ c = ' ') := by
  cases k with
  | zero =>
    obtain ⟨c, t, hname⟩ := List.exists_cons_of_ne_nil a.name_ne_nil
    have hc : isNameChar c = true := a.isNameChar_of_mem c (by simp [hname])
    exact ⟨c, by simp [body, hname], .inl hc⟩
  | succ k => exact ⟨' ', rfl, .inr rfl⟩

/-- An attribute is read back, whatever spaces are around it and whatever follows the comma. -/
theorem readStep_body (a : WrittenAttribute d) (k n : Nat) {s : Text} (hs : ∀ c ∈ s.head?, c = ',') :
    readStep d (Text.spaces k ++ (a.body ++ (Text.spaces n ++ s))) =
      ⟨some a.entry, a.issues k n, afterSeparator s⟩ := by
  obtain ⟨c, hc, hchar⟩ := a.head?_body_append k (Text.spaces n ++ s)
  have hcomma : (c == ',') = false := by
    rw [beq_eq_false_iff_ne]
    rintro rfl
    revert hchar
    decide
  have hopening : c ≠ d.opening := by
    rintro rfl
    revert hchar
    cases d <;> decide
  have hdrop : (Text.spaces k ++ (a.body ++ (Text.spaces n ++ s))).dropWhile (· == ',') =
      Text.spaces k ++ (a.body ++ (Text.spaces n ++ s)) :=
    Text.dropWhile_append_of_head (u := []) (by simp) (by simpa [hc] using hcomma)
  have hskip : skipLiteral? d (Text.spaces k ++ (a.body ++ (Text.spaces n ++ s))) = none :=
    if_neg (by simpa [hc] using hopening)
  have hblank := a.isTrimmed_body.all_isBlank_append (Text.spaces k) (Text.spaces n ++ s)
  have hs' : s.head? ≠ some ' ' := fun h => absurd (hs ' ' h) (by decide)
  have hvalue := Text.dropWhile_spaces_append
    (a.value.isTrimmed_text.head?_append_ne (Text.spaces n ++ s)) a.beforeValue
  simp only [readStep, hdrop, hblank, Bool.false_eq_true, if_false, hskip]
  simp only [readAttribute, splitName?_body, readNamed, hvalue, a.value.readValue_text (fun c => Text.isBlank_of_mem_spaces) hs,
    Text.dropWhile_spaces_append hs', Text.head?_spaces_append hs', isSpacedName_append,
    spacingIssue?_append, a.isTrimmed_name.trim_eq, entry, issues]
  by_cases hname : k = 0 ∧ a.afterName = 0 <;> by_cases hn : n = 0 <;> simp [hname, hn]

end WrittenAttribute

/-! ### Reading all attributes -/

variable {d : Dialect}

/-- An attribute with some spaces before it, and the ones that follow. -/
def writeFrom (k : Nat) (a : WrittenAttribute d) : List (WrittenAttribute d) → Text
  | [] => Text.spaces k ++ a.body
  | b :: as =>
    Text.spaces k ++ (a.body ++ (Text.spaces a.afterValue ++ ',' :: writeFrom b.beforeName b as))

/-- The issues of these attributes. The space after a comma is none. -/
def issuesFrom (k : Nat) (a : WrittenAttribute d) : List (WrittenAttribute d) → List AttributeIssue
  | [] => a.issues k 0
  | b :: as => a.issues k a.afterValue ++ issuesFrom (b.beforeName - 1) b as

theorem writeFrom_eq (k : Nat) (a : WrittenAttribute d) (as : List (WrittenAttribute d)) :
    writeFrom k a as = Text.spaces k ++ writeFrom 0 a as := by
  cases as <;> rfl

theorem isTrimmed_writeFrom (a : WrittenAttribute d) (as : List (WrittenAttribute d)) :
    Text.IsTrimmed (writeFrom 0 a as) := by
  induction as generalizing a with
  | nil => exact a.isTrimmed_body
  | cons b as ih =>
    rw [writeFrom, writeFrom_eq b.beforeName]
    have happend := a.isTrimmed_body.append (ih b)
      (Text.spaces a.afterValue ++ ',' :: Text.spaces b.beforeName)
    simpa using happend

/-- The space that follows a comma goes with it. -/
theorem afterSeparator_writeFrom (k : Nat) (a : WrittenAttribute d)
    (as : List (WrittenAttribute d)) :
    afterSeparator (',' :: writeFrom k a as) = writeFrom (k - 1) a as := by
  rw [writeFrom_eq k, writeFrom_eq (k - 1)]
  cases k with
  | zero =>
    have hhead := (isTrimmed_writeFrom a as).head?_append_ne []
    rw [List.append_nil] at hhead
    show afterSeparator (',' :: writeFrom 0 a as) = writeFrom 0 a as
    unfold afterSeparator
    split
    · next heq => simp_all
    · next heq => exact (List.cons.inj heq).2.symm
    · next heq => cases heq
  | succ k => rfl

/-- Only the spaces at the two ends are trimmed. -/
theorem trim_writeAttributes (a : WrittenAttribute d) (as : List (WrittenAttribute d)) :
    Text.trim (writeAttributes (a :: as)) = writeFrom 0 a as := by
  have hends : ∃ n, writeAttributes (a :: as) = writeFrom a.beforeName a as ++ Text.spaces n := by
    induction as generalizing a with
    | nil => exact ⟨a.afterValue, by simp [writeAttributes, Text.join, WrittenAttribute.text, writeFrom]⟩
    | cons b as ih =>
      obtain ⟨n, hn⟩ := ih b
      refine ⟨n, ?_⟩
      have hjoin : writeAttributes (a :: b :: as) = a.text ++ ',' :: writeAttributes (b :: as) := by
        simp [writeAttributes, Text.join]
      simp [hjoin, hn, WrittenAttribute.text, writeFrom]
  obtain ⟨n, hn⟩ := hends
  rw [hn, writeFrom_eq, List.append_assoc, (isTrimmed_writeFrom a as).trim_eq]

theorem attributeReadings_of_readStep {t rest : Text} {entry : Option (Text × AttributeValue)}
    {issues : List AttributeIssue} (ht : t.all Text.isBlank = false)
    (h : readStep d t = ⟨entry, issues, rest⟩) :
    attributeReadings d t = ⟨entry, issues, rest⟩ :: attributeReadings d rest := by
  rw [attributeReadings, dif_neg (by simp [ht])]
  simp only [h]

theorem readings_writeFrom (a : WrittenAttribute d) (as : List (WrittenAttribute d)) (k : Nat) :
    (attributeReadings d (writeFrom k a as)).filterMap AttributeReading.entry =
        (a :: as).map WrittenAttribute.entry ∧
      (attributeReadings d (writeFrom k a as)).flatMap AttributeReading.issues =
        issuesFrom k a as := by
  induction as generalizing a k with
  | nil =>
    have hstep := a.readStep_body k 0 (s := []) (by simp)
    have hblank := a.isTrimmed_body.all_isBlank_append (Text.spaces k) []
    simp only [Text.spaces_zero, List.append_nil] at hstep hblank
    rw [writeFrom, attributeReadings_of_readStep hblank hstep, afterSeparator, attributeReadings]
    simp [issuesFrom]
  | cons b as ih =>
    have hstep := a.readStep_body k a.afterValue (s := ',' :: writeFrom b.beforeName b as) (by simp)
    have hblank := a.isTrimmed_body.all_isBlank_append (Text.spaces k)
      (Text.spaces a.afterValue ++ ',' :: writeFrom b.beforeName b as)
    obtain ⟨hentries, hissues⟩ := ih b (b.beforeName - 1)
    rw [writeFrom, attributeReadings_of_readStep hblank hstep, afterSeparator_writeFrom]
    simp [issuesFrom, hentries, hissues]

theorem isTidy_cons_cons (a b : WrittenAttribute d) (as : List (WrittenAttribute d)) :
    IsTidy (a :: b :: as) ↔ IsTidy [a] ∧ a.afterValue = 0 ∧ b.beforeName ≤ 1 ∧ IsTidy (b :: as) := by
  constructor
  · intro h
    refine ⟨⟨by simp, ?_, ?_, by simp⟩, ?_, ?_, ⟨?_, ?_, ?_, ?_⟩⟩
    · simpa using h.afterName a List.mem_cons_self
    · simpa using h.beforeValue a List.mem_cons_self
    · exact h.afterValue a List.mem_cons_self
    · exact h.beforeName b List.mem_cons_self
    · exact fun c hc => h.beforeName c (List.mem_cons_of_mem b hc)
    · exact fun c hc => h.afterName c (List.mem_cons_of_mem a hc)
    · exact fun c hc => h.beforeValue c (List.mem_cons_of_mem a hc)
    · exact fun c hc => h.afterValue c (List.mem_cons_of_mem a hc)
  · rintro ⟨ha, hafter, hbefore, h⟩
    refine ⟨?_, ?_, ?_, ?_⟩
    · exact List.forall_mem_cons.2 ⟨hbefore, h.beforeName⟩
    · exact List.forall_mem_cons.2 ⟨ha.afterName a List.mem_cons_self, h.afterName⟩
    · exact List.forall_mem_cons.2 ⟨ha.beforeValue a List.mem_cons_self, h.beforeValue⟩
    · exact List.forall_mem_cons.2 ⟨hafter, h.afterValue⟩

theorem isTidy_singleton (a : WrittenAttribute d) :
    IsTidy [a] ↔ a.afterName = 0 ∧
      ((d = .doc → a.beforeValue = 0) ∧ (d = .native → 1 ≤ a.beforeValue)) := by
  constructor
  · intro h
    exact ⟨h.afterName a List.mem_cons_self, h.beforeValue a List.mem_cons_self⟩
  · rintro ⟨hafter, hgap⟩
    exact ⟨by simp, by simpa using hafter, by simpa using hgap, by simp⟩

/-- There is no issue if and only if there are no spaces to begin with and the others are tidy. -/
theorem issuesFrom_eq_nil_iff (k : Nat) (a : WrittenAttribute d) (as : List (WrittenAttribute d)) :
    issuesFrom k a as = [] ↔ k = 0 ∧ IsTidy (a :: as) := by
  induction as generalizing k a with
  | nil => simp [issuesFrom, a.issues_eq_nil_iff, isTidy_singleton]
  | cons b as ih =>
    rw [issuesFrom, List.append_eq_nil_iff, a.issues_eq_nil_iff, ih, isTidy_cons_cons,
      isTidy_singleton, Nat.sub_eq_zero_iff_le]
    tauto

theorem parseAttributes_nil : parseAttributes d [] = ⟨.ofList [], []⟩ := by
  have htrim : Text.trim [] = [] := rfl
  simp [parseAttributes, htrim, attributeReadings]

/-- The attributes are those that were written, set one after the other. -/
theorem attributes_writeAttributes (as : List (WrittenAttribute d)) :
    (parseAttributes d (writeAttributes as)).attributes =
      .ofList (as.map WrittenAttribute.entry) := by
  cases as with
  | nil => exact congrArg ParsedAttributes.attributes parseAttributes_nil
  | cons a as =>
    obtain ⟨hentries, -⟩ := readings_writeFrom a as 0
    rw [parseAttributes, trim_writeAttributes, hentries]

/-- There is no issue if and only if the spaces are tidy. -/
theorem issues_writeAttributes_eq_nil_iff (as : List (WrittenAttribute d)) :
    (parseAttributes d (writeAttributes as)).issues = [] ↔ IsTidy as := by
  cases as with
  | nil =>
    have hissues := congrArg ParsedAttributes.issues (parseAttributes_nil (d := d))
    have htidy : IsTidy ([] : List (WrittenAttribute d)) := by constructor <;> simp
    exact ⟨fun _ => htidy, fun _ => hissues⟩
  | cons a as =>
    obtain ⟨-, hissues⟩ := readings_writeFrom a as 0
    rw [parseAttributes, trim_writeAttributes, hissues, issuesFrom_eq_nil_iff]
    exact and_iff_right rfl

/-- **Written arguments are read back.** The attributes are those that were written, set one after
the other, and there is no issue if and only if the spaces between them are tidy. -/
theorem parseAttributes_writeAttributes (as : List (WrittenAttribute d)) :
    (parseAttributes d (writeAttributes as)).attributes =
        .ofList (as.map WrittenAttribute.entry) ∧
      ((parseAttributes d (writeAttributes as)).issues = [] ↔ IsTidy as) :=
  ⟨attributes_writeAttributes as, issues_writeAttributes_eq_nil_iff as⟩

end EntityLint
