import EntityLint.Mapping.Tag
import EntityLint.Proofs.Mapping.NamePlace
import EntityLint.Proofs.Token.Lookahead

/-!
# Annotations that can be written in both dialects

An annotation whose attributes are numbers, truth values and plain texts can be written in a doc
comment and in an attribute group. From either its arguments are read back as they are. In a doc
comment, however, only the text before the first closing parenthesis counts as arguments. If that
parenthesis stands in a text, the text is not closed.

* `PlainValue`, `PlainAttribute`, `PlainAnnotation`: such annotations, with their two texts;
* `parseAttributes_argumentText`: their arguments are read back;
* `openText`: arguments that end in a text;
* `exists_openText`, `issues_openText`: what is left before a closing parenthesis has an issue.

The main statement is `PlainAttribute.doc_arguments_iff`.
-/

namespace EntityLint

open Lexeme Text

/-! ### Values and attributes -/

/-- A text that may stand in either quotes, on one line, and with no backslash in front of the closing
quote. -/
structure IsQuotable (t : Text) : Prop where
  not_quote : ∀ d : Dialect, d.quote ∉ t
  not_lineEnd : ∀ c ∈ t, isLineEnd c = false
  last : t.getLast? ≠ some '\\'

/-- A value that is written alike in both dialects but for the quotes. -/
inductive PlainValue
  /-- A number of 64 bits with a sign. -/
  | integer (n : Int) (h : Numeral.inWord n = true)
  /-- A truth value in capitals, small letters or both. -/
  | boolean (value : Bool) (spelling : Text)
    (h : asciiLower spelling = if value then "true".toList else "false".toList)
  /-- A text in quotes. -/
  | quoted (text : Text) (h : IsQuotable text)

namespace PlainValue

/-- The value as it is written in a dialect. -/
def written (d : Dialect) : PlainValue → WrittenValue d
  | integer n h => .integer n h
  | boolean value spelling h => .boolean value spelling h
  | quoted text h => .quoted text (h.not_quote d)

/-- The value that is meant. -/
def value : PlainValue → AttributeValue
  | integer n _ => .integer n
  | boolean value _ _ => .boolean value
  | quoted text _ => .string text

theorem value_written (d : Dialect) (v : PlainValue) : (v.written d).value = v.value := by
  cases v <;> rfl

theorem exists_eq_quoted {v : PlainValue} {text : Text} (h : v.value = .string text) :
    ∃ hquote, v = .quoted text hquote := by
  cases v <;> cases h
  exact ⟨_, rfl⟩

end PlainValue

/-- A named attribute. -/
structure PlainAttribute where
  name : Text
  value : PlainValue
  isName : IsName name
  isNameChar_of_mem : ∀ c ∈ name, isNameChar c = true

namespace PlainAttribute

/-- The name and the value that are meant. -/
def entry (a : PlainAttribute) : Text × AttributeValue := (a.name, a.value.value)

/-- The spaces between a delimiter and a value. -/
def gap : Dialect → ℕ
  | .doc => 0
  | .native => 1

/-- The text of an attribute in a dialect. -/
def text (d : Dialect) (a : PlainAttribute) : Text :=
  a.name ++ d.delimiter :: (spaces (gap d) ++ (a.value.written d).text)

/-- The text of some attributes, `name="value", other=5` or `name: 'value', other: 5`. -/
def argumentText (d : Dialect) (as : List PlainAttribute) : Text := join ", ".toList (as.map (text d))

/-- The attribute behind some spaces. -/
def written (d : Dialect) (before : ℕ) (a : PlainAttribute) : WrittenAttribute d where
  name := a.name
  value := a.value.written d
  beforeName := before
  afterName := 0
  beforeValue := gap d
  afterValue := 0
  name_ne_nil := by
    rintro hnil
    obtain ⟨hhead, -⟩ := a.isName
    rw [hnil] at hhead
    cases hhead
  isNameChar_of_mem := a.isNameChar_of_mem

variable {d : Dialect}

theorem body_written (before : ℕ) (a : PlainAttribute) : (a.written d before).body = a.text d := rfl

theorem argumentText_cons_cons (a b : PlainAttribute) (as : List PlainAttribute) :
    argumentText d (a :: b :: as) = a.text d ++ ',' :: ' ' :: argumentText d (b :: as) := by
  simp [argumentText, join]

theorem argumentText_singleton (a : PlainAttribute) : argumentText d [a] = a.text d := by
  simp [argumentText, join]

theorem exists_argumentText_cons (a : PlainAttribute) (as : List PlainAttribute) :
    ∃ rest, argumentText d (a :: as) = a.text d ++ rest := by
  cases as with
  | nil => exact ⟨[], by rw [argumentText_singleton, List.append_nil]⟩
  | cons b as => exact ⟨_, argumentText_cons_cons a b as⟩

theorem writeAttributes_written (a : PlainAttribute) (as : List PlainAttribute) (before : ℕ) :
    writeAttributes (a.written d before :: as.map (written d 1)) =
      spaces before ++ argumentText d (a :: as) := by
  induction as generalizing a before with
  | nil =>
    rw [List.map_nil, writeAttributes, List.map_singleton, WrittenAttribute.text, body_written,
      argumentText_singleton]
    simp [join, written]
  | cons b as ih =>
    have hjoin : writeAttributes (a.written d before :: (b :: as).map (written d 1)) =
        (a.written d before).text ++
          ',' :: writeAttributes (b.written d 1 :: as.map (written d 1)) := by
      simp [writeAttributes, join]
    rw [hjoin, ih b 1, argumentText_cons_cons, WrittenAttribute.text, body_written]
    simp [written, spaces_succ]

/-- **Plain arguments are read back**, and without an issue. -/
theorem parseAttributes_argumentText (d : Dialect) (as : List PlainAttribute) :
    parseAttributes d (argumentText d as) = ⟨.ofList (as.map entry), []⟩ := by
  cases as with
  | nil => exact parseAttributes_nil
  | cons a as =>
    obtain ⟨hattributes, hissues⟩ :=
      parseAttributes_writeAttributes (a.written d 0 :: as.map (written d 1))
    have htidy : IsTidy (a.written d 0 :: as.map (written d 1)) := by
      have hgap : (d = .doc → gap d = 0) ∧ (d = .native → 1 ≤ gap d) := by cases d <;> simp [gap]
      constructor
      case beforeName => simp [written]
      case afterName => simp [written]
      case beforeValue => exact List.forall_mem_cons.2 ⟨hgap, List.forall_mem_map.2 fun _ _ => hgap⟩
      case afterValue =>
        refine fun b hb => ?_
        rcases List.mem_cons.1 (List.dropLast_subset _ hb) with rfl | hb
        · rfl
        · obtain ⟨c, -, rfl⟩ := List.mem_map.1 hb
          rfl
    have hentry : ∀ (n : ℕ) (b : PlainAttribute), (b.written d n).entry = b.entry := fun n b =>
      congrArg (b.name, ·) (b.value.value_written d)
    have hentries : (a.written d 0 :: as.map (written d 1)).map WrittenAttribute.entry =
        (a :: as).map entry := by
      simp [hentry, Function.comp_def]
    rw [writeAttributes_written, spaces_zero, List.nil_append, hentries] at hattributes
    rw [writeAttributes_written, spaces_zero, List.nil_append] at hissues
    rw [← hattributes, ← hissues.2 htidy]

/-! ### Arguments that end in a text -/

/-- Some attributes of a doc comment, and behind them one whose text is not closed. -/
def openText (as : List PlainAttribute) (name text : Text) : Text :=
  as.flatMap (fun a => a.text .doc ++ ", ".toList) ++ (name ++ '=' :: '"' :: text)

theorem openText_cons (a : PlainAttribute) (as : List PlainAttribute) (name text : Text) :
    openText (a :: as) name text = a.text .doc ++ ',' :: ' ' :: openText as name text := by
  simp [openText]

theorem openText_append (as : List PlainAttribute) (name text : Text) :
    openText as name text = openText as name [] ++ text := by
  simp [openText]

/-- Behind attributes without an issue the reader comes to the text that is not closed. -/
theorem unclosedString_mem_issues (as : List PlainAttribute) (b : PlainAttribute) {t : Text}
    (ht : '"' ∉ t) : .unclosedString ∈
      (attributeReadings .doc (openText as b.name t)).flatMap AttributeReading.issues := by
  induction as with
  | nil =>
    have hblank : (openText [] b.name t).all isBlank = false :=
      (b.written .doc 0).isTrimmed_name.all_isBlank_append [] ('=' :: '"' :: t)
    have hstep : readStep .doc (openText [] b.name t) = _ :=
      readStep_eq_readNamed (d := .doc) (x := []) (y := []) (b := []) (w := '"' :: t)
        (b.written .doc 0).name_ne_nil b.isNameChar_of_mem nofun nofun nofun
        (by simp [Dialect.delimiter])
    have hvalue : readValue .doc ('"' :: t) = ⟨.string t, some .unclosedString, []⟩ := by
      rcases breakOn_singleton_cases '"' t with ⟨-, hnone⟩ | ⟨u, v, -, rfl, -⟩
      · simp [readValue, Dialect.quote, hnone]
      · exact absurd (List.mem_append_right u List.mem_cons_self) ht
    have hdrop : ('"' :: t).dropWhile (· == ' ') = '"' :: t := rfl
    rw [hdrop, readNamed, hvalue] at hstep
    rw [attributeReadings_of_readStep hblank hstep]
    simp
  | cons a as ih =>
    have hstep := (a.written .doc 0).readStep_body 0 0 (s := ',' :: ' ' :: openText as b.name t)
      (by simp)
    have hblank := (a.written .doc 0).isTrimmed_body.all_isBlank_append []
      (',' :: ' ' :: openText as b.name t)
    simp only [spaces_zero, List.nil_append, body_written, afterSeparator] at hstep hblank
    rw [openText_cons, attributeReadings_of_readStep hblank hstep, List.flatMap_cons]
    exact List.mem_append_right _ ih

theorem isTrimmed_openText (as : List PlainAttribute) (b : PlainAttribute) :
    IsTrimmed (openText as b.name []) := by
  induction as with
  | nil =>
    have hquote : IsTrimmed ['"'] := .of_forall (by simp) (List.forall_mem_singleton.2 rfl)
    exact (b.written .doc 0).isTrimmed_name.append hquote ['=']
  | cons a as ih =>
    rw [openText_cons]
    exact (a.written .doc 0).isTrimmed_body.append ih [',', ' ']

/-- A text that is not closed is an issue, also where the blanks at its end are trimmed. -/
theorem issues_openText (as : List PlainAttribute) (b : PlainAttribute) {t : Text} (ht : '"' ∉ t) :
    (parseAttributes .doc (openText as b.name t)).issues ≠ [] := by
  obtain ⟨u, v, rfl, hend, -⟩ := dropEndWhile_spec isBlank t
  have htrim : trim (openText as b.name (u ++ v)) = openText as b.name u := by
    have hcore := (isTrimmed_openText as b).trim_append [] (u ++ v)
    rwa [List.nil_append, trimEnd, hend, ← openText_append, trimStart, List.dropWhile_nil,
      List.nil_append, ← openText_append] at hcore
  have hmem := unclosedString_mem_issues as b (t := u) fun h => ht (List.mem_append_left v h)
  intro hnil
  rw [parseAttributes, htrim] at hnil
  dsimp only at hnil
  rw [hnil] at hmem
  cases hmem

/-! ### Characters of texts -/

/-- Whether a character is written in plain arguments only as part of a text. -/
def isTextual (c : Char) : Bool :=
  !(c.isAlphanum || ['_', '-', '=', ':', ',', ' ', '"', '\''].contains c)

section Textual

variable {c : Char} (hc : isTextual c = true)

include hc

theorem of_isTextual : c.isAlphanum = false ∧ c ∉ ['_', '-', '=', ':', ',', ' ', '"', '\''] := by
  simpa only [isTextual, Bool.not_eq_true', Bool.or_eq_false_iff, List.contains_eq_mem,
    decide_eq_false_iff_not] using hc

theorem mem_written_iff (v : PlainValue) :
    c ∈ (v.written d).text ↔ ∃ text, v.value = .string text ∧ c ∈ text := by
  obtain ⟨halnum, hne⟩ := of_isTextual hc
  cases v with
  | integer n hn =>
    refine iff_of_false (fun hmem => ?_) (by simp [PlainValue.value])
    rcases (WrittenValue.digits_of_integer n).2 _ hmem with hdigit | rfl
    · simp [Char.isAlphanum, hdigit] at halnum
    · exact hne (by decide)
  | boolean value spelling hspelling =>
    refine iff_of_false (fun hmem => ?_) (by simp [PlainValue.value])
    have halpha := WrittenValue.isAlpha_of_mem_boolean hspelling _ hmem
    simp [Char.isAlphanum, halpha] at halnum
  | quoted text hquote =>
    have hd : c ≠ d.quote := by
      rintro rfl
      exact hne (by cases d <;> decide)
    simp [PlainValue.written, PlainValue.value, WrittenValue.text, hd]

theorem not_mem_name (a : PlainAttribute) : c ∉ a.name := by
  obtain ⟨halnum, hne⟩ := of_isTextual hc
  intro hmem
  have hchar := a.isNameChar_of_mem _ hmem
  rw [isNameChar, halnum, Bool.false_or, beq_iff_eq] at hchar
  exact hne (hchar ▸ List.mem_cons_self)

theorem mem_text_iff (a : PlainAttribute) :
    c ∈ a.text d ↔ ∃ text, a.value.value = .string text ∧ c ∈ text := by
  obtain ⟨-, hne⟩ := of_isTextual hc
  have hd : c ≠ d.delimiter := by
    rintro rfl
    exact hne (by cases d <;> decide)
  have hspace : c ∉ spaces (gap d) := by
    intro hmem
    rw [List.eq_of_mem_replicate hmem] at hne
    exact hne (by decide)
  rw [← mem_written_iff (d := d) hc a.value]
  simp [text, not_mem_name hc a, hd, hspace]

/-- Such a character stands in some arguments if and only if it stands in a text. -/
theorem mem_argumentText_iff (as : List PlainAttribute) :
    c ∈ argumentText d as ↔ ∃ a ∈ as, ∃ text, a.value.value = .string text ∧ c ∈ text := by
  obtain ⟨-, hne⟩ := of_isTextual hc
  have hseparator : c ≠ ',' ∧ c ≠ ' ' := by
    constructor <;> rintro rfl <;> exact hne (by decide)
  induction as with
  | nil => simp [argumentText, join]
  | cons a as ih =>
    have hcons : c ∈ argumentText d (a :: as) ↔ c ∈ a.text d ∨ c ∈ argumentText d as := by
      cases as with
      | nil => simp [argumentText, join]
      | cons b as => simp [argumentText_cons_cons, hseparator]
    rw [List.exists_mem_cons_iff]
    exact hcons.trans (or_congr (mem_text_iff hc a) ih)

end Textual

/-- Plain arguments stand on one line. -/
theorem isLineEnd_of_mem_argumentText (as : List PlainAttribute) :
    ∀ c ∈ argumentText d as, isLineEnd c = false := by
  intro c hmem
  rw [Bool.eq_false_iff]
  intro hend
  have hc : isTextual c = true := by
    rcases Bool.or_eq_true_iff.1 hend with heq | heq <;> rw [beq_iff_eq.1 heq] <;> decide
  obtain ⟨a, -, text, hvalue, htext⟩ := (mem_argumentText_iff hc as).1 hmem
  obtain ⟨hquote, -⟩ := PlainValue.exists_eq_quoted hvalue
  rw [hquote.not_lineEnd c htext] at hend
  cases hend

/-! ### Closing parentheses -/

/-- What stands in front of the first closing parenthesis in some arguments ends in a text. -/
theorem exists_openText {as : List PlainAttribute} (h : ')' ∈ argumentText .doc as) :
    ∃ (bs : List PlainAttribute) (b : PlainAttribute) (t : Text), '"' ∉ t ∧
      (argumentText .doc as).takeWhile (· != ')') = openText bs b.name t := by
  induction as with
  | nil => cases h
  | cons a as ih =>
    by_cases hmem : ')' ∈ a.text .doc
    · -- the text of this attribute is the one that is left open
      obtain ⟨text, hstring, hclose⟩ := (mem_text_iff rfl a).1 hmem
      obtain ⟨hquote, hvalue⟩ := PlainValue.exists_eq_quoted hstring
      obtain ⟨u, v, rfl, hu⟩ := List.eq_append_cons_of_mem hclose
      obtain ⟨rest, hrest⟩ := exists_argumentText_cons (d := .doc) a as
      have htext : argumentText .doc (a :: as) =
          openText [] a.name u ++ ')' :: (v ++ '"' :: rest) := by
        rw [hrest, PlainAttribute.text, hvalue]
        simp [openText, PlainValue.written, WrittenValue.text, Dialect.quote, Dialect.delimiter, gap]
      have hopen : ∀ c ∈ openText [] a.name u, (c != ')') = true := by
        intro c hc
        rw [bne_iff_ne]
        rintro rfl
        simp [openText, not_mem_name (c := ')') rfl a, hu] at hc
      refine ⟨[], a, u, fun h => hquote.not_quote .doc (List.mem_append_left _ h), ?_⟩
      rw [htext, takeWhile_append_of_head hopen rfl]
    · cases as with
      | nil => exact absurd (argumentText_singleton a ▸ h) hmem
      | cons b as =>
        rw [argumentText_cons_cons] at h ⊢
        have hrest : ')' ∈ argumentText .doc (b :: as) := by simpa [hmem] using h
        obtain ⟨bs, b', t, ht, heq⟩ := ih hrest
        have hplain : ∀ c ∈ a.text .doc ++ [',', ' '], (c != ')') = true := by
          intro c hc
          rw [bne_iff_ne]
          rintro rfl
          simp [hmem] at hc
        refine ⟨a :: bs, b', t, ht, ?_⟩
        have htake : (a.text .doc ++ [',', ' '] ++ argumentText .doc (b :: as)).takeWhile (· != ')') = _ :=
          List.takeWhile_append_of_pos hplain
        rw [heq, List.append_assoc, List.append_assoc] at htake
        rw [openText_cons]
        exact htake

/-- **Only texts without a closing parenthesis can be written in a doc comment.** What stands in front
of the first closing parenthesis of the arguments is read as the attributes that are meant, and without
an issue, if and only if there is none in any text. -/
theorem doc_arguments_iff (as : List PlainAttribute) :
    (parseAttributes .doc ((argumentText .doc as).takeWhile (· != ')'))).attributes =
          .ofList (as.map entry) ∧
        (parseAttributes .doc ((argumentText .doc as).takeWhile (· != ')'))).issues = [] ↔
      ∀ a ∈ as, ∀ text, a.value.value = .string text → ')' ∉ text := by
  constructor
  · rintro ⟨-, hissues⟩ a ha text hvalue hclose
    obtain ⟨bs, b, t, ht, heq⟩ := exists_openText
      ((mem_argumentText_iff rfl as).2 ⟨a, ha, text, hvalue, hclose⟩)
    rw [heq] at hissues
    exact issues_openText bs b ht hissues
  · intro h
    have hopen : ∀ c ∈ argumentText .doc as, (c != ')') = true := by
      intro c hc
      rw [bne_iff_ne]
      rintro rfl
      obtain ⟨a, ha, text, hvalue, hclose⟩ := (mem_argumentText_iff rfl as).1 hc
      exact h a ha text hvalue hclose
    rw [List.takeWhile_eq_self_iff.2 hopen, parseAttributes_argumentText]
    exact ⟨rfl, rfl⟩

end PlainAttribute

/-! ### Annotations -/

/-- An annotation with attributes. A name of code may have blanks of other scripts in it; the names in
question do not. -/
structure PlainAnnotation where
  name : Text
  attributes : List PlainAttribute
  isName : IsName name
  not_blank : ∀ c ∈ name, isBlank c = false
  ne_joinTable : name ≠ "JoinTable".toList

namespace PlainAnnotation

variable (a : PlainAnnotation)

/-- The name with its namespace. -/
def fullName : Text := "ORM\\".toList ++ a.name

/-- The annotation in a doc comment, `@ORM\Name(name="value", other=5)`. -/
def docText : Text :=
  '@' :: (a.fullName ++ '(' :: (PlainAttribute.argumentText .doc a.attributes ++ [')']))

/-- The annotation as an attribute group, `#[ORM\Name(name: 'value', other: 5)]`. -/
def nativeText : Text :=
  "#[".toList ++
    (a.fullName ++ '(' :: (PlainAttribute.argumentText .native a.attributes ++ ")]".toList))

/-- The attributes that are meant. -/
def entries : List (Text × AttributeValue) := a.attributes.map PlainAttribute.entry

theorem isMapping_fullName : MappingTag.isMapping a.fullName = true := by
  have hne : a.fullName ≠ "ORM\\JoinTable".toList := fun h =>
    a.ne_joinTable (List.append_cancel_left (show "ORM\\".toList ++ a.name = _ ++ _ from h))
  have hstarts : startsWith a.fullName "ORM".toList = true :=
    Option.isSome_of_eq_some (stripLeading?_append "ORM".toList ('\\' :: a.name))
  rw [MappingTag.isMapping, hstarts, Bool.true_and, bne_iff_ne]
  exact hne

theorem bareName_fullName : MappingTag.bareName a.fullName = a.name := by
  rw [MappingTag.bareName, fullName, stripLeading?_append, Option.getD_some]

end PlainAnnotation

end EntityLint
