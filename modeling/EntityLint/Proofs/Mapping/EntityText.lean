import EntityLint.Mapping.ColumnType
import EntityLint.Mapping.TypeName
import EntityLint.Proofs.Mapping.Arguments
import EntityLint.Proofs.Source.Composed
import EntityLint.Proofs.Text.Runs

/-!
# The text of an entity

An entity is a class with some properties that are mapped to columns. Each property has the type that
its column holds, and a getter and a setter with this type.

* `ColumnProperty`, with its `declaration`, `getter` and `setter` as they are written;
* `Entity`, `Entity.source`: the class;
* `ColumnProperty.native_mem_names`: the types that the code can give a property;
* `ColumnProperty.declarationPieces`, `getterPieces`, `setterPieces`: the pieces of these texts;
* `Entity.blocks`: the pieces of the class, part by part.

The main statement is `Entity.cutAll_source`.
-/

namespace EntityLint

open Lexeme Naming Pairing Text

/-- A property that is mapped to a column, with a type that suits the column. -/
structure ColumnProperty where
  /-- The name without its dollar sign. -/
  name : Text
  /-- The column type. -/
  keyword : Text
  /-- The type that the column holds. -/
  held : Text
  /-- The type that the code gives the property. -/
  native : Text
  /-- The precision of a decimal column. -/
  precision : Int
  /-- The scale of a decimal column. -/
  scale : Int
  isName : IsName name
  holds : ColumnType.held? keyword = some held
  held_ne_nil : held ≠ []
  isName_native : IsName native
  isSame : TypeName.isSame held native = true
  inWord_precision : Numeral.inWord precision = true
  inWord_scale : Numeral.inWord scale = true

namespace ColumnProperty

variable (c : ColumnProperty)

/-- The arguments of the column. -/
def arguments : Text :=
  "type=\"".toList ++ c.keyword ++ "\"".toList ++
    if c.keyword = "decimal".toList then
      ", precision=".toList ++ (toString c.precision).toList ++
        ", scale=".toList ++ (toString c.scale).toList
    else []

/-- The name of the getter. -/
def getterName : Text := "get".toList ++ upperFirst c.name

/-- The name of the setter. -/
def setterName : Text := "set".toList ++ upperFirst c.name

/-- The declaration of the property with its annotation. -/
def declaration : Text :=
  "/** @ORM\\Column(".toList ++ c.arguments ++ ") */ private ".toList ++ c.native ++
    " $".toList ++ c.name ++ ";".toList

/-- The getter of the property. -/
def getter : Text :=
  "public function ".toList ++ c.getterName ++ "(): ".toList ++ c.native ++
    " \x7b return $this->".toList ++ c.name ++ "; \x7d".toList

/-- The setter of the property. -/
def setter : Text :=
  "public function ".toList ++ c.setterName ++ "(".toList ++ c.native ++ " $".toList ++ c.name ++
    "): self \x7b $this->".toList ++ c.name ++ " = $".toList ++ c.name ++
    "; return $this; \x7d".toList

end ColumnProperty

/-- A class with properties that are mapped to columns. -/
structure Entity where
  name : Text
  columns : List ColumnProperty
  /-- What stands between the parts of the class. -/
  gap : Text
  isName : IsName name
  not_keyword : Kind.ofKeyword? name = none
  nodup : (columns.map fun c => upperFirst c.name).Nodup
  gap_ne_nil : gap ≠ []
  isCodeBlank_of_mem : ∀ d ∈ gap, isCodeBlank d = true

namespace Entity

theorem eq_of_upperFirst (e : Entity) {c c' : ColumnProperty} (hc : c ∈ e.columns)
    (hc' : c' ∈ e.columns) (h : upperFirst c.name = upperFirst c'.name) : c = c' :=
  List.inj_on_of_nodup_map e.nodup hc hc' h

/-- The text of the class: all properties, and then a getter and a setter for each of them. -/
def source (e : Entity) : Text :=
  "<?php".toList ++ e.gap ++ "class ".toList ++ e.name ++ e.gap ++ "\x7b".toList ++ e.gap ++
    (e.columns.flatMap fun c => c.declaration ++ e.gap) ++
    (e.columns.flatMap fun c => c.getter ++ e.gap ++ c.setter ++ e.gap) ++ "\x7d".toList ++ e.gap

end Entity

/-! ### Column types and their types -/

/-- A name does not begin with a character that begins no name. -/
theorem dropWhile_of_isName {w : Text} (hw : IsName w) {b : Char} (hb : isWordStart b = false) :
    w.dropWhile (· == b) = w := by
  obtain ⟨d, u, rfl, hd⟩ := hw.exists_cons
  refine List.dropWhile_cons_of_neg fun heq => ?_
  rw [beq_iff_eq.1 heq, hb] at hd
  cases hd

namespace ColumnType

/-- The known column types. -/
def keywords : List Text := (table.flatMap Prod.snd).map String.toList

theorem mem_keywords_of_held? {keyword held : Text} (h : held? keyword = some held) :
    keyword ∈ keywords ∧ held ∈ table.map fun x => x.1.toList := by
  obtain ⟨⟨type, names⟩, hfind, rfl⟩ := Option.map_eq_some_iff.1 h
  have hmem := List.mem_of_find?_eq_some hfind
  have hany := List.find?_some hfind
  obtain ⟨n, hn, heq⟩ := List.any_eq_true.1 hany
  rw [← beq_iff_eq.1 heq]
  exact ⟨List.mem_map_of_mem (List.mem_flatMap.2 ⟨_, hmem, hn⟩),
    List.mem_map_of_mem (f := fun x : String × List String => x.1.toList) hmem⟩

theorem isNameChar_of_mem_keywords {keyword : Text} (h : keyword ∈ keywords) :
    ∀ d ∈ keyword, isNameChar d = true := by
  have hall : keywords.all (fun k => k.all isNameChar) = true := by decide +kernel
  exact List.all_eq_true.1 (List.all_eq_true.1 hall keyword h)

end ColumnType

namespace TypeName

/-- The names of the types that a known column type can be held by. -/
def names : List Text :=
  ["string", "integer", "int", "boolean", "bool", "float", "DateTime", "DateTimeInterface",
    "DateTimeImmutable", "DateInterval", "array"].map String.toList

theorem hasArrayShape_eq_false {t : Text} (h : '[' ∉ t) : hasArrayShape t = false := by
  induction t with
  | nil => rfl
  | cons d t ih =>
    obtain ⟨hne, ht⟩ := not_or.1 (mt List.mem_cons.2 h)
    rw [hasArrayShape, ih ht, Bool.or_false]
    split
    · next heq => exact absurd (List.cons.inj heq).1.symm hne
    · next heq => exact absurd (List.cons.inj heq).1.symm hne
    · rfl

/-- A single name that suits a column type is one of a few. -/
theorem mem_names_of_isSame {expected actual : Text}
    (hexpected : expected ∈ ColumnType.table.map fun x => x.1.toList) (hne : expected ≠ [])
    (hactual : IsName actual) (h : isSame expected actual = true) : actual ∈ names := by
  have hlong : longName actual ∈ names → actual ∈ names := by
    intro hmem
    unfold longName at hmem
    split at hmem
    · next heq => subst heq; decide
    · split at hmem
      · next heq => subst heq; decide
      · exact hmem
  obtain ⟨hlead, haccepted⟩ : withoutLead expected = expected ∧
      ∀ m ∈ expected :: accepted expected, m ∈ names ∨ m = [] := by
    have hall : (ColumnType.table.map fun x => x.1.toList).all (fun t => withoutLead t == t &&
        (t :: accepted t).all fun m => names.contains m || m == []) = true := by decide +kernel
    have := List.all_eq_true.1 hall expected hexpected
    simpa only [Bool.and_eq_true, beq_iff_eq, List.all_eq_true, Bool.or_eq_true,
      List.contains_iff_mem] using this
  have hmembers : members actual = [longName actual] := by
    rw [members, pieces_of_not_mem (not_mem_of_isName hactual rfl)]
    rfl
  have hactualLead : withoutLead actual = actual := dropWhile_of_isName hactual rfl
  have hshape : hasArrayShape actual = false :=
    hasArrayShape_eq_false (not_mem_of_isName hactual rfl)
  have hne' : longName actual ≠ [] := by
    unfold longName
    split
    · decide
    · split
      · decide
      · rintro rfl
        cases hactual.1
  unfold isSame at h
  simp only [hlead, hactualLead, hshape, hmembers, Bool.and_false, Bool.or_false,
    List.any_cons, List.any_nil, Bool.or_eq_true, beq_iff_eq, List.contains_iff_mem] at h
  rcases h with rfl | hmem
  · exact (haccepted expected List.mem_cons_self).resolve_right hne
  · exact hlong ((haccepted _ (List.mem_cons_of_mem _ hmem)).resolve_right hne')

end TypeName

/-- A space in code. -/
def Piece.space : Piece := .single ⟨.blank, [' ']⟩

open Piece (space)

/-! ### Names and arguments -/

theorem isName_of_all {w : Text} (h : (w.head?.any isWordStart && w.all isWordChar) = true) :
    IsName w := by
  obtain ⟨hhead, hall⟩ := Bool.and_eq_true_iff.1 h
  exact ⟨hhead, List.all_eq_true.1 hall⟩

theorem isWordChar_toUpper {d : Char} (h : isWordChar d = true) : isWordChar d.toUpper = true := by
  by_cases halpha : d.isAlpha = true
  · simp [isWordChar, Char.isAlphanum, halpha]
  · have hsame : d.toUpper = d := by
      unfold Char.toUpper
      split
      · next hlower => exact absurd (by simpa [Char.isAlpha, Char.isLower] using .inr hlower) halpha
      · rfl
    rwa [hsame]

theorem isName_verb {verb name : Text} (hverb : IsName verb) (hname : IsName name) :
    IsName (verb ++ upperFirst name) := by
  obtain ⟨d, u, rfl, hd⟩ := hverb.exists_cons
  obtain ⟨b, v, rfl, hb⟩ := hname.exists_cons
  refine ⟨hd, fun x hx => ?_⟩
  rcases List.mem_append.1 hx with hx | hx
  · exact hverb.2 x hx
  · rcases List.mem_cons.1 hx with rfl | hx
    · exact isWordChar_toUpper (hname.2 b List.mem_cons_self)
    · exact hname.2 x (List.mem_cons_of_mem _ hx)

namespace ColumnProperty

variable (c : ColumnProperty)

theorem getterName_ne_setterName (c c' : ColumnProperty) : c.getterName ≠ c'.setterName := by
  intro h
  have hhead : some 'g' = some 's' := congrArg List.head? h
  exact absurd hhead (by decide)

theorem native_mem_names : c.native ∈ TypeName.names :=
  TypeName.mem_names_of_isSame (ColumnType.mem_keywords_of_held? c.holds).2 c.held_ne_nil
    c.isName_native c.isSame

/-- The kind of the type of the property. -/
def nativeKind : Kind := (Kind.ofKeyword? c.native).getD .word

theorem nativeKind_mem : c.nativeKind = .word ∨ c.nativeKind = .kwArray := by
  have hall : TypeName.names.all (fun t => decide ((Kind.ofKeyword? t).getD .word = .word ∨
      (Kind.ofKeyword? t).getD .word = .kwArray)) = true := by decide +kernel
  exact of_decide_eq_true (List.all_eq_true.1 hall c.native c.native_mem_names)

/-- Neither a star nor a parenthesis nor the end of a line is among the arguments. -/
theorem mem_arguments {d : Char} (hd : d ∈ c.arguments) :
    isNameChar d = true ∨ d ∈ ['=', '"', ',', ' ', '-'] := by
  have hkeyword := ColumnType.isNameChar_of_mem_keywords (ColumnType.mem_keywords_of_held? c.holds).1
  have hnumber : ∀ n : Int, ∀ d ∈ (toString n).toList,
      isNameChar d = true ∨ d ∈ ['=', '"', ',', ' ', '-'] := by
    intro n d hd
    rcases (WrittenValue.digits_of_integer n).2 d hd with hdigit | rfl
    · exact .inl (by simp [isNameChar, Char.isAlphanum, hdigit])
    · exact .inr (by decide)
  have hfixed : ∀ t ∈ ["type=\"".toList, "\"".toList, ", precision=".toList, ", scale=".toList],
      ∀ d ∈ t, isNameChar d = true ∨ d ∈ ['=', '"', ',', ' ', '-'] := by
    have hall : ["type=\"".toList, "\"".toList, ", precision=".toList, ", scale=".toList].all
        (fun t => t.all fun d => isNameChar d || ['=', '"', ',', ' ', '-'].contains d) = true := by
      decide
    intro t ht d hd
    have := List.all_eq_true.1 (List.all_eq_true.1 hall t ht) d hd
    simpa only [Bool.or_eq_true, List.contains_iff_mem] using this
  unfold arguments at hd
  rcases List.mem_append.1 hd with hd | hd
  · rcases List.mem_append.1 hd with hd | hd
    · rcases List.mem_append.1 hd with hd | hd
      · exact hfixed _ (by simp) d hd
      · exact .inl (hkeyword d hd)
    · exact hfixed _ (by simp) d hd
  · split at hd
    · rcases List.mem_append.1 hd with hd | hd
      · rcases List.mem_append.1 hd with hd | hd
        · rcases List.mem_append.1 hd with hd | hd
          · exact hfixed _ (by simp) d hd
          · exact hnumber _ d hd
        · exact hfixed _ (by simp) d hd
      · exact hnumber _ d hd
    · cases hd

theorem not_mem_arguments {d : Char} (hname : isNameChar d = false)
    (hd : d ∉ ['=', '"', ',', ' ', '-']) : d ∉ c.arguments := by
  intro hmem
  rcases c.mem_arguments hmem with h | h
  · rw [hname] at h
    cases h
  · exact hd h

/-- The body of the doc comment. -/
def docBody : Text := ' ' :: ("@ORM\\Column".toList ++ '(' :: (c.arguments ++ [')', ' ']))

/-- The parts of the doc comment. -/
def docParts : List Lexeme :=
  [⟨.docBlank, [' ']⟩, ⟨.docTag, "@ORM\\Column".toList⟩, ⟨.docText, '(' :: (c.arguments ++ [')'])⟩,
    ⟨.docBlank, [' ']⟩]

theorem docTextLength_arguments :
    docTextLength ('(' :: (c.arguments ++ [')', ' '])) = c.arguments.length + 2 := by
  have hline : ∀ d ∈ '(' :: (c.arguments ++ [')', ' ']), (!isLineEnd d) = true := by
    intro d hd
    rw [Bool.not_eq_true']
    refine Bool.eq_false_iff.2 fun hend => ?_
    have hcases : d = '\r' ∨ d = '\n' := by simpa [isLineEnd] using hend
    have hargs : '\r' ∉ c.arguments ∧ '\n' ∉ c.arguments :=
      ⟨c.not_mem_arguments (by decide) (by decide), c.not_mem_arguments (by decide) (by decide)⟩
    rcases hcases with rfl | rfl <;> simp [hargs] at hd
  rw [docTextLength, List.takeWhile_eq_self_iff.2 hline, dropEndWhile]
  simp [isSpaceOrTab]

theorem docLexemes_docBody : docLexemes false c.docBody = c.docParts := by
  have hstep : ∀ (d : Char) (u t : Text) (l : Lexeme), docLexeme false d (u ++ t) = (l, false) →
      l.text = d :: u → docLexemes false (d :: (u ++ t)) = l :: docLexemes false t := by
    intro d u t l hl htext
    rw [docLexemes]
    simp only [hl, htext, List.length_cons, Nat.add_sub_cancel, List.drop_left]
  have hblank : ∀ t : Text, t.head?.any isSpaceOrTab = false →
      docLexemes false (' ' :: t) = ⟨.docBlank, [' ']⟩ :: docLexemes false t := by
    intro t ht
    refine hstep ' ' [] t ⟨.docBlank, [' ']⟩ ?_ rfl
    cases t with
    | nil => rfl
    | cons d t =>
      have hd : isSpaceOrTab d = false := ht
      show ((⟨.docBlank, ' ' :: (d :: t).take
        ((List.takeWhile isSpaceOrTab (' ' :: d :: t)).length - 1)⟩ : Lexeme), false) = _
      rw [List.takeWhile_cons_of_pos (by rfl), List.takeWhile_cons_of_neg (by rw [hd]; decide)]
      rfl
  have htag : docLexemes false ("@ORM\\Column".toList ++ '(' :: (c.arguments ++ [')', ' '])) =
      ⟨.docTag, "@ORM\\Column".toList⟩ :: docLexemes false ('(' :: (c.arguments ++ [')', ' '])) :=
    hstep '@' "ORM\\Column".toList _ _ rfl rfl
  have htext : docLexemes false ('(' :: (c.arguments ++ [')', ' '])) =
      ⟨.docText, '(' :: (c.arguments ++ [')'])⟩ :: docLexemes false [' '] := by
    have hsplit : c.arguments ++ [')', ' '] = (c.arguments ++ [')']) ++ [' '] := by simp
    rw [hsplit]
    refine hstep '(' _ _ _ ?_ rfl
    show ((⟨.docText, '(' :: (c.arguments ++ [')'] ++ [' ']).take
      (docTextLength ('(' :: (c.arguments ++ [')'] ++ [' '])) - 1)⟩ : Lexeme), false) = _
    rw [← hsplit, docTextLength_arguments, hsplit, List.take_left' (by simp)]
  rw [docBody, hblank _ rfl, htag, htext, hblank [] rfl, docLexemes]
  rfl

/-! ### The pieces of a member -/

/-- The pieces of the declaration. -/
def declarationPieces : List Piece :=
  [.docComment c.docParts, space, .single ⟨.kwPrivate, "private".toList⟩, space,
    .single ⟨c.nativeKind, c.native⟩, space, .single ⟨.variable, '$' :: c.name⟩,
    .single ⟨.semicolon, [';']⟩]

/-- The pieces of the getter. -/
def getterPieces : List Piece :=
  [.single ⟨.kwPublic, "public".toList⟩, space, .single ⟨.kwFunction, "function".toList⟩, space,
    .single ⟨.word, c.getterName⟩, .single ⟨.openRound, ['(']⟩, .single ⟨.closeRound, [')']⟩,
    .single ⟨.colon, [':']⟩, space, .single ⟨c.nativeKind, c.native⟩, space,
    .single ⟨.openCurly, ['\x7b']⟩, space, .single ⟨.kwReturn, "return".toList⟩, space,
    .single ⟨.variable, "$this".toList⟩, .single ⟨.arrow, "->".toList⟩, .single ⟨.word, c.name⟩,
    .single ⟨.semicolon, [';']⟩, space, .single ⟨.closeCurly, ['\x7d']⟩]

/-- The pieces of the setter. -/
def setterPieces : List Piece :=
  [.single ⟨.kwPublic, "public".toList⟩, space, .single ⟨.kwFunction, "function".toList⟩, space,
    .single ⟨.word, c.setterName⟩, .single ⟨.openRound, ['(']⟩, .single ⟨c.nativeKind, c.native⟩,
    space, .single ⟨.variable, '$' :: c.name⟩, .single ⟨.closeRound, [')']⟩,
    .single ⟨.colon, [':']⟩, space, .single ⟨.kwSelf, "self".toList⟩, space,
    .single ⟨.openCurly, ['\x7b']⟩, space, .single ⟨.variable, "$this".toList⟩,
    .single ⟨.arrow, "->".toList⟩, .single ⟨.word, c.name⟩, space, .single ⟨.equals, ['=']⟩, space,
    .single ⟨.variable, '$' :: c.name⟩, .single ⟨.semicolon, [';']⟩, space,
    .single ⟨.kwReturn, "return".toList⟩, space, .single ⟨.variable, "$this".toList⟩,
    .single ⟨.semicolon, [';']⟩, space, .single ⟨.closeCurly, ['\x7d']⟩]

theorem join_declarationPieces : Piece.join c.declarationPieces = c.declaration := by
  have hopen : "/** @ORM\\Column(".toList =
      "/**".toList ++ ([' '] ++ ("@ORM\\Column".toList ++ ['('])) := rfl
  have hbehind : ") */ private ".toList = [')'] ++ ([' '] ++ ("*/".toList ++ ([' '] ++
      ("private".toList ++ [' '])))) := rfl
  have hdollar : " $".toList = [' '] ++ ['$'] := rfl
  have hend : ";".toList = [';'] ++ [] := rfl
  have hbody : c.docBody =
      [' '] ++ ("@ORM\\Column".toList ++ (['('] ++ (c.arguments ++ ([')'] ++ [' '])))) := rfl
  have hvariable : '$' :: c.name = ['$'] ++ c.name := rfl
  unfold declarationPieces declaration space
  rw [← docLexemes_docBody]
  simp only [Piece.join_cons, Piece.join_nil, Piece.text_single, Piece.text_docComment]
  rw [hopen, hbehind, hdollar, hend, hbody, hvariable]
  simp only [List.append_assoc]

theorem join_getterPieces : Piece.join c.getterPieces = c.getter := by
  have hbefore : "public function ".toList =
      "public".toList ++ ([' '] ++ ("function".toList ++ [' '])) := rfl
  have hround : "(): ".toList = ['('] ++ ([')'] ++ ([':'] ++ [' '])) := rfl
  have hbody : " \x7b return $this->".toList = [' '] ++ (['\x7b'] ++ ([' '] ++ ("return".toList ++
      ([' '] ++ ("$this".toList ++ "->".toList))))) := rfl
  have hend : "; \x7d".toList = [';'] ++ ([' '] ++ (['\x7d'] ++ [])) := rfl
  unfold getterPieces getter space
  simp only [Piece.join_cons, Piece.join_nil, Piece.text_single]
  rw [hbefore, hround, hbody, hend]
  simp only [List.append_assoc]

theorem join_setterPieces : Piece.join c.setterPieces = c.setter := by
  have hbefore : "public function ".toList =
      "public".toList ++ ([' '] ++ ("function".toList ++ [' '])) := rfl
  have hopen : "(".toList = ['('] := rfl
  have hdollar : " $".toList = [' '] ++ ['$'] := rfl
  have hround : "): self \x7b $this->".toList = [')'] ++ ([':'] ++ ([' '] ++ ("self".toList ++
      ([' '] ++ (['\x7b'] ++ ([' '] ++ ("$this".toList ++ "->".toList))))))) := rfl
  have hequals : " = $".toList = [' '] ++ (['='] ++ ([' '] ++ ['$'])) := rfl
  have hend : "; return $this; \x7d".toList = [';'] ++ ([' '] ++ ("return".toList ++ ([' '] ++
      ("$this".toList ++ ([';'] ++ ([' '] ++ (['\x7d'] ++ []))))))) := rfl
  have hvariable : '$' :: c.name = ['$'] ++ c.name := rfl
  unfold setterPieces setter space
  simp only [Piece.join_cons, Piece.join_nil, Piece.text_single]
  rw [hbefore, hopen, hdollar, hround, hequals, hend, hvariable]
  simp only [List.append_assoc]

section Spelled

variable {last : Option Kind} {ps : List Piece} (hlast : ∀ k ∈ last, k ∉ nameLeads)

theorem spelled_native (hlast : ∀ k ∈ last, k ∉ nameLeads)
    (h : Spelled (some c.nativeKind) (space :: ps)) :
    Spelled last (.single ⟨c.nativeKind, c.native⟩ :: space :: ps) := by
  refine .keyword c.isName_native hlast rfl ?_ rfl h
  rcases c.nativeKind_mem with hk | hk <;> rw [hk] <;> decide

theorem head_native : (Piece.join (.single ⟨c.nativeKind, c.native⟩ :: ps)).head?.any isCodeBlank =
    false := by
  rw [Piece.join_cons, Piece.text_single]
  exact isCodeBlank_head_of_isName c.isName_native _

theorem not_mem_nameLeads : ∀ k ∈ some c.nativeKind, k ∉ nameLeads := by
  rintro k ⟨⟩
  rcases c.nativeKind_mem with hk | hk <;> rw [hk] <;> decide

include hlast

theorem spelled_declaration (h : Spelled (some .semicolon) ps) :
    Spelled last (c.declarationPieces ++ ps) := by
  have hstar : '*' ∉ c.docBody := by
    have hargs : '*' ∉ c.arguments := c.not_mem_arguments (by decide) (by decide)
    simp [docBody, hargs]
  rw [declarationPieces, ← docLexemes_docBody]
  refine .docComment rfl hstar (.space rfl ?_)
  refine .keyword (isName_of_all rfl) hlast rfl (by decide) rfl (.space (c.head_native) ?_)
  refine c.spelled_native (by decide) (.space rfl ?_)
  refine .variableName c.isName rfl ?_
  exact .mark (c := ';') (by decide) h

theorem spelled_getter (h : Spelled (some .closeCurly) ps) :
    Spelled last (c.getterPieces ++ ps) := by
  refine .keyword (isName_of_all rfl) hlast rfl (by decide) rfl (.space rfl ?_)
  refine .keyword (isName_of_all rfl) (by decide) rfl (by decide) rfl (.space rfl ?_)
  refine .name (isName_verb (isName_of_all rfl) c.isName) (.inl rfl) rfl ?_
  refine .mark (c := '(') (by decide) (.mark (c := ')') (by decide) ?_)
  refine .spaced (c := ':') (.inl rfl) (.space c.head_native ?_)
  refine c.spelled_native (by decide) (.space rfl ?_)
  refine .mark (c := '\x7b') (by decide) (.space rfl ?_)
  refine .keyword (isName_of_all rfl) (by decide) rfl (by decide) rfl (.space rfl ?_)
  refine .variableName (isName_of_all rfl) rfl (.arrow ?_)
  refine .name c.isName (.inr rfl) rfl (.mark (c := ';') (by decide) (.space rfl ?_))
  exact .mark (c := '\x7d') (by decide) h

theorem spelled_setter (h : Spelled (some .closeCurly) ps) :
    Spelled last (c.setterPieces ++ ps) := by
  refine .keyword (isName_of_all rfl) hlast rfl (by decide) rfl (.space rfl ?_)
  refine .keyword (isName_of_all rfl) (by decide) rfl (by decide) rfl (.space rfl ?_)
  refine .name (isName_verb (isName_of_all rfl) c.isName) (.inl rfl) rfl ?_
  refine .mark (c := '(') (by decide) (c.spelled_native (by decide) (.space rfl ?_))
  refine .variableName c.isName rfl (.mark (c := ')') (by decide) ?_)
  refine .spaced (c := ':') (.inl rfl) (.space rfl ?_)
  refine .keyword (isName_of_all rfl) (by decide) rfl (by decide) rfl (.space rfl ?_)
  refine .mark (c := '\x7b') (by decide) (.space rfl ?_)
  refine .variableName (isName_of_all rfl) rfl (.arrow ?_)
  refine .name c.isName (.inr rfl) rfl (.space rfl ?_)
  refine .spaced (c := '=') (.inr rfl) (.space rfl ?_)
  refine .variableName c.isName rfl (.mark (c := ';') (by decide) (.space rfl ?_))
  refine .keyword (isName_of_all rfl) (by decide) rfl (by decide) rfl (.space rfl ?_)
  refine .variableName (isName_of_all rfl) rfl (.mark (c := ';') (by decide) (.space rfl ?_))
  exact .mark (c := '\x7d') (by decide) h

end Spelled

end ColumnProperty

/-! ### The pieces of the class -/

namespace Piece

@[simp] theorem join_flatten (blocks : List (List Piece)) :
    join blocks.flatten = blocks.flatMap join := by
  induction blocks with
  | nil => rfl
  | cons b blocks ih => rw [List.flatten_cons, join_append, ih, List.flatMap_cons]

end Piece

namespace Entity

variable (e : Entity)

/-- The pieces of the gap. -/
def blanks : List Piece := Piece.ofBlanks e.gap

/-- The pieces of the properties. -/
def declarations : List (List Piece) :=
  e.columns.flatMap fun c => [c.declarationPieces, e.blanks]

/-- The pieces of the getters and setters. -/
def accessors : List (List Piece) :=
  e.columns.flatMap fun c => [c.getterPieces, e.blanks, c.setterPieces, e.blanks]

/-- The pieces of the keyword and the name of the class. -/
def heading : List Piece :=
  [.single ⟨.kwClass, "class".toList⟩, space, .single ⟨.word, e.name⟩]

/-- The pieces in front of the body of the class. -/
def head : List (List Piece) := [e.blanks, e.heading, e.blanks]

/-- The pieces behind the last member of the class. -/
def ending : List (List Piece) := [[.single ⟨.closeCurly, ['\x7d']⟩], e.blanks]

/-- The pieces of the text, part by part. -/
def blocks : List (List Piece) :=
  [.single ⟨.openTag, "<?php".toList⟩] :: (e.head ++ ([.single ⟨.openCurly, ['\x7b']⟩] ::
    e.blanks :: (e.declarations ++ (e.accessors ++ e.ending))))

theorem join_blanks : Piece.join e.blanks = e.gap := Piece.join_ofBlanks e.gap

theorem join_blocks : Piece.join e.blocks.flatten = e.source := by
  have hdeclarations : e.declarations.flatMap Piece.join =
      e.columns.flatMap fun c => c.declaration ++ e.gap := by
    rw [declarations, List.flatMap_assoc]
    refine List.flatMap_congr fun c _ => ?_
    simp [c.join_declarationPieces, join_blanks]
  have haccessors : e.accessors.flatMap Piece.join =
      e.columns.flatMap fun c => c.getter ++ e.gap ++ c.setter ++ e.gap := by
    rw [accessors, List.flatMap_assoc]
    refine List.flatMap_congr fun c _ => ?_
    simp [c.join_getterPieces, c.join_setterPieces, join_blanks]
  have hclass : "class ".toList = "class".toList ++ [' '] := rfl
  have hopen : "\x7b".toList = ['\x7b'] := rfl
  have hclose : "\x7d".toList = ['\x7d'] := rfl
  unfold blocks head heading ending source space
  rw [Piece.join_flatten, hclass, hopen, hclose]
  simp only [List.flatMap_cons, List.flatMap_append, List.flatMap_nil, hdeclarations, haccessors,
    join_blanks, Piece.join_cons, Piece.join_nil, Piece.text_single]
  simp only [List.append_nil, List.append_assoc]

/-- Pieces that can stand behind the opening of a class or behind a member of it. -/
structure MemberPlace (ps : List Piece) : Prop where
  spelled : ∀ k ∈ [.openCurly, .semicolon, .closeCurly], Spelled (some k) ps
  head : (Piece.join ps).head?.any isCodeBlank = false

section Spelled

variable {e} {ps : List Piece}

theorem MemberPlace.blanks (h : MemberPlace ps) {k : Kind}
    (hk : k ∈ [.openCurly, .semicolon, .closeCurly]) : Spelled (some k) (e.blanks ++ ps) :=
  Spelled.blanks e.isCodeBlank_of_mem h.head (h.spelled k hk)

theorem not_mem_nameLeads {k : Kind} (hk : k ∈ [.openCurly, .semicolon, .closeCurly]) :
    ∀ k' ∈ some k, k' ∉ nameLeads := by
  rintro k' ⟨⟩
  revert k
  decide

theorem MemberPlace.declaration (h : MemberPlace ps) (c : ColumnProperty) :
    MemberPlace (c.declarationPieces ++ (e.blanks ++ ps)) :=
  ⟨fun _ hk => c.spelled_declaration (not_mem_nameLeads hk) (h.blanks (by decide)), rfl⟩

theorem MemberPlace.accessors (h : MemberPlace ps) (c : ColumnProperty) :
    MemberPlace (c.getterPieces ++ (e.blanks ++ (c.setterPieces ++ (e.blanks ++ ps)))) := by
  have hsetter : MemberPlace (c.setterPieces ++ (e.blanks ++ ps)) :=
    ⟨fun _ hk => c.spelled_setter (not_mem_nameLeads hk) (h.blanks (by decide)), rfl⟩
  exact ⟨fun _ hk => c.spelled_getter (not_mem_nameLeads hk) (hsetter.blanks (by decide)), rfl⟩

end Spelled

theorem memberPlace_ending : MemberPlace e.ending.flatten := by
  have hblanks : Spelled (some .closeCurly) e.blanks := by
    have hnil : Spelled (some .closeCurly) (e.blanks ++ []) :=
      .blanks e.isCodeBlank_of_mem rfl .nil
    rwa [List.append_nil] at hnil
  refine ⟨fun k _ => ?_, rfl⟩
  rw [ending, List.flatten_cons, List.flatten_cons, List.flatten_nil, List.append_nil]
  exact .mark (c := '\x7d') (by decide) hblanks

theorem memberPlace_members :
    MemberPlace (e.declarations ++ (e.accessors ++ e.ending)).flatten := by
  have haccessors : ∀ cs : List ColumnProperty, MemberPlace ((cs.flatMap fun c =>
      [c.getterPieces, e.blanks, c.setterPieces, e.blanks]) ++ e.ending).flatten := by
    intro cs
    induction cs with
    | nil => exact e.memberPlace_ending
    | cons c cs ih => exact ih.accessors c
  have hdeclarations : ∀ cs : List ColumnProperty, MemberPlace ((cs.flatMap fun c =>
      [c.declarationPieces, e.blanks]) ++ (e.accessors ++ e.ending)).flatten := by
    intro cs
    induction cs with
    | nil => exact haccessors e.columns
    | cons c cs ih => exact ih.declaration c
  exact hdeclarations e.columns

/-- The gap ends a name. -/
theorem head_gap (t : Text) :
    (e.gap ++ t).head?.any (fun d => isWordChar d || d == '\\') = false := by
  obtain ⟨d, u, hgap⟩ := List.exists_cons_of_ne_nil e.gap_ne_nil
  have hblank := e.isCodeBlank_of_mem d (by simp [hgap])
  rw [hgap]
  show (isWordChar d || d == '\\') = false
  have hcases : d = ' ' ∨ d = '\t' ∨ d = '\r' ∨ d = '\n' := by
    simpa [isCodeBlank, or_assoc] using hblank
  rcases hcases with rfl | rfl | rfl | rfl <;> rfl

/-- The text is cut into its pieces. -/
theorem cutAll_source : Piece.cutAll Context.start e.source = .ok e.blocks.flatten := by
  have hbody : Spelled (some .word) (e.blanks ++ (.single ⟨.openCurly, ['\x7b']⟩ ::
      (e.blanks ++ (e.declarations ++ (e.accessors ++ e.ending)).flatten))) :=
    Spelled.blanks e.isCodeBlank_of_mem rfl
      (.mark (c := '\x7b') (by decide) (e.memberPlace_members.blanks (by decide)))
  have hname : Spelled (some .kwClass) (.single ⟨.word, e.name⟩ :: (e.blanks ++
      (.single ⟨.openCurly, ['\x7b']⟩ ::
        (e.blanks ++ (e.declarations ++ (e.accessors ++ e.ending)).flatten)))) := by
    refine .keyword e.isName (by decide) (by rw [e.not_keyword]; rfl) nofun ?_ hbody
    rw [Piece.join_append, join_blanks]
    exact e.head_gap _
  have hhead : Spelled (some .openTag) (e.blanks ++ (.single ⟨.kwClass, "class".toList⟩ :: space ::
      .single ⟨.word, e.name⟩ :: (e.blanks ++ (.single ⟨.openCurly, ['\x7b']⟩ ::
        (e.blanks ++ (e.declarations ++ (e.accessors ++ e.ending)).flatten))))) := by
    refine Spelled.blanks e.isCodeBlank_of_mem rfl ?_
    refine .keyword (isName_of_all rfl) (by decide) rfl (by decide) rfl (.space ?_ hname)
    rw [Piece.join_cons, Piece.text_single]
    exact isCodeBlank_head_of_isName e.isName _
  have hblocks : e.blocks.flatten = .single ⟨.openTag, "<?php".toList⟩ :: (e.blanks ++
      (.single ⟨.kwClass, "class".toList⟩ :: space :: .single ⟨.word, e.name⟩ :: (e.blanks ++
        (.single ⟨.openCurly, ['\x7b']⟩ ::
          (e.blanks ++ (e.declarations ++ (e.accessors ++ e.ending)).flatten))))) := by
    simp only [blocks, head, heading, List.flatten_cons, List.flatten_append, List.cons_append,
      List.nil_append]
  rw [← join_blocks, hblocks, Piece.join_cons, Piece.text_single]
  refine cutAll_single (c := '<') (u := "?php".toList) rfl rfl (cutAll_of_spelled hhead ?_)
  exact ⟨rfl, rfl, rfl⟩

end Entity

end EntityLint
