import EntityLint.Proofs.Mapping.Completion
import EntityLint.Proofs.Mapping.DeclaredTypes
import EntityLint.Proofs.Mapping.TypeSpelling
import EntityLint.Proofs.Source.TypeText
import EntityLint.Rule.EntityMapping

/-!
# Columns whose type follows from their property

A column without a type of its own gets one from the type of its property. The check of the column then
compares the type that it holds with the type of the property. The two agree if the property names no
class in a namespace: what a column holds is known by the last part of the name of its class.

* `ColumnType.suggest_of_soundsLikeClass`, `isSame_suggest_of_inferred`: the types that inferred columns
  hold;
* `Naming.shortClassName_classReference`: the class that an inferred enum stands for;
* `TypeName.isSame_bare`: the marks in front of a type do not matter;
* `PropertyCheck.ReportsType`, `answers_tagFindings_iff`: when the type of a property is reported;
* `PropertyCheck.completed_cases`: what is inferred for a column;
* `PropertyCheck.answers_tagFindings_enum`: the report for a column with an inferred enum.

The main statement is `PropertyCheck.inferred_columns_fit`.
-/

namespace EntityLint

open Text

/-! ### The types that columns hold -/

namespace ColumnType

theorem head?_of_soundsLikeClass {name : Text} (h : Naming.soundsLikeClass name = true) :
    name.head?.any Char.isLower = false := by
  rwa [Naming.soundsLikeClass, Bool.not_eq_true'] at h

/-- No known column type sounds like a class. -/
theorem held?_of_soundsLikeClass {name : Text} (h : Naming.soundsLikeClass name = true) :
    held? name = none := by
  have htable : ∀ x ∈ table, ∀ n ∈ x.2, n.toList.head?.any Char.isLower = true := by decide
  rw [held?, Option.map_eq_none_iff, List.find?_eq_none]
  rintro ⟨type, names⟩ hx hany
  obtain ⟨n, hn, heq⟩ := List.any_eq_true.1 hany
  have hlower := htable _ hx n hn
  rw [beq_iff_eq.1 heq, head?_of_soundsLikeClass h] at hlower
  cases hlower

/-- A column type that sounds like a class holds this class. -/
theorem suggest_of_soundsLikeClass {name : Text} (h : Naming.soundsLikeClass name = true)
    (hcolon : ':' ∉ name) (dynamicEnums : Bool) : suggest name dynamicEnums = name := by
  have hstrip : stripLeading? "Types::".toList name = none := by
    cases hs : stripLeading? "Types::".toList name with
    | none => rfl
    | some rest =>
      rw [← append_of_stripLeading? hs] at hcolon
      exact absurd (List.mem_append_left rest (by decide)) hcolon
  simp only [suggest, hstrip, held?_of_soundsLikeClass h, h, if_true]

/-- The column types that follow from types of properties hold these types. -/
theorem isSame_suggest_of_inferred {type columnType : Text}
    (h : inferred.lookup type = some columnType) (dynamicEnums : Bool) :
    TypeName.isSame (suggest columnType dynamicEnums) type = true := by
  have htable : ∀ x ∈ inferred, ∀ dynamicEnums,
      TypeName.isSame (suggest x.2 dynamicEnums) x.1 = true := by decide +kernel
  obtain ⟨before, after, heq, -⟩ := List.lookup_eq_some_iff.1 h
  exact htable (type, columnType) (heq ▸ by simp) dynamicEnums

end ColumnType

/-! ### The class of an enum -/

namespace Naming

/-- The part of a name behind its last backslash. -/
def lastPart (name : Text) : Text := (name.reverse.takeWhile (· != '\\')).reverse

theorem lastPart_of_not_mem {name : Text} (h : '\\' ∉ name) : lastPart name = name := by
  have hall : ∀ c ∈ name.reverse, (c != '\\') = true := by
    intro c hc
    rw [bne_iff_ne]
    rintro rfl
    exact h (List.mem_reverse.1 hc)
  rw [lastPart, List.takeWhile_eq_self_iff.2 hall, List.reverse_reverse]

theorem lastPart_append (space : Text) {short : Text} (h : '\\' ∉ short) :
    lastPart (space ++ '\\' :: short) = short := by
  have hshort := lastPart_of_not_mem h
  rw [lastPart] at hshort ⊢
  rw [List.reverse_append, List.reverse_cons, List.append_assoc, List.singleton_append,
    takeWhile_append_cons (by decide), hshort]

/-- The short name of a class that a reference names is the last part of its name. -/
theorem shortClassName_classReference {name : Text} (h : lastPart name ≠ []) :
    shortClassName (classReference name) = lastPart name := by
  have hslash : '\\' ∉ classSuffix := by decide
  have hsuffix : ∀ c ∈ classSuffix.reverse, (c != '\\') = true := by
    intro c hc
    rw [bne_iff_ne]
    rintro rfl
    exact hslash (List.mem_reverse.1 hc)
  have hshort : ((classReference name).reverse.takeWhile (· != '\\')).reverse =
      lastPart name ++ classSuffix := by
    rw [classReference, List.reverse_append, List.takeWhile_append_of_pos hsuffix,
      List.reverse_append, List.reverse_reverse]
    rfl
  have hreference : isClassReference (lastPart name ++ classSuffix) = true := by
    have hpos := List.length_pos_iff.2 h
    rw [isClassReference, endsWith_iff.2 (List.suffix_append _ _), Bool.and_true, decide_eq_true_eq,
      List.length_append]
    omega
  unfold shortClassName
  rw [hshort]
  dsimp only
  rw [if_pos hreference, List.length_append, Nat.add_sub_cancel, List.take_left]

end Naming

/-! ### Marks in front of a type -/

namespace TypeName

open ColumnType

/-- A type without the question marks at its ends. -/
def bare (type : Text) : Text := dropEndWhile (· == '?') (type.dropWhile (· == '?'))

theorem unmarked_dropWhile (type : Text) :
    unmarked (type.dropWhile (· == '?')) = unmarked type := by
  induction type with
  | nil => rfl
  | cons c type ih =>
    by_cases hc : c = '?'
    · subst hc
      exact ih
    · rw [List.dropWhile_cons_of_neg (by simpa using hc)]

theorem unmarked_of_not_mem {type : Text} (h : '?' ∉ type) : unmarked type = withoutLead type := by
  induction type with
  | nil => rfl
  | cons c type ih =>
    obtain ⟨hc, htype⟩ := not_or.1 (mt List.mem_cons.2 h)
    have hmark : (c == '?') = false := beq_false_of_ne (Ne.symm hc)
    by_cases hlead : c = '\\'
    · subst hlead
      exact ih htype
    · simp [unmarked, withoutLead, hmark, hlead]

/-- A type with question marks at its front only is its name, marks apart. -/
theorem withoutLead_bare {type : Text} (hmark : '?' ∉ type.dropWhile (· == '?')) :
    withoutLead (bare type) = unmarked type := by
  have hlast : (type.dropWhile (· == '?')).getLast?.any (· == '?') = false := by
    rw [Option.any_eq_false]
    intro d hd
    have hmem := List.mem_of_getLast? hd
    refine beq_false_of_ne ?_
    rintro rfl
    exact hmark hmem
  have hend := dropEndWhile_append hlast (v := []) nofun
  rw [List.append_nil] at hend
  rw [bare, hend, ← unmarked_of_not_mem hmark, unmarked_dropWhile]

theorem withoutLead_unmarked (type : Text) : withoutLead (unmarked type) = unmarked type := by
  refine withoutLead_of_head ?_
  have hhead := head?_dropWhile (fun c => c == '?' || c == '\\') type
  rw [← unmarked] at hhead
  intro hlead
  rw [hlead] at hhead
  cases hhead

/-- The marks in front of a declared type do not matter. -/
theorem isSame_bare {type : Text} (hmark : '?' ∉ type.dropWhile (· == '?')) (expected : Text) :
    isSame expected (bare type) = isSame expected (unmarked type) := by
  simp only [isSame, withoutLead_bare hmark, withoutLead_unmarked]

/-- A longer spelling has a backslash exactly if the name has one. -/
theorem backslash_mem_longName (name : Text) : '\\' ∈ longName name ↔ '\\' ∈ name := by
  unfold longName
  split_ifs with hbool hint
  · subst hbool
    exact iff_of_false (by decide) (by decide)
  · subst hint
    exact iff_of_false (by decide) (by decide)
  · exact Iff.rfl

/-- A class in a namespace satisfies no class that is named without one. -/
theorem isSame_of_namespace {space short : Text} (hshort : '\\' ∉ short) (hne : short ≠ "array".toList)
    (hbar : '|' ∉ space ++ '\\' :: short)
    (hlead : withoutLead (space ++ '\\' :: short) = space ++ '\\' :: short) :
    isSame short (space ++ '\\' :: short) = false := by
  have hshort' : withoutLead short = short := withoutLead_of_head fun hhead =>
    hshort (List.mem_of_mem_head? hhead)
  have hbar' : '|' ∉ short := fun hmem => hbar (by simp [hmem])
  rw [Bool.eq_false_iff, Ne, isSame_iff, hlead, hshort', pieces_of_not_mem hbar, pieces_of_not_mem hbar']
  rintro (⟨harray, -⟩ | ⟨m, hm, hlong⟩)
  · exact hne (List.singleton_inj.1 harray)
  · rw [List.mem_singleton] at hm
    subst hm
    obtain ⟨n, hn, heq⟩ := List.mem_map.1 hlong
    -- only the declared member has a backslash
    have hslash : '\\' ∈ n := by
      rw [← backslash_mem_longName, heq, backslash_mem_longName]
      simp
    have hplain : '\\' ∉ n := by
      unfold widened at hn
      split at hn
      · have hdates : ∀ date ∈ ["DateTime".toList, "DateTimeInterface".toList,
            "DateTimeImmutable".toList], '\\' ∉ date := by decide
        exact hdates n hn
      · rwa [List.mem_singleton.1 hn]
    exact hplain hslash

end TypeName

/-! ### The report of a type -/

namespace PropertyCheck

variable {p : PropertyCheck} {tag : MappingTag} {m : AttributeMap}

/-- Whether some findings report that the type of a property does not fit its column. -/
def ReportsType (xs : List Finding) : Prop := ∃ x ∈ xs, x.code = "PropertyTypeMismatch"

/-- The type of a property is reported if there is one and it does not satisfy the type of the
column. -/
theorem reportsType_declaredTypeFindings {held : Text} :
    ReportsType (p.declaredTypeFindings tag held) ↔
      ∃ type ∈ p.type?, TypeName.isSame held (TypeName.bare type) = false := by
  have hrequired : "VariableTypeRequired" ≠ "PropertyTypeMismatch" := by decide
  have hvariable : "VariableTypeMismatch" ≠ "PropertyTypeMismatch" := by decide
  constructor
  · rintro ⟨x, hx, hcode⟩
    simp only [declaredTypeFindings, List.mem_append, List.mem_ite_nil_right, List.mem_singleton,
      Option.mem_toList, Option.map_eq_some_iff] at hx
    rcases hx with (⟨-, rfl⟩ | ⟨_, -, rfl⟩) | ⟨type, htype, rfl⟩
    · exact absurd hcode hrequired
    · exact absurd hcode hvariable
    · obtain ⟨htype, hwrong⟩ := Option.filter_eq_some_iff.1 htype
      rw [Bool.not_eq_true'] at hwrong
      exact ⟨type, htype, hwrong⟩
  · rintro ⟨type, htype, hwrong⟩
    have hfilter : p.type?.filter (fun t => !TypeName.isSame held (TypeName.bare t)) = some type :=
      Option.filter_eq_some_iff.2 ⟨htype, by simp [hwrong]⟩
    unfold declaredTypeFindings
    exact ⟨_, List.mem_append_right _ (Option.mem_toList.2
      (Option.map_eq_some_iff.2 ⟨type, hfilter, rfl⟩)), rfl⟩

/-- The type of a property is reported exactly if its column holds a type that it does not satisfy. -/
theorem answers_tagFindings_iff {columnType : Text} {value : AttributeValue}
    (hkind : tag.kind = .column) (hvalue : (p.completed tag).get? "type".toList = some value)
    (htype : Answers (· = columnType) (p.columnType (p.completed tag) value)) :
    Answers (fun xs => ReportsType xs ↔ ColumnType.suggest columnType p.options.dynamicEnums ≠ [] ∧
      ∃ type ∈ p.type?, TypeName.isSame (ColumnType.suggest columnType p.options.dynamicEnums)
        (TypeName.bare type) = false) (p.tagFindings tag) := by
  intro memo
  have hheld : p.heldType (p.completed tag) memo =
      ColumnType.suggest columnType p.options.dynamicEnums := by
    rw [heldType, hvalue, Option.elim_some, htype memo]
  have hreports : Reports "PropertyTypeMismatch" ((p.tagFindings tag).run memo).1 ↔ _ :=
    reports_tagFindings_iff hkind (by decide) memo
  rw [hheld] at hreports
  exact hreports.trans (and_congr_right fun _ => reportsType_declaredTypeFindings)

/-! ### Inferred columns -/

open ColumnType

variable {type : Text}

/-- The class that a column with an inferred enum is for. -/
theorem answers_columnType_enum {name : Text} (hlast : Naming.lastPart name ≠ [])
    (hself : Naming.lastPart name ≠ "self".toList)
    (henum : m.get? "enumType".toList = some (.string (Naming.classReference name)))
    (value : AttributeValue) : Answers (· = Naming.lastPart name) (p.columnType m value) := by
  unfold columnType shortClass
  rw [henum]
  dsimp only [AttributeValue.text]
  rw [Naming.shortClassName_classReference hlast, if_neg hself]
  exact answers_pure rfl

/-- What is inferred for a column without type and enum: the type that goes with a scalar type or one of
the library, or the enum of a class. -/
theorem completed_cases (htype : p.type? = some type) (hkind : tag.kind = .column)
    (htypeless : tag.attributes.contains "type".toList = false)
    (henumless : tag.attributes.contains "enumType".toList = false)
    (hadded : (p.completed tag).contains "type".toList = true) :
    (∃ columnType, inferred.lookup (unmarked type) = some columnType ∧
      (p.completed tag).get? "type".toList = some (.string columnType) ∧
      (p.completed tag).get? "enumType".toList = none) ∨
    (IsEnum (unmarked type) ∧
      (p.completed tag).get? "type".toList = some (.string "string".toList) ∧
      (p.completed tag).get? "enumType".toList =
        some (.string (Naming.classReference (unmarked type)))) := by
  have hcompleted : p.completed tag = tag.attributes.infer .column type := by
    rw [completed, htype, hkind]
  have hne : unmarked type ≠ [] := by
    intro hnil
    have hsame : tag.attributes.infer .column type = tag.attributes := if_pos (List.isEmpty_iff.2 hnil)
    rw [hcompleted, hsame, htypeless] at hadded
    cases hadded
  have hnone : tag.attributes.get? "enumType".toList = none := by
    simpa [AttributeMap.contains] using henumless
  rw [hcompleted, AttributeMap.infer_column hne htypeless] at hadded ⊢
  cases hlookup : inferred.lookup (unmarked type) with
  | some columnType =>
    refine .inl ⟨columnType, rfl, ?_⟩
    have hinfer : tag.attributes.inferColumn (unmarked type) =
        tag.attributes.insert "type".toList (.string columnType) := by
      rw [AttributeMap.inferColumn, hlookup]
    rw [hinfer, AttributeMap.get?_insert, AttributeMap.get?_insert, if_pos rfl, if_neg (by decide)]
    exact ⟨rfl, hnone⟩
  | none =>
    have hsounds : Naming.soundsLikeClass (unmarked type) = true := by
      by_contra hsounds
      rw [AttributeMap.inferColumn, hlookup] at hadded
      simp only [hsounds] at hadded
      rw [if_neg Bool.false_ne_true, htypeless] at hadded
      cases hadded
    have henum : IsEnum (unmarked type) := ⟨hne, hlookup, hsounds⟩
    refine .inr ⟨henum, ?_⟩
    rw [AttributeMap.inferColumn_of_isEnum henum]
    simp only [AttributeMap.get?_insert]
    exact ⟨rfl, rfl⟩

/-- A name that sounds like a class does not begin with a small letter. -/
theorem ne_of_soundsLikeClass {name keyword : Text} (h : Naming.soundsLikeClass name = true)
    (hkeyword : keyword.head?.any Char.isLower = true) : name ≠ keyword := by
  rintro rfl
  rw [head?_of_soundsLikeClass h] at hkeyword
  cases hkeyword

/-- A column with an inferred enum holds the class that the last part of its name names. -/
theorem answers_tagFindings_enum {name short : Text} (hkind : tag.kind = .column)
    {value : AttributeValue} (hvalue : (p.completed tag).get? "type".toList = some value)
    (henum : (p.completed tag).get? "enumType".toList = some (.string (Naming.classReference name)))
    (hlast : Naming.lastPart name = short) (hne : short ≠ [])
    (hsounds : Naming.soundsLikeClass short = true) (hcolon : ':' ∉ short) :
    Answers (fun xs => ReportsType xs ↔
      ∃ type ∈ p.type?, TypeName.isSame short (TypeName.bare type) = false) (p.tagFindings tag) := by
  subst hlast
  have hself : Naming.lastPart name ≠ "self".toList := ne_of_soundsLikeClass hsounds (by decide)
  refine (answers_tagFindings_iff hkind hvalue (answers_columnType_enum hne hself henum value)).imp
    fun xs hxs => ?_
  rw [hxs, suggest_of_soundsLikeClass hsounds hcolon, and_iff_right hne]

theorem colon_not_mem_of_parse {path : String} {source : Text}
    (h : SourceFile.parse path source = .ok p.file) (htype : p.type? = some type) :
    ':' ∉ unmarked type := by
  intro hmem
  have hchar := SourceFile.isTypeChar_typeText h htype ':' ((List.dropWhile_suffix _).subset hmem)
  exact absurd hchar (by decide)

/-- A type with question marks at its front only is compared without the marks in front of it. -/
theorem exists_isSame_bare_iff (htype : p.type? = some type)
    (hmark : '?' ∉ type.dropWhile (· == '?')) (held : Text) :
    (∃ type ∈ p.type?, TypeName.isSame held (TypeName.bare type) = false) ↔
      TypeName.isSame held (unmarked type) = false := by
  rw [htype, ← TypeName.isSame_bare hmark]
  simp

/-- A column with the type that goes with the type of its property holds that type. -/
theorem answers_tagFindings_inferred {columnType : Text} (htype : p.type? = some type)
    (hmark : '?' ∉ type.dropWhile (· == '?')) (hkind : tag.kind = .column)
    (hlookup : inferred.lookup (unmarked type) = some columnType)
    (hvalue : (p.completed tag).get? "type".toList = some (.string columnType))
    (henum : (p.completed tag).get? "enumType".toList = none) :
    Answers (¬ReportsType ·) (p.tagFindings tag) := by
  have hcolumn : Answers (· = columnType)
      (p.columnType (p.completed tag) (.string columnType)) := by
    rw [PropertyCheck.columnType, henum]
    exact answers_pure rfl
  refine (answers_tagFindings_iff hkind hvalue hcolumn).imp fun xs hxs => ?_
  rw [hxs, exists_isSame_bare_iff htype hmark, isSame_suggest_of_inferred hlookup]
  simp

/-- **Inferred columns fit properties without namespaces, and no others.** Take a column without type and
enum for which a type follows from the type of its property, which has question marks at its front only.
If no namespace is written there, it is never reported that the type of the property does not fit the
column. If a single class in a namespace is written there, this is always reported. -/
theorem inferred_columns_fit {path : String} {source : Text}
    (h : SourceFile.parse path source = .ok p.file) (htype : p.type? = some type)
    (hmark : '?' ∉ type.dropWhile (· == '?')) (hkind : tag.kind = .column)
    (htypeless : tag.attributes.contains "type".toList = false)
    (henumless : tag.attributes.contains "enumType".toList = false)
    (hadded : (p.completed tag).contains "type".toList = true) :
    ('\\' ∉ unmarked type → Answers (¬ReportsType ·) (p.tagFindings tag)) ∧
    ∀ space short, unmarked type = space ++ '\\' :: short → '\\' ∉ short → short ≠ [] →
      Naming.soundsLikeClass short = true → '|' ∉ type → Answers ReportsType (p.tagFindings tag) := by
  have hcolon := colon_not_mem_of_parse h htype
  have hsame := exists_isSame_bare_iff htype hmark
  rcases completed_cases htype hkind htypeless henumless hadded with
    ⟨columnType, hlookup, hvalue, hnoenum⟩ | ⟨henum, hvalue, hclass⟩
  · refine ⟨fun _ => answers_tagFindings_inferred htype hmark hkind hlookup hvalue hnoenum,
      fun space short hname => ?_⟩
    -- no type of the table has a namespace
    have htable : ∀ x ∈ inferred, '\\' ∉ x.1 := by decide
    obtain ⟨before, after, heq, -⟩ := List.lookup_eq_some_iff.1 hlookup
    have hplain := htable (unmarked type, columnType) (heq ▸ by simp)
    rw [hname] at hplain
    exact absurd (by simp) hplain
  · constructor
    · intro hplain
      have htag := answers_tagFindings_enum hkind hvalue hclass (Naming.lastPart_of_not_mem hplain)
        henum.1 henum.2.2 hcolon
      refine htag.imp fun xs hxs => ?_
      rw [hxs, hsame, TypeName.isSame_refl]
      simp
    · intro space short hname hshort hne hsounds hbar
      have hlead := TypeName.withoutLead_unmarked type
      have hbar' : '|' ∉ unmarked type := fun hmem => hbar ((List.dropWhile_suffix _).subset hmem)
      rw [hname] at hcolon hlead hbar' hclass hsame
      have htag := answers_tagFindings_enum hkind hvalue hclass (Naming.lastPart_append space hshort)
        hne hsounds fun hmem => hcolon (by simp [hmem])
      refine htag.imp fun xs hxs => ?_
      rw [hxs, hsame]
      exact TypeName.isSame_of_namespace hshort (ne_of_soundsLikeClass hsounds (by decide)) hbar' hlead

/-- Two properties with the same enum: only the column of the second one, which names the namespace of the
class, is reported. -/
theorem inferred_columns_fit_namespace : ∃ p q : PropertyCheck,
    SourceFile.parse "a.php" ("<?php class A\x7b#[ORM\\Column]private ?Status $b;".toList
      ++ "#[ORM\\Column]private ?\\App\\Status $c;\x7d".toList) = .ok p.file ∧ q.file = p.file ∧
    p.type? = some "?Status".toList ∧ q.type? = some "?\\App\\Status".toList ∧
    p.tags.tags = [⟨"ORM\\Column".toList, .column, 6, 7, 10, .native, .empty, []⟩] ∧
    q.tags.tags = [⟨"ORM\\Column".toList, .column, 18, 19, 22, .native, .empty, []⟩] ∧
    (∀ tag ∈ p.tags.tags, Answers (¬ReportsType ·) (p.tagFindings tag)) ∧
    ∀ tag ∈ q.tags.tags, Answers ReportsType (q.tagFindings tag) := by
  let check (f : SourceFile) (i : ℕ) : PropertyCheck :=
    ⟨⟨[], false⟩, f, i, f.propertyTags i EntityMapping.code.toList⟩
  have heval : (SourceFile.parse "a.php" ("<?php class A\x7b#[ORM\\Column]private ?Status $b;".toList
      ++ "#[ORM\\Column]private ?\\App\\Status $c;\x7d".toList)).toOption.any (fun f =>
    (check f 16).type? = some "?Status".toList ∧ (check f 31).type? = some "?\\App\\Status".toList ∧
    (check f 16).tags.tags = [⟨"ORM\\Column".toList, .column, 6, 7, 10, .native, .empty, []⟩] ∧
    (check f 31).tags.tags = [⟨"ORM\\Column".toList, .column, 18, 19, 22, .native, .empty, []⟩]) = true := by
    decide +kernel
  obtain ⟨f, hparse, hshort, hlong, hp, hq⟩ := exists_ok_of_any heval
  have hadded : ∀ (i : ℕ) (type : Text) (tag : MappingTag), (check f i).type? = some type →
      (tag.attributes.infer tag.kind type).contains "type".toList = true →
      ((check f i).completed tag).contains "type".toList = true := by
    intro i type tag htype hinfer
    rwa [completed, htype]
  refine ⟨check f 16, check f 31, hparse, rfl, hshort, hlong, hp, hq, fun tag htag => ?_,
    fun tag htag => ?_⟩
  · rw [hp, List.mem_singleton] at htag
    subst htag
    exact (inferred_columns_fit hparse hshort (by decide) (by decide) (by decide) (by decide)
      (hadded _ _ _ hshort (by decide))).1 (by decide)
  · rw [hq, List.mem_singleton] at htag
    subst htag
    exact (inferred_columns_fit hparse hlong (by decide) (by decide) (by decide) (by decide)
      (hadded _ _ _ hlong (by decide))).2 "App".toList "Status".toList (by decide) (by decide)
      (by decide) (by decide) (by decide)

end PropertyCheck

end EntityLint
