import EntityLint.Mapping.ColumnType
import EntityLint.Proofs.Mapping.Insertions
import Mathlib.Tactic

/-!
# Attributes that are completed

The attributes of an annotation that follow from the type of its property are written behind those that
are there. The enum of a column is the exception: a column that has one but no type is given the class of
its property, in the place of the enum that is written.

* `AttributeMap.LosesEnum`: the columns whose enum is replaced;
* `AttributeMap.entries_infer`, `AttributeMap.entries_infer_of_losesEnum`: the two cases.

The main statement is `AttributeMap.completion_keeps_what_is_written`.
-/

namespace EntityLint

/-- The type of a property without the question marks and backslashes in front of it. -/
def ColumnType.unmarked (type : Text) : Text := type.dropWhile fun c => c == '?' || c == '\\'

/-- Whether a column of a property with this type is taken for one with an enum. -/
def ColumnType.IsEnum (type : Text) : Prop :=
  type ≠ [] ∧ inferred.lookup type = none ∧ Naming.soundsLikeClass type = true

instance (type : Text) : Decidable (ColumnType.IsEnum type) :=
  inferInstanceAs (Decidable (_ ∧ _))

namespace AttributeMap

open ColumnType

variable {m : AttributeMap} {name : Text} {value old : AttributeValue}

/-! ### Columns -/

/-- A column that is given the class of its property, of the given type, although it has an enum of its
own. -/
def LosesEnum (m : AttributeMap) (kind : MappingKind) (type : Text) : Prop :=
  kind = .column ∧ m.contains "type".toList = false ∧ IsEnum (unmarked type) ∧
    ∃ enum ∈ m.get? "enumType".toList, enum ≠ .string (Naming.classReference (unmarked type))

instance (m : AttributeMap) (kind : MappingKind) (type : Text) : Decidable (m.LosesEnum kind type) :=
  inferInstanceAs (Decidable (_ ∧ _))

/-- The attributes that a column of an enum gets. -/
theorem inferColumn_of_isEnum {type : Text} (h : IsEnum type) (m : AttributeMap) :
    m.inferColumn type = (m.insert "type".toList (.string "string".toList)).insert "enumType".toList
      (.string (Naming.classReference type)) := by
  rw [inferColumn, h.2.1]
  exact if_pos h.2.2

/-- A column without a type is completed behind its attributes, if its enum is not replaced. -/
theorem entries_inferColumn {type : Text} (hmissing : m.contains "type".toList = false)
    (hne : type ≠ []) (hkeeps : IsEnum type → ∀ enum ∈ m.get? "enumType".toList,
      enum = .string (Naming.classReference type)) :
    m.entries <+: (m.inferColumn type).entries := by
  by_cases henum : IsEnum type
  · have htype := entries_insert hmissing (.string "string".toList)
    rw [inferColumn_of_isEnum henum]
    cases hget : m.get? "enumType".toList with
    | none =>
      have habsent : (m.insert "type".toList (.string "string".toList)).contains "enumType".toList
          = false := by
        rw [contains_insert_of_ne (by decide), contains, hget]
        rfl
      rw [entries_insert habsent, htype, List.append_assoc]
      exact List.prefix_append _ _
    | some enum =>
      -- the enum that is written is the class of the property
      obtain rfl := hkeeps henum enum hget
      have hget' : (m.insert "type".toList (.string "string".toList)).get? "enumType".toList =
          some (.string (Naming.classReference type)) := by
        rw [get?_insert, if_neg (by decide), hget]
      obtain ⟨before, after, hentries, hinsert⟩ := exists_entries_insert hget'
      rw [hinsert, ← hentries, htype]
      exact List.prefix_append _ _
  · unfold inferColumn
    split
    · rw [entries_insert hmissing]
      exact List.prefix_append _ _
    · next hlookup =>
      rw [if_neg fun hsounds => henum ⟨hne, hlookup, hsounds⟩]

/-! ### Completion -/

/-- A column without a type is completed by the type of its property, marks apart. -/
theorem infer_column {type : Text} (hne : unmarked type ≠ [])
    (hmissing : m.contains "type".toList = false) :
    m.infer .column type = m.inferColumn (unmarked type) := by
  unfold infer
  simp only [List.isEmpty_iff, hmissing]
  exact if_neg hne

/-- Attributes are completed behind those that are written, if no enum is replaced. -/
theorem entries_infer {kind : MappingKind} {type : Text} (h : ¬m.LosesEnum kind type) :
    m.entries <+: (m.infer kind type).entries := by
  unfold infer
  dsimp only
  split_ifs with hempty hcolumn htarget
  · exact List.prefix_refl _
  · obtain ⟨hkind, hmissing⟩ := Bool.and_eq_true_iff.1 hcolumn
    rw [Bool.not_eq_true'] at hmissing
    refine entries_inferColumn hmissing (fun hnil => hempty (List.isEmpty_iff.2 hnil)) ?_
    intro henum enum hget
    by_contra hne
    exact h ⟨of_decide_eq_true hkind, hmissing, henum, enum, hget, hne⟩
  · obtain ⟨-, hmissing⟩ := Bool.and_eq_true_iff.1 htarget
    rw [Bool.not_eq_true'] at hmissing
    rw [entries_insert hmissing]
    exact List.prefix_append _ _
  · exact List.prefix_refl _

/-- An enum that is replaced keeps its place, and the type goes to the end. -/
theorem entries_infer_of_losesEnum {kind : MappingKind} {type : Text} (h : m.LosesEnum kind type) :
    ∃ before enum after, enum ≠ .string (Naming.classReference (unmarked type)) ∧
      m.entries = before ++ ("enumType".toList, enum) :: after ∧
      (m.infer kind type).entries = before ++ ("enumType".toList,
        .string (Naming.classReference (unmarked type))) :: (after ++
          [("type".toList, .string "string".toList)]) := by
  obtain ⟨rfl, hmissing, henum, enum, hget, hne⟩ := h
  obtain ⟨before, after, hentries, hinsert⟩ := exists_insertEntry hget
  refine ⟨before, enum, after, hne, hentries, ?_⟩
  have hwritten : ("enumType".toList, enum) ∈ m.entries :=
    hentries ▸ List.mem_append_right before List.mem_cons_self
  have htype := entries_insert hmissing (.string "string".toList)
  rw [infer_column henum.1 hmissing, inferColumn_of_isEnum henum]
  show insertEntry _ _ _ = _
  rw [htype, insertEntry_append (List.mem_map_of_mem hwritten), hinsert, List.append_assoc,
    List.cons_append]

/-- **Completion keeps what is written.** The attributes that are written come first, with their names,
order and values, exactly if no column loses its enum: one with an enum and no type, whose property has a
class that is another one. Such a column keeps all names and their order as well, and all values but
that of the enum, in whose place the class of the property is put. -/
theorem completion_keeps_what_is_written (m : AttributeMap) (kind : MappingKind) (type : Text) :
    (m.entries <+: (m.infer kind type).entries ↔ ¬m.LosesEnum kind type) ∧
    m.names <+: (m.infer kind type).names ∧
    (m.LosesEnum kind type → ∃ before enum after,
      enum ≠ .string (Naming.classReference (unmarked type)) ∧
      m.entries = before ++ ("enumType".toList, enum) :: after ∧
      (m.infer kind type).entries = before ++ ("enumType".toList,
        .string (Naming.classReference (unmarked type))) :: (after ++
          [("type".toList, .string "string".toList)])) := by
  refine ⟨⟨fun hprefix hloses => ?_, entries_infer⟩, ?_, entries_infer_of_losesEnum⟩
  · obtain ⟨before, enum, after, hne, hentries, hinfer⟩ := entries_infer_of_losesEnum hloses
    rw [hentries, hinfer, List.prefix_append_right_inj, List.cons_prefix_cons] at hprefix
    exact hne (congrArg Prod.snd hprefix.1)
  · by_cases hloses : m.LosesEnum kind type
    · obtain ⟨before, enum, after, -, hentries, hinfer⟩ := entries_infer_of_losesEnum hloses
      exact ⟨["type".toList], by simp [names, hentries, hinfer]⟩
    · exact (entries_infer hloses).map Prod.fst

/-- The column of a nullable class that is written with another enum between two attributes. -/
theorem completion_keeps_what_is_written_enum :
    let m : AttributeMap := ⟨[("name".toList, .string "a".toList),
      ("enumType".toList, .string "C::class".toList), ("length".toList, .integer 9)]⟩
    m.LosesEnum .column "?A\\B".toList ∧ ¬m.entries <+: (m.infer .column "?A\\B".toList).entries ∧
    (m.infer .column "?A\\B".toList).names =
      ["name".toList, "enumType".toList, "length".toList, "type".toList] ∧
    ∃ before enum after, enum ≠ .string "A\\B::class".toList ∧
      m.entries = before ++ ("enumType".toList, enum) :: after ∧
      (m.infer .column "?A\\B".toList).entries = before ++ ("enumType".toList,
        .string "A\\B::class".toList) :: (after ++ [("type".toList, .string "string".toList)]) := by
  intro m
  have hloses : m.LosesEnum .column "?A\\B".toList := by decide
  obtain ⟨hiff, -, henum⟩ := completion_keeps_what_is_written m .column "?A\\B".toList
  exact ⟨hloses, fun hprefix => hiff.1 hprefix hloses, by decide, henum hloses⟩

/-- Where the class of the property is the enum that is written, nothing is replaced. -/
example : (AttributeMap.infer ⟨[("enumType".toList, .string "A::class".toList)]⟩ .column
    "\\A".toList).entries = [("enumType".toList, .string "A::class".toList),
      ("type".toList, .string "string".toList)] := by decide

end AttributeMap

end EntityLint
