import EntityLint.Mapping.Attribute
import Mathlib.Data.Finset.Card
import Mathlib.Data.List.Basic

/-!
# Attributes in the order of their insertions

A map of attributes comes about by insertions, one after another, and a name may be inserted any number
of times. What the map holds is said here in terms of these insertions.

* `AttributeMap.entries_insert`, `AttributeMap.exists_entries_insert`: a new name goes to the end, and a
  known one gets its value where it is;
* `AttributeMap.Holds`: the names stand in the order in which they first came up, each with the value
  that it was given last;
* `Holds.insert`, `holds_ofList`: one insertion, and any number of them;
* `Holds.nodup`, `Holds.size_eq`, `Holds.get?_eq_none_iff`: what follows for a map;
* `ofList_mk`: entries with different names are kept as they are.

The main statement is `AttributeMap.insertions_come_in_order`.
-/

namespace EntityLint

namespace AttributeMap

variable {m : AttributeMap} {calls entries : List (Text × AttributeValue)} {name : Text}
  {value old : AttributeValue}

theorem contains_iff : m.contains name = true ↔ name ∈ m.names := by
  rw [contains, get?, List.lookup_isSome_iff, names, List.mem_map]
  constructor
  · rintro ⟨entry, hmem, hname⟩
    exact ⟨entry, hmem, (beq_iff_eq.1 hname).symm⟩
  · rintro ⟨entry, hmem, rfl⟩
    exact ⟨entry, hmem, beq_self_eq_true _⟩

/-! ### One insertion -/

theorem insertEntry_of_lookup_eq_none (h : entries.lookup name = none) (value : AttributeValue) :
    insertEntry name value entries = entries ++ [(name, value)] := by
  induction entries with
  | nil => rfl
  | cons entry entries ih =>
    obtain ⟨key, v⟩ := entry
    rw [List.lookup_cons] at h
    by_cases hkey : name = key
    · simp [hkey] at h
    · rw [beq_false_of_ne hkey] at h
      rw [insertEntry, if_neg (Ne.symm hkey), ih h, List.cons_append]

/-- A name that is not there goes to the end. -/
theorem entries_insert (h : m.contains name = false) (value : AttributeValue) :
    (m.insert name value).entries = m.entries ++ [(name, value)] :=
  insertEntry_of_lookup_eq_none (Option.isNone_iff_eq_none.1 (by simpa [contains, get?] using h)) value

theorem insertEntry_append (h : name ∈ entries.map Prod.fst) (value : AttributeValue)
    (more : List (Text × AttributeValue)) :
    insertEntry name value (entries ++ more) = insertEntry name value entries ++ more := by
  induction entries with
  | nil => cases h
  | cons entry entries ih =>
    rw [List.cons_append, insertEntry, insertEntry]
    by_cases hkey : entry.1 = name
    · rw [if_pos hkey, if_pos hkey, List.cons_append]
    · have hlater : name ∈ entries.map Prod.fst :=
        (List.mem_cons.1 h).resolve_left (Ne.symm hkey)
      rw [if_neg hkey, if_neg hkey, ih hlater, List.cons_append]

theorem exists_insertEntry (h : entries.lookup name = some old) :
    ∃ before after, entries = before ++ (name, old) :: after ∧
      ∀ value, insertEntry name value entries = before ++ (name, value) :: after := by
  induction entries with
  | nil => cases h
  | cons entry entries ih =>
    obtain ⟨key, v⟩ := entry
    rw [List.lookup_cons] at h
    by_cases hkey : name = key
    · subst hkey
      rw [beq_self_eq_true] at h
      cases h
      exact ⟨[], entries, rfl, fun value => by rw [insertEntry, if_pos rfl, List.nil_append]⟩
    · rw [beq_false_of_ne hkey] at h
      obtain ⟨before, after, rfl, hinsert⟩ := ih h
      refine ⟨(key, v) :: before, after, rfl, fun value => ?_⟩
      rw [insertEntry, if_neg (Ne.symm hkey), hinsert, List.cons_append]

/-- The value of a name that is there is replaced in its place. -/
theorem exists_entries_insert (h : m.get? name = some old) :
    ∃ before after, m.entries = before ++ (name, old) :: after ∧
      ∀ value, (m.insert name value).entries = before ++ (name, value) :: after :=
  exists_insertEntry h

theorem contains_insert_of_ne {key : Text} (hne : key ≠ name) (value : AttributeValue) :
    (m.insert name value).contains key = m.contains key := by
  rw [contains, contains, get?_insert, if_neg hne]

theorem mem_names_insert {key : Text} :
    key ∈ (m.insert name value).names ↔ key ∈ m.names ∨ key = name := by
  rw [names_insert]
  split
  · next hmem => exact ⟨.inl, fun h => h.elim id fun heq => heq ▸ hmem⟩
  · rw [List.mem_append, List.mem_singleton]

/-- The place at which a name first came up. -/
def firstInsertion (calls : List (Text × AttributeValue)) (name : Text) : Nat :=
  (calls.map Prod.fst).idxOf name

/-- A later insertion does not change where the names before it first came up. -/
theorem firstInsertion_concat_of_mem (h : name ∈ calls.map Prod.fst) (e : Text × AttributeValue) :
    firstInsertion (calls ++ [e]) name = firstInsertion calls name := by
  rw [firstInsertion, List.map_append, List.idxOf_append_of_mem h]
  rfl

/-- A new name first comes up behind all others. -/
theorem firstInsertion_lt_concat {key : Text} (hkey : key ∈ calls.map Prod.fst)
    (hname : name ∉ calls.map Prod.fst) :
    firstInsertion (calls ++ [(name, value)]) key
      < firstInsertion (calls ++ [(name, value)]) name := by
  have hbefore : firstInsertion calls key < (calls.map Prod.fst).length :=
    List.idxOf_lt_length_iff.2 hkey
  have hlast : firstInsertion (calls ++ [(name, value)]) name = (calls.map Prod.fst).length := by
    rw [firstInsertion, List.map_append, List.idxOf_append_of_notMem hname]
    simp
  rwa [firstInsertion_concat_of_mem hkey, hlast]

/-- A name is given a value last by the last insertion of that name. -/
def LastGiven (calls : List (Text × AttributeValue)) (name : Text) (value : AttributeValue) : Prop :=
  ∃ before after, calls = before ++ (name, value) :: after ∧ name ∉ after.map Prod.fst

theorem lastGiven_concat {e : Text × AttributeValue} : LastGiven (calls ++ [e]) name value ↔
    if name = e.1 then value = e.2 else LastGiven calls name value := by
  constructor
  · rintro ⟨before, after, hcalls, hafter⟩
    -- the last insertion of all is either this one or one behind it
    cases after using List.reverseRecOn with
    | nil =>
      obtain ⟨-, hlast⟩ := List.append_inj' hcalls rfl
      cases hlast
      rw [if_pos rfl]
    | append_singleton after d =>
      rw [← List.cons_append, ← List.append_assoc] at hcalls
      obtain ⟨hbefore, hlast⟩ := List.append_inj' hcalls rfl
      cases hlast
      rw [List.map_append, List.mem_append, not_or] at hafter
      rw [if_neg (by simpa using hafter.2)]
      exact ⟨before, after, hbefore, hafter.1⟩
  · intro h
    split at h
    · next hname =>
      exact ⟨calls, [], by rw [hname, h], List.not_mem_nil⟩
    · next hname =>
      obtain ⟨before, after, rfl, hafter⟩ := h
      refine ⟨before, after ++ [e], by rw [List.append_assoc, List.cons_append], ?_⟩
      rw [List.map_append, List.mem_append, not_or]
      exact ⟨hafter, by simpa using hname⟩

/-! ### What a map holds -/

/-- What a map holds after some insertions into the empty one. -/
structure Holds (m : AttributeMap) (calls : List (Text × AttributeValue)) : Prop where
  /-- Its names are those that have been inserted. -/
  mem_names : ∀ name, name ∈ m.names ↔ name ∈ calls.map Prod.fst
  /-- They stand in the order in which they first came up. -/
  ordered : m.names.Pairwise fun a b => firstInsertion calls a < firstInsertion calls b
  /-- Each has the value that it was given last. -/
  get? : ∀ name value, m.get? name = some value ↔ LastGiven calls name value

theorem holds_empty : empty.Holds [] where
  mem_names _ := Iff.rfl
  ordered := List.Pairwise.nil
  get? name value := by
    refine iff_of_false (fun h => by cases h) ?_
    rintro ⟨before, after, hcalls, -⟩
    exact List.append_ne_nil_of_right_ne_nil before (List.cons_ne_nil _ after) hcalls.symm

/-- **One insertion.** -/
theorem Holds.insert (h : m.Holds calls) (name : Text) (value : AttributeValue) :
    (m.insert name value).Holds (calls ++ [(name, value)]) where
  mem_names key := by
    rw [mem_names_insert, h.mem_names, List.map_append, List.mem_append, List.map_singleton,
      List.mem_singleton]
  ordered := by
    have hkept : m.names.Pairwise fun a b =>
        firstInsertion (calls ++ [(name, value)]) a < firstInsertion (calls ++ [(name, value)]) b := by
      refine h.ordered.imp_of_mem fun ha hb hlt => ?_
      rwa [firstInsertion_concat_of_mem ((h.mem_names _).1 ha),
        firstInsertion_concat_of_mem ((h.mem_names _).1 hb)]
    rw [names_insert]
    split
    · exact hkept
    · next hnew =>
      refine List.pairwise_append.2 ⟨hkept, List.pairwise_singleton _ _, fun a ha b hb => ?_⟩
      rw [List.mem_singleton.1 hb]
      exact firstInsertion_lt_concat ((h.mem_names a).1 ha) (mt (h.mem_names name).2 hnew)
  get? key v := by
    rw [get?_insert, lastGiven_concat]
    split
    · rw [Option.some.injEq, eq_comm]
    · exact h.get? key v

theorem ofList_concat (calls : List (Text × AttributeValue)) (e : Text × AttributeValue) :
    ofList (calls ++ [e]) = (ofList calls).insert e.1 e.2 := by
  rw [ofList, List.foldl_append]
  rfl

/-- **Any number of insertions.** -/
theorem holds_ofList (calls : List (Text × AttributeValue)) : (ofList calls).Holds calls := by
  induction calls using List.reverseRecOn with
  | nil => exact holds_empty
  | append_singleton calls e ih =>
    rw [ofList_concat]
    exact ih.insert e.1 e.2

namespace Holds

/-- No name stands twice, since none first came up before itself. -/
theorem nodup (h : m.Holds calls) : m.names.Nodup :=
  h.ordered.imp fun hlt heq => absurd (heq ▸ hlt) (Nat.lt_irrefl _)

theorem size_eq (h : m.Holds calls) : m.size = (calls.map Prod.fst).toFinset.card := by
  have hsame : (calls.map Prod.fst).toFinset = m.names.toFinset := by
    ext name
    rw [List.mem_toFinset, List.mem_toFinset, h.mem_names]
  rw [hsame, List.toFinset_card_of_nodup h.nodup, names, List.length_map, size]

theorem get?_eq_none_iff (h : m.Holds calls) : m.get? name = none ↔ name ∉ calls.map Prod.fst := by
  rw [← h.mem_names, ← contains_iff, contains, Bool.not_eq_true, Option.isSome_eq_false_iff,
    Option.isNone_iff_eq_none]

end Holds

/-! ### Maps that are made of lists -/

/-- Each name stands where it first came up. -/
theorem names_ofList (calls : List (Text × AttributeValue)) :
    (ofList calls).names = (calls.map Prod.fst).eraseDups := by
  induction calls using List.reverseRecOn with
  | nil => rfl
  | append_singleton calls e ih =>
    rw [ofList_concat, names_insert, ih, List.map_append, List.eraseDups_append]
    by_cases hmem : e.1 ∈ calls.map Prod.fst
    · rw [if_pos (List.mem_eraseDups.2 hmem)]
      simp [List.removeAll, hmem]
    · rw [if_neg (mt List.mem_eraseDups.1 hmem)]
      simp [List.removeAll, hmem, List.eraseDups_cons]

theorem nodup_names_ofList (calls : List (Text × AttributeValue)) : (ofList calls).names.Nodup :=
  (holds_ofList calls).nodup

theorem get?_ofList_concat (calls : List (Text × AttributeValue)) (e : Text × AttributeValue)
    (key : Text) : (ofList (calls ++ [e])).get? key =
      if key = e.1 then some e.2 else (ofList calls).get? key := by
  rw [ofList_concat, get?_insert]

/-- The last value of a name is the one that counts. -/
theorem get?_ofList_append {before after : List (Text × AttributeValue)} {key : Text}
    {value : AttributeValue} (hafter : ∀ e ∈ after, e.1 ≠ key) :
    (ofList (before ++ (key, value) :: after)).get? key = some value :=
  ((holds_ofList _).get? key value).2 ⟨before, after, rfl, fun hmem => by
    obtain ⟨e, he, hkey⟩ := List.mem_map.1 hmem
    exact hafter e he hkey⟩

theorem exists_mem_of_get?_ofList {calls : List (Text × AttributeValue)} {key : Text}
    {value : AttributeValue} (h : (ofList calls).get? key = some value) : (key, value) ∈ calls := by
  obtain ⟨before, after, rfl, -⟩ := ((holds_ofList calls).get? key value).1 h
  exact List.mem_append_right _ List.mem_cons_self

/-- Entries with different names are kept as they are. -/
theorem ofList_mk {entries : List (Text × AttributeValue)} (h : (entries.map Prod.fst).Nodup) :
    ofList entries = ⟨entries⟩ := by
  induction entries using List.reverseRecOn with
  | nil => rfl
  | append_singleton entries e ih =>
    rw [List.map_append, List.nodup_append] at h
    obtain ⟨hnodup, -, hdisjoint⟩ := h
    have hnew : e.1 ∉ entries.map Prod.fst := fun hmem => hdisjoint e.1 hmem e.1 (by simp) rfl
    have habsent : contains ⟨entries⟩ e.1 = false := by
      rwa [← Bool.not_eq_true, contains_iff]
    rw [ofList_concat, ih hnodup]
    exact congrArg mk (entries_insert habsent e.2)

/-- **Insertions come in order.** For every sequence of insertions into the empty map, the names are
those that were inserted, each once, in the order in which they first came up; there are as many entries
as different names; a name has the value that it was given last, and none if it was never inserted; and
the entries make up the same map again. -/
theorem insertions_come_in_order (calls : List (Text × AttributeValue)) :
    let m := ofList calls
    m.names.Nodup ∧
    (∀ name, name ∈ m.names ↔ name ∈ calls.map Prod.fst) ∧
    m.names.Pairwise (fun a b => firstInsertion calls a < firstInsertion calls b) ∧
    m.size = (calls.map Prod.fst).toFinset.card ∧
    (∀ name value, m.get? name = some value ↔ LastGiven calls name value) ∧
    (∀ name, m.get? name = none ↔ name ∉ calls.map Prod.fst) ∧
    ofList m.entries = m := by
  intro m
  have h : m.Holds calls := holds_ofList calls
  exact ⟨h.nodup, h.mem_names, h.ordered, h.size_eq, h.get?, fun _ => h.get?_eq_none_iff,
    ofList_mk h.nodup⟩

/-- A name that comes up again keeps its place and loses its value. -/
example : ofList [(['a'], .integer 1), (['b'], .integer 2), (['a'], .integer 3)] =
    ⟨[(['a'], .integer 3), (['b'], .integer 2)]⟩ := rfl

end AttributeMap

end EntityLint
