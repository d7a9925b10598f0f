import EntityLint.Proofs.Bounds.Contracts
import EntityLint.Proofs.Source.Reading
import EntityLint.Rule.EntityMapping

/-!
# Entity mappings, with every index checked

* `Bytewise.renameLiteral?`: where a value is made new in a text, by byte offsets;
* `Guarded.literalEdit?`: the edit that mends a name;
* `Guarded.columnFindings`, `toOneFindings`, `toManyFindings`: the faults of one annotation;
* `Guarded.mappingFindings`, with `mappingFindings_eq`.

The token at which an annotation stops is there: `stop_le_of_mem_propertyTags`.
-/

namespace EntityLint

open Checked

namespace Bytewise

open Text

/-! ### Mending names -/

/-- What follows the quote that opens the value of an attribute whose name stands at a byte
offset. -/
def valueAfter? (attr text : Text) (i : Nat) : Checked (Option Text) := do
  let spaced ← cutFrom text (i + utf8Length attr)
  return do
    let afterEquals ← stripLeading? ['='] (spaced.dropWhile (· == ' '))
    stripLeading? ['"'] (afterEquals.dropWhile (· == ' '))

/-- The text with an old value made new, if it and a quote are what a text ends with a part of. -/
def renameValue? (old new text value : Text) : Checked (Option Text) :=
  if startsWith value old then do
    if (← cutFrom value (utf8Length old)).head? = some '"' then
      let start ← minus (utf8Length text) (utf8Length value)
      return some ((← cutTo text start) ++ new ++ (← cutFrom text (start + utf8Length old)))
    else return none
  else return none

/-- The text with the value of the `attr="old"` made new whose name stands at a byte offset, unless
it is the end of a longer name. -/
def renameAt? (attr old new text : Text) (i : Nat) : Checked (Option Text) := do
  let before ← cutTo text i
  andThen (valueAfter? attr text i) fun value =>
    if before.getLast?.any isNameChar then return none else renameValue? old new text value

/-- The text with the value of the first `attr="old"` made new. -/
def renameLiteral? (attr old new text : Text) : Checked (Option Text) :=
  (offsetsOf attr 0 text).findSomeM? (renameAt? attr old new text)

theorem renameValue?_eq {old new text head value : Text} (h : text = head ++ value) :
    renameValue? old new text value = .ok (do
      let rest ← stripLeading? old value
      guard (rest.head? = some '"')
      return head ++ new ++ rest) := by
  rw [renameValue?, startsWith]
  cases hrest : stripLeading? old value with
  | none => rfl
  | some rest =>
    have hvalue := append_of_stripLeading? hrest
    have hlength : utf8Length text - utf8Length value = utf8Length head := by
      rw [h, utf8Length_append]
      omega
    rw [Option.isSome_some, if_pos rfl, cutFrom_eq hvalue.symm rfl, ok_bind,
      minus_eq (by rw [h, utf8Length_append]; exact Nat.le_add_left _ _), ok_bind, hlength,
      cutTo_eq h rfl, ok_bind, cutFrom_eq (u := head ++ old) (v := rest)
        (by rw [h, ← hvalue, List.append_assoc]) (by rw [utf8Length_append])]
    by_cases hquote : rest.head? = some '"' <;> simp [hquote]

theorem renameAt?_eq {attr old new text before t spaced : Text} (ht : text = before ++ t)
    (hspaced : stripLeading? attr t = some spaced) :
    renameAt? attr old new text (utf8Length before) =
      .ok ((if before.getLast?.any isNameChar then none else renameHere? attr old new t).map
        (before ++ ·)) := by
  have hattr := append_of_stripLeading? hspaced
  rw [renameAt?, cutTo_eq ht rfl, ok_bind, valueAfter?, cutFrom_eq (u := before ++ attr) (v := spaced)
    (by rw [ht, ← hattr, List.append_assoc]) (by rw [utf8Length_append]), ok_bind]
  rw [renameHere?, hspaced]
  simp only [Option.bind_eq_bind, Option.bind_some]
  cases hequals : stripLeading? ['='] (spaced.dropWhile (· == ' ')) with
  | none => rw [Option.bind_none, Option.bind_none, ite_self]; rfl
  | some afterEquals =>
    simp only [Option.bind_some]
    cases hvalue : stripLeading? ['"'] (afterEquals.dropWhile (· == ' ')) with
    | none => rw [Option.bind_none, ite_self]; rfl
    | some value =>
      -- what the offset of the value is computed from: all that stands before it
      have htext : text = before ++ (attr ++ spaced.takeWhile (· == ' ') ++
          '=' :: afterEquals.takeWhile (· == ' ') ++ ['"']) ++ value := by
        have hequals := append_of_stripLeading? hequals
        have hvalue := append_of_stripLeading? hvalue
        have hspaced := List.takeWhile_append_dropWhile (p := (· == ' ')) (l := spaced)
        have hafter := List.takeWhile_append_dropWhile (p := (· == ' ')) (l := afterEquals)
        rw [← hequals] at hspaced
        rw [← hvalue] at hafter
        rw [ht, ← hattr]
        nth_rewrite 1 [← hspaced, ← hafter]
        simp
      show (if _ then _ else renameValue? old new text value) = _
      rw [renameValue?_eq htext, Option.bind_some]
      split
      · rfl
      · cases stripLeading? old value with
        | none => rfl
        | some rest => by_cases hquote : rest.head? = some '"' <;> simp [hquote]

theorem renameLiteral?_eq (attr old new text : Text) : renameLiteral? attr old new text =
    .ok (EntityLint.renameLiteral? attr old new none text) := by
  -- as with the tags of a comment, the induction carries what stands before
  suffices h : ∀ before t, text = before ++ t →
      (offsetsOf attr (utf8Length before) t).findSomeM? (renameAt? attr old new text) =
        .ok ((EntityLint.renameLiteral? attr old new before.getLast? t).map (before ++ ·)) by
    have h := h [] text rfl
    rw [renameLiteral?]
    simpa using h
  intro before t ht
  induction t generalizing before with
  | nil => rfl
  | cons c t ih =>
    have ih := ih (before ++ [c]) (by rw [ht, List.append_assoc]; rfl)
    rw [utf8Length_append, utf8Length_cons, utf8Length_nil, Nat.add_zero, List.getLast?_concat] at ih
    rw [offsetsOf, EntityLint.renameLiteral?, startsWith]
    have hmap : (EntityLint.renameLiteral? attr old new (some c) t).map (before ++ [c] ++ ·) =
        ((EntityLint.renameLiteral? attr old new (some c) t).map (c :: ·)).map (before ++ ·) := by
      rw [Option.map_map]
      congr 1
      funext u
      simp
    rw [hmap] at ih
    cases hspaced : stripLeading? attr (c :: t) with
    | none =>
      have hnone : renameHere? attr old new (c :: t) = none := by
        rw [renameHere?, hspaced]
        rfl
      simp only [hnone, ite_self, Option.isSome_none, Bool.false_eq_true, if_false]
      exact ih
    | some spaced =>
      rw [Option.isSome_some, if_pos rfl, List.findSomeM?, renameAt?_eq ht hspaced, ok_bind]
      generalize (if before.getLast?.any isNameChar then none
        else renameHere? attr old new (c :: t)) = here
      cases here with
      | none => exact ih
      | some renamed => rfl

end Bytewise

namespace Guarded

variable {f : SourceFile}

/-- The first token of a doc comment annotation in which a value can be made new, and its text. -/
def docLiteral? (f : SourceFile) (tag : MappingTag) (attr old new : Text) :
    Checked (Option (Nat × Text)) :=
  (List.range' tag.start (tag.stop - tag.start)).findSomeM? fun i => do
    if (← kindAt f i) = .docText then
      return (← Bytewise.renameLiteral? attr old new (← textAt f i)).map fun text => (i, text)
    else return none

/-- The quoted value that follows a token, a colon between them. -/
def quotedAfter? (f : SourceFile) (stop i : Nat) : Checked (Option Nat) :=
  andThen (nextSignificant? f (i + 1) (some stop)) fun colon => do
    if (← kindAt f colon) = .colon then
      andThen (nextSignificant? f (colon + 1) (some stop)) fun value => do
        return if (← kindAt f value) = .quoted then some value else none
    else return none

/-- The quoted value of an attribute in an annotation of an attribute group. -/
def nativeLiteral? (f : SourceFile) (tag : MappingTag) (attr : Text) : Checked (Option Nat) :=
  (List.range' tag.start (tag.stop - tag.start)).findSomeM? fun i => do
    if (← kindAt f i) = .word ∧ (← textAt f i) = attr then quotedAfter? f tag.stop i
    else return none

/-- The edit that makes the value of an attribute new where it is written. -/
def literalEdit? (f : SourceFile) (tag : MappingTag) (attr old new : Text) :
    Checked (Option Edit) := do
  match tag.dialect with
  | .doc => return (← docLiteral? f tag attr old new).map fun (i, text) => .replace i text
  | .native =>
    return (← nativeLiteral? f tag attr).map fun i => .replace i ('\'' :: (new ++ ['\'']))

theorem lt_size_of_mem_range' {tag : MappingTag} (h : tag.stop ≤ f.tokens.size) {i : ℕ}
    (hi : i ∈ List.range' tag.start (tag.stop - tag.start)) : i < f.tokens.size := by
  have := List.mem_range'_1.1 hi
  omega

theorem docLiteral?_eq {tag : MappingTag} (h : tag.stop ≤ f.tokens.size) (attr old new : Text) :
    docLiteral? f tag attr old new = .ok (f.docLiteral? tag attr old new) := by
  refine findSomeM?_eq fun i hi => ?_
  have hsize := lt_size_of_mem_range' h hi
  obtain ⟨k, hkind, hchecked⟩ := exists_kindAt_eq hsize
  rw [hchecked, ok_bind, textAt_eq hsize, ok_bind, Bytewise.renameLiteral?_eq, ok_bind, hkind]
  by_cases hdoc : k = .docText
  · cases EntityLint.renameLiteral? attr old new none (f.textAt i) <;> simp [hdoc]
  · simp [hdoc]

theorem quotedAfter?_eq (f : SourceFile) (stop i : ℕ) : quotedAfter? f stop i = .ok (do
    let colon ← f.nextSignificant? (i + 1) (some stop)
    guard (f.kindAt colon = some .colon)
    let value ← f.nextSignificant? (colon + 1) (some stop)
    guard (f.kindAt value = some .quoted)
    return value) := by
  refine andThen_eq (nextSignificant?_eq ..) fun colon hcolon => ?_
  obtain ⟨k, hkind, hchecked⟩ := kindAt_of_next? hcolon
  rw [hchecked, ok_bind, hkind]
  by_cases hk : k = .colon
  · rw [if_pos hk, hk, guard, if_pos rfl]
    refine andThen_eq (nextSignificant?_eq ..) fun value hvalue => ?_
    obtain ⟨k', hkind', hchecked'⟩ := kindAt_of_next? hvalue
    rw [hchecked', ok_bind, hkind']
    by_cases hquoted : k' = .quoted <;> simp [hquoted]
  · simp [hk]

theorem nativeLiteral?_eq {tag : MappingTag} (h : tag.stop ≤ f.tokens.size) (attr : Text) :
    nativeLiteral? f tag attr = .ok (f.nativeLiteral? tag attr) := by
  refine findSomeM?_eq fun i hi => ?_
  have hsize := lt_size_of_mem_range' h hi
  obtain ⟨k, hkind, hchecked⟩ := exists_kindAt_eq hsize
  rw [hchecked, ok_bind, textAt_eq hsize, ok_bind, quotedAfter?_eq, hkind]
  by_cases hword : k = .word ∧ f.textAt i = attr
  · simp [hword]
  · rw [if_neg hword]
    have hnone : ¬(some k = some .word ∧ f.textAt i = attr) := by simpa using hword
    rw [guard, if_neg hnone]
    rfl

theorem literalEdit?_eq {tag : MappingTag} (h : tag.stop ≤ f.tokens.size) (attr old new : Text) :
    literalEdit? f tag attr old new = .ok (f.literalEdit? tag attr old new) := by
  rw [literalEdit?, SourceFile.literalEdit?]
  cases tag.dialect with
  | doc =>
    dsimp only
    rw [docLiteral?_eq h]
    rfl
  | native =>
    dsimp only
    rw [nativeLiteral?_eq h]
    rfl

/-! ### Where annotations stop -/

theorem stop_docArguments_le {tag : ℕ} (htag : tag < f.tokens.size) (close : ℕ) :
    (f.docArguments close tag).2 ≤ f.tokens.size := by
  rcases f.docArguments_cases close tag with h | ⟨text, i, h, -, -, hlt⟩ <;> rw [h]
  · exact htag
  · exact hlt

theorem stop_le_of_mem_docEntries {close start tag stop : ℕ} {arguments : Text} {tags : List ℕ}
    (htags : ∀ tag ∈ tags, tag < f.tokens.size)
    (h : .tag tag arguments stop ∈ f.docEntries close start tags) : stop ≤ f.tokens.size := by
  fun_induction SourceFile.docEntries f close start tags with
  | case1 => cases h
  | case2 _ _ _ _ ih => exact ih (fun tag h => htags tag (List.mem_cons_of_mem _ h)) h
  | case3 _ _ _ _ _ ih =>
    rcases List.mem_cons.1 h with h | h
    · cases h
    · exact ih (fun tag h => htags tag (List.mem_cons_of_mem _ h)) h
  | case4 start tag tags hstart hvar arguments' stop' hfound ih =>
    rcases List.mem_cons.1 h with h | h
    · cases h
      have hle := stop_docArguments_le (htags tag List.mem_cons_self) close
      rwa [hfound] at hle
    · exact ih (fun tag h => htags tag (List.mem_cons_of_mem _ h)) h

theorem stop_le_of_mem_docTags (hf : f.Linked) {comment : Range} {tag : MappingTag}
    (h : tag ∈ f.docTags comment) : tag.stop ≤ f.tokens.size := by
  obtain ⟨e, he, htag⟩ := List.mem_filterMap.1 h
  cases e with
  | var => cases htag
  | tag i arguments stop =>
    unfold SourceFile.docTag? at htag
    dsimp only at htag
    split at htag
    · cases htag
      refine stop_le_of_mem_docEntries (fun j hj => ?_) he
      cases ht : f.tokens[comment.opener]? with
      | none =>
        rw [ht] at hj
        cases hj
      | some t =>
        rw [ht] at hj
        exact hf.tags ht j hj
    · cases htag

theorem stop_le_of_nativeTag? (hf : f.Linked) {opener start stop : ℕ} {tag : MappingTag}
    (hstop : stop ≤ f.tokens.size) (h : f.nativeTag? opener start stop = some tag) :
    tag.stop ≤ f.tokens.size := by
  unfold SourceFile.nativeTag? at h
  dsimp only at h
  split at h
  · split at h
    · next i close hclose =>
      cases h
      obtain ⟨j, -, hj⟩ := Option.bind_eq_some_iff.1 hclose
      obtain ⟨r, hr, heq⟩ := Option.map_eq_some_iff.1 hj
      obtain ⟨t, ht, hparens⟩ := Option.bind_eq_some_iff.1 hr
      cases heq
      exact (hf.range ht (r := r) (by simp [hparens])).2
    · cases h
      exact hstop
  · cases h

/-- **The tokens of an annotation are in the file.** -/
theorem stop_le_of_mem_propertyTags (hf : f.Linked) {declaration : ℕ} {ruleCode : Text}
    {tag : MappingTag} (h : tag ∈ (f.propertyTags declaration ruleCode).tags) :
    tag.stop ≤ f.tokens.size := by
  have hnative : tag ∈ f.nativeTags declaration → tag.stop ≤ f.tokens.size := fun h => by
    obtain ⟨r, hr, htag⟩ := List.mem_flatMap.1 h
    obtain ⟨hlt, hcloser⟩ := closer_lt_of_mem_attributeGroupsBefore hf (List.mem_reverse.1 hr)
    obtain ⟨⟨start, stop⟩, hpart, htag⟩ := List.mem_filterMap.1 htag
    have hstop := (mem_partBounds (Nat.le_refl _) hlt hpart).2
    exact stop_le_of_nativeTag? hf (hstop.trans hcloser.le) htag
  unfold SourceFile.propertyTags at h
  split at h
  · exact hnative h
  · exact (List.mem_append.1 h).elim (stop_le_of_mem_docTags hf) hnative

/-! ### Checking a property -/

/-- The check of a property. Its type and its name are read when it is set up, and known from then
on. -/
def propertyCheck (options : MappingOptions) (f : SourceFile) (i : Nat) (tags : PropertyTags) :
    Checked PropertyCheck := do
  let _ ← property f i
  let _ ← textAt f i
  return { options, file := f, token := i, tags }

/-- A fault that can be mended by giving an attribute of an annotation a new value. -/
def renamingFault (p : PropertyCheck) (tag : MappingTag) (code message : String) (old new : Text) :
    Checked Finding := do
  let edit ← literalEdit? p.file tag "name".toList old new
  return {
    token := tag.position
    code := code
    message := message
    fixable := true
    repair := edit.map fun e => .changeset [.edit e] }

/-- The short name of a class, where `self` is the class of the property. -/
def shortClass (p : PropertyCheck) (className : Text) : StateT FileMemo Checked Text := do
  let short ← (Bytewise.shortClassName className : Checked _)
  if short = "self".toList then classNameAt p.file p.token else return short

/-! ### Columns -/

/-- The fault of a column that is not named after its property. -/
def columnNameFindings (p : PropertyCheck) (tag : MappingTag) (m : AttributeMap) :
    Checked (List Finding) :=
  match m.get? "name".toList with
  | none => return []
  | some value =>
    let raw := value.text
    let column := Text.dropEndWhile (· == '\x60') (raw.dropWhile (· == '\x60'))
    let expected := Naming.underScore p.name
    if column ≠ expected ∧ p.name ≠ Naming.camelCase column then do
      let wanted := String.ofList expected
      let found := String.ofList column
      let rule := "Column name must be underscored variable name"
      let fault ← renamingFault p tag "ColumnUnderscored"
        s!"{rule}; expected \"{wanted}\" but found \"{found}\"" raw expected
      return [fault]
    else return []

/-- The column type of a column with a type attribute: the class of its enum, if it has one. -/
def columnType (p : PropertyCheck) (m : AttributeMap) (typeValue : AttributeValue) :
    StateT FileMemo Checked Text :=
  match m.get? "enumType".toList with
  | some enum => shortClass p enum.text
  | none => return typeValue.text

/-- The faults of a column and of its accessors, for the type that it holds and the faults of the
types that it is given. -/
def heldFindings (p : PropertyCheck) (tag : MappingTag) (m : AttributeMap) (held : Text)
    (typed : List Finding) : StateT FileMemo Checked (List Finding) := do
  let expected := if held.isEmpty then none else some held
  let nullable := (m.get? "nullable".toList).any AttributeValue.isTruthy
  let getter ← contractFindings
    { PropertyCheck.contract .column .getter "get" p.name with returns := expected.map .type }
    p.options.baseTypes p.file tag.position
  let setter ← contractFindings
    { PropertyCheck.contract .column .setter "set" p.name with
      required := !p.tags.has .generatedValue
      returns := some .fluent
      argument := some ⟨p.name, expected, nullable⟩ }
    p.options.baseTypes p.file tag.position
  let named ← (columnNameFindings p tag m : Checked _)
  return named ++ typed ++ getter ++ setter

/-- The faults of a column and of its getter and setter. -/
def columnFindings (p : PropertyCheck) (tag : MappingTag) (m : AttributeMap) :
    StateT FileMemo Checked (List Finding) :=
  match m.get? "type".toList with
  | none => heldFindings p tag m ((p.type?.map withoutMark).getD []) []
  | some typeValue => do
    let columnType ← columnType p m typeValue
    let held := ColumnType.suggest columnType p.options.dynamicEnums
    let declared := if held.isEmpty then [] else p.declaredTypeFindings tag held
    heldFindings p tag m held (declared ++ PropertyCheck.columnSizeFindings tag m columnType)

/-! ### Relations -/

/-- The fault of a join column that is not named after its property. -/
def joinColumnFindings (p : PropertyCheck) (tag : MappingTag) (m : AttributeMap) :
    Checked (List Finding) :=
  match m.get? "name".toList with
  | none => return []
  | some value =>
    let expected := Naming.underScore p.name ++ "_id".toList
    if value.text ≠ expected then do
      let wanted := String.ofList expected
      let found := String.ofList value.text
      let rule := "JoinColumn name must be underscored variable name"
      let fault ← renamingFault p tag "JoinColumnNameFormat"
        s!"{rule}; expected \"{wanted}\" but found \"{found}\"" value.text expected
      return [fault]
    else return []

/-- The faults of the getter and setter of a relation to one object. -/
def toOneFindings (p : PropertyCheck) (tag : MappingTag) (m : AttributeMap) :
    StateT FileMemo Checked (List Finding) :=
  match m.get? "targetEntity".toList with
  | none => return []
  | some value => do
    let target ← shortClass p value.text
    let getter ← contractFindings
      { PropertyCheck.contract tag.kind .getter "get" p.name with returns := some (.type target) }
      p.options.baseTypes p.file tag.position
    let setter ← contractFindings
      { PropertyCheck.contract tag.kind .setter "set" p.name with
        returns := some .fluent
        argument := some ⟨p.name, some target, p.isNullableRelation⟩ }
      p.options.baseTypes p.file tag.position
    return getter ++ setter

/-- The fault of a collection that the constructor does not make. -/
def collectionFindings (p : PropertyCheck) (kind : MappingKind) : Checked (List Finding) := do
  let var := String.ofList p.name
  match ← initialValue? p.file p.name with
  | none =>
    return [PropertyCheck.fault p.token s!"{kind.name}VariableNotInitialized"
      s!"Variable \"{var}\" must be initialized in the class constructor"]
  | some value =>
    if Text.lower (Text.trim value) = PropertyCheck.newCollection then return []
    else
      let found := String.ofList value
      let rule := s!"Variable \"{var}\" must be initialized in the class constructor"
      return [PropertyCheck.fault p.token s!"{kind.name}VariableCollection"
        s!"{rule} as ArrayCollection; found \"{found}\""]

/-- The faults of the adder, remover and getter of a relation to many objects. -/
def manyAccessorFindings (p : PropertyCheck) (tag : MappingTag) (singular target : Text) :
    StateT FileMemo Checked (List Finding) := do
  let adder ← contractFindings
    { PropertyCheck.contract tag.kind .adder "add" singular with
      returns := some .fluent
      argument := some ⟨singular, some target, false⟩ }
    p.options.baseTypes p.file tag.position
  let remover ← contractFindings
    { PropertyCheck.contract tag.kind .remover "remove" singular with
      argument := some ⟨singular, some target, false⟩ }
    p.options.baseTypes p.file tag.position
  let getter ← contractFindings
    { PropertyCheck.contract tag.kind .getter "get" p.name with
      returns := some (.type (PropertyCheck.collectionType target)) }
    p.options.baseTypes p.file tag.position
  return adder ++ remover ++ getter

/-- The faults of the accessors of a relation to many objects, if it names a class. -/
def targetFindings (p : PropertyCheck) (tag : MappingTag) (m : AttributeMap) (singular : Text) :
    StateT FileMemo Checked (List Finding) :=
  match m.get? "targetEntity".toList with
  | none => return []
  | some value => do manyAccessorFindings p tag singular (← shortClass p value.text)

/-- The faults of a relation to many objects: of its name, of the constructor and of the
accessors. -/
def toManyFindings (p : PropertyCheck) (tag : MappingTag) (m : AttributeMap) :
    StateT FileMemo Checked (List Finding) := do
  let var := String.ofList p.name
  let singular ← (Bytewise.singular? p.name : Checked _)
  let kindName := tag.kind.name
  let misnamed := if singular.isSome then [] else
    [PropertyCheck.fault p.token s!"{kindName}VariablePlural"
      s!"Variable \"{kindName}\" name \"{var}\" must be plural"]
  let lacking ← lacksConstructor p.file
  let missing := if lacking then
      [PropertyCheck.fault p.token "ConstructorRequired"
        "Class should have constructor with properties initialization."]
    else []
  let collection ← (collectionFindings p tag.kind : Checked _)
  let accessors ← targetFindings p tag m (singular.getD p.name)
  return misnamed ++ missing ++ collection ++ accessors

/-! ### All annotations -/

/-- The faults of an annotation with some attributes that come from its kind. -/
def kindFindings (p : PropertyCheck) (tag : MappingTag) (m : AttributeMap) :
    StateT FileMemo Checked (List Finding) :=
  if tag.kind = .column then columnFindings p tag m
  else if tag.kind = .joinColumn then (joinColumnFindings p tag m : Checked _)
  else if tag.kind.isToOne then toOneFindings p tag m
  else if tag.kind.isToMany then toManyFindings p tag m
  else return []

/-- The faults of an annotation. -/
def tagFindings (p : PropertyCheck) (tag : MappingTag) :
    StateT FileMemo Checked (List Finding) := do
  let m := p.completed tag
  let schema := (tag.kind.validate m p.tags.kinds).map fun issue =>
    PropertyCheck.fault tag.position issue.code issue.message
  return schema ++ (← kindFindings p tag m)

/-- The faults of a property that it does not suppress. -/
def findings (p : PropertyCheck) : StateT FileMemo Checked (List Finding) := do
  let findings ← p.tags.tags.mapM (tagFindings p)
  let all := p.tags.tags.flatMap PropertyCheck.spellingFindings ++ findings.flatten
  return all.filter fun finding => !p.tags.ignored.contains finding.code.toList

/-- The faults of the property declared by a variable. A property without annotations has none. -/
def propertyFindings (options : MappingOptions) (f : SourceFile) (i : Nat) :
    StateT FileMemo Checked (List Finding) := do
  let tags ← (propertyTags f i EntityMapping.code.toList : Checked _)
  if tags.tags.isEmpty then return []
  else
    let p ← (propertyCheck options f i tags : Checked _)
    findings p

/-- The faults of the properties of a file, in order. -/
def mappingFindings (options : MappingOptions) (f : SourceFile) : Checked (List Finding) := do
  let (perProperty, _) ← (f.propertyTokens.mapM (propertyFindings options f)).run FileMemo.empty
  return perProperty.flatten

/-! ### The faults that are found -/

section Check

variable {p : PropertyCheck} {tag : MappingTag}

theorem renamingFault_eq (h : tag.stop ≤ p.file.tokens.size) (code message : String)
    (old new : Text) : renamingFault p tag code message old new =
      .ok (p.renamingFault tag code message old new) := by
  rw [renamingFault, literalEdit?_eq h]
  rfl

theorem shortClass_yields (p : PropertyCheck) (className : Text) :
    Yields (shortClass p className) (p.shortClass className) := by
  refine Yields.check (Bytewise.shortClassName_eq className) ?_
  rw [PropertyCheck.shortClass]
  split
  · exact classNameAt_yields p.file p.token
  · exact Yields.pure _

theorem columnNameFindings_eq (h : tag.stop ≤ p.file.tokens.size) (m : AttributeMap) :
    columnNameFindings p tag m = .ok (p.columnNameFindings tag m) := by
  rw [columnNameFindings, PropertyCheck.columnNameFindings]
  cases m.get? "name".toList with
  | none => rfl
  | some value =>
    dsimp only
    split
    · rw [renamingFault_eq h]
      rfl
    · rfl

theorem joinColumnFindings_eq (h : tag.stop ≤ p.file.tokens.size) (m : AttributeMap) :
    joinColumnFindings p tag m = .ok (p.joinColumnFindings tag m) := by
  rw [joinColumnFindings, PropertyCheck.joinColumnFindings]
  cases m.get? "name".toList with
  | none => rfl
  | some value =>
    dsimp only
    split
    · rw [renamingFault_eq h]
      rfl
    · rfl

theorem columnType_yields (p : PropertyCheck) (m : AttributeMap) (typeValue : AttributeValue) :
    Yields (columnType p m typeValue) (p.columnType m typeValue) := by
  unfold columnType PropertyCheck.columnType
  cases m.get? "enumType".toList with
  | none => exact Yields.pure _
  | some enum => exact shortClass_yields p enum.text

theorem columnFindings_yields (hf : p.file.Linked) (h : tag.stop ≤ p.file.tokens.size)
    (m : AttributeMap) : Yields (columnFindings p tag m) (p.columnFindings tag m) := by
  unfold columnFindings PropertyCheck.columnFindings heldFindings
  cases m.get? "type".toList with
  | none =>
    dsimp only
    rw [pure_bind]
    refine (contractFindings_yields hf _ _ _).bind fun getter => ?_
    refine (contractFindings_yields hf _ _ _).bind fun setter => ?_
    exact Yields.check (columnNameFindings_eq h m) (Yields.pure _)
  | some typeValue =>
    refine (columnType_yields p m typeValue).bind fun columnType => ?_
    dsimp only
    rw [pure_bind]
    refine (contractFindings_yields hf _ _ _).bind fun getter => ?_
    refine (contractFindings_yields hf _ _ _).bind fun setter => ?_
    exact Yields.check (columnNameFindings_eq h m) (Yields.pure _)

theorem toOneFindings_yields (hf : p.file.Linked) (m : AttributeMap) :
    Yields (toOneFindings p tag m) (p.toOneFindings tag m) := by
  unfold toOneFindings PropertyCheck.toOneFindings
  cases m.get? "targetEntity".toList with
  | none => exact Yields.pure []
  | some value =>
    refine (shortClass_yields p value.text).bind fun target => ?_
    refine (contractFindings_yields hf _ _ _).bind fun getter => ?_
    exact (contractFindings_yields hf _ _ _).bind fun setter => Yields.pure _

theorem collectionFindings_eq (p : PropertyCheck) (kind : MappingKind) :
    collectionFindings p kind = .ok (p.collectionFindings kind) := by
  rw [collectionFindings, PropertyCheck.collectionFindings, initialValue?_eq, ok_bind]
  cases p.file.initialValue? p.name with
  | none => rfl
  | some value =>
    dsimp only
    split <;> rfl

theorem manyAccessorFindings_yields (hf : p.file.Linked) (singular target : Text) :
    Yields (manyAccessorFindings p tag singular target)
      (p.manyAccessorFindings tag singular target) := by
  refine (contractFindings_yields hf _ _ _).bind fun adder => ?_
  refine (contractFindings_yields hf _ _ _).bind fun remover => ?_
  exact (contractFindings_yields hf _ _ _).bind fun getter => Yields.pure _

theorem toManyFindings_yields (hf : p.file.Linked) (m : AttributeMap) :
    Yields (toManyFindings p tag m) (p.toManyFindings tag m) := by
  unfold PropertyCheck.toManyFindings
  refine Yields.check (Bytewise.singular?_eq p.name) ?_
  refine (lacksConstructor_yields p.file).bind fun lacking => ?_
  refine Yields.check (collectionFindings_eq p tag.kind) ?_
  unfold targetFindings
  cases m.get? "targetEntity".toList with
  | none => exact Yields.pure _
  | some value =>
    dsimp only
    rw [bind_assoc]
    refine (shortClass_yields p value.text).bind fun target => ?_
    exact (manyAccessorFindings_yields hf _ target).bind fun accessors => Yields.pure _

theorem kindFindings_yields (hf : p.file.Linked) (h : tag.stop ≤ p.file.tokens.size)
    (m : AttributeMap) : Yields (kindFindings p tag m) (p.kindFindings tag m) := by
  unfold kindFindings PropertyCheck.kindFindings
  split_ifs
  · exact columnFindings_yields hf h m
  · exact Yields.lift (joinColumnFindings_eq h m)
  · exact toOneFindings_yields hf m
  · exact toManyFindings_yields hf m
  · exact Yields.pure []

theorem findings_yields (hf : p.file.Linked)
    (h : ∀ tag ∈ p.tags.tags, tag.stop ≤ p.file.tokens.size) :
    Yields (findings p) p.findings := by
  unfold PropertyCheck.findings PropertyCheck.allFindings
  rw [bind_assoc]
  refine Yields.bind (Yields.mapM fun tag htag => ?_) fun findings => Yields.pure _
  exact (kindFindings_yields hf (h tag htag) _).bind fun _ => Yields.pure _

end Check

theorem propertyCheck_eq (options : MappingOptions) {i : ℕ} (h : i < f.tokens.size)
    (tags : PropertyTags) :
    propertyCheck options f i tags = .ok { options, file := f, token := i, tags } := by
  rw [propertyCheck, property_eq (if_pos h.le), ok_bind, textAt_eq h]
  rfl

theorem propertyFindings_yields (hf : f.Linked) (options : MappingOptions) {i : ℕ}
    (h : i < f.tokens.size) :
    Yields (propertyFindings options f i) (EntityMapping.propertyFindings options f i) := by
  refine Yields.check (propertyTags_eq hf i EntityMapping.code.toList) ?_
  rw [EntityMapping.propertyFindings]
  split
  · exact Yields.pure []
  · refine Yields.check (propertyCheck_eq options h _) ?_
    exact findings_yields hf fun tag htag => stop_le_of_mem_propertyTags hf htag

/-- **The faults of entity mappings.** -/
theorem mappingFindings_eq (hf : f.Linked) (options : MappingOptions) :
    mappingFindings options f = .ok (EntityMapping.findings options f) := by
  have hyields : Yields (f.propertyTokens.mapM (propertyFindings options f))
      (f.propertyTokens.mapM (EntityMapping.propertyFindings options f)) :=
    Yields.mapM fun i hi => propertyFindings_yields hf options (SourceFile.lt_size_of_mem_propertyTokens hi)
  rw [mappingFindings, hyields FileMemo.empty]
  rfl

end Guarded

end EntityLint
