import EntityLint.Proofs.Mapping.NameWords
import EntityLint.Proofs.Mapping.Reread
import EntityLint.Rule.EntityMapping
import Mathlib.Data.List.Forall2
import Mathlib.Tactic

/-!
# Faults of mappings

The faults of names are the only ones with their codes and the only ones that can be mended. All others
are plain.

* `Finding.IsPlain`: findings without a repair that are no faults of names;
* `Answers`: what an action answers, whatever is remembered;
* `PropertyCheck.nameFindings`, `EntityMapping.misnamings`: the faults of the name of an annotation, and
  those of them that are not suppressed.

The main statement is `EntityMapping.findings_spec`.
-/

namespace EntityLint

open Lexeme Text

/-- The codes of the faults of names. -/
def namingCodes : List String := ["ColumnUnderscored", "JoinColumnNameFormat"]

/-- A finding without a repair that is no fault of a name. -/
def Finding.IsPlain (x : Finding) : Prop := x.repair = none ∧ x.code ∉ namingCodes

/-! ### Actions -/

/-- Whatever is remembered, an action answers something with a property. -/
def Answers {σ α : Type} (P : α → Prop) (m : StateM σ α) : Prop := ∀ s, P (m.run s).1

section Answers

variable {σ α β : Type} {P : α → Prop} {Q : β → Prop}

theorem answers_pure {a : α} (h : P a) : Answers P (pure a : StateM σ α) := fun _ => h

theorem answers_bind {m : StateM σ α} {k : α → StateM σ β} (hm : Answers P m)
    (hk : ∀ a, P a → Answers Q (k a)) : Answers Q (m >>= k) := fun s => hk _ (hm s) _

theorem answers_true (m : StateM σ α) : Answers (fun _ => True) m := fun _ => trivial

theorem Answers.imp {P' : α → Prop} {m : StateM σ α} (hm : Answers P m) (h : ∀ a, P a → P' a) :
    Answers P' m := fun s => h _ (hm s)

theorem answers_mapM {R : α → β → Prop} {g : α → StateM σ β} {l : List α}
    (h : ∀ a ∈ l, Answers (R a) (g a)) : Answers (List.Forall₂ R l) (l.mapM g) := by
  induction l with
  | nil =>
    rw [List.mapM_nil]
    exact answers_pure .nil
  | cons a l ih =>
    obtain ⟨ha, hl⟩ := List.forall_mem_cons.1 h
    rw [List.mapM_cons]
    exact answers_bind ha fun b hb => answers_bind (ih hl) fun bs hbs => answers_pure (.cons hb hbs)

end Answers

/-! ### Plain findings -/

theorem isPlain_fault (token : ℕ) {code : String} (message : String) (h : code ∉ namingCodes) :
    (PropertyCheck.fault token code message).IsPlain := ⟨rfl, h⟩

/-- All findings are plain. -/
def AllPlain (xs : List Finding) : Prop := ∀ x ∈ xs, x.IsPlain

theorem AllPlain.append {xs ys : List Finding} (hx : AllPlain xs) (hy : AllPlain ys) :
    AllPlain (xs ++ ys) := List.forall_mem_append.2 ⟨hx, hy⟩

theorem allPlain_nil : AllPlain [] := fun _ hx => (List.not_mem_nil hx).elim

/-- A code that begins with the name of a kind and goes on as no code of a name does. -/
theorem not_mem_namingCodes (kind : MappingKind) (part rest : String) {code : String}
    (hcode : code = kind.name ++ part ++ rest)
    (hpart : ∀ kind : MappingKind, ∀ naming ∈ namingCodes,
      ¬kind.name.toList ++ part.toList <+: naming.toList) : code ∉ namingCodes := by
  intro hmem
  refine hpart kind code hmem ⟨rest.toList, ?_⟩
  rw [hcode, String.toList_append, String.toList_append]

theorem SchemaIssue.code_not_mem (issue : SchemaIssue) : issue.code ∉ namingCodes := by
  cases issue <;> simp [code, namingCodes]

theorem AttributeIssue.code_not_mem (issue : AttributeIssue) : issue.code ∉ namingCodes := by
  cases issue <;> simp [code, namingCodes]

namespace Contract

variable {f : SourceFile} {c : Contract} {method : ℕ} {name : Text} {x : Finding}

theorem code_not_mem (c : Contract) (ending : String) : c.code ending ∉ namingCodes := by
  refine not_mem_namingCodes c.kind c.role.codeName ending rfl fun kind => ?_
  cases c.role <;> cases kind <;> decide

theorem isPlain_fault (c : Contract) (token : ℕ) (ending message : String) :
    (c.fault token ending message).IsPlain := ⟨rfl, c.code_not_mem ending⟩

theorem exists_fault_of_mem_returnFindings {expected : Text}
    (hx : x ∈ c.returnFindings f method name expected) :
    ∃ ending message, x = c.fault method ending message := by
  simp only [returnFindings, List.mem_append, List.mem_ite_nil_right, List.mem_singleton] at hx
  rcases hx with (⟨-, rfl⟩ | ⟨-, rfl⟩) | ⟨-, rfl⟩ <;> exact ⟨_, _, rfl⟩

theorem exists_fault_of_mem_parameterFindings {bases : BaseTypes} {argument : ArgumentSpec}
    {p : Parameter} (hx : x ∈ c.parameterFindings bases f method name argument p) :
    ∃ ending message, x = c.fault method ending message := by
  simp only [parameterFindings, List.mem_append, List.mem_ite_nil_right, List.mem_singleton,
    Option.mem_toList, Option.map_eq_some_iff] at hx
  rcases hx with (((⟨-, rfl⟩ | ⟨_, -, rfl⟩) | ⟨-, rfl⟩) | ⟨-, rfl⟩) | ⟨_, -, rfl⟩ <;>
    exact ⟨_, _, rfl⟩

theorem exists_fault_of_mem_argumentFindings {bases : BaseTypes} {argument : ArgumentSpec}
    (hx : x ∈ c.argumentFindings bases f method name argument) :
    ∃ ending message, x = c.fault method ending message := by
  unfold argumentFindings at hx
  split at hx
  · exact ⟨_, _, List.mem_singleton.1 hx⟩
  · exact exists_fault_of_mem_parameterFindings hx

/-- The findings of a contract are faults at its method, and at the annotation if there is none. -/
def FaultsAt (c : Contract) (f : SourceFile) (tagToken : ℕ) (xs : List Finding) : Prop :=
  ∀ x ∈ xs, ∃ token ending message, x = c.fault token ending message ∧
    (token = tagToken ∨ ∃ name, c.find? f = some (token, name))

theorem answers_faultsAt {bases : BaseTypes} {tagToken : ℕ} :
    Answers (c.FaultsAt f tagToken) (c.findings bases f tagToken) := by
  unfold findings
  split
  · refine answers_pure fun x hx => ?_
    exact ⟨_, _, _, List.mem_singleton.1 (List.mem_ite_nil_right.1 hx).2, .inl rfl⟩
  · next method name hfind =>
    have hnone : c.FaultsAt f tagToken [] := fun x hx => (List.not_mem_nil hx).elim
    have hboth : ∀ passed, c.FaultsAt f tagToken passed → ∀ returned, c.FaultsAt f tagToken returned →
        Answers (c.FaultsAt f tagToken) (pure (returned ++ passed) : StateM FileMemo (List Finding)) :=
      fun passed hpassed returned hreturned =>
        answers_pure (List.forall_mem_append.2 ⟨hreturned, hpassed⟩)
    have hargument : ∀ argument,
        c.FaultsAt f tagToken (c.argumentFindings bases f method name argument) := by
      intro argument x hx
      obtain ⟨ending, message, rfl⟩ := exists_fault_of_mem_argumentFindings hx
      exact ⟨method, ending, message, rfl, .inr ⟨name, hfind⟩⟩
    have hreturns : ∀ expected,
        c.FaultsAt f tagToken (c.returnFindings f method name expected) := by
      intro expected x hx
      obtain ⟨ending, message, rfl⟩ := exists_fault_of_mem_returnFindings hx
      exact ⟨method, ending, message, rfl, .inr ⟨name, hfind⟩⟩
    cases c.returns with
    | none =>
      cases c.argument with
      | none => exact answers_bind (answers_pure hnone) (hboth _ hnone)
      | some argument => exact answers_bind (answers_pure hnone) (hboth _ (hargument argument))
    | some spec =>
      refine answers_bind (answers_true _) fun expected _ =>
        answers_bind (answers_pure (hreturns expected)) ?_
      cases c.argument with
      | none => exact hboth _ hnone
      | some argument => exact hboth _ (hargument argument)

theorem answers_findings {bases : BaseTypes} {tagToken : ℕ} :
    Answers AllPlain (c.findings bases f tagToken) := by
  refine answers_faultsAt.imp fun xs hxs x hx => ?_
  obtain ⟨token, ending, message, rfl, -⟩ := hxs x hx
  exact c.isPlain_fault token ending message

end Contract

theorem Finding.IsPlain.all {x : Finding} (h : x.IsPlain) : AllPlain [x] :=
  fun _ hy => List.mem_singleton.1 hy ▸ h

theorem AllPlain.ite {xs ys : List Finding} {p : Prop} [Decidable p] (hx : AllPlain xs)
    (hy : AllPlain ys) : AllPlain (if p then xs else ys) := by
  split
  · exact hx
  · exact hy

/-- All findings are plain but for some, which are there. -/
def PlainOr (names xs : List Finding) : Prop := (∀ x ∈ xs, x.IsPlain ∨ x ∈ names) ∧ names ⊆ xs

section PlainOr

variable {names xs ys : List Finding}

theorem PlainOr.refl (names : List Finding) : PlainOr names names :=
  ⟨fun _ => .inr, List.Subset.refl _⟩

theorem AllPlain.plainOr (h : AllPlain xs) : PlainOr [] xs :=
  ⟨fun x hx => .inl (h x hx), List.nil_subset _⟩

theorem PlainOr.append {names' : List Finding} (h : PlainOr names xs) (h' : PlainOr names' ys) :
    PlainOr (names ++ names') (xs ++ ys) := by
  refine ⟨fun x hx => ?_, List.append_subset.2
    ⟨List.subset_append_of_subset_left _ h.2, List.subset_append_of_subset_right _ h'.2⟩⟩
  rcases List.mem_append.1 hx with hx | hx
  · exact (h.1 x hx).imp_right (List.mem_append_left _)
  · exact (h'.1 x hx).imp_right (List.mem_append_right _)

theorem PlainOr.append_plain (h : PlainOr names xs) (hy : AllPlain ys) : PlainOr names (xs ++ ys) := by
  simpa using h.append hy.plainOr

theorem PlainOr.plain_append (hx : AllPlain xs) (h : PlainOr names ys) : PlainOr names (xs ++ ys) :=
  hx.plainOr.append h

theorem PlainOr.filter (h : PlainOr names xs) (keep : Finding → Bool) :
    PlainOr (names.filter keep) (xs.filter keep) := by
  refine ⟨fun x hx => ?_, List.filter_subset keep h.2⟩
  obtain ⟨hx, hkeep⟩ := List.mem_filter.1 hx
  exact (h.1 x hx).imp_right fun hname => List.mem_filter.2 ⟨hname, hkeep⟩

/-- What is said of lists one by one is said of all of them together. -/
theorem PlainOr.flatten {α : Type} {names : α → List Finding} {l : List α} {xss : List (List Finding)}
    (h : List.Forall₂ (fun a => PlainOr (names a)) l xss) : PlainOr (l.flatMap names) xss.flatten := by
  induction h with
  | nil => exact .refl _
  | cons hx _ ih => exact hx.append ih

end PlainOr

/-! ### Findings of a property -/

namespace PropertyCheck

variable {p : PropertyCheck} {tag : MappingTag} {m : AttributeMap}

/-- The faults of the name of an annotation. -/
def nameFindings (p : PropertyCheck) (tag : MappingTag) : List Finding :=
  if tag.kind = .column then p.columnNameFindings tag (p.completed tag)
  else if tag.kind = .joinColumn then p.joinColumnFindings tag (p.completed tag)
  else []

theorem allPlain_declaredTypeFindings {expected : Text} :
    AllPlain (p.declaredTypeFindings tag expected) := by
  intro x hx
  simp only [declaredTypeFindings, List.mem_append, List.mem_ite_nil_right, List.mem_singleton,
    Option.mem_toList, Option.map_eq_some_iff] at hx
  rcases hx with (⟨-, rfl⟩ | ⟨_, -, rfl⟩) | ⟨_, -, rfl⟩ <;> exact isPlain_fault _ _ (by decide)

theorem allPlain_columnSizeFindings {columnType : Text} :
    AllPlain (columnSizeFindings tag m columnType) := by
  intro x hx
  simp only [columnSizeFindings, List.mem_append, List.mem_ite_nil_right, List.mem_singleton] at hx
  rcases hx with ⟨-, rfl⟩ | ⟨-, rfl⟩ <;> exact isPlain_fault _ _ (by decide)

theorem isPlain_variableFault (kind : MappingKind) (token : ℕ) {code : String} (ending message : String)
    (hcode : code = kind.name ++ "Variable" ++ ending) :
    (fault token code message).IsPlain := by
  refine isPlain_fault _ _ (not_mem_namingCodes kind "Variable" ending hcode fun kind => ?_)
  cases kind <;> decide

theorem allPlain_collectionFindings {kind : MappingKind} :
    AllPlain (p.collectionFindings kind) := by
  intro x hx
  unfold collectionFindings at hx
  split at hx
  · rw [List.mem_singleton.1 hx]
    exact isPlain_variableFault kind _ "NotInitialized" _ (by
      rw [String.append_assoc]; rfl)
  · dsimp only at hx
    split at hx
    · cases hx
    · rw [List.mem_singleton.1 hx]
      exact isPlain_variableFault kind _ "Collection" _ (by
        rw [String.append_assoc]; rfl)

theorem answers_columnFindings :
    Answers (PlainOr (p.columnNameFindings tag m)) (p.columnFindings tag m) := by
  have hrest : ∀ (typed : List Finding) (getter setter : Contract), AllPlain typed →
      Answers (PlainOr (p.columnNameFindings tag m)) (do
        let getter ← getter.findings p.options.baseTypes p.file tag.position
        let setter ← setter.findings p.options.baseTypes p.file tag.position
        return p.columnNameFindings tag m ++ typed ++ getter ++ setter) :=
    fun typed getter setter htyped =>
      answers_bind Contract.answers_findings fun _ hgetter =>
        answers_bind Contract.answers_findings fun _ hsetter =>
          answers_pure ((((PlainOr.refl _).append_plain htyped).append_plain hgetter).append_plain hsetter)
  unfold columnFindings
  cases m.get? "type".toList with
  | none =>
    exact answers_bind (P := fun x => AllPlain x.2) (answers_pure allPlain_nil) fun x hx => hrest x.2 _ _ hx
  | some typeValue =>
    refine answers_bind (answers_true _) fun columnType _ =>
      answers_bind (P := fun x => AllPlain x.2) (answers_pure ?_) fun x hx => hrest x.2 _ _ hx
    refine AllPlain.append ?_ allPlain_columnSizeFindings
    split
    · exact allPlain_nil
    · exact allPlain_declaredTypeFindings

theorem answers_toOneFindings : Answers AllPlain (p.toOneFindings tag m) := by
  unfold toOneFindings
  split
  · exact answers_pure allPlain_nil
  · exact answers_bind (answers_true _) fun _ _ =>
      answers_bind Contract.answers_findings fun _ hgetter =>
        answers_bind Contract.answers_findings fun _ hsetter =>
          answers_pure (hgetter.append hsetter)

theorem answers_manyAccessorFindings {singular target : Text} :
    Answers AllPlain (p.manyAccessorFindings tag singular target) :=
  answers_bind Contract.answers_findings fun _ hadder =>
    answers_bind Contract.answers_findings fun _ hremover =>
      answers_bind Contract.answers_findings fun _ hgetter =>
        answers_pure ((hadder.append hremover).append hgetter)

theorem answers_toManyFindings : Answers AllPlain (p.toManyFindings tag m) := by
  have hrest : ∀ xs ys accessors : List Finding, AllPlain xs → AllPlain ys → AllPlain accessors →
      AllPlain (xs ++ ys ++ p.collectionFindings tag.kind ++ accessors) :=
    fun xs ys accessors hxs hys haccessors =>
      ((hxs.append hys).append allPlain_collectionFindings).append haccessors
  have hplural : ∀ message, AllPlain (if (Naming.singular? p.name).isSome = true then [] else
      [fault p.token s!"{tag.kind.name}VariablePlural" message]) := by
    intro message
    refine AllPlain.ite allPlain_nil (isPlain_variableFault tag.kind p.token "Plural" _ ?_).all
    rw [String.append_assoc]
    rfl
  have hconstructor : ∀ (lacks : Bool) (message : String), AllPlain (if lacks = true then
      [fault p.token "ConstructorRequired" message] else []) :=
    fun lacks message => AllPlain.ite (isPlain_fault _ _ (by decide)).all allPlain_nil
  unfold toManyFindings
  refine answers_bind (answers_true _) fun lacks _ => ?_
  cases m.get? "targetEntity".toList with
  | none =>
    exact answers_bind (P := AllPlain) (answers_pure allPlain_nil) fun accessors h =>
      answers_pure (hrest _ _ _ (hplural _) (hconstructor _ _) h)
  | some value =>
    exact answers_bind (answers_true _) fun target _ =>
      answers_bind answers_manyAccessorFindings fun accessors h =>
        answers_pure (hrest _ _ _ (hplural _) (hconstructor _ _) h)

theorem answers_kindFindings :
    Answers (PlainOr (p.nameFindings tag)) (p.kindFindings tag (p.completed tag)) := by
  unfold kindFindings nameFindings
  split_ifs
  · exact answers_columnFindings
  · exact answers_pure (.refl _)
  · exact answers_toOneFindings.imp fun _ => AllPlain.plainOr
  · exact answers_toManyFindings.imp fun _ => AllPlain.plainOr
  · exact answers_pure (.refl _)

theorem answers_tagFindings : Answers (PlainOr (p.nameFindings tag)) (p.tagFindings tag) := by
  refine answers_bind answers_kindFindings fun findings hfindings =>
    answers_pure (PlainOr.plain_append (fun x hx => ?_) hfindings)
  obtain ⟨issue, -, rfl⟩ := List.mem_map.1 hx
  exact isPlain_fault _ _ issue.code_not_mem

/-- The faults of a property are plain, but for those of the names of its annotations. -/
theorem answers_allFindings : Answers (PlainOr (p.tags.tags.flatMap p.nameFindings)) p.allFindings := by
  refine answers_bind (answers_mapM fun tag _ => answers_tagFindings) fun findings hfindings =>
    answers_pure (PlainOr.plain_append (fun x hx => ?_) (PlainOr.flatten hfindings))
  obtain ⟨tag, -, hx⟩ := List.mem_flatMap.1 hx
  obtain ⟨issue, -, rfl⟩ := List.mem_map.1 hx
  exact isPlain_fault _ _ issue.code_not_mem

theorem answers_findings : Answers (PlainOr (p.tags.tags.flatMap fun tag =>
    (p.nameFindings tag).filter fun x => !p.tags.ignored.contains x.code.toList)) p.findings := by
  refine answers_bind answers_allFindings fun findings hfindings => answers_pure ?_
  rw [← List.filter_flatMap]
  exact hfindings.filter _

end PropertyCheck

/-! ### Faults of names -/

theorem isWordChar_toLower (c : Char) : isWordChar c.toLower = isWordChar c := by
  have hletter : ∀ d : Char, d.isAlpha = true → (!isWordChar d) = false := by
    intro d hd
    rw [isWordChar, Char.isAlphanum, hd]
    rfl
  exact Bool.not_inj (Naming.apply_toLower (p := fun c => !isWordChar c) hletter c)

/-- The name of a column for a property is a name, too. -/
theorem Naming.isWordChar_underScore {name : Text} (h : ∀ c ∈ name, isWordChar c = true) :
    ∀ c ∈ underScore name, isWordChar c = true :=
  forall_mem_underScore rfl (fun c hc => by rwa [isWordChar_toLower]) h

/-- The type that a property gives an annotation is no name. -/
theorem AttributeMap.get?_infer {m : AttributeMap} {kind : MappingKind} {type name : Text}
    (hname : name ∉ ["type".toList, "enumType".toList, "targetEntity".toList]) :
    (m.infer kind type).get? name = m.get? name := by
  simp only [List.mem_cons, List.not_mem_nil, or_false, not_or] at hname
  obtain ⟨htype, henum, htarget⟩ := hname
  have hcolumn : ∀ type, (m.inferColumn type).get? name = m.get? name := by
    intro type
    unfold inferColumn
    split
    · rw [get?_insert, if_neg htype]
    · split
      · rw [get?_insert, if_neg henum, get?_insert, if_neg htype]
      · rfl
  unfold infer
  dsimp only
  split_ifs
  · rfl
  · exact hcolumn _
  · rw [get?_insert, if_neg htarget]
  · rfl

namespace PropertyCheck

variable {p p' : PropertyCheck} {tag tag' : MappingTag} {x : Finding}

/-- The name that an annotation of a column should have. -/
def expectedName (p : PropertyCheck) (tag : MappingTag) : Text :=
  if tag.kind = .column then Naming.underScore p.name else Naming.underScore p.name ++ "_id".toList

theorem isWordChar_expectedName (hname : ∀ c ∈ p.name, isWordChar c = true) :
    ∀ c ∈ p.expectedName tag, isWordChar c = true := by
  unfold expectedName
  split
  · exact Naming.isWordChar_underScore hname
  · exact List.forall_mem_append.2 ⟨Naming.isWordChar_underScore hname, List.all_eq_true.1 rfl⟩

theorem get?_completed (p : PropertyCheck) (tag : MappingTag) :
    (p.completed tag).get? "name".toList = tag.attributes.get? "name".toList := by
  unfold completed
  split
  · exact AttributeMap.get?_infer (by decide)
  · rfl

/-- A fault of a name is mended by writing the name that the annotation should have. -/
theorem exists_of_mem_nameFindings (hx : x ∈ p.nameFindings tag) :
    ∃ value code message, tag.attributes.get? "name".toList = some value ∧
      x = p.renamingFault tag code message value.text (p.expectedName tag) := by
  unfold nameFindings at hx
  split at hx
  · next hkind =>
    unfold columnNameFindings at hx
    rw [get?_completed] at hx
    split at hx
    · cases hx
    · next value hvalue =>
      obtain rfl := List.mem_singleton.1 (List.mem_ite_nil_right.1 hx).2
      exact ⟨value, _, _, hvalue, by rw [expectedName, if_pos hkind]⟩
  · next hkind =>
    obtain ⟨-, hx⟩ := List.mem_ite_nil_right.1 hx
    unfold joinColumnFindings at hx
    rw [get?_completed] at hx
    split at hx
    · cases hx
    · next value hvalue =>
      obtain rfl := List.mem_singleton.1 (List.mem_ite_nil_right.1 hx).2
      exact ⟨value, _, _, hvalue, by rw [expectedName, if_neg hkind]⟩

/-- An annotation with the name that it should have has no fault of its name. -/
theorem nameFindings_eq_nil (hname : ∀ c ∈ p.name, isWordChar c = true)
    (h : tag.attributes.get? "name".toList = some (.string (p.expectedName tag))) :
    p.nameFindings tag = [] := by
  have hplain : ∀ c ∈ p.expectedName tag, isWordChar c = true := isWordChar_expectedName hname
  unfold nameFindings
  split
  · next hkind =>
    unfold columnNameFindings
    rw [get?_completed, h]
    have hbare : ∀ t : Text, (∀ c ∈ t, isWordChar c = true) → t.dropWhile (· == '\x60') = t := by
      intro t ht
      cases t with
      | nil => rfl
      | cons c t =>
        refine List.dropWhile_cons_of_neg fun hc => ?_
        have := ht c List.mem_cons_self
        rw [beq_iff_eq.1 hc] at this
        cases this
    rw [expectedName, if_pos hkind] at hplain ⊢
    refine if_neg fun hwrong => hwrong.1 ?_
    rw [AttributeValue.text, hbare _ hplain, dropEndWhile,
      hbare _ fun c hc => hplain c (List.mem_reverse.1 hc), List.reverse_reverse]
  · next hkind =>
    unfold joinColumnFindings
    rw [get?_completed, h, expectedName, if_neg hkind]
    exact ite_eq_right_iff.2 fun _ => if_neg fun hwrong => hwrong rfl

/-- Whether the name of an annotation is at fault follows from its kind and the names. -/
theorem map_code_nameFindings_eq (hname : p'.name = p.name) (hkind : tag'.kind = tag.kind)
    (hattr : tag'.attributes.get? "name".toList = tag.attributes.get? "name".toList) :
    (p'.nameFindings tag').map Finding.code = (p.nameFindings tag).map Finding.code := by
  unfold nameFindings columnNameFindings joinColumnFindings
  rw [get?_completed, get?_completed, hname, hkind, hattr]
  cases tag.attributes.get? "name".toList with
  | none => rfl
  | some value =>
    dsimp only
    split_ifs <;> rfl

end PropertyCheck

/-! ### All findings of a file -/

namespace EntityMapping

variable {options : MappingOptions} {f : SourceFile}

/-- A property of a file with its annotations. -/
def propertyCheck (options : MappingOptions) (f : SourceFile) (property : ℕ) : PropertyCheck :=
  ⟨options, f, property, f.propertyTags property code.toList⟩

/-- The faults of the name of an annotation that are not suppressed. -/
def misnamings (options : MappingOptions) (f : SourceFile) (m : ℕ × MappingTag) : List Finding :=
  let p := propertyCheck options f m.1
  (p.nameFindings m.2).filter fun x => !p.tags.ignored.contains x.code.toList

theorem answers_propertyFindings (property : ℕ) :
    Answers (PlainOr ((f.mappingTags property).flatMap fun tag => misnamings options f (property, tag)))
      (propertyFindings options f property) := by
  unfold propertyFindings
  dsimp only
  split
  · next hempty =>
    rw [SourceFile.mappingTags, List.isEmpty_iff.1 hempty]
    exact answers_pure (.refl _)
  · exact PropertyCheck.answers_findings

/-- **The faults of the mappings of a file are plain, but for those of the names of annotations, which are
all there.** -/
theorem findings_spec (options : MappingOptions) (f : SourceFile) :
    PlainOr (f.mappings.flatMap (misnamings options f)) (findings options f) := by
  have hproperties : Answers (List.Forall₂ (fun property => PlainOr ((f.mappingTags property).flatMap
      fun tag => misnamings options f (property, tag))) f.propertyTokens)
      (f.propertyTokens.mapM (propertyFindings options f)) :=
    answers_mapM fun property _ => answers_propertyFindings property
  have hall := PlainOr.flatten (hproperties FileMemo.empty)
  rw [SourceFile.mappings, List.flatMap_assoc]
  simpa only [List.flatMap_map, findings] using hall

end EntityMapping

end EntityLint
