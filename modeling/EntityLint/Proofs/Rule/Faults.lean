import EntityLint.Proofs.Rule.Findings

/-!
# What is found for an annotation

Whatever the check of an annotation reports is a fault of one of a few sorts. What holds of all reports,
or of all with some code, is shown sort by sort.

* `PropertyCheck.IsFault`: the sorts of faults;
* `kindCode_ne`: codes that begin with the name of a kind;
* `Contract.run_findings`: the findings for the method that a contract names;
* `PropertyCheck.answers_isFault`, `EntityMapping.exists_isFault`: nothing else is found for an annotation
  and in a file.
-/

namespace EntityLint

open Lexeme Text

/-- A code that begins with the name of a kind is none that does not begin so. -/
theorem kindCode_ne {kind : MappingKind} {part code : String} (rest : String)
    (hpart : ∀ kind : MappingKind, ¬kind.name.toList ++ part.toList <+: code.toList) :
    kind.name ++ part ++ rest ≠ code := by
  rintro rfl
  refine hpart kind ⟨rest.toList, ?_⟩
  rw [String.toList_append, String.toList_append]

/-- The codes of what is wrong with an annotation as it is written, and with the type of a column. -/
def annotationCodes : List String :=
  ["AnnotationRequired", "AttributeRequired", "AttributeUnknown", "AttributeInvalidType",
    "AttributeUnknownType", "ExtraSpace", "NeedSpace", "UnexpectedEnd", "VariableTypeRequired",
    "VariableTypeMismatch", "PropertyTypeMismatch", "ColumnAttributeRequired"]

theorem SchemaIssue.code_mem_annotationCodes (issue : SchemaIssue) : issue.code ∈ annotationCodes := by
  cases issue <;> simp [code, annotationCodes]

theorem AttributeIssue.code_mem_annotationCodes (issue : AttributeIssue) :
    issue.code ∈ annotationCodes := by
  cases issue <;> simp [code, annotationCodes]

/-- Of two lists whose members are related one by one, each member of the second has one of the first. -/
theorem exists_mem_of_forall₂ {α β : Type} {R : α → β → Prop} {l : List α} {l' : List β} {b : β}
    (h : List.Forall₂ R l l') (hb : b ∈ l') : ∃ a ∈ l, R a b := by
  induction h with
  | nil => cases hb
  | cons hab _ ih =>
    rcases List.mem_cons.1 hb with rfl | hb
    · exact ⟨_, List.mem_cons_self, hab⟩
    · obtain ⟨a, ha, hR⟩ := ih hb
      exact ⟨a, List.mem_cons_of_mem _ ha, hR⟩

/-! ### Findings of a contract -/

namespace Contract

variable {f : SourceFile} {c : Contract} {bases : BaseTypes} {memo : FileMemo} {method tagToken : ℕ}
  {name : Text} {x : Finding}

theorem toList_code (c : Contract) (ending : String) :
    (c.code ending).toList = c.kind.name.toList ++ c.role.codeName.toList ++ ending.toList := by
  rw [← String.toList_append, ← String.toList_append]
  rfl

theorem code_inj {ending ending' : String} : c.code ending = c.code ending' ↔ ending = ending' := by
  rw [← String.toList_inj, toList_code, toList_code, List.append_right_inj, String.toList_inj]

/-- The findings for the method that a contract names: those of what it returns, and those of its first
argument. -/
theorem run_findings (hfind : c.find? f = some (method, name)) :
    ((c.findings bases f tagToken).run memo).1 =
      (c.returns.elim [] fun spec =>
        c.returnFindings f method name ((expectedReturn f method spec).run memo).1) ++
      c.argument.elim [] (c.argumentFindings bases f method name) := by
  unfold findings
  rw [hfind]
  dsimp only
  cases c.returns with
  | none => cases c.argument <;> rfl
  | some spec => cases c.argument <;> rfl

theorem run_findings_of_none (hfind : c.find? f = none)
    (hx : x ∈ ((c.findings bases f tagToken).run memo).1) :
    ∃ message, x = c.fault tagToken "Required" message := by
  unfold findings at hx
  rw [hfind] at hx
  exact ⟨_, List.mem_singleton.1 (List.mem_ite_nil_right.1 hx).2⟩

/-- How the codes of the findings for the first argument of a method end. -/
def argumentEndings : List String :=
  ["ArgumentRequired", "ArgumentName", "ArgumentType", "ArgumentNullable", "ArgumentNotNullable",
    "ArgumentDocType"]

theorem exists_of_mem_argumentFindings {argument : ArgumentSpec}
    (hx : x ∈ c.argumentFindings bases f method name argument) :
    ∃ ending ∈ argumentEndings, ∃ message, x = c.fault method ending message := by
  unfold argumentFindings at hx
  split at hx
  · exact ⟨_, by decide, _, List.mem_singleton.1 hx⟩
  · simp only [parameterFindings, List.mem_append, List.mem_ite_nil_right, List.mem_singleton,
      Option.mem_toList, Option.map_eq_some_iff] at hx
    rcases hx with (((⟨-, rfl⟩ | ⟨_, -, rfl⟩) | ⟨-, rfl⟩) | ⟨-, rfl⟩) | ⟨_, -, rfl⟩ <;>
      exact ⟨_, by decide, _, rfl⟩

end Contract

namespace PropertyCheck

variable {p : PropertyCheck} {tag : MappingTag} {m : AttributeMap} {x : Finding}
  {xs ys : List Finding}

theorem code_mem_namingCodes (hx : x ∈ p.nameFindings tag) : x.code ∈ namingCodes := by
  unfold nameFindings columnNameFindings joinColumnFindings at hx
  split_ifs at hx
  · split at hx
    · cases hx
    · obtain rfl := List.mem_singleton.1 (List.mem_ite_nil_right.1 hx).2
      exact List.mem_cons_self
  · split at hx
    · cases hx
    · obtain rfl := List.mem_singleton.1 (List.mem_ite_nil_right.1 hx).2
      exact List.mem_cons_of_mem _ List.mem_cons_self
  · cases hx

/-! ### Sorts of faults -/

/-- The codes of what is wrong with the variable of a collection. -/
def collectionCodes (kind : MappingKind) : List String :=
  ["VariablePlural", "VariableNotInitialized", "VariableCollection"].map (kind.name ++ ·)

/-- The fault of a class without a constructor. -/
def missingConstructor (p : PropertyCheck) : Finding :=
  fault p.token "ConstructorRequired" "Class should have constructor with properties initialization."

/-- The findings for the accessor that a contract asks for, as an annotation leads to it. -/
def accessorFindings (p : PropertyCheck) (tag : MappingTag) (c : Contract) :
    StateM FileMemo (List Finding) :=
  c.findings p.options.baseTypes p.file tag.position

/-- What may be found for an annotation: the fault of its name, other faults at it, faults at the variable
of a collection, the lack of a constructor, and what is wrong with the accessors. -/
inductive IsFault (p : PropertyCheck) (tag : MappingTag) : Finding → Prop
  | name {x : Finding} (hx : x ∈ p.nameFindings tag) : IsFault p tag x
  | written {code : String} (message : String) (hcode : code ∈ annotationCodes) :
    IsFault p tag (fault tag.position code message)
  | collection {code : String} (message : String) (hkind : tag.kind.isToMany = true)
    (hcode : code ∈ collectionCodes tag.kind) : IsFault p tag (fault p.token code message)
  | constructor (hkind : tag.kind.isToMany = true)
    (hnone : p.file.method? SourceFile.constructorName = none) : IsFault p tag p.missingConstructor
  | accessor {x : Finding} (c : Contract) (memo : FileMemo)
    (hx : x ∈ ((p.accessorFindings tag c).run memo).1) : IsFault p tag x

/-- All findings are faults of an annotation. -/
def AllFaults (p : PropertyCheck) (tag : MappingTag) (xs : List Finding) : Prop :=
  ∀ x ∈ xs, p.IsFault tag x

theorem AllFaults.append (hx : p.AllFaults tag xs) (hy : p.AllFaults tag ys) :
    p.AllFaults tag (xs ++ ys) := List.forall_mem_append.2 ⟨hx, hy⟩

theorem allFaults_nil : p.AllFaults tag [] := fun _ hx => (List.not_mem_nil hx).elim

theorem IsFault.all (h : p.IsFault tag x) : p.AllFaults tag [x] :=
  fun _ hy => List.mem_singleton.1 hy ▸ h

theorem AllFaults.ite {c : Prop} [Decidable c] (hx : p.AllFaults tag xs) (hy : p.AllFaults tag ys) :
    p.AllFaults tag (if c then xs else ys) := by
  split
  · exact hx
  · exact hy

theorem answers_accessorFindings (c : Contract) :
    Answers (p.AllFaults tag) (p.accessorFindings tag c) := fun memo _ hx => .accessor c memo hx

/-! ### Findings that are always the same -/

theorem allFaults_spellingFindings : p.AllFaults tag (spellingFindings tag) := by
  intro x hx
  obtain ⟨issue, -, rfl⟩ := List.mem_map.1 hx
  exact .written _ issue.code_mem_annotationCodes

theorem allFaults_declaredTypeFindings {expected : Text} :
    p.AllFaults tag (p.declaredTypeFindings tag expected) := by
  intro x hx
  simp only [declaredTypeFindings, List.mem_append, List.mem_ite_nil_right, List.mem_singleton,
    Option.mem_toList, Option.map_eq_some_iff] at hx
  rcases hx with (⟨-, rfl⟩ | ⟨_, -, rfl⟩) | ⟨_, -, rfl⟩ <;> exact .written _ (by decide)

theorem allFaults_columnSizeFindings {columnType : Text} :
    p.AllFaults tag (columnSizeFindings tag m columnType) := by
  intro x hx
  simp only [columnSizeFindings, List.mem_append, List.mem_ite_nil_right, List.mem_singleton] at hx
  rcases hx with ⟨-, rfl⟩ | ⟨-, rfl⟩ <;> exact .written _ (by decide)

theorem exists_of_mem_collectionFindings {kind : MappingKind} (hx : x ∈ p.collectionFindings kind) :
    ∃ code ∈ collectionCodes kind, ∃ message, x = fault p.token code message := by
  unfold collectionFindings at hx
  split at hx
  · exact ⟨_, List.mem_map_of_mem (List.mem_cons_of_mem _ List.mem_cons_self), _,
      List.mem_singleton.1 hx⟩
  · obtain ⟨-, hx⟩ := List.mem_ite_nil_left.1 hx
    exact ⟨_, List.mem_map_of_mem (List.mem_cons_of_mem _ (List.mem_cons_of_mem _ List.mem_cons_self)), _,
      List.mem_singleton.1 hx⟩

/-! ### Findings of an annotation -/

theorem answers_allFaults_columnFindings (hnames : p.AllFaults tag (p.columnNameFindings tag m)) :
    Answers (p.AllFaults tag) (p.columnFindings tag m) := by
  have hrest : ∀ (typed : List Finding) (getter setter : Contract), p.AllFaults tag typed →
      Answers (p.AllFaults tag) (do
        let getter ← getter.findings p.options.baseTypes p.file tag.position
        let setter ← setter.findings p.options.baseTypes p.file tag.position
        return p.columnNameFindings tag m ++ typed ++ getter ++ setter) :=
    fun typed getter setter htyped =>
      answers_bind (answers_accessorFindings getter) fun _ hgetter =>
        answers_bind (answers_accessorFindings setter) fun _ hsetter =>
          answers_pure (((hnames.append htyped).append hgetter).append hsetter)
  unfold columnFindings
  cases m.get? "type".toList with
  | none =>
    exact answers_bind (P := fun x => p.AllFaults tag x.2) (answers_pure allFaults_nil) fun x hx =>
      hrest x.2 _ _ hx
  | some typeValue =>
    refine answers_bind (answers_true _) fun columnType _ =>
      answers_bind (P := fun x => p.AllFaults tag x.2) (answers_pure ?_) fun x hx => hrest x.2 _ _ hx
    exact (allFaults_nil.ite allFaults_declaredTypeFindings).append allFaults_columnSizeFindings

theorem answers_allFaults_toOneFindings : Answers (p.AllFaults tag) (p.toOneFindings tag m) := by
  unfold toOneFindings
  split
  · exact answers_pure allFaults_nil
  · exact answers_bind (answers_true _) fun _ _ =>
      answers_bind (answers_accessorFindings _) fun _ hgetter =>
        answers_bind (answers_accessorFindings _) fun _ hsetter =>
          answers_pure (hgetter.append hsetter)

theorem answers_allFaults_manyAccessorFindings {singular target : Text} :
    Answers (p.AllFaults tag) (p.manyAccessorFindings tag singular target) :=
  answers_bind (answers_accessorFindings _) fun _ hadder =>
    answers_bind (answers_accessorFindings _) fun _ hremover =>
      answers_bind (answers_accessorFindings _) fun _ hgetter =>
        answers_pure ((hadder.append hremover).append hgetter)

/-- It only turns out that a constructor is missing if there is none. -/
theorem answers_lacksConstructor (f : SourceFile) :
    Answers (fun lacks => lacks = true → f.method? SourceFile.constructorName = none)
      (FileMemo.lacksConstructor f) :=
  fun _ hlacks => Option.isNone_iff_eq_none.1 (Bool.and_eq_true_iff.1 hlacks).2

theorem answers_allFaults_toManyFindings (hkind : tag.kind.isToMany = true) :
    Answers (p.AllFaults tag) (p.toManyFindings tag m) := by
  have hcollection : p.AllFaults tag (p.collectionFindings tag.kind) := by
    intro x hx
    obtain ⟨code, hcode, message, rfl⟩ := exists_of_mem_collectionFindings hx
    exact .collection message hkind hcode
  have hrest : ∀ misnamed missing accessors : List Finding, p.AllFaults tag misnamed →
      p.AllFaults tag missing → p.AllFaults tag accessors →
      p.AllFaults tag (misnamed ++ missing ++ p.collectionFindings tag.kind ++ accessors) :=
    fun _ _ _ hmisnamed hmissing haccessors =>
      ((hmisnamed.append hmissing).append hcollection).append haccessors
  have hmisnamed : ∀ message, p.AllFaults tag (if (Naming.singular? p.name).isSome = true then []
      else [fault p.token s!"{tag.kind.name}VariablePlural" message]) :=
    fun message => allFaults_nil.ite (IsFault.collection message hkind
      (List.mem_map_of_mem List.mem_cons_self)).all
  unfold toManyFindings
  refine answers_bind (answers_lacksConstructor p.file) fun lacks hlacks => ?_
  have hmissing : p.AllFaults tag (if lacks = true then [p.missingConstructor] else []) := by
    split
    · next h => exact (IsFault.constructor hkind (hlacks h)).all
    · exact allFaults_nil
  cases m.get? "targetEntity".toList with
  | none =>
    exact answers_bind (P := p.AllFaults tag) (answers_pure allFaults_nil) fun accessors h =>
      answers_pure (hrest _ _ _ (hmisnamed _) hmissing h)
  | some value =>
    exact answers_bind (answers_true _) fun target _ =>
      answers_bind answers_allFaults_manyAccessorFindings fun accessors h =>
        answers_pure (hrest _ _ _ (hmisnamed _) hmissing h)

/-- Whatever is found for an annotation is a fault of it. -/
theorem answers_isFault : Answers (p.AllFaults tag) (p.tagFindings tag) := by
  have hkind : Answers (p.AllFaults tag) (p.kindFindings tag (p.completed tag)) := by
    unfold kindFindings
    split_ifs with hcolumn hjoin hone hmany
    · refine answers_allFaults_columnFindings fun x hx => .name ?_
      rwa [nameFindings, if_pos hcolumn]
    · refine answers_pure fun x hx => .name ?_
      rwa [nameFindings, if_neg hcolumn, if_pos hjoin]
    · exact answers_allFaults_toOneFindings
    · exact answers_allFaults_toManyFindings hmany
    · exact answers_pure allFaults_nil
  refine answers_bind hkind fun findings hfindings => answers_pure (AllFaults.append ?_ hfindings)
  intro x hx
  obtain ⟨issue, -, rfl⟩ := List.mem_map.1 hx
  exact .written _ issue.code_mem_annotationCodes

/-! ### Findings of a property and of a file -/

/-- Findings that are faults of annotations of a property. -/
def FromTags (p : PropertyCheck) (xs : List Finding) : Prop :=
  ∀ x ∈ xs, ∃ tag ∈ p.tags.tags, p.IsFault tag x

theorem answers_fromTags : Answers p.FromTags p.findings := by
  have hall : Answers p.FromTags p.allFindings := by
    have htags : ∀ tag ∈ p.tags.tags, Answers (p.AllFaults tag) (p.tagFindings tag) :=
      fun _ _ => answers_isFault
    refine answers_bind (answers_mapM htags) fun xss hxss => answers_pure fun x hx => ?_
    rcases List.mem_append.1 hx with hx | hx
    · obtain ⟨tag, htag, hx⟩ := List.mem_flatMap.1 hx
      exact ⟨tag, htag, allFaults_spellingFindings x hx⟩
    · obtain ⟨xs, hxs, hx⟩ := List.mem_flatten.1 hx
      obtain ⟨tag, htag, hfaults⟩ := exists_mem_of_forall₂ hxss hxs
      exact ⟨tag, htag, hfaults x hx⟩
  exact answers_bind hall fun xs hxs => answers_pure fun x hx => hxs x (List.mem_of_mem_filter hx)

end PropertyCheck

namespace EntityMapping

variable {options : MappingOptions} {f : SourceFile} {x : Finding}

/-- **All findings of a file are faults of annotations of its properties.** -/
theorem exists_isFault (hx : x ∈ findings options f) : ∃ i ∈ f.propertyTokens,
    ∃ tag ∈ (f.propertyTags i code.toList).tags, (propertyCheck options f i).IsFault tag x := by
  have hproperty : ∀ i, Answers (propertyCheck options f i).FromTags (propertyFindings options f i) := by
    intro i
    unfold propertyFindings
    dsimp only
    split
    · exact answers_pure fun x hx => (List.not_mem_nil hx).elim
    · exact PropertyCheck.answers_fromTags
  have hxss := answers_mapM (l := f.propertyTokens) (fun i _ => hproperty i) FileMemo.empty
  obtain ⟨xs, hxs, hx⟩ := List.mem_flatten.1 hx
  obtain ⟨i, hi, hfrom⟩ := exists_mem_of_forall₂ hxss hxs
  exact ⟨i, hi, hfrom x hx⟩

end EntityMapping

end EntityLint
