import EntityLint.Proofs.Mapping.Accessors
import EntityLint.Proofs.Mapping.Suppression
import EntityLint.Proofs.Rule.Faults
import EntityLint.Proofs.Token.Surroundings

/-!
# The lack of a constructor

Relations to many objects ask for a constructor. That there is none comes up at the first of them, and
later ones are not told. So the property that has the first one decides whether it is reported.

* `KeepsSought`: actions that do not look for a constructor;
* `constructorFaults`: the findings that there is none;
* `SeeksOnce`, `seeksOnce_mapM`: actions that look for a constructor, where only the first look of a run
  finds something;
* `PropertyCheck.seeksOnce_tagFindings`, `seeksOnce_findings`: the check of an annotation and of a
  property;
* `EntityMapping.constructorFaults_findings`: all findings of a file.

The main statement is `EntityMapping.missing_constructor_is_reported_once`.
-/

namespace EntityLint

open Text

/-! ### Actions that do not look for a constructor -/

/-- An action does not look for a constructor. -/
def KeepsSought {α : Type} (m : StateM FileMemo α) : Prop :=
  ∀ s, (m.run s).2.soughtConstructor = s.soughtConstructor

section KeepsSought

variable {α β : Type} {f : SourceFile}

theorem keepsSought_pure (a : α) : KeepsSought (pure a) := fun _ => rfl

theorem KeepsSought.bind {m : StateM FileMemo α} {k : α → StateM FileMemo β} (hm : KeepsSought m)
    (hk : ∀ a, KeepsSought (k a)) : KeepsSought (m >>= k) := fun s => (hk _ _).trans (hm s)

theorem keepsSought_classNameAt (i : ℕ) : KeepsSought (FileMemo.classNameAt f i) := by
  rintro ⟨className, sought⟩
  cases className <;> rfl

theorem keepsSought_expectedReturn (method : ℕ) (spec : ReturnSpec) :
    KeepsSought (Contract.expectedReturn f method spec) := by
  cases spec with
  | type type => exact keepsSought_pure _
  | fluent => exact (keepsSought_classNameAt method).bind fun _ => keepsSought_pure _

theorem Contract.keepsSought_findings (c : Contract) (bases : BaseTypes) (tagToken : ℕ) :
    KeepsSought (c.findings bases f tagToken) := by
  unfold Contract.findings
  split
  · exact keepsSought_pure _
  · next method name _ =>
    cases c.returns with
    | none => exact (keepsSought_pure _).bind fun _ => keepsSought_pure _
    | some spec =>
      exact (keepsSought_expectedReturn method spec).bind fun _ =>
        (keepsSought_pure _).bind fun _ => keepsSought_pure _

end KeepsSought

namespace PropertyCheck

variable {p : PropertyCheck} {tag : MappingTag} {m : AttributeMap}

theorem keepsSought_shortClass (className : Text) : KeepsSought (p.shortClass className) := by
  unfold shortClass
  dsimp only
  split
  · exact keepsSought_classNameAt p.token
  · exact keepsSought_pure _

theorem keepsSought_columnFindings : KeepsSought (p.columnFindings tag m) := by
  have hrest : ∀ (typed : List Finding) (getter setter : Contract), KeepsSought (do
      let getter ← getter.findings p.options.baseTypes p.file tag.position
      let setter ← setter.findings p.options.baseTypes p.file tag.position
      return p.columnNameFindings tag m ++ typed ++ getter ++ setter) :=
    fun typed getter setter => (getter.keepsSought_findings _ _).bind fun _ =>
      (setter.keepsSought_findings _ _).bind fun _ => keepsSought_pure _
  unfold columnFindings
  cases m.get? "type".toList with
  | none => exact (keepsSought_pure _).bind fun x => hrest x.2 _ _
  | some value =>
    have hcolumn : KeepsSought (p.columnType m value) := by
      unfold columnType
      split
      · exact keepsSought_shortClass _
      · exact keepsSought_pure _
    exact hcolumn.bind fun _ => (keepsSought_pure _).bind fun x => hrest x.2 _ _

theorem keepsSought_toOneFindings : KeepsSought (p.toOneFindings tag m) := by
  unfold toOneFindings
  split
  · exact keepsSought_pure _
  · exact (keepsSought_shortClass _).bind fun _ => (Contract.keepsSought_findings _ _ _).bind fun _ =>
      (Contract.keepsSought_findings _ _ _).bind fun _ => keepsSought_pure _

theorem keepsSought_manyAccessorFindings {singular target : Text} :
    KeepsSought (p.manyAccessorFindings tag singular target) :=
  (Contract.keepsSought_findings _ _ _).bind fun _ => (Contract.keepsSought_findings _ _ _).bind fun _ =>
    (Contract.keepsSought_findings _ _ _).bind fun _ => keepsSought_pure _

end PropertyCheck

/-! ### Findings that there is no constructor -/

/-- The findings that there is no constructor. -/
def constructorFaults (xs : List Finding) : List Finding := xs.filter (·.code = "ConstructorRequired")

section ConstructorFaults

variable {xs ys : List Finding}

theorem constructorFaults_append :
    constructorFaults (xs ++ ys) = constructorFaults xs ++ constructorFaults ys := List.filter_append ..

theorem constructorFaults_eq_nil (h : ∀ x ∈ xs, x.code ≠ "ConstructorRequired") :
    constructorFaults xs = [] := by
  rw [constructorFaults, List.filter_eq_nil_iff]
  exact fun x hx hcode => h x hx (of_decide_eq_true hcode)

theorem constructorFaults_filter (keep : Finding → Bool) :
    constructorFaults (xs.filter keep) = (constructorFaults xs).filter keep := List.filter_comm ..

end ConstructorFaults

/-- No finding for an accessor has the code of a lack of a constructor. -/
theorem Contract.answers_constructorFaults (c : Contract) (bases : BaseTypes) (f : SourceFile)
    (tagToken : ℕ) : Answers (constructorFaults · = []) (c.findings bases f tagToken) := by
  refine answers_faultsAt.imp fun xs hxs => constructorFaults_eq_nil fun x hx => ?_
  obtain ⟨_, ending, _, rfl, -⟩ := hxs x hx
  refine kindCode_ne ending (fun kind => ?_)
  cases c.role <;> cases kind <;> decide

namespace PropertyCheck

variable {p : PropertyCheck} {tag : MappingTag} {m : AttributeMap} {x : Finding}

theorem ne_of_mem_annotationCodes {code : String} (h : code ∈ annotationCodes) :
    code ≠ "ConstructorRequired" := by
  rintro rfl
  exact absurd h (by decide)

theorem not_mem_collectionCodes (kind : MappingKind) :
    "ConstructorRequired" ∉ collectionCodes kind := by
  cases kind <;> decide

/-- That there is no constructor is found for relations to many objects only. -/
theorem IsFault.isToMany (h : p.IsFault tag x) (hcode : x.code = "ConstructorRequired") :
    tag.kind.isToMany = true := by
  cases h with
  | name hx =>
    have hmem := code_mem_namingCodes hx
    rw [hcode] at hmem
    exact absurd hmem (by decide)
  | written message hmem => exact absurd hcode (ne_of_mem_annotationCodes hmem)
  | collection message hkind _ => exact hkind
  | constructor hkind _ => exact hkind
  | accessor c memo hx =>
    have hnil := c.answers_constructorFaults p.options.baseTypes p.file tag.position memo
    exact absurd (List.filter_eq_nil_iff.1 hnil x hx) (by simpa using hcode)

end PropertyCheck

/-! ### Looking for the constructor once -/

/-- An action looks for a constructor if it asks for one, and finds something at the first look only. -/
def SeeksOnce (asks : Bool) (once : List Finding) (m : StateM FileMemo (List Finding)) : Prop :=
  ∀ s, constructorFaults (m.run s).1 =
      (if asks = true ∧ s.soughtConstructor = false then once else []) ∧
    (m.run s).2.soughtConstructor = (asks || s.soughtConstructor)

section SeeksOnce

variable {once : List Finding} {asks : Bool} {m : StateM FileMemo (List Finding)}

/-- An action that does not look for a constructor. -/
theorem seeksOnce_false (hkeeps : KeepsSought m) (hnone : Answers (constructorFaults · = []) m) :
    SeeksOnce false once m := by
  refine fun s => ⟨?_, ?_⟩
  · rw [hnone s, if_neg (by simp)]
  · rw [hkeeps s, Bool.false_or]

theorem SeeksOnce.map {g : List Finding → List Finding} {once' : List Finding}
    (h : SeeksOnce asks once m) (hg : ∀ xs, constructorFaults xs = once → constructorFaults (g xs) = once')
    (hnil : ∀ xs, constructorFaults xs = [] → constructorFaults (g xs) = []) :
    SeeksOnce asks once' (m >>= fun xs => pure (g xs)) := by
  intro s
  obtain ⟨hfaults, hsought⟩ := h s
  refine ⟨?_, hsought⟩
  show constructorFaults (g (m.run s).1) = _
  split
  · next hfirst => exact hg _ (by rw [hfaults, if_pos hfirst])
  · next hlater => exact hnil _ (by rw [hfaults, if_neg hlater])

theorem SeeksOnce.of_eq {once' : List Finding} (h : SeeksOnce asks once m)
    (heq : asks = true → once = once') : SeeksOnce asks once' m := by
  intro s
  obtain ⟨hfaults, hsought⟩ := h s
  refine ⟨hfaults.trans ?_, hsought⟩
  split
  · next hfirst => exact heq hfirst.1
  · rfl

/-- In a run over a list, the first member that asks finds something. -/
theorem seeksOnce_mapM {α : Type} {asks : α → Bool} {once : α → List Finding}
    {g : α → StateM FileMemo (List Finding)} {l : List α} (h : ∀ a ∈ l, SeeksOnce (asks a) (once a) (g a)) :
    SeeksOnce (l.any asks) ((l.find? asks).elim [] once) (l.mapM g >>= fun xss => pure xss.flatten) := by
  induction l with
  | nil => exact seeksOnce_false (keepsSought_pure _) (answers_pure rfl)
  | cons a l ih =>
    obtain ⟨ha, hl⟩ := List.forall_mem_cons.1 h
    intro s
    obtain ⟨hfaults, hsought⟩ := ha s
    obtain ⟨hfaults', hsought'⟩ := ih hl (g a s).2
    have hrun : ((a :: l).mapM g >>= fun xss => pure xss.flatten).run s =
        ((g a s).1 ++ ((l.mapM g).run (g a s).2).1.flatten, ((l.mapM g).run (g a s).2).2) := by
      change ((((a :: l).mapM g).run s).1.flatten, (((a :: l).mapM g).run s).2) = _
      rw [run_mapM_cons, List.flatten_cons]
    change constructorFaults (g a s).1 = _ at hfaults
    change (g a s).2.soughtConstructor = _ at hsought
    change constructorFaults ((l.mapM g).run (g a s).2).1.flatten = _ at hfaults'
    change ((l.mapM g).run (g a s).2).2.soughtConstructor = _ at hsought'
    rw [hrun, constructorFaults_append, hfaults, hfaults', hsought', hsought]
    cases hasks : asks a with
    | true => simp [hasks]
    | false => simp [hasks]

end SeeksOnce

/-! ### Annotations and properties -/

namespace PropertyCheck

variable {p : PropertyCheck} {tag : MappingTag} {m : AttributeMap}

/-- What the first look for a constructor finds. -/
def lack (p : PropertyCheck) : List Finding :=
  if p.file.method? SourceFile.constructorName = none then [p.missingConstructor] else []

theorem seeksOnce_lacksConstructor {k : Bool → StateM FileMemo (List Finding)}
    (hkeeps : ∀ lacks, KeepsSought (k lacks))
    (hk : ∀ lacks, Answers (constructorFaults · = if lacks = true then [p.missingConstructor] else [])
      (k lacks)) : SeeksOnce true p.lack (FileMemo.lacksConstructor p.file >>= k) := by
  rintro ⟨className, sought⟩
  refine ⟨(hk _ _).trans ?_, hkeeps _ _⟩
  cases sought <;> simp [lack]

theorem constructorFaults_eq_nil_of_mem {xs : List Finding} (h : p.AllFaults tag xs)
    (hkind : tag.kind.isToMany = false) : constructorFaults xs = [] := by
  refine constructorFaults_eq_nil fun x hx hcode => ?_
  rw [(h x hx).isToMany hcode] at hkind
  cases hkind

theorem answers_constructorFaults_manyAccessorFindings {singular target : Text} :
    Answers (constructorFaults · = []) (p.manyAccessorFindings tag singular target) :=
  answers_bind (Contract.answers_constructorFaults _ _ _ _) fun _ hadder =>
    answers_bind (Contract.answers_constructorFaults _ _ _ _) fun _ hremover =>
      answers_bind (Contract.answers_constructorFaults _ _ _ _) fun _ hgetter => answers_pure (by
        simp only [constructorFaults_append, hadder, hremover, hgetter, List.append_nil])

/-- The check of a relation to many objects looks for a constructor. -/
theorem seeksOnce_toManyFindings : SeeksOnce true p.lack (p.toManyFindings tag m) := by
  have hmisnamed : ∀ message, constructorFaults (if (Naming.singular? p.name).isSome = true then []
      else [fault p.token s!"{tag.kind.name}VariablePlural" message]) = [] := by
    refine fun message => constructorFaults_eq_nil fun x hx hcode => ?_
    rw [List.mem_ite_nil_left, List.mem_singleton] at hx
    obtain ⟨-, rfl⟩ := hx
    exact not_mem_collectionCodes tag.kind (hcode ▸ List.mem_map_of_mem List.mem_cons_self)
  have hcollection : constructorFaults (p.collectionFindings tag.kind) = [] := by
    refine constructorFaults_eq_nil fun x hx hcode => ?_
    obtain ⟨code, hmem, message, rfl⟩ := exists_of_mem_collectionFindings hx
    exact not_mem_collectionCodes tag.kind (hcode ▸ hmem)
  have hmissing : ∀ lacks : Bool, constructorFaults (if lacks = true then [p.missingConstructor] else []) =
      if lacks = true then [p.missingConstructor] else [] := by
    intro lacks
    cases lacks <;> rfl
  have hrest : ∀ (lacks : Bool) (message : String) (accessors : List Finding),
      constructorFaults accessors = [] →
      constructorFaults ((if (Naming.singular? p.name).isSome = true then []
        else [fault p.token s!"{tag.kind.name}VariablePlural" message]) ++
        (if lacks = true then [p.missingConstructor] else []) ++ p.collectionFindings tag.kind ++
          accessors) = if lacks = true then [p.missingConstructor] else [] := by
    intro lacks message accessors haccessors
    simp only [constructorFaults_append, hmisnamed, hmissing, hcollection, haccessors, List.nil_append,
      List.append_nil]
  unfold toManyFindings
  refine seeksOnce_lacksConstructor (fun lacks => ?_) fun lacks => ?_
  · cases m.get? "targetEntity".toList with
    | none => exact (keepsSought_pure _).bind fun _ => keepsSought_pure _
    | some value =>
      exact (keepsSought_shortClass _).bind fun _ =>
        keepsSought_manyAccessorFindings.bind fun _ => keepsSought_pure _
  · cases m.get? "targetEntity".toList with
    | none => exact answers_bind (P := fun xs => constructorFaults xs = []) (answers_pure rfl) fun _ h =>
      answers_pure (hrest _ _ _ h)
    | some value =>
      exact answers_bind (answers_true _) fun target _ =>
        answers_bind answers_constructorFaults_manyAccessorFindings fun _ h =>
          answers_pure (hrest _ _ _ h)

theorem keepsSought_tagFindings (hkind : tag.kind.isToMany = false) :
    KeepsSought (p.tagFindings tag) := by
  refine KeepsSought.bind ?_ fun _ => keepsSought_pure _
  unfold kindFindings
  split_ifs with _ _ _ hmany
  · exact keepsSought_columnFindings
  · exact keepsSought_pure _
  · exact keepsSought_toOneFindings
  · rw [hkind] at hmany
    cases hmany
  · exact keepsSought_pure _

theorem kindFindings_of_isToMany (hkind : tag.kind.isToMany = true) :
    p.kindFindings tag m = p.toManyFindings tag m := by
  have hother : ∀ kind : MappingKind, kind.isToMany = true →
      kind ≠ .column ∧ kind ≠ .joinColumn ∧ ¬kind.isToOne = true := by
    intro kind
    cases kind <;> decide
  obtain ⟨hcolumn, hjoin, hone⟩ := hother tag.kind hkind
  rw [kindFindings, if_neg hcolumn, if_neg hjoin, if_neg hone, if_pos hkind]

/-- The check of an annotation looks for a constructor if it is a relation to many objects. -/
theorem seeksOnce_tagFindings : SeeksOnce tag.kind.isToMany p.lack (p.tagFindings tag) := by
  cases hkind : tag.kind.isToMany with
  | false =>
    exact seeksOnce_false (keepsSought_tagFindings hkind) (answers_isFault.imp fun _ hxs =>
      constructorFaults_eq_nil_of_mem hxs hkind)
  | true =>
    have hschema : constructorFaults ((tag.kind.validate (p.completed tag) p.tags.kinds).map fun issue =>
        fault tag.position issue.code issue.message) = [] := by
      refine constructorFaults_eq_nil fun x hx => ?_
      obtain ⟨issue, -, rfl⟩ := List.mem_map.1 hx
      exact ne_of_mem_annotationCodes issue.code_mem_annotationCodes
    unfold tagFindings
    dsimp only
    rw [kindFindings_of_isToMany hkind]
    refine seeksOnce_toManyFindings.map (fun xs hxs => ?_) fun xs hxs => ?_ <;>
      rw [constructorFaults_append, hschema, hxs, List.nil_append]

/-- The findings of a property that there is no constructor, if it is the first to ask. -/
def openLack (p : PropertyCheck) : List Finding :=
  p.lack.filter fun finding => !p.tags.ignored.contains finding.code.toList

theorem length_openLack_le (p : PropertyCheck) : p.openLack.length ≤ 1 := by
  refine (List.length_filter_le _ _).trans ?_
  unfold lack
  split
  · exact le_rfl
  · exact Nat.zero_le 1

theorem mem_openLack_iff : x ∈ p.openLack ↔ p.file.method? SourceFile.constructorName = none ∧
    p.tags.ignored.contains "ConstructorRequired".toList = false ∧ x = p.missingConstructor := by
  simp only [openLack, lack, List.mem_filter, List.mem_ite_nil_right, List.mem_singleton,
    Bool.not_eq_true', and_assoc]
  refine and_congr_right fun _ => ⟨?_, ?_⟩
  · rintro ⟨rfl, hopen⟩
    exact ⟨hopen, rfl⟩
  · rintro ⟨hopen, rfl⟩
    exact ⟨rfl, hopen⟩

theorem seeksOnce_findings :
    SeeksOnce (p.tags.tags.any (·.kind.isToMany)) p.openLack p.findings := by
  have hspelling : constructorFaults (p.tags.tags.flatMap spellingFindings) = [] := by
    refine constructorFaults_eq_nil fun x hx => ?_
    obtain ⟨tag, -, hx⟩ := List.mem_flatMap.1 hx
    obtain ⟨issue, -, rfl⟩ := List.mem_map.1 hx
    exact ne_of_mem_annotationCodes issue.code_mem_annotationCodes
  have htags : SeeksOnce (p.tags.tags.any (·.kind.isToMany)) p.lack
      (p.tags.tags.mapM p.tagFindings >>= fun xss => pure xss.flatten) := by
    refine (seeksOnce_mapM fun tag _ => seeksOnce_tagFindings).of_eq fun hasks => ?_
    obtain ⟨tag, hfind⟩ := Option.isSome_iff_exists.1 (List.find?_isSome.2 (List.any_eq_true.1 hasks))
    rw [hfind]
    rfl
  have hall : SeeksOnce (p.tags.tags.any (·.kind.isToMany)) p.lack p.allFindings := by
    refine htags.map (fun xs hxs => ?_) fun xs hxs => ?_ <;>
      rw [constructorFaults_append, hspelling, hxs, List.nil_append]
  refine hall.map (fun xs hxs => ?_) fun xs hxs => ?_ <;> rw [constructorFaults_filter, hxs]
  · rfl
  · rfl

end PropertyCheck

/-! ### The properties of a file -/

theorem SourceFile.pairwise_propertyTokens (f : SourceFile) : f.propertyTokens.Pairwise (· < ·) :=
  ((pairwise_zipIdx f.tokens.toList).filter _).map _ fun _ _ h => h.2.2

namespace EntityMapping

open SourceFile

variable {options : MappingOptions} {f : SourceFile} {i : ℕ}

/-- Whether a property has a relation to many objects. -/
def holdsMany (f : SourceFile) (i : ℕ) : Bool :=
  (f.propertyTags i code.toList).tags.any (·.kind.isToMany)

theorem seeksOnce_propertyFindings (options : MappingOptions) (f : SourceFile) (i : ℕ) :
    SeeksOnce (holdsMany f i) (propertyCheck options f i).openLack (propertyFindings options f i) := by
  unfold propertyFindings
  dsimp only
  split
  · next hempty =>
    have hnone : holdsMany f i = false := by rw [holdsMany, List.isEmpty_iff.1 hempty]; rfl
    rw [hnone]
    exact seeksOnce_false (keepsSought_pure _) (answers_pure rfl)
  · exact PropertyCheck.seeksOnce_findings

/-- A file reports what the first property with a relation to many objects finds. -/
theorem constructorFaults_findings (options : MappingOptions) (f : SourceFile) :
    constructorFaults (findings options f) = (f.propertyTokens.find? (holdsMany f)).elim []
      fun i => (propertyCheck options f i).openLack := by
  have hrun := seeksOnce_mapM (l := f.propertyTokens)
    fun i _ => seeksOnce_propertyFindings options f i
  refine (hrun FileMemo.empty).1.trans ?_
  cases hfind : f.propertyTokens.find? (holdsMany f) with
  | none => exact ite_self _
  | some i =>
    have hany : f.propertyTokens.any (holdsMany f) = true :=
      List.any_eq_true.2 ⟨i, List.mem_of_find?_eq_some hfind, List.find?_some hfind⟩
    exact if_pos ⟨hany, rfl⟩

/-- A property that has a relation to many objects, with none such in front of it. -/
def IsFirstMany (f : SourceFile) (i : ℕ) : Prop :=
  i ∈ f.propertyTokens ∧ holdsMany f i = true ∧
    ∀ j ∈ f.propertyTokens, holdsMany f j = true → i ≤ j

instance : Decidable (IsFirstMany f i) :=
  inferInstanceAs (Decidable (_ ∧ _ ∧ ∀ j ∈ f.propertyTokens, _ → i ≤ j))

theorem find?_holdsMany_eq_some_iff : f.propertyTokens.find? (holdsMany f) = some i ↔ IsFirstMany f i := by
  constructor
  · intro hfind
    refine ⟨List.mem_of_find?_eq_some hfind, List.find?_some hfind, fun j hj hmany => ?_⟩
    rcases eq_or_rel_of_find? f.pairwise_propertyTokens hfind hj hmany with rfl | hlt
    · exact le_rfl
    · exact hlt.le
  · rintro ⟨hi, hmany, hfirst⟩
    obtain ⟨j, hfind⟩ := Option.isSome_iff_exists.1 (List.find?_isSome.2 ⟨i, hi, hmany⟩)
    rcases eq_or_rel_of_find? f.pairwise_propertyTokens hfind hi hmany with rfl | hlt
    · exact hfind
    · have hle := hfirst j (List.mem_of_find?_eq_some hfind) (List.find?_some hfind)
      exact absurd hlt (Nat.not_lt.2 hle)

/-- The violations for a lack of a constructor come from the findings of it. -/
theorem filter_violations_run (options : MappingOptions) (f : SourceFile) (severity : Option Severity)
    (d : Draft) : (((rule options).run f severity d).violations.filter
      (·.code = "Ormsniff.Commenting.DoctrineEntity.ConstructorRequired")) =
    (constructorFaults (findings options f)).map
      (Reporter.violation ⟨f, code, (rule options).name, severity, d, []⟩) := by
  rw [Rule.run, Reporter.violations_reportAll, List.nil_append, List.filter_map, constructorFaults]
  refine congrArg _ (List.filter_congr fun x _ => decide_eq_decide.2 ?_)
  change (code ++ ".") ++ x.code = (code ++ ".") ++ "ConstructorRequired" ↔ _
  exact String.append_right_inj _

/-- **The lack of a constructor is reported at most once in a file.** It is reported exactly if some
property has a relation to many objects, no function of the file is named as a constructor, and the first
such property does not suppress the report. Then it is reported at the variable of that property. -/
theorem missing_constructor_is_reported_once (options : MappingOptions) (f : SourceFile)
    (severity : Option Severity) (d : Draft) :
    let reported := ((rule options).run f severity d).violations.filter
      (·.code = "Ormsniff.Commenting.DoctrineEntity.ConstructorRequired")
    reported.length ≤ 1 ∧ ∀ v, v ∈ reported ↔
      (∀ j, f.kindAt j = some .kwFunction → f.declarationName? j ≠ some "__construct".toList) ∧
      ∃ i, IsFirstMany f i ∧
        (f.propertyTags i code.toList).ignored.contains "ConstructorRequired".toList = false ∧
        v = ⟨"Ormsniff.Commenting.DoctrineEntity.ConstructorRequired", "doctrine-entity",
          severity.getD .error, f.locate i,
          "Class should have constructor with properties initialization.", false, none⟩ := by
  dsimp only
  rw [filter_violations_run, constructorFaults_findings, List.length_map]
  simp only [List.mem_map, ← find?_holdsMany_eq_some_iff]
  constructor
  · cases f.propertyTokens.find? (holdsMany f) with
    | none => exact Nat.zero_le 1
    | some i => exact PropertyCheck.length_openLack_le _
  · intro v
    rw [← method?_eq_none_iff]
    cases f.propertyTokens.find? (holdsMany f) with
    | none => simp
    | some i =>
      constructor
      · rintro ⟨x, hx, rfl⟩
        obtain ⟨hnone, hopen, rfl⟩ := PropertyCheck.mem_openLack_iff.1 hx
        exact ⟨hnone, i, rfl, hopen, rfl⟩
      · rintro ⟨hnone, j, hj, hopen, rfl⟩
        cases hj
        exact ⟨_, PropertyCheck.mem_openLack_iff.2 ⟨hnone, hopen, rfl⟩, rfl⟩

/-- Of two collections, the first one is told that there is no constructor. If it suppresses this, nobody
is told. -/
theorem missing_constructor_is_reported_once_first : ∃ f g,
    SourceFile.parse "a.php" ("<?php class A\x7b#[ORM\\OneToMany]private $as;".toList
      ++ "#[ORM\\ManyToMany]private $bs;\x7d".toList) = .ok f ∧
    SourceFile.parse "b.php" ("<?php class A\x7b/** @codingStandardsIgnoreError ConstructorRequired*/".toList
      ++ "#[ORM\\OneToMany]private $as;#[ORM\\ManyToMany]private $bs;\x7d".toList) = .ok g ∧
    f.propertyTokens = [13, 22] ∧ g.propertyTokens = [19, 28] ∧
    (∃ v ∈ ((rule ⟨[], false⟩).run f none (Draft.ofFile f false)).violations,
      v.code = "Ormsniff.Commenting.DoctrineEntity.ConstructorRequired" ∧ v.location = f.locate 13) ∧
    ∀ v ∈ ((rule ⟨[], false⟩).run g none (Draft.ofFile g false)).violations,
      v.code ≠ "Ormsniff.Commenting.DoctrineEntity.ConstructorRequired" := by
  have heval : (SourceFile.parse "a.php" ("<?php class A\x7b#[ORM\\OneToMany]private $as;".toList
      ++ "#[ORM\\ManyToMany]private $bs;\x7d".toList)).toOption.any (fun f =>
    f.propertyTokens = [13, 22] ∧ IsFirstMany f 13 ∧ f.method? constructorName = none ∧
    (f.propertyTags 13 code.toList).ignored.contains "ConstructorRequired".toList = false) = true := by
    decide +kernel
  have heval' : (SourceFile.parse "b.php"
      ("<?php class A\x7b/** @codingStandardsIgnoreError ConstructorRequired*/".toList
      ++ "#[ORM\\OneToMany]private $as;#[ORM\\ManyToMany]private $bs;\x7d".toList)).toOption.any (fun g =>
    g.propertyTokens = [19, 28] ∧ IsFirstMany g 19 ∧
    (g.propertyTags 19 code.toList).ignored.contains "ConstructorRequired".toList = true) = true := by
    decide +kernel
  obtain ⟨f, hparse, htokens, hfirst, hnone, hopen⟩ := exists_ok_of_any heval
  obtain ⟨g, hparse', htokens', hfirst', hignored⟩ := exists_ok_of_any heval'
  refine ⟨f, g, hparse, hparse', htokens, htokens', ?_, fun v hv hcode => ?_⟩
  · have hreported := ((missing_constructor_is_reported_once ⟨[], false⟩ f none (Draft.ofFile f false)).2 _).2
      ⟨method?_eq_none_iff.1 hnone, 13, hfirst, hopen, rfl⟩
    exact ⟨_, (List.mem_filter.1 hreported).1, rfl, rfl⟩
  · obtain ⟨-, i, hi, hopen, -⟩ :=
      ((missing_constructor_is_reported_once ⟨[], false⟩ g none (Draft.ofFile g false)).2 v).1
        (List.mem_filter.2 ⟨hv, decide_eq_true hcode⟩)
    obtain rfl : i = 19 := Nat.le_antisymm (hi.2.2 19 hfirst'.1 hfirst'.2.1)
      (hfirst'.2.2 i hi.1 hi.2.1)
    rw [hignored] at hopen
    cases hopen

end EntityMapping

end EntityLint
