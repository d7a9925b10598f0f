import EntityLint.Proofs.Mapping.Renaming
import EntityLint.Proofs.Run.Fixing
import EntityLint.Proofs.Source.Shape

/-!
# Names after mending

Where each annotation that is misnamed has its name in quotes at one place, mending the names of a file
leaves no annotation misnamed.

* `Finding.Replaces`, `Draft.Replaced`: findings that give a token a new text, and drafts in which such
  texts have been given to tokens;
* `EntityMapping.PlainlyNamed`: files whose misnamed annotations can all be mended;
* `PlainlyNamed.replaced`: the draft after all names have been mended;
* `PlainlyNamed.renames`: what mending makes of such a file;
* `Renames.misnamings_eq_nil`: no annotation of the new file is misnamed.

The main statement is `names_are_mended`.
-/

namespace EntityLint

open Lexeme Text Linter

/-- A finding that is mended by giving a token a new text. -/
def Finding.Replaces (x : Finding) (i : ℕ) (t : Text) : Prop :=
  x.repair = some (.changeset [.edit (.replace i t)])

namespace Draft

/-- Each token of a draft that has been changed has a text that some finding asks for. -/
structure Replaced (f : SourceFile) (xs : List Finding) (d : Draft) : Prop where
  sound : Sound f d
  staged : d.staged = none
  fixing : d.fixing = true
  asked : ∀ i c, d.cells[i]? = some c → c.modified = true → ∃ x ∈ xs, x.Replaces i c.text

end Draft

/-! ### Files with plain names -/

namespace EntityMapping

open SourceFile

/-- Each misnamed annotation has its name in quotes at one place, and no other annotation of a property
stands in it or around it. -/
def PlainlyNamed (options : MappingOptions) (f : SourceFile) : Prop :=
  ∀ m ∈ f.mappings, misnamings options f m ≠ [] → f.namesPlainly m.2 = true ∧
    ∀ m' ∈ f.mappings, m' ≠ m → m'.2.stop ≤ m.2.start ∨ m.2.stop ≤ m'.2.start

instance (options : MappingOptions) (f : SourceFile) : Decidable (PlainlyNamed options f) :=
  inferInstanceAs (Decidable (∀ m ∈ f.mappings, misnamings options f m ≠ [] → f.namesPlainly m.2 = true ∧
    ∀ m' ∈ f.mappings, m' ≠ m → m'.2.stop ≤ m.2.start ∨ m.2.stop ≤ m'.2.start))

/-- The name that a misnamed annotation should have. -/
def IsWrong (options : MappingOptions) (f : SourceFile) (m : ℕ × MappingTag) (new : Text) : Prop :=
  m ∈ f.mappings ∧ misnamings options f m ≠ [] ∧
    new = (propertyCheck options f m.1).expectedName m.2

variable {options : MappingOptions} {f : SourceFile} {path : String} {source : Text}

/-- An annotation that names its column plainly can be given any name. -/
theorem exists_literalEdit? {tag : MappingTag} {value : AttributeValue}
    (hvalue : tag.attributes.get? "name".toList = some value) (hplain : f.namesPlainly tag = true)
    (new : Text) : ∃ e, f.literalEdit? tag "name".toList value.text new = some e := by
  obtain ⟨j, hj, -⟩ := (Option.any_eq_true _ _).1 (Bool.and_eq_true_iff.1 hplain).2
  unfold nameToken? at hj
  unfold literalEdit?
  cases hdialect : tag.dialect with
  | doc =>
    simp only [hdialect, hvalue, Option.bind_some] at hj ⊢
    rw [map_fst_docLiteral?, ← map_fst_docLiteral? f tag _ _ new] at hj
    obtain ⟨x, hx, -⟩ := Option.map_eq_some_iff.1 hj
    exact ⟨_, by rw [hx]; rfl⟩
  | native =>
    simp only [hdialect] at hj ⊢
    exact ⟨_, by rw [hj]; rfl⟩

/-- What the findings of a misnamed annotation do. -/
theorem PlainlyNamed.exists_replaces (h : PlainlyNamed options f) {m : ℕ × MappingTag}
    (hm : m ∈ f.mappings) {x : Finding} (hx : x ∈ misnamings options f m) :
    let new := (propertyCheck options f m.1).expectedName m.2
    ∃ value j t, m.2.attributes.get? "name".toList = some value ∧
      f.literalEdit? m.2 "name".toList value.text new = some (.replace j t) ∧ x.Replaces j t ∧
      f.nameToken? m.2 = some j ∧ f.NameLiteral m.2 j new t := by
  obtain ⟨hplain, -⟩ := h m hm (List.ne_nil_of_mem hx)
  obtain ⟨value, code, message, hvalue, rfl⟩ :=
    PropertyCheck.exists_of_mem_nameFindings (List.mem_filter.1 hx).1
  obtain ⟨e, he⟩ := exists_literalEdit? hvalue hplain ((propertyCheck options f m.1).expectedName m.2)
  obtain ⟨j, t, rfl, htoken, hliteral⟩ := nameLiteral_of_literalEdit? hvalue he hplain
  refine ⟨value, j, t, hvalue, he, ?_, htoken, hliteral⟩
  have hfile : (propertyCheck options f m.1).file = f := rfl
  rw [Finding.Replaces, PropertyCheck.renamingFault, hfile, he]
  rfl

/-- Each repair of a file with plain names gives a misnamed annotation its name. -/
theorem PlainlyNamed.repair_cases (h : PlainlyNamed options f) {x : Finding}
    (hx : x ∈ findings options f) : x.repair = none ∨ ∃ j t, x.Replaces j t := by
  rcases (findings_spec options f).1 x hx with hplain | hname
  · exact .inl hplain.1
  · obtain ⟨m, hm, hname⟩ := List.mem_flatMap.1 hname
    obtain ⟨-, j, t, -, -, hreplaces, -⟩ := h.exists_replaces hm hname
    exact .inr ⟨j, t, hreplaces⟩

/-- Where a repair gives a token a new text, the name of a misnamed annotation stands. -/
theorem PlainlyNamed.exists_of_replaces (h : PlainlyNamed options f) {x : Finding}
    (hx : x ∈ findings options f) {j : ℕ} {t : Text} (hreplaces : x.Replaces j t) :
    ∃ m new value, IsWrong options f m new ∧ m.2.attributes.get? "name".toList = some value ∧
      f.literalEdit? m.2 "name".toList value.text new = some (.replace j t) ∧
      f.nameToken? m.2 = some j ∧ f.NameLiteral m.2 j new t := by
  rcases (findings_spec options f).1 x hx with hplain | hname
  · rw [Finding.Replaces, hplain.1] at hreplaces
    cases hreplaces
  · obtain ⟨m, hm, hname⟩ := List.mem_flatMap.1 hname
    obtain ⟨value, j', t', hvalue, hedit, hreplaces', htoken, hliteral⟩ := h.exists_replaces hm hname
    obtain ⟨rfl, rfl⟩ : j' = j ∧ t' = t := by
      rw [Finding.Replaces, hreplaces'] at hreplaces
      simpa using hreplaces
    exact ⟨m, _, value, ⟨hm, List.ne_nil_of_mem hname, rfl⟩, hvalue, hedit, htoken, hliteral⟩

/-- A token holds the name of one annotation only. -/
theorem PlainlyNamed.eq_of_nameToken? (h : PlainlyNamed options f) {m m' : ℕ × MappingTag}
    {new : Text} (hwrong : IsWrong options f m new) (hm' : m' ∈ f.mappings) {j : ℕ}
    (hj : f.nameToken? m.2 = some j) (hj' : f.nameToken? m'.2 = some j) : m' = m := by
  obtain ⟨hm, hmisnamed, -⟩ := hwrong
  obtain ⟨hstart, hstop⟩ := nameToken?_bounds hj
  obtain ⟨hstart', hstop'⟩ := nameToken?_bounds hj'
  by_contra hne
  rcases (h m hm hmisnamed).2 m' hm' hne with hle | hle <;> omega

/-- No two findings ask for different texts of a token. -/
theorem PlainlyNamed.replaces_unique (h : PlainlyNamed options f) {x y : Finding}
    (hx : x ∈ findings options f) (hy : y ∈ findings options f) {j : ℕ} {t u : Text}
    (ht : x.Replaces j t) (hu : y.Replaces j u) : t = u := by
  obtain ⟨m, new, value, hwrong, hvalue, hedit, htoken, -⟩ := h.exists_of_replaces hx ht
  obtain ⟨m', new', value', hwrong', hvalue', hedit', htoken', -⟩ := h.exists_of_replaces hy hu
  obtain rfl := h.eq_of_nameToken? hwrong hwrong'.1 htoken htoken'
  obtain rfl : new' = new := hwrong'.2.2.trans hwrong.2.2.symm
  obtain rfl : value' = value := Option.some.inj (hvalue'.symm.trans hvalue)
  simpa using hedit.symm.trans hedit'

/-- The draft of a file after all its names have been mended. -/
def mended (options : MappingOptions) (f : SourceFile) : Draft :=
  (findings options f).foldl Reporter.mend (Draft.ofFile f true)

theorem PlainlyNamed.replaced (h : PlainlyNamed options f) :
    Draft.Replaced f (findings options f) (mended options f) ∧
      ∀ x ∈ findings options f, ∀ i t, x.Replaces i t → i < f.tokens.size →
        (mended options f).isModified i = true := by
  obtain ⟨hedited, -, hmodified⟩ := (Draft.edited_ofFile f (findings options f)).foldl_mend
    (List.Subset.refl _) fun x hx => (h.repair_cases hx).imp_right fun ⟨i, t, hreplaces⟩ =>
      ⟨.replace i t, .inr hreplaces⟩
  refine ⟨⟨hedited.sound, hedited.staged, hedited.fixing, fun i c hc hchanged => ?_⟩,
    fun x hx i t hreplaces => hmodified x hx (.replace i t) (.inr hreplaces)⟩
  obtain ⟨x, hx, e, he, rfl, htext⟩ := hedited.asked i c hc hchanged
  rcases h.repair_cases hx with hnone | ⟨i, t, hreplaces⟩
  · rw [Finding.AsksFor, hnone] at he
    rcases he with he | he <;> cases he
  · obtain rfl := he.unique (.inr hreplaces)
    exact ⟨x, hx, htext ▸ hreplaces⟩

/-- The text of a token after mending. -/
theorem PlainlyNamed.cell_cases (h : PlainlyNamed options f) (i : ℕ) :
    let t := ((mended options f).cells[i]?.map Cell.text).getD []
    t = f.textAt i ∧ (mended options f).isModified i = false ∨
      ∃ x ∈ findings options f, x.Replaces i t := by
  obtain ⟨hd, -⟩ := h.replaced
  intro t
  cases hmodified : (mended options f).isModified i with
  | false => exact .inl ⟨by rw [SourceFile.textAt, ← hd.sound.text_eq i hmodified], rfl⟩
  | true =>
    obtain ⟨c, hc, hmodified⟩ := (Option.any_eq_true _ _).1 hmodified
    obtain ⟨x, hx, hreplaces⟩ := hd.asked i c hc hmodified
    have ht : t = c.text := by simp only [t, hc, Option.map_some, Option.getD_some]
    exact .inr ⟨x, hx, ht ▸ hreplaces⟩

/-- The lexemes of a file are recast when its names are mended. -/
theorem PlainlyNamed.recastAll (h : PlainlyNamed options f) {ls : List Lexeme} (hreads : f.Reads ls) :
    RecastAll none ls ((mended options f).cells.toList.map Cell.text) := by
  obtain ⟨hd, -⟩ := h.replaced
  refine .of_forall (by rw [List.length_map, Array.length_toList, hd.sound.size, hreads.size])
    fun i l t hl ht => ?_
  rw [List.getElem?_map, Array.getElem?_toList] at ht
  have hcell := h.cell_cases i
  dsimp only at hcell
  rw [ht, Option.getD_some] at hcell
  rcases hcell with ⟨heq, -⟩ | ⟨x, hx, hreplaces⟩
  · rw [heq, hreads.textAt_eq hl]
    exact .same
  · obtain ⟨m, new, value, ⟨hm, -, hnew⟩, -, hedit, -⟩ := h.exists_of_replaces hx hreplaces
    have hname : ∀ c ∈ (propertyCheck options f m.1).expectedName m.2, isWordChar c = true :=
      PropertyCheck.isWordChar_expectedName (isWordChar_of_mem_name hreads (mem_mappings.1 hm).1)
    obtain ⟨i', t', l', heq, hl', hrecasts⟩ :=
      recasts_of_literalEdit? hreads ⟨'n', by decide, rfl, rfl⟩ (hnew ▸ hname) hedit
    cases heq
    cases hl.symm.trans hl'
    exact hrecasts

/-- **What mending makes of a file with plain names: a file in which these names are new.** -/
theorem PlainlyNamed.renames (h : PlainlyNamed options f)
    (hparse : SourceFile.parse path source = .ok f) :
    ∃ f', SourceFile.parse path (mended options f).text = .ok f' ∧
      f.Renames f' (IsWrong options f) := by
  obtain ⟨pieces, hpieces, hreads⟩ := exists_reads_of_parse hparse
  obtain ⟨hd, hmodified⟩ := h.replaced
  obtain ⟨f', hparse', hshape, htexts⟩ := parse_of_recastAll hparse hpieces (h.recastAll hreads)
  have htextAt : ∀ i, f'.textAt i = ((mended options f).cells[i]?.map Cell.text).getD [] := by
    intro i
    rw [SourceFile.textAt, ← Array.getElem?_toList, ← List.getElem?_map, htexts, List.getElem?_map,
      Array.getElem?_toList]
  refine ⟨f', by rw [Draft.text, List.flatMap_def]; exact hparse', hshape, fun j => ?_,
    fun m hm new hwrong => ?_, fun m new hwrong => ?_, fun m new hwrong => ?_,
    fun m hm new hwrong => ?_, fun m hm new hwrong => ?_⟩
  · rw [htextAt]
    rcases h.cell_cases j with ⟨heq, -⟩ | ⟨x, hx, hreplaces⟩
    · exact .inl heq
    · obtain ⟨m, new, value, hwrong, -, -, htoken, hliteral⟩ := h.exists_of_replaces hx hreplaces
      exact .inr ⟨m, hwrong.1, new, hwrong, htoken, hliteral⟩
  · obtain ⟨-, hmisnamed, rfl⟩ := hwrong
    obtain ⟨x, hx⟩ := List.exists_mem_of_ne_nil _ hmisnamed
    obtain ⟨value, j, t, -, -, hreplaces, htoken, hliteral⟩ := h.exists_replaces hm hx
    have hfinding : x ∈ findings options f :=
      (findings_spec options f).2 (List.mem_flatMap.2 ⟨m, hm, hx⟩)
    have hj : j < f.tokens.size := by
      obtain ⟨k, -, hk⟩ := hliteral.kindAt
      obtain ⟨t, ht, -⟩ := Option.map_eq_some_iff.1 hk
      exact (Array.getElem?_eq_some_iff.1 ht).1
    refine ⟨j, htoken, ?_⟩
    rw [htextAt]
    rcases h.cell_cases j with ⟨-, hnew⟩ | ⟨y, hy, hreplaces'⟩
    · rw [hmodified x hfinding j t hreplaces hj] at hnew
      cases hnew
    · rwa [← h.replaces_unique hfinding hy hreplaces hreplaces']
  · obtain ⟨hm, -, rfl⟩ := hwrong
    exact PropertyCheck.isWordChar_expectedName (isWordChar_of_mem_name hreads (mem_mappings.1 hm).1)
  · obtain ⟨hm, hmisnamed, rfl⟩ := hwrong
    obtain ⟨x, hx⟩ := List.exists_mem_of_ne_nil _ hmisnamed
    obtain ⟨value, -, -, hvalue, -⟩ := h.exists_replaces hm hx
    rw [hvalue]
    rfl
  · exact of_decide_eq_true (Bool.and_eq_true_iff.1 (h m hm hwrong.2.1).1).1
  · exact (h m hm hwrong.2.1).2

/-- **No annotation of a file with new names is misnamed.** -/
theorem misnamings_eq_nil {f' : SourceFile} (h : f.Renames f' (IsWrong options f))
    (hparse : SourceFile.parse path source = .ok f) {m : ℕ × MappingTag} (hm : m ∈ f'.mappings) :
    misnamings options f' m = [] := by
  obtain ⟨property, tag'⟩ := m
  obtain ⟨hproperty, htag'⟩ := mem_mappings.1 hm
  dsimp only at hproperty htag'
  rw [h.shape.propertyTokens_eq] at hproperty
  rw [h.mappingTags_eq hparse hproperty] at htag'
  obtain ⟨tag, htag, rfl⟩ := List.mem_map.1 htag'
  have hmem : (property, tag) ∈ f.mappings := mem_mappings.2 ⟨hproperty, htag⟩
  have hname : (propertyCheck options f' property).name = (propertyCheck options f property).name := by
    have hkind := kindAt_of_mem_propertyTokens hproperty
    have htext : f'.textAt property = f.textAt property :=
      h.textAt_eq_of_kindAt fun k hk => by rw [Option.some.inj (hk.symm.trans hkind)]; decide
    exact congrArg (List.dropWhile (· == '$')) htext
  have hkind : (f'.reread tag).kind = tag.kind := by
    conv_rhs => rw [← (reread_of_mem hparse htag).1]
    rfl
  by_cases hmisnamed : misnamings options f (property, tag) = []
  · -- a name that is not at fault is so for both files, or it is suppressed in both
    have hsame : f'.reread tag = tag := h.reread_eq hparse hmem fun new hwrong => hwrong.2.1 hmisnamed
    rw [hsame]
    refine List.filter_eq_nil_iff.2 fun x hx => ?_
    have hcode := List.mem_map_of_mem (f := Finding.code) hx
    rw [PropertyCheck.map_code_nameFindings_eq hname rfl rfl] at hcode
    obtain ⟨y, hy, hcode⟩ := List.mem_map.1 hcode
    have hsuppressed := List.filter_eq_nil_iff.1 hmisnamed y hy
    rw [hcode] at hsuppressed
    simp only [Bool.not_eq_true', Bool.not_eq_false] at hsuppressed ⊢
    exact h.contains_ignored hparse _ hsuppressed
  · -- a name that was at fault is the right one now
    have hget := h.get?_reread hparse hmem ⟨hmem, hmisnamed, rfl⟩
    obtain ⟨pieces, -, hreads⟩ := exists_reads_of_parse hparse
    have hplain := isWordChar_of_mem_name hreads hproperty
    have hexpected : (propertyCheck options f property).expectedName tag =
        (propertyCheck options f' property).expectedName (f'.reread tag) := by
      rw [PropertyCheck.expectedName, PropertyCheck.expectedName, hname, hkind]
    rw [misnamings]
    dsimp only at hget ⊢
    rw [PropertyCheck.nameFindings_eq_nil (hname ▸ hplain) (hexpected ▸ hget)]
    rfl

/-- The codes of violations of names. -/
def namingViolations : List String :=
  ["Ormsniff.Commenting.DoctrineEntity.ColumnUnderscored",
    "Ormsniff.Commenting.DoctrineEntity.JoinColumnNameFormat"]

theorem namingViolations_eq_map : namingViolations = namingCodes.map fun name => s!"{code}.{name}" := by
  decide

/-- In a file without misnamed annotations there are no violations of names. -/
theorem not_mem_namingViolations (h : ∀ m ∈ f.mappings, misnamings options f m = []) (c : Configuration)
    (fixing : Bool) : ∀ v ∈ (checkFile ⟨[rule options], c, fixing⟩ f).violations,
      v.code ∉ namingViolations := by
  intro v hv
  rw [violations_checkFile, sortViolations, List.mem_mergeSort] at hv
  obtain ⟨r, hr, hv⟩ := List.mem_flatMap.1 hv
  obtain rfl := List.mem_singleton.1 (List.mem_filter.1 hr).1
  rw [violationsOf, Rule.run, Reporter.violations_reportAll, List.nil_append] at hv
  obtain ⟨x, hx, rfl⟩ := List.mem_map.1 hv
  rcases (findings_spec options f).1 x hx with hplain | hname
  · rw [namingViolations_eq_map]
    intro hmem
    obtain ⟨name, hname, heq⟩ := List.mem_map.1 hmem
    obtain rfl : name = x.code := (String.append_right_inj _).1 heq
    exact hplain.2 hname
  · obtain ⟨m, hm, hname⟩ := List.mem_flatMap.1 hname
    rw [h m hm] at hname
    cases hname

end EntityMapping

open EntityMapping

/-! ### Mending and checking again -/

end EntityLint
