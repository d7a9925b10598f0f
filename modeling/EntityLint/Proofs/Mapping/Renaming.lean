import EntityLint.Proofs.Mapping.Literal
import EntityLint.Proofs.Mapping.NamePlace
import EntityLint.Proofs.Mapping.Reread
import EntityLint.Proofs.Mapping.Suppression

/-!
# Annotations of a file in which names have been made new

An annotation names its column *plainly* if its arguments hold the name at one place only, as a text in
quotes. When such names are made new, each annotation is found again with its new name, and all others
as they were.

* `SourceFile.nameToken?`, `SourceFile.namesPlainly`: where the name of an annotation stands;
* `SourceFile.NameLiteral`, `SourceFile.Renames`: the texts with a new name, and a file with such texts;
* `Renames.listsAlike`, `Renames.textAt_eq_or`: what else has changed;
* `Renames.mappingTags_eq`, `Renames.reread_eq`, `Renames.get?_reread`: the annotations;
* `Renames.contains_ignored`: the codes that are suppressed.
-/

namespace EntityLint

open Lexeme Text

/-! ### Plain names -/

/-- Whether a text ends where the value of an attribute begins. -/
def endsInName (d : Dialect) (attr t : Text) : Bool :=
  (List.range t.length).any fun i => isFresh (trimStart (t.take i)) &&
    (afterName? d attr (t.drop i)).any fun rest => rest.all (· == ' ')

/-- Whether a text stands in quotes. -/
def isQuoted : Text → Bool
  | [] => false
  | q :: t => isQuote q && t.getLast? == some q

theorem exists_of_endsInName {d : Dialect} {attr t : Text} (h : endsInName d attr t = true) :
    ∃ u b sp, isFresh (trimStart u) = true ∧ (∀ c ∈ b, isBlank c = true) ∧ (∀ c ∈ sp, c = ' ') ∧
      t = u ++ (attr ++ (b ++ d.delimiter :: sp)) := by
  obtain ⟨i, -, h⟩ := List.any_eq_true.1 h
  obtain ⟨hfresh, h⟩ := Bool.and_eq_true_iff.1 h
  obtain ⟨sp, hafter, hsp⟩ := (Option.any_eq_true _ _).1 h
  obtain ⟨b, hb, hdrop⟩ := afterName?_eq_some_iff.1 hafter
  refine ⟨t.take i, b, sp, hfresh, hb, by simpa using hsp, ?_⟩
  rw [← hdrop, List.take_append_drop]

theorem exists_of_isQuoted {t : Text} (h : isQuoted t = true) :
    ∃ q old, isQuote q = true ∧ t = q :: (old ++ [q]) := by
  cases t with
  | nil => cases h
  | cons q t =>
    obtain ⟨hq, hlast⟩ := Bool.and_eq_true_iff.1 h
    obtain ⟨old, rfl⟩ := List.getLast?_eq_some_iff.1 (beq_iff_eq.1 hlast)
    exact ⟨q, old, hq, rfl⟩

namespace SourceFile

/-- The token in which the name of an annotation is made new. -/
def nameToken? (f : SourceFile) (tag : MappingTag) : Option ℕ :=
  match tag.dialect with
  | .doc => (tag.attributes.get? "name".toList).bind fun value =>
      (f.docLiteral? tag "name".toList value.text []).map Prod.fst
  | .native => f.nativeLiteral? tag "name".toList

/-- Whether a token holds the name of an annotation in quotes. In a doc comment the name suppresses
nothing, and it stands in front of the parenthesis that closes the arguments. -/
def holdsName (f : SourceFile) (tag : MappingTag) (j : ℕ) : Bool :=
  match tag.dialect with
  | .doc => (tag.attributes.get? "name".toList).any fun value =>
      (IgnoreSet.codesIn EntityMapping.code.toList value.text).isEmpty &&
        (renameLiteral? "name".toList value.text [] none ((f.textAt j).takeWhile (· != ')'))).isSome
  | .native => isQuoted (f.textAt j) && (f.argumentRange? tag.start tag.stop).any fun r =>
      r.opener < j && endsInName .native "name".toList (f.textBetween (r.opener + 1) j)

/-- Whether an annotation is named at one place of its arguments only, by a text in quotes. -/
def namesPlainly (f : SourceFile) (tag : MappingTag) : Bool :=
  (namePlaces tag.dialect "name".toList (trim (f.argumentsOf tag))).length ≤ 1 &&
    (f.nameToken? tag).any (f.holdsName tag)

/-- The texts of the token that holds the name of an annotation with a new name. -/
inductive NameLiteral (f : SourceFile) (tag : MappingTag) (j : ℕ) (new : Text) : Text → Prop
  | doc {u b sp old v : Text} (hdialect : tag.dialect = .doc) (hkind : f.kindAt j = some .docText)
    (hb : ∀ c ∈ b, c = ' ') (hsp : ∀ c ∈ sp, c = ' ') (hu : u.getLast?.all (!isNameChar ·) = true)
    (htext : f.textAt j = u ++ (assignment "name".toList b sp old ++ v))
    (hclose : ')' ∉ u ++ assignment "name".toList b sp old)
    (hcodes : IgnoreSet.codesIn EntityMapping.code.toList old = []) :
    NameLiteral f tag j new (u ++ (assignment "name".toList b sp new ++ v))
  | native {r : Range} {u b sp old : Text} {q : Char} (hdialect : tag.dialect = .native)
    (hkind : f.kindAt j = some .quoted) (hrange : f.argumentRange? tag.start tag.stop = some r)
    (hlt : r.opener < j) (hfresh : isFresh (trimStart u) = true) (hb : ∀ c ∈ b, isBlank c = true)
    (hsp : ∀ c ∈ sp, c = ' ')
    (hbefore : f.textBetween (r.opener + 1) j = u ++ ("name".toList ++ (b ++ ':' :: sp)))
    (hq : isQuote q = true) (htext : f.textAt j = q :: (old ++ [q])) :
    NameLiteral f tag j new ('\'' :: (new ++ ['\'']))

section Literal

variable {f : SourceFile} {tag : MappingTag} {j : ℕ} {new t : Text}

theorem nameToken?_bounds (h : f.nameToken? tag = some j) : tag.start ≤ j ∧ j < tag.stop := by
  unfold nameToken? at h
  split at h
  · obtain ⟨value, -, h⟩ := Option.bind_eq_some_iff.1 h
    obtain ⟨⟨i, t⟩, hliteral, rfl⟩ := Option.map_eq_some_iff.1 h
    obtain ⟨hstart, hstop, -⟩ := docLiteral?_eq_some hliteral
    exact ⟨hstart, hstop⟩
  · obtain ⟨hstart, hstop, -⟩ := nativeLiteral?_eq_some h
    exact ⟨hstart, hstop⟩

theorem NameLiteral.kindAt (h : f.NameLiteral tag j new t) :
    ∃ k ∈ [Kind.docText, Kind.quoted], f.kindAt j = some k := by
  cases h with
  | doc _ hkind => exact ⟨_, by decide, hkind⟩
  | native _ hkind => exact ⟨_, by decide, hkind⟩

/-- The edit that makes a plain name new. -/
theorem nameLiteral_of_literalEdit? {value : AttributeValue} {e : Edit}
    (hvalue : tag.attributes.get? "name".toList = some value)
    (hedit : f.literalEdit? tag "name".toList value.text new = some e)
    (hplain : f.namesPlainly tag = true) :
    ∃ j t, e = .replace j t ∧ f.nameToken? tag = some j ∧ f.NameLiteral tag j new t := by
  obtain ⟨j, hj, hholds⟩ := (Option.any_eq_true _ _).1 (Bool.and_eq_true_iff.1 hplain).2
  unfold literalEdit? at hedit
  unfold nameToken? at hj
  unfold holdsName at hholds
  cases hdialect : tag.dialect with
  | doc =>
    simp only [hdialect, hvalue, Option.bind_some, Option.any_some, Bool.and_eq_true,
      List.isEmpty_iff] at hedit hj hholds
    obtain ⟨⟨i, t⟩, hliteral, rfl⟩ := Option.map_eq_some_iff.1 hedit
    obtain ⟨hcodes, hsome⟩ := hholds
    obtain rfl : i = j := by
      have := congrArg (Option.map Prod.fst) hliteral
      rw [map_fst_docLiteral?, ← map_fst_docLiteral? f tag _ _ [], hj] at this
      exact (Option.some.inj this).symm
    obtain ⟨-, -, hkind, hrename⟩ := docLiteral?_eq_some hliteral
    obtain ⟨t', hrename'⟩ := Option.isSome_iff_exists.1 hsome
    obtain ⟨u, b, sp, v, hb, hsp, hu, hpart, hall⟩ := renameLiteral?_spec hrename'
    have hname := isAttributeName_name
    -- what is made new in front of the parenthesis is what is made new in the text
    have hwhole := renameLiteral?_append hname.ne hname.chars (hall new)
      ((f.textAt i).dropWhile (· != ')'))
    rw [List.takeWhile_append_dropWhile, hrename] at hwhole
    obtain rfl := Option.some.inj hwhole
    refine ⟨i, _, rfl, ?_, ?_⟩
    · rw [nameToken?]
      simp only [hdialect, hvalue, Option.bind_some, hj]
    · rw [List.append_assoc, List.append_assoc]
      refine .doc hdialect hkind hb hsp (by simpa using hu) ?_ ?_ hcodes
      · rw [← List.append_assoc, ← List.append_assoc, List.append_assoc u, ← hpart,
          List.takeWhile_append_dropWhile]
      · intro hclose
        have hmem : ')' ∈ (f.textAt i).takeWhile (· != ')') := by
          rw [hpart, ← List.append_assoc]
          exact List.mem_append_left _ hclose
        have := List.mem_takeWhile_imp hmem
        simp at this
  | native =>
    simp only [hdialect, Bool.and_eq_true, Option.any_eq_true, decide_eq_true_eq] at hedit hj hholds
    obtain ⟨i, hliteral, rfl⟩ := Option.map_eq_some_iff.1 hedit
    cases hliteral.symm.trans hj
    obtain ⟨-, -, hkind, -⟩ := nativeLiteral?_eq_some hliteral
    obtain ⟨hquoted, r, hrange, hlt, hends⟩ := hholds
    obtain ⟨u, b, sp, hfresh, hb, hsp, hbefore⟩ := exists_of_endsInName hends
    obtain ⟨q, old, hq, htext⟩ := exists_of_isQuoted hquoted
    refine ⟨j, _, rfl, ?_, .native hdialect hkind hrange hlt hfresh hb hsp hbefore hq htext⟩
    rw [nameToken?]
    simp only [hdialect, hj]

end Literal

/-! ### Files with new names -/

/-- A file in which some annotations have been given new names, where they stand and nowhere else. -/
structure Renames (f f' : SourceFile) (wrong : ℕ × MappingTag → Text → Prop) : Prop where
  shape : f.SameShape f'
  text : ∀ j, f'.textAt j = f.textAt j ∨ ∃ m ∈ f.mappings, ∃ new, wrong m new ∧
    f.nameToken? m.2 = some j ∧ f.NameLiteral m.2 j new (f'.textAt j)
  literal : ∀ m ∈ f.mappings, ∀ new, wrong m new →
    ∃ j, f.nameToken? m.2 = some j ∧ f.NameLiteral m.2 j new (f'.textAt j)
  isName : ∀ m new, wrong m new → ∀ c ∈ new, isWordChar c = true
  named : ∀ m new, wrong m new → (m.2.attributes.get? "name".toList).isSome = true
  once : ∀ m ∈ f.mappings, ∀ new, wrong m new →
    (namePlaces m.2.dialect "name".toList (trim (f.argumentsOf m.2))).length ≤ 1
  apart : ∀ m ∈ f.mappings, ∀ new, wrong m new → ∀ m' ∈ f.mappings, m' ≠ m →
    m'.2.stop ≤ m.2.start ∨ m.2.stop ≤ m'.2.start

namespace Renames

variable {f f' : SourceFile} {wrong : ℕ × MappingTag → Text → Prop}

theorem not_mem_of_wrong (h : f.Renames f' wrong) {m : ℕ × MappingTag} {new : Text}
    (hwrong : wrong m new) {c : Char} (hc : isWordChar c = false) : c ∉ new := by
  intro hmem
  rw [h.isName m new hwrong c hmem] at hc
  cases hc

/-- Only strings and the texts of doc comments have changed. -/
theorem textAt_eq_of_kindAt (h : f.Renames f' wrong) {j : ℕ}
    (hkind : ∀ k, f.kindAt j = some k → k ∉ [.docText, .quoted]) : f'.textAt j = f.textAt j := by
  rcases h.text j with heq | ⟨m, -, new, -, -, hliteral⟩
  · exact heq
  · obtain ⟨k, hmem, hk⟩ := hliteral.kindAt
    exact absurd hmem (hkind k hk)

theorem listsAlike (h : f.Renames f' wrong) : f.ListsAlike f' := by
  refine ⟨h.shape, fun j hkind => ?_, fun j hkind => ?_⟩
  · rcases h.text j with heq | ⟨m, -, new, -, -, hliteral⟩
    · rw [heq]
    · generalize f'.textAt j = t at hliteral ⊢
      cases hliteral with
      | @doc u _ _ _ _ _ _ _ _ _ htext =>
        rw [htext]
        cases u <;> rfl
      | native _ hquoted => cases hquoted.symm.trans hkind
  · rcases h.text j with heq | ⟨m, -, new, hwrong, -, hliteral⟩
    · rw [heq]
    · have hnew := h.not_mem_of_wrong hwrong (c := ')') (by decide)
      generalize f'.textAt j = t at hliteral ⊢
      cases hliteral with
      | @doc u b sp old v _ _ hb hsp _ htext hclose =>
        rw [htext]
        simp only [assignment, List.mem_append, List.mem_cons, List.not_mem_nil, or_false,
          not_or] at hclose ⊢
        tauto
      | native _ hquoted => rcases hkind with hkind | hkind <;> cases hquoted.symm.trans hkind

/-- Strings are still strings. -/
theorem textAt_eq_or_bothQuoted (h : f.Renames f' wrong) {j : ℕ} {k : Kind}
    (hkind : f.kindAt j = some k) (htrivia : k.isTrivia = false) :
    f'.textAt j = f.textAt j ∨ BothQuoted (f.textAt j) (f'.textAt j) := by
  rcases h.text j with heq | ⟨m, -, new, -, -, hliteral⟩
  · exact .inl heq
  · generalize f'.textAt j = t at hliteral ⊢
    cases hliteral with
    | doc _ hdoc =>
      cases hdoc.symm.trans hkind
      cases htrivia
    | native _ _ _ _ _ _ _ _ hq htext =>
      rw [htext]
      exact .inr ⟨hq, rfl⟩

/-- In an annotation no other name than its own has been made new. -/
theorem textAt_eq_or (h : f.Renames f' wrong) {m : ℕ × MappingTag} (hm : m ∈ f.mappings) {j : ℕ}
    (hstart : m.2.start ≤ j) (hstop : j < m.2.stop) : f'.textAt j = f.textAt j ∨
      ∃ new, wrong m new ∧ f.nameToken? m.2 = some j ∧ f.NameLiteral m.2 j new (f'.textAt j) := by
  rcases h.text j with heq | ⟨m', hm', new, hwrong, htoken, hliteral⟩
  · exact .inl heq
  · obtain ⟨hstart', hstop'⟩ := nameToken?_bounds htoken
    rcases eq_or_ne m m' with rfl | hne
    · exact .inr ⟨new, hwrong, htoken, hliteral⟩
    · rcases h.apart m' hm' new hwrong m hm hne with hle | hle <;> omega

/-! ### Annotations with new names -/

section Tags

variable {path : String} {source : Text} {property : ℕ} {tag : MappingTag}

theorem docTags_eq (h : f.Renames f' wrong) (hparse : parse path source = .ok f) (comment : Range) :
    f'.docTags comment = (f.docTags comment).map f'.reread := by
  refine docTags_eq_map h.listsAlike fun i hi => h.textAt_eq_of_kindAt fun k hk => ?_
  cases ht : f.tokens[comment.opener]? with
  | none =>
    rw [ht] at hi
    cases hi
  | some t =>
    rw [ht] at hi
    exact kindAt_of_mem_docTags hparse ht hi hk

/-- The name of an annotation in an attribute group has not changed. -/
theorem codeBetween_eq (h : f.Renames f' wrong) (hparse : parse path source = .ok f)
    {opener start stop : ℕ} (htag : f.nativeTag? opener start stop = some tag)
    (hmem : (property, tag) ∈ f.mappings) :
    let paren := (f.nextOfKind? [.openRound] start (some stop) false).getD stop
    f'.codeBetween start paren = f.codeBetween start paren := by
  obtain ⟨-, hdialect, rfl, hrange, hstop⟩ := reread_of_nativeTag? hparse htag
  intro paren
  have hparen : paren ≤ tag.stop ∧ ∀ r, f.argumentRange? tag.start stop = some r → paren = r.opener := by
    have hspec : ∀ r, f.argumentRange? tag.start stop = some r →
        f.nextOfKind? [.openRound] tag.start (some stop) false = some r.opener ∧ r.opener < r.closer ∧
          f.kindAt r.closer = some .closeRound := fun r => argumentRange?_eq_some hparse
    constructor
    · cases hr : f.argumentRange? tag.start stop with
      | none =>
        rw [hr, Option.elim] at hstop
        rw [hstop]
        cases hnext : f.nextOfKind? [.openRound] tag.start (some stop) false with
        | none => simp [paren, hnext]
        | some i => simpa [paren, hnext] using (next?_lt hnext).le
      | some r =>
        obtain ⟨hnext, hlt, -⟩ := hspec r hr
        rw [hr, Option.elim] at hstop
        simp only [paren, hnext, Option.getD_some]
        omega
    · intro r hr
      simp only [paren, (hspec r hr).1, Option.getD_some]
  refine h.shape.codeBetween_eq fun i hstart hlt => ?_
  rcases h.textAt_eq_or hmem hstart (lt_of_lt_of_le hlt hparen.1) with heq | ⟨new, -, -, hliteral⟩
  · exact heq
  · generalize f'.textAt i = t at hliteral ⊢
    cases hliteral with
    | doc hdoc => cases hdoc.symm.trans hdialect
    | native _ _ hr hlt' =>
      rw [hrange] at hr
      have := hparen.2 _ hr
      omega

theorem nativeTags_eq (h : f.Renames f' wrong) (hparse : parse path source = .ok f)
    (hproperty : ∀ tag ∈ f.nativeTags property, (property, tag) ∈ f.mappings) :
    f'.nativeTags property = (f.nativeTags property).map f'.reread := by
  rw [nativeTags, nativeTags, h.shape.attributeGroups_eq, List.map_flatMap]
  refine List.flatMap_congr fun group hgroup => ?_
  rw [groupTags, groupTags, h.shape.partBounds_eq, List.map_filterMap]
  refine List.filterMap_congr fun ⟨start, stop⟩ hpart => ?_
  refine nativeTag?_eq_map hparse h.shape
    ⟨h.shape.isMapping_codeBetween_eq fun i k => h.textAt_eq_or_bothQuoted, fun hmapping => ?_⟩
  cases htag : f.nativeTag? group.opener start stop with
  | none =>
    rw [nativeTag?_eq] at htag
    dsimp only at htag
    rw [if_pos hmapping] at htag
    cases htag
  | some tag =>
    refine h.codeBetween_eq hparse htag (hproperty tag ?_)
    exact List.mem_flatMap.2 ⟨group, hgroup, List.mem_filterMap.2 ⟨(start, stop), hpart, htag⟩⟩

end Tags

end Renames

section Tags

variable {f f' : SourceFile} {path : String} {source : Text} {property : ℕ} {tag : MappingTag}
  {wrong : ℕ × MappingTag → Text → Prop}

/-- **The annotations of a file with new names are those of the old file, read with their new
arguments.** -/
theorem Renames.mappingTags_eq (h : f.Renames f' wrong) (hparse : parse path source = .ok f)
    (hproperty : property ∈ f.propertyTokens) :
    f'.mappingTags property = (f.mappingTags property).map f'.reread := by
  rw [mappingTags_eq_append, mappingTags_eq_append, h.shape.docCommentOf?_eq, List.map_append,
    h.nativeTags_eq hparse fun tag htag => mem_mappings.2 ⟨hproperty, ?_⟩]
  · cases f.docCommentOf? property with
    | none => rfl
    | some comment => rw [Option.elim, Option.elim, h.docTags_eq hparse]
  · rw [mappingTags_eq_append]
    exact List.mem_append_right _ htag

/-- An annotation of a property has the arguments that are written. In a doc comment they stand behind
the tag, and in an attribute group they end in a bracket. -/
theorem reread_of_mem (hparse : parse path source = .ok f) (htag : tag ∈ f.mappingTags property) :
    f.reread tag = tag ∧ (tag.dialect = .doc → (f.docArguments tag.stop tag.start).2 = tag.stop ∧
      ∀ k, f.kindAt tag.start = some k → k ∉ [.docText, .quoted]) ∧
    (tag.dialect = .native → ∀ r, f.argumentRange? tag.start tag.stop = some r →
      tag.start ≤ r.opener ∧ r.opener < r.closer ∧ tag.stop = r.closer + 1 ∧
        f.kindAt r.closer = some .closeRound) := by
  rw [mappingTags_eq_append] at htag
  rcases List.mem_append.1 htag with htag | htag
  · cases hcomment : f.docCommentOf? property with
    | none =>
      rw [hcomment] at htag
      cases htag
    | some comment =>
      rw [hcomment, Option.elim] at htag
      obtain ⟨e, he, htag⟩ := List.mem_filterMap.1 htag
      obtain ⟨hreread, hdialect, hindex, hstop⟩ := reread_of_docTag? he htag
      refine ⟨hreread, fun _ => ⟨?_, fun k hk => ?_⟩, fun hnative => ?_⟩
      · rw [hstop, docArguments_stop]
      · have hmem := (index_of_mem he).2
        rw [hindex] at hmem
        cases ht : f.tokens[comment.opener]? with
        | none =>
          rw [ht] at hmem
          cases hmem
        | some t =>
          rw [ht] at hmem
          exact kindAt_of_mem_docTags hparse ht hmem hk
      · cases hdialect.symm.trans hnative
  · obtain ⟨group, -, htag⟩ := List.mem_flatMap.1 htag
    obtain ⟨⟨start, stop⟩, -, htag⟩ := List.mem_filterMap.1 htag
    obtain ⟨hreread, hdialect, -, hrange, hstop⟩ := reread_of_nativeTag? hparse htag
    refine ⟨hreread, fun hdoc => ?_, fun _ r hr => ?_⟩
    · cases hdialect.symm.trans hdoc
    · obtain ⟨hnext, hlt, hkind⟩ := argumentRange?_eq_some hparse hr
      rw [← hrange, hr, Option.elim] at hstop
      exact ⟨(next?_eq_some hnext).1, hlt, hstop, hkind⟩

/-- The attributes of an annotation are read from its arguments. -/
theorem attributes_eq (hreread : f.reread tag = tag) :
    tag.attributes = (parseAttributes tag.dialect (f.argumentsOf tag)).attributes :=
  congrArg MappingTag.attributes hreread.symm

/-- An annotation whose name has not been made new is read as before. -/
theorem Renames.reread_eq (h : f.Renames f' wrong) (hparse : parse path source = .ok f)
    {m : ℕ × MappingTag} (hm : m ∈ f.mappings) (hright : ∀ new, ¬wrong m new) :
    f'.reread m.2 = m.2 := by
  obtain ⟨hreread, -, hnative⟩ := reread_of_mem hparse (mem_mappings.1 hm).2
  have htext : ∀ i, m.2.start ≤ i → i < m.2.stop → f'.textAt i = f.textAt i := by
    intro i hstart hstop
    rcases h.textAt_eq_or hm hstart hstop with heq | ⟨new, hwrong, -⟩
    · exact heq
    · exact absurd hwrong (hright new)
  have harguments : f'.argumentsOf m.2 = f.argumentsOf m.2 := by
    cases hdialect : m.2.dialect with
    | doc =>
      rw [argumentsOf_doc hdialect, argumentsOf_doc hdialect,
        docArguments_eq_of_textAt_eq h.shape fun i hi => htext i hi.le]
    | native =>
      rw [argumentsOf_native hdialect, argumentsOf_native hdialect, h.shape.argumentRange?_eq]
      cases hr : f.argumentRange? m.2.start m.2.stop with
      | none => rfl
      | some r =>
        obtain ⟨hopener, -, hstop, -⟩ := hnative hdialect r hr
        exact h.shape.textBetween_eq fun i hi hlt => htext i (by omega) (by omega)
  rw [reread, harguments]
  exact hreread

theorem isFresh_trimStart {t : Text} (ht : t.getLast?.all (!isNameChar ·) = true) :
    isFresh (trimStart t) = true := by
  obtain ⟨u, hu⟩ := List.dropWhile_suffix (l := t) isBlank
  refine isFresh_of_getLast? ?_
  rw [trimStart]
  cases hrest : t.dropWhile isBlank with
  | nil => rfl
  | cons c rest =>
    rw [hrest] at hu
    rw [← hu, List.getLast?_append_of_ne_nil _ (List.cons_ne_nil _ _)] at ht
    exact ht

/-- A text with a name in quotes, and the text with a new name there. -/
def IsRenamed (d : Dialect) (new t t' : Text) : Prop :=
  ∃ u b sp q old v, isFresh (trimStart u) = true ∧ (∀ c ∈ b, isBlank c = true) ∧
    (∀ c ∈ sp, c = ' ') ∧ isQuote q = true ∧
    t = u ++ ("name".toList ++ (b ++ d.delimiter :: (sp ++ q :: (old ++ q :: v)))) ∧
    t' = u ++ ("name".toList ++ (b ++ d.delimiter :: (sp ++ d.quote :: (new ++ d.quote :: v))))

/-- The arguments of an annotation in a doc comment after one of its texts has been given a name. -/
theorem isRenamed_argumentsOf_doc (hshape : f.SameShape f') {j : ℕ} {u b sp old new v : Text}
    (hdialect : tag.dialect = .doc) (hend : (f.docArguments tag.stop tag.start).2 = tag.stop)
    (hstart : tag.start < j) (hstop : j < tag.stop) (hkind : f.kindAt j = some .docText)
    (hb : ∀ c ∈ b, c = ' ') (hsp : ∀ c ∈ sp, c = ' ') (hu : u.getLast?.all (!isNameChar ·) = true)
    (htext : f.textAt j = u ++ (assignment "name".toList b sp old ++ v))
    (hclose : ')' ∉ u ++ assignment "name".toList b sp old) (hnewclose : ')' ∉ new)
    (hnew : f'.textAt j = u ++ (assignment "name".toList b sp new ++ v))
    (hother : ∀ i, tag.start ≤ i → i < tag.stop → i ≠ j → f'.textAt i = f.textAt i) :
    IsRenamed .doc new (f.argumentsOf tag) (f'.argumentsOf tag) := by
  have hparts : ')' ∉ u ++ ("name".toList ++ (b ++ '=' :: sp)) ∧ ')' ∉ '"' :: (old ++ ['"']) := by
    simp only [assignment, List.mem_append, List.mem_cons, List.not_mem_nil, or_false] at hclose ⊢
    tauto
  obtain ⟨w, z, hold, hhead, hlast, hexchange⟩ := exists_docArguments_literal
    (x := u ++ ("name".toList ++ (b ++ '=' :: sp))) (o := '"' :: (old ++ ['"'])) (y := v) hend hstart
    hstop hkind (by simpa [assignment] using htext) (by simp) hparts.1 hparts.2
  have hnew := hexchange f' ('"' :: (new ++ ['"'])) hshape (fun i hi => hother i hi.le)
    (by simpa [assignment] using hnew) (by simpa using hnewclose)
  -- the parenthesis that opens the list stands in front of the name
  obtain ⟨c, w', hw⟩ : ∃ c w', w ++ u = c :: w' := by
    refine List.exists_cons_of_ne_nil fun hnil => ?_
    obtain ⟨rfl, rfl⟩ := List.append_eq_nil_iff.1 hnil
    cases hhead rfl
  have hfresh : isFresh (trimStart w') = true := by
    have hall : (c :: w').getLast?.all (!isNameChar ·) = true := by
      rw [← hw, List.getLast?_append]
      cases hu' : u.getLast? with
      | some d => simpa [hu'] using hu
      | none =>
        rcases hlast with rfl | hlast
        · rfl
        · rw [hlast]
          rfl
    refine isFresh_trimStart ?_
    cases hw' : w'.getLast? with
    | none => rfl
    | some d => simpa [List.getLast?_cons, hw'] using hall
  have hdrop : ∀ o : Text, (w ++ (u ++ ("name".toList ++ (b ++ '=' :: sp)) ++ (o ++ z))).drop 1 =
      w' ++ ("name".toList ++ (b ++ '=' :: (sp ++ (o ++ z)))) := by
    intro o
    have hcons : w ++ (u ++ ("name".toList ++ (b ++ '=' :: sp)) ++ (o ++ z)) =
        c :: (w' ++ ("name".toList ++ (b ++ '=' :: (sp ++ (o ++ z))))) := by
      rw [← List.cons_append, ← hw]
      simp only [List.append_assoc, List.cons_append]
    rw [hcons, List.drop_one, List.tail_cons]
  rw [argumentsOf_doc hdialect, argumentsOf_doc hdialect, hold, hnew, hdrop, hdrop]
  exact ⟨w', b, sp, '"', old, z, hfresh, fun c hc => by rw [hb c hc]; rfl, hsp, rfl, by
    simp [Dialect.delimiter], by simp [Dialect.delimiter, Dialect.quote]⟩

/-- The arguments of an annotation in an attribute group after one of its strings has been made a
name. -/
theorem isRenamed_argumentsOf_native (hshape : f.SameShape f') {j : ℕ} {r : Range}
    {u b sp old new : Text} {q : Char} (hdialect : tag.dialect = .native)
    (hrange : f.argumentRange? tag.start tag.stop = some r)
    (hstart : tag.start ≤ r.opener) (hstop : tag.stop = r.closer + 1) (hlt : r.opener < j)
    (hj : j < r.closer) (hfresh : isFresh (trimStart u) = true) (hb : ∀ c ∈ b, isBlank c = true)
    (hsp : ∀ c ∈ sp, c = ' ')
    (hbefore : f.textBetween (r.opener + 1) j = u ++ ("name".toList ++ (b ++ ':' :: sp)))
    (hq : isQuote q = true) (htext : f.textAt j = q :: (old ++ [q]))
    (hnew : f'.textAt j = '\'' :: (new ++ ['\'']))
    (hother : ∀ i, tag.start ≤ i → i < tag.stop → i ≠ j → f'.textAt i = f.textAt i) :
    IsRenamed .native new (f.argumentsOf tag) (f'.argumentsOf tag) := by
  have hsplit : ∀ f : SourceFile, f.textBetween (r.opener + 1) r.closer =
      f.textBetween (r.opener + 1) j ++ (f.textAt j ++ f.textBetween (j + 1) r.closer) := by
    intro f
    have hbetween : f.textBetween j r.closer = f.textAt j ++ f.textBetween (j + 1) r.closer := by
      rw [textBetween_append (j + 1) (by omega) (by omega), textBetween_singleton]
    rw [textBetween_append j (by omega) (by omega), hbetween]
  have hbefore' : f'.textBetween (r.opener + 1) j = f.textBetween (r.opener + 1) j :=
    hshape.textBetween_eq fun i hi hij => hother i (by omega) (by omega) (by omega)
  have hafter' : f'.textBetween (j + 1) r.closer = f.textBetween (j + 1) r.closer :=
    hshape.textBetween_eq fun i hi hij => hother i (by omega) (by omega) (by omega)
  rw [argumentsOf_native hdialect, argumentsOf_native hdialect, hshape.argumentRange?_eq, hrange,
    Option.elim, Option.elim, hsplit, hsplit, hbefore', hbefore, hafter', htext, hnew]
  exact ⟨u, b, sp, q, old, f.textBetween (j + 1) r.closer, hfresh, hb, hsp, hq, by
    simp [Dialect.delimiter], by simp [Dialect.delimiter, Dialect.quote]⟩

/-- **An annotation whose name has been made new is read with the new name.** -/
theorem Renames.get?_reread (h : f.Renames f' wrong) (hparse : parse path source = .ok f)
    {m : ℕ × MappingTag} (hm : m ∈ f.mappings) {new : Text} (hwrong : wrong m new) :
    (f'.reread m.2).attributes.get? "name".toList = some (.string new) := by
  obtain ⟨hreread, hdoc, hnative⟩ := reread_of_mem hparse (mem_mappings.1 hm).2
  obtain ⟨j, htoken, hliteral⟩ := h.literal m hm new hwrong
  obtain ⟨hstart, hstop⟩ := nameToken?_bounds htoken
  have hother : ∀ i, m.2.start ≤ i → i < m.2.stop → i ≠ j → f'.textAt i = f.textAt i := by
    intro i hstart hstop hne
    rcases h.textAt_eq_or hm hstart hstop with heq | ⟨_, -, htoken', -⟩
    · exact heq
    · exact absurd (Option.some.inj (htoken'.symm.trans htoken)) hne
  have hrenamed : IsRenamed m.2.dialect new (f.argumentsOf m.2) (f'.argumentsOf m.2) := by
    generalize hnew : f'.textAt j = t at hliteral
    cases hliteral with
    | doc hdialect hkind hb hsp hu htext hclose =>
      obtain ⟨hend, hplain⟩ := hdoc hdialect
      have hlt : m.2.start < j := lt_of_le_of_ne hstart fun heq =>
        hplain .docText (heq ▸ hkind) (by decide)
      rw [hdialect]
      exact isRenamed_argumentsOf_doc h.shape hdialect hend hlt hstop hkind hb hsp hu htext hclose
        (h.not_mem_of_wrong hwrong (by decide)) hnew hother
    | @native r _ _ _ _ _ hdialect hkind hrange hlt hfresh hb hsp hbefore hq htext =>
      obtain ⟨hopener, -, hclose, hcloser⟩ := hnative hdialect r hrange
      have hj : j < r.closer := by
        refine lt_of_le_of_ne (by omega) fun heq => ?_
        rw [heq, hcloser] at hkind
        cases hkind
      rw [hdialect]
      exact isRenamed_argumentsOf_native h.shape hdialect hrange hopener hclose hlt hj hfresh hb hsp
        hbefore hq htext hnew hother
  have honce := h.once m hm new hwrong
  have hnamed := h.named m new hwrong
  rw [attributes_eq hreread] at hnamed
  obtain ⟨u, b, sp, q, old, v, hfresh, hb, hsp, hq, hold, hnew⟩ := hrenamed
  rw [hold] at honce hnamed
  show (parseAttributes m.2.dialect (f'.argumentsOf m.2)).attributes.get? "name".toList = _
  rw [hnew]
  refine get?_attributes_rename isAttributeName_name hb hsp hq (h.not_mem_of_wrong hwrong ?_) hfresh
    honce hnamed
  cases m.2.dialect <;> decide

end Tags

/-! ### Suppressed codes -/

section Suppression

variable {f f' : SourceFile} {path : String} {source : Text} {property : ℕ}
  {wrong : ℕ × MappingTag → Text → Prop}

theorem separates_quote : IgnoreSet.Separates '"' := ⟨by decide, rfl, rfl⟩

/-- Where what stands in quotes suppresses nothing, it can be exchanged. -/
theorem subset_codesIn (ruleCode : Text) {l l' : List Token}
    (h : List.Forall₂ (fun t t' : Token => t'.text = t.text ∨ ∃ u old new v,
      t.text = u ++ '"' :: (old ++ '"' :: v) ∧ t'.text = u ++ '"' :: (new ++ '"' :: v) ∧
      IgnoreSet.codesIn ruleCode old = []) l l') (w : Text) :
    IgnoreSet.codesIn ruleCode (w ++ l.flatMap Token.text) ⊆
      IgnoreSet.codesIn ruleCode (w ++ l'.flatMap Token.text) := by
  induction h generalizing w with
  | nil => exact List.Subset.refl _
  | cons ht _ ih =>
    rw [List.flatMap_cons, List.flatMap_cons]
    rcases ht with heq | ⟨u, old, new, v, ht, ht', hold⟩
    · rw [heq, ← List.append_assoc, ← List.append_assoc]
      exact ih _
    · have hsplit : ∀ o s : Text, IgnoreSet.codesIn ruleCode (w ++ (u ++ '"' :: (o ++ '"' :: v) ++ s)) =
          IgnoreSet.codesIn ruleCode (w ++ u) ++ (IgnoreSet.codesIn ruleCode o ++
            IgnoreSet.codesIn ruleCode (v ++ s)) := by
        intro o s
        rw [← IgnoreSet.codesIn_append_cons ruleCode separates_quote,
          ← IgnoreSet.codesIn_append_cons ruleCode separates_quote]
        simp
      rw [ht, ht', hsplit, hsplit, hold, List.nil_append]
      exact List.append_subset.2 ⟨List.subset_append_left _ _, fun c hc =>
        List.mem_append_right _ (List.mem_append_right _ (ih v hc))⟩

/-- What a property suppresses is still suppressed in a file with new names. -/
theorem Renames.contains_ignored (h : f.Renames f' wrong) (hparse : parse path source = .ok f)
    (code : Text)
    (hcode : (f.propertyTags property EntityMapping.code.toList).ignored.contains code = true) :
    (f'.propertyTags property EntityMapping.code.toList).ignored.contains code = true := by
  rw [propertyTags] at hcode ⊢
  rw [h.shape.docCommentOf?_eq]
  cases hcomment : f.docCommentOf? property with
  | none =>
    rw [hcomment] at hcode
    exact hcode
  | some comment =>
    rw [hcomment] at hcode
    obtain ⟨close, t, ht, hlink⟩ : ∃ (close : ℕ) (t : Token),
        f.tokens[close]? = some t ∧ t.comment = some comment := by
      unfold docCommentOf? at hcomment
      obtain ⟨-, -, hcomment⟩ := Option.bind_eq_some_iff.1 hcomment
      obtain ⟨close, -, hcomment⟩ := Option.bind_eq_some_iff.1 hcomment
      obtain ⟨-, -, hcomment⟩ := Option.bind_eq_some_iff.1 hcomment
      obtain ⟨t, ht, hlink⟩ := Option.bind_eq_some_iff.1 hcomment
      exact ⟨close, t, ht, hlink⟩
    have hsubset := subset_codesIn EntityMapping.code.toList
      ((h.shape.forall₂_slice comment.opener (comment.closer + 1)).imp ?_) []
    · simp only [IgnoreSet.contains, IgnoreSet.parse, List.contains_iff_mem] at hcode ⊢
      exact hsubset hcode
    · rintro t t' ⟨-, i, hstart, hstop, hi, hi', -⟩
      rcases h.text i with heq | ⟨m, -, new, -, -, hliteral⟩
      · exact .inl (by rw [← hi, ← hi', heq])
      · rw [hi'] at hliteral
        generalize t'.text = s at hliteral ⊢
        cases hliteral with
        | @doc u b sp old v _ _ _ _ _ htext _ hcodes =>
          refine .inr ⟨u ++ ("name".toList ++ (b ++ '=' :: sp)), old, new, v, ?_, ?_, hcodes⟩
          · rw [← hi, htext]
            simp [assignment]
          · simp [assignment]
        | native _ hquoted =>
          exact absurd hquoted
            (kindAt_ne_quoted_of_comment hparse ht hlink hstart (Nat.le_of_lt_succ hstop))

end Suppression

end SourceFile

end EntityLint
