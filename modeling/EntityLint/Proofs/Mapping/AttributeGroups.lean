import EntityLint.Proofs.Mapping.AttributeItems
import EntityLint.Proofs.Mapping.Ownership

/-!
# Attribute groups in front of a declaration

The groups that are read for a declaration are searched backward from it. The search finds those that
stand in front of the declaration, whatever stands between them, and it goes on to whatever group it
meets farther ahead. It ends in time if a declaration stands behind each of those.

* `attributeGroupsBefore_eq_of_ends`: the groups that are found, by their ends;
* `SourceFile.InFront`: the groups between an index and a declaration;
* `InFront.attrGroup_closer`: they are not part of larger groups;
* `InFront.attributeGroups_eq`: they are the groups that are found;
* `AttributeGroup.boundsFrom`, `AttributeGroup.tagsFrom`: groups one after the other;
* `AttributeGroup.inFront`: they stand in front of what comes after them.

The main statement is `nativeTags_in_front`.
-/

namespace EntityLint

open Pairing

namespace SourceFile

/-! ### The search for groups -/

section Search

variable {f : SourceFile} {p start : ℕ} {rs : List Range}

theorem attributeGroupsBefore_of_close {close : ℕ} {r : Range} (hlt : close < start)
    (hkind : f.kindAt close = some .attributeClose)
    (hlast : ∀ i, close < i → i < start → f.kindAt i ≠ some .attributeClose)
    (hcarry : f.tokens[close]?.bind Token.attrGroup = some r) (howner : f.ownerOf? close = some p) :
    f.attributeGroupsBefore p start =
      ⟨r.opener, close⟩ :: f.attributeGroupsBefore p (Nat.min r.opener close) := by
  have hprev : f.previousOfKind? [.attributeClose] (start - 1) none false = some close := by
    refine previousOfKind?_eq_some_iff.2 ⟨by omega, ⟨_, List.mem_singleton_self _, hkind⟩, ?_⟩
    intro i hi hle k hk
    rw [List.mem_singleton.1 hk]
    exact hlast i hi (by omega)
  rw [attributeGroupsBefore, dif_neg (by omega)]
  split
  · next hnone => cases hnone.symm.trans hprev
  · next close' hclose =>
    cases hclose.symm.trans hprev
    rw [hcarry]
    dsimp only
    rw [if_pos howner]

theorem attributeGroupsBefore_eq_nil
    (h : ∀ i < start, f.kindAt i = some .attributeClose → f.ownerOf? i ≠ some p) :
    f.attributeGroupsBefore p start = [] := by
  rw [attributeGroupsBefore]
  split
  · rfl
  · next hstart =>
    split
    · rfl
    · next close hclose =>
      obtain ⟨hle, ⟨k, hk, hkind⟩, -⟩ := previousOfKind?_eq_some_iff.1 hclose
      rw [List.mem_singleton.1 hk] at hkind
      split
      · rfl
      · rw [if_neg (h close (by omega) hkind)]

/-- **The groups that are found for a declaration are those whose ends lead to it**, if each of
these ends carries the group that it ends. -/
theorem attributeGroupsBefore_eq_of_ends (hstart : start ≤ p)
    (hcarry : ∀ r ∈ rs, r.opener < r.closer ∧ r.closer < start ∧
      f.kindAt r.closer = some .attributeClose ∧ f.Leads r.closer p ∧
      f.tokens[r.closer]?.bind Token.attrGroup = some r)
    (hsorted : rs.Pairwise fun r q => r.closer < q.opener)
    (hends : ∀ i < start, f.kindAt i = some .attributeClose → f.Leads i p →
      ∃ r ∈ rs, r.closer = i) :
    f.attributeGroupsBefore p start = rs.reverse := by
  induction rs using List.reverseRecOn generalizing start with
  | nil =>
    refine attributeGroupsBefore_eq_nil fun i hi hkind howner => ?_
    obtain ⟨r, hr, -⟩ := hends i hi hkind (ownerOf?_eq_some_iff.1 howner)
    cases hr
  | append_singleton rs r ih =>
    obtain ⟨hlt, hclose, hkind, hleads, hr⟩ := hcarry r (by simp)
    obtain ⟨hsorted, -, hbefore⟩ := List.pairwise_append.1 hsorted
    have hbefore : ∀ q ∈ rs, q.closer < r.opener := fun q hq =>
      hbefore q hq r (List.mem_singleton_self r)
    have hmem : ∀ i, f.kindAt i = some .attributeClose → i < start → f.Leads i p →
        i = r.closer ∨ i < r.opener ∧ ∃ q ∈ rs, q.closer = i := by
      intro i hi hlt hleads
      obtain ⟨q, hq, rfl⟩ := hends i hlt hi hleads
      rcases List.mem_append.1 hq with hq | hq
      · exact .inr ⟨hbefore q hq, q, hq, rfl⟩
      · exact .inl (congrArg Range.closer (List.mem_singleton.1 hq))
    -- behind the last of the groups no other one ends, since its end would lead to the declaration
    rw [attributeGroupsBefore_of_close hclose hkind ?_ hr (ownerOf?_eq_some_iff.2 hleads),
      List.reverse_append, List.reverse_singleton, List.singleton_append,
      show Nat.min r.opener r.closer = r.opener from Nat.min_eq_left hlt.le]
    · refine congrArg (r :: ·) (ih (by omega) (fun q hq => ?_) hsorted fun i hi hk hl => ?_)
      · obtain ⟨h₁, -, h₃⟩ := hcarry q (List.mem_append_left _ hq)
        exact ⟨h₁, hbefore q hq, h₃⟩
      · rcases hmem i hk (by omega) hl with rfl | ⟨-, hq⟩
        · omega
        · exact hq
    · intro i hi hlt' hk
      have hleads' : f.Leads i p :=
        ⟨by omega, hleads.declares, fun j hj hjp => hleads.between j (by omega) hjp⟩
      rcases hmem i hk hlt' hleads' with rfl | ⟨hlt', -⟩ <;> omega

end Search

/-! ### Groups in front of a declaration -/

/-- An attribute group of a file. -/
structure IsGroup (f : SourceFile) (r : Range) : Prop where
  matching : Family.square.Matches (Token.kinds f.tokens.toList) r
  opens : (Token.kinds f.tokens.toList)[r.opener]? = some .attributeOpen

/-- What a token stream says of a group: its end has a kind of its own, and each token from its
beginning to its end carries a group. -/
theorem IsGroup.carried {path : String} {source : Text} {f : SourceFile} {r : Range}
    (h : parse path source = .ok f) (hr : f.IsGroup r) {i : ℕ} {t : Token} (hle : r.opener ≤ i)
    (hge : i ≤ r.closer) (ht : f.tokens[i]? = some t) :
    t.attrGroup ≠ none ∧ (i = r.closer → t.kind = .attributeClose) := by
  obtain ⟨tokens, htokens, rfl⟩ := exists_tokens_of_parse h
  obtain ⟨ls, docs, pairs, hls, hpairs, rfl⟩ := exists_lexemes_of_tokenize htokens
  have hkinds := Token.kinds_ofLexemes hpairs docs fun l hl => (Lexeme.mem_ofSource hls l hl).2
  have hmem : r ∈ pairs.groups (ls.map Lexeme.kind) := by
    rw [Token.mem_groups_iff hpairs, ← hkinds]
    exact ⟨hr.matching, hr.opens⟩
  rw [List.getElem?_toArray] at ht
  obtain ⟨l, hl, hdesc⟩ := Token.describes_of_getElem? ht
  obtain ⟨g, -, -, hcloser, hopener, -⟩ :=
    exists_group_around (fun s hs => ((Token.mem_groups_iff hpairs).1 hs).1) hmem
  have hlen : i < (ls.map Lexeme.kind).length := by
    rw [List.length_map]
    exact (List.getElem?_eq_some_iff.1 hl).1
  constructor
  · rw [hdesc.attrGroup, attributesFrom_eq_of_le hopener hle (hge.trans hcloser) hlen]
    nofun
  · rintro rfl
    have hany : ((pairs.groups (ls.map Lexeme.kind)).any fun s => s.closer == r.closer) = true :=
      List.any_eq_true.2 ⟨r, hmem, beq_self_eq_true _⟩
    rw [hdesc.kind, if_pos hany]

/-- The attribute groups between an index and a declaration. None of them stands in another one, and
no other declaration stands between them. -/
structure InFront (f : SourceFile) (s p : ℕ) (rs : List Range) : Prop where
  group : ∀ r ∈ rs, f.IsGroup r
  place : ∀ r ∈ rs, s ≤ r.opener ∧ r.closer < p
  sorted : rs.Pairwise fun r q => r.closer < q.opener
  ends : ∀ i, s ≤ i → i < p → f.kindAt i = some .attributeClose → ∃ r ∈ rs, r.closer = i
  quiet : ∀ i, s ≤ i → i < p → ∀ k ∈ declarationKinds, f.kindAt i ≠ some k

namespace InFront

variable {path : String} {source : Text} {f : SourceFile} {s p : ℕ} {rs : List Range} {t : Token}

/-- The end of a group in front of a declaration carries this group and not one around it, since the
declaration itself stands in no group. -/
theorem attrGroup_closer (h : parse path source = .ok f) (hfront : f.InFront s p rs)
    (ht : f.tokens[p]? = some t) (hnone : t.attrGroup = none) {r : Range} (hr : r ∈ rs) :
    f.kindAt r.closer = some .attributeClose ∧
      f.tokens[r.closer]?.bind Token.attrGroup = some r := by
  have hpaired := wellPaired_of_parse h
  have hgroup := hfront.group r hr
  have hrlt := hgroup.matching.lt
  obtain ⟨hle, hlt⟩ := hfront.place r hr
  have hlen := (Array.getElem?_eq_some_iff.1 ht).1
  obtain ⟨u, hu⟩ : ∃ u, f.tokens[r.closer]? = some u :=
    ⟨_, Array.getElem?_eq_getElem (hlt.trans hlen)⟩
  have hkind := (hgroup.carried h hrlt.le le_rfl hu).2 rfl
  obtain ⟨g, hg, hgopen, hgle, hgge, hends⟩ := hpaired.group r hgroup.matching hgroup.opens
  have hcarry := hends r.closer u (.inr rfl) (Array.getElem?_toList.trans hu)
  suffices g = r by
    subst this
    rw [kindAt, hu, Option.map_some, hkind, Option.bind_some, hcarry]
    exact ⟨rfl, rfl⟩
  -- the group around ends before the declaration, since this would carry a group otherwise
  have hbefore : g.closer < p := by
    by_contra hge
    exact (IsGroup.carried h ⟨hg, hgopen⟩ (by omega) (by omega) ht).1 hnone
  obtain ⟨v, hv⟩ : ∃ v, f.tokens[g.closer]? = some v :=
    ⟨_, Array.getElem?_eq_getElem (hbefore.trans hlen)⟩
  have hend := (IsGroup.carried h ⟨hg, hgopen⟩ hg.lt.le le_rfl hv).2 rfl
  obtain ⟨q, hq, hqg⟩ := hfront.ends g.closer (by omega) hbefore
    (by rw [kindAt, hv, Option.map_some, hend])
  -- so its end is that of one of the groups, and this one does not begin before `r`
  have hopener : q.opener = g.opener :=
    congrArg Range.opener ((hfront.group q hq).matching.opener_unique hg hqg)
  obtain rfl : q = r := eq_of_overlap (g := id) hfront.sorted hq hr
    (by dsimp only [id]; omega) (by dsimp only [id]; omega)
  exact hg.opener_unique (hfront.group q hq).matching hqg.symm

/-- **The groups that are read for a declaration are those in front of it**, if each group before
them has another declaration behind it. -/
theorem attributeGroups_eq (h : parse path source = .ok f) (hfront : f.InFront s p rs)
    (ht : f.tokens[p]? = some t) (hnone : t.attrGroup = none) (hkind : t.kind ∈ declarationKinds)
    (hsettled : ∀ i < s, f.kindAt i = some .attributeClose → ¬f.Leads i p) :
    f.attributeGroups p = rs := by
  have hfound : f.attributeGroupsBefore p p = rs.reverse := by
    refine attributeGroupsBefore_eq_of_ends le_rfl (fun r hr => ?_) hfront.sorted
      fun i hip hend hleads => ?_
    · have hlt := (hfront.group r hr).matching.lt
      obtain ⟨hle, hrp⟩ := hfront.place r hr
      obtain ⟨hend, hcarry⟩ := hfront.attrGroup_closer h ht hnone hr
      have hp : f.kindAt p = some t.kind := by rw [kindAt, ht, Option.map_some]
      exact ⟨hlt, hrp, hend, ⟨hrp, ⟨t.kind, hkind, hp⟩,
        fun i hi hip => hfront.quiet i (by omega) hip⟩, hcarry⟩
    · rcases Nat.lt_or_ge i s with his | hsi
      · exact absurd hleads (hsettled i his hend)
      · exact hfront.ends i hsi hip hend
  rw [attributeGroups, hfound, List.reverse_reverse]

end InFront

end SourceFile

/-! ### Groups one after the other -/

namespace AttributeGroup

/-- The marks of some groups, the first of which begins at `start`. -/
def boundsFrom (start : ℕ) : List AttributeGroup → List Range
  | [] => []
  | g :: gs => g.bounds start :: boundsFrom (start + g.lexemes.length) gs

/-- What is read of some groups, the first of which begins at `start`. -/
def tagsFrom (start : ℕ) : List AttributeGroup → List MappingTag
  | [] => []
  | g :: gs => g.tags start ++ tagsFrom (start + g.lexemes.length) gs

variable {f : SourceFile} {start p : ℕ} {g : AttributeGroup} {gs : List AttributeGroup}

/-- Only one lexeme of a group and of what comes after it is the end of a group. -/
theorem index_of_attributeClose {a : ℕ} {l : Lexeme} (hl : g.lexemes[a]? = some l)
    (hk : l.kind = .attributeClose) : a = g.content.length + 1 := by
  have hquiet : l.kind.isQuiet ≠ true := by rw [hk]; decide
  cases a with
  | zero =>
    cases hl
    cases hk
  | succ a =>
    rw [lexemes, List.getElem?_cons_succ] at hl
    rcases Nat.lt_trichotomy a g.content.length with hlt | rfl | hlt
    · rw [List.getElem?_append_left hlt] at hl
      exact absurd (AttributeItem.isQuiet_of_mem_listed (List.mem_of_getElem? hl)) hquiet
    · rfl
    · obtain ⟨d, rfl⟩ := Nat.exists_eq_add_of_lt hlt
      rw [List.getElem?_append_right (by omega), Nat.add_assoc, Nat.add_sub_cancel_left,
        List.getElem?_cons_succ] at hl
      exact absurd (g.gap_quiet l (List.mem_of_getElem? hl)) hquiet

theorem kind_not_mem_of_mem {l : Lexeme} (hl : l ∈ g.lexemes) :
    l.kind ∉ SourceFile.declarationKinds := by
  rw [lexemes, List.mem_cons, List.mem_append, List.mem_cons] at hl
  obtain rfl | hl | rfl | hl := hl
  · decide
  · exact (Kind.not_mem_of_isQuiet (AttributeItem.isQuiet_of_mem_listed hl)).1
  · decide
  · exact (Kind.not_mem_of_isQuiet (g.gap_quiet l hl)).1

/-- One more group in front of others. -/
theorem inFront_cons (h : f.Passage start g.lexemes) {rs : List Range}
    (hp : start + g.lexemes.length ≤ p)
    (hrs : f.InFront (start + g.lexemes.length) p rs) : f.InFront start p (g.bounds start :: rs) := by
  have hlt := g.bounds_closer_lt start
  have hlexeme : ∀ i, start ≤ i → i < start + g.lexemes.length → ∀ k, f.kindAt i = some k →
      ∃ a l, i = start + a ∧ g.lexemes[a]? = some l ∧ l.kind = k := by
    intro i hle hi k hk
    obtain ⟨a, rfl⟩ := Nat.exists_eq_add_of_le hle
    have hl := List.getElem?_eq_getElem (l := g.lexemes) (i := a) (by omega)
    exact ⟨a, _, rfl, hl, Option.some.inj ((h.kindAt hl).symm.trans hk)⟩
  constructor
  case group => exact List.forall_mem_cons.2 ⟨⟨(matches_bounds h).1, (matches_bounds h).2⟩, hrs.group⟩
  case place =>
    refine List.forall_mem_cons.2 ⟨⟨le_rfl, by omega⟩, fun r hr => ?_⟩
    obtain ⟨hle, hrp⟩ := hrs.place r hr
    exact ⟨by omega, hrp⟩
  case sorted =>
    refine List.pairwise_cons.2 ⟨fun r hr => ?_, hrs.sorted⟩
    have := (hrs.place r hr).1
    omega
  case ends =>
    intro i hle hip hk
    rcases Nat.lt_or_ge i (start + g.lexemes.length) with hi | hi
    · obtain ⟨a, l, rfl, hl, hlk⟩ := hlexeme i hle hi _ hk
      obtain rfl := index_of_attributeClose hl hlk
      exact ⟨_, List.mem_cons_self, rfl⟩
    · obtain ⟨r, hr, hri⟩ := hrs.ends i hi hip hk
      exact ⟨r, List.mem_cons_of_mem _ hr, hri⟩
  case quiet =>
    intro i hle hip k hk hki
    rcases Nat.lt_or_ge i (start + g.lexemes.length) with hi | hi
    · obtain ⟨a, l, rfl, hl, rfl⟩ := hlexeme i hle hi k hki
      exact kind_not_mem_of_mem (List.mem_of_getElem? hl) hk
    · exact hrs.quiet i hi hip k hk hki

/-- Groups one after the other stand in front of what comes after them. -/
theorem inFront (h : f.Passage start (gs.flatMap lexemes)) :
    f.InFront start (start + (gs.flatMap lexemes).length) (boundsFrom start gs) := by
  induction gs generalizing start with
  | nil =>
    exact ⟨nofun, nofun, .nil, fun i hle hlt => absurd hlt hle.not_gt,
      fun i hle hlt => absurd hlt hle.not_gt⟩
  | cons g gs ih =>
    rw [List.flatMap_cons] at h ⊢
    have hrest := ih (SourceFile.Passage.right h)
    rw [Nat.add_assoc, ← List.length_append] at hrest
    exact inFront_cons (SourceFile.Passage.left h) (by rw [List.length_append]; omega) hrest

/-- The attributes of groups one after the other are read group by group. -/
theorem groupTags_boundsFrom (hpaired : Token.WellPaired f.tokens.toList)
    (h : f.Passage start (gs.flatMap lexemes)) :
    (boundsFrom start gs).flatMap f.groupTags = tagsFrom start gs := by
  induction gs generalizing start with
  | nil => rfl
  | cons g gs ih =>
    rw [List.flatMap_cons] at h
    rw [boundsFrom, List.flatMap_cons, groupTags_eq hpaired (SourceFile.Passage.left h),
      ih (SourceFile.Passage.right h), tagsFrom]

end AttributeGroup

/-! ### What is read for a property -/

namespace SourceFile

section Dialect

variable {f : SourceFile} {tag : MappingTag}

theorem dialect_of_mem_docTags {r : Range} (htag : tag ∈ f.docTags r) : tag.dialect = .doc := by
  obtain ⟨e, -, he⟩ := List.mem_filterMap.1 htag
  cases e with
  | var => cases he
  | tag i text stop =>
    obtain ⟨-, he⟩ := Option.ite_none_right_eq_some.1 he
    cases he
    rfl

theorem dialect_of_mem_nativeTags {p : ℕ} (htag : tag ∈ f.nativeTags p) :
    tag.dialect = .native := by
  obtain ⟨r, -, htag⟩ := List.mem_flatMap.1 htag
  obtain ⟨name, start, stop, text, rfl⟩ := exists_ofArguments_of_mem_groupTags htag
  rfl

/-- The annotations of a property are those of its doc comment and those of its attribute groups. -/
theorem filter_propertyTags (f : SourceFile) (p : ℕ) (ruleCode : Text) :
    ((f.propertyTags p ruleCode).tags.filter fun tag => tag.dialect = .native) = f.nativeTags p := by
  have hnative : ((f.nativeTags p).filter fun tag => tag.dialect = .native) = f.nativeTags p :=
    List.filter_eq_self.2 fun tag htag => decide_eq_true (dialect_of_mem_nativeTags htag)
  unfold propertyTags
  split
  · exact hnative
  · next comment _ =>
    have hdoc : ((f.docTags comment).filter fun tag => tag.dialect = .native) = [] :=
      List.filter_eq_nil_iff.2 fun tag htag => by
        rw [dialect_of_mem_docTags htag]
        decide
    rw [List.filter_append, hdoc, hnative, List.nil_append]

end Dialect

/-- Each attribute group that ends among some lexemes has a declaration behind it there. Arrow
functions are no declarations in this sense. -/
def Settled (ls : List Lexeme) : Prop :=
  ∀ rest ∈ ls.tails, rest.head?.map Lexeme.kind = some .attributeClose →
    ∃ l ∈ rest, l.kind ∈ declarationKinds

instance (ls : List Lexeme) : Decidable (Settled ls) :=
  inferInstanceAs (Decidable (∀ rest ∈ ls.tails, _))

section OfParse

variable {path : String} {source : Text} {f : SourceFile} {before gap after : List Lexeme}
  {gs : List AttributeGroup} {p : ℕ}

/-- A group that ends among settled lexemes does not lead to a declaration behind them. -/
theorem not_leads_of_settled (h : f.Passage 0 before) (hsettled : Settled before) {i : ℕ}
    (hi : i < before.length) (hp : before.length ≤ p) (hkind : f.kindAt i = some .attributeClose) :
    ¬f.Leads i p := by
  intro hleads
  have hkinds : ∀ {j : ℕ} (hj : j < before.length), f.kindAt j = some before[j].kind := by
    intro j hj
    have hk := h.kindAt (List.getElem?_eq_getElem hj)
    rwa [Nat.zero_add] at hk
  have hclose : before[i].kind = .attributeClose := Option.some.inj ((hkinds hi).symm.trans hkind)
  obtain ⟨l, hl, hdeclares⟩ := hsettled (before.drop i) ((List.mem_tails _ _).2 (List.drop_suffix i before))
    (by rw [List.head?_drop, List.getElem?_eq_getElem hi, Option.map_some, hclose])
  obtain ⟨d, hd, rfl⟩ := List.mem_iff_getElem.1 hl
  rw [List.length_drop] at hd
  rw [List.getElem_drop] at hdeclares
  cases d with
  | zero =>
    simp only [Nat.add_zero, hclose] at hdeclares
    exact absurd hdeclares (by decide)
  | succ d => exact hleads.between (i + (d + 1)) (by omega) (by omega) _ hdeclares (hkinds (by omega))

/-- **The annotations of the groups in front of a property.** Where each group before them has
another declaration behind it, there is one annotation for each attribute that counts, in the order in
which they are written, and it is found where its group opens. Its arguments are those that the text
between its brackets is read as. -/
theorem nativeTags_in_front (h : parse path source = .ok f)
    (hlexemes : f.lexemes = before ++ (gap ++ gs.flatMap AttributeGroup.lexemes ++ after))
    (hgap : ∀ l ∈ gap, l.kind.isQuiet = true) (hsettled : Settled before)
    (hp : p = before.length + gap.length + (gs.flatMap AttributeGroup.lexemes).length)
    (hproperty : p ∈ f.propertyTokens) (ruleCode : Text) :
    ((f.propertyTags p ruleCode).tags.filter fun tag => tag.dialect = .native) =
      AttributeGroup.tagsFrom (before.length + gap.length) gs := by
  have hbefore : f.Passage 0 before := by
    rw [Passage, hlexemes, List.drop_zero, List.take_left]
  have hfront := Passage.of_append hlexemes
  have hgaps := Passage.left hfront
  have hgroups := Passage.right hfront
  obtain ⟨⟨t, i⟩, hmem, rfl⟩ := List.mem_map.1 hproperty
  obtain ⟨hmem, htoken⟩ := List.mem_filter.1 hmem
  dsimp only at htoken hp ⊢
  have ht : f.tokens[i]? = some t := by
    rw [← Array.getElem?_toList]
    exact List.mem_zipIdx_iff_getElem?.1 hmem
  simp only [isPropertyToken, Bool.and_eq_true, beq_iff_eq, Option.isNone_iff_eq_none] at htoken
  obtain ⟨⟨⟨hvariable, -⟩, hnone⟩, -⟩ := htoken
  have hinFront := AttributeGroup.inFront hgroups
  rw [← hp] at hinFront
  rw [filter_propertyTags, nativeTags, hinFront.attributeGroups_eq h ht hnone
    (by rw [hvariable]; decide) ?_, AttributeGroup.groupTags_boundsFrom (wellPaired_of_parse h) hgroups]
  intro j hj hkind
  rcases Nat.lt_or_ge j before.length with hlt | hge
  · exact not_leads_of_settled hbefore hsettled hlt (by omega) hkind
  · -- no group ends in the gap
    obtain ⟨a, rfl⟩ := Nat.exists_eq_add_of_le hge
    have hl := List.getElem?_eq_getElem (l := gap) (i := a) (by omega)
    rw [hgaps.kindAt hl, Option.some.injEq] at hkind
    exact absurd hkind (Kind.not_mem_of_isQuiet (hgap _ (List.getElem_mem _))).2.2

end OfParse

example : (parse "a.php" ("<?php class A \x7b function f() \x7b return #[ORM\\Id] fn() => 1; \x7d " ++
    "private $x; \x7d").toList).toOption.any (fun f => f.propertyTokens = [37] ∧
      (f.nativeTags 37).map MappingTag.name = ["ORM\\Id".toList]) = true := by
  decide +kernel

/-- The attribute `ORM\Column(options: ['k' => (1)])` after a blank. -/
def columnItem : AttributeItem where
  name := [⟨.blank, [' ']⟩, ⟨.word, "ORM".toList⟩, ⟨.backslash, ['\\']⟩, ⟨.word, "Column".toList⟩]
  arguments := some [⟨.word, "options".toList⟩, ⟨.colon, [':']⟩, ⟨.blank, [' ']⟩, ⟨.openSquare, ['[']⟩,
    ⟨.quoted, "'k'".toList⟩, ⟨.blank, [' ']⟩, ⟨.doubleArrow, "=>".toList⟩, ⟨.blank, [' ']⟩,
    ⟨.openRound, ['(']⟩, ⟨.number, ['1']⟩, ⟨.closeRound, [')']⟩, ⟨.closeSquare, [']']⟩]
  rest := []
  name_plain := by decide
  arguments_quiet := by
    rintro ls ⟨⟩
    decide
  arguments_balanced := by
    rintro ls ⟨⟩ family -
    exact balanced_iff_pairsFrom.2 (by cases family <;> exact ⟨_, rfl⟩)
  rest_plain := nofun

/-- The groups `#[ORM\Id] #[Y, ORM\Column(options: ['k' => (1)])]` with a modifier behind them. -/
def idAndColumn : List AttributeGroup :=
  [{ first := ⟨[⟨.word, "ORM".toList⟩, ⟨.backslash, ['\\']⟩, ⟨.word, "Id".toList⟩], none, [],
        by decide, nofun, nofun, nofun⟩
     others := []
     gap := [⟨.blank, [' ']⟩]
     gap_quiet := by decide },
   { first := ⟨[⟨.word, ['Y']⟩], none, [], by decide, nofun, nofun, nofun⟩
     others := [columnItem]
     gap := [⟨.blank, [' ']⟩, ⟨.kwPrivate, "private".toList⟩, ⟨.blank, [' ']⟩]
     gap_quiet := by decide }]

/-- Of three attributes in two groups two count. -/
theorem nativeTags_in_front_two : ∃ f, ∃ gap after : List Lexeme, parse "a.php"
      ("<?php class A \x7b #[X] function f() \x7b\x7d " ++
        "#[ORM\\Id] #[Y, ORM\\Column(options: ['k' => (1)])] private $x; \x7d").toList = .ok f ∧
    f.lexemes = f.lexemes.take 20 ++ (gap ++ idAndColumn.flatMap AttributeGroup.lexemes ++ after) ∧
    (∀ l ∈ gap, l.kind.isQuiet = true) ∧ Settled (f.lexemes.take 20) ∧ 52 ∈ f.propertyTokens ∧
    52 = (f.lexemes.take 20).length + gap.length +
      (idAndColumn.flatMap AttributeGroup.lexemes).length ∧
    ((f.propertyTags 52 []).tags.filter fun tag => tag.dialect = .native).map
      (fun tag => (tag.name, tag.position)) =
        [("ORM\\Id".toList, 21), ("ORM\\Column".toList, 27)] := by
  have heval : (parse "a.php"
      ("<?php class A \x7b #[X] function f() \x7b\x7d " ++
        "#[ORM\\Id] #[Y, ORM\\Column(options: ['k' => (1)])] private $x; \x7d").toList).toOption.any
      (fun f => f.lexemes = f.lexemes.take 20 ++ ([⟨.blank, [' ']⟩] ++
          idAndColumn.flatMap AttributeGroup.lexemes ++ f.lexemes.drop 52) ∧
        Settled (f.lexemes.take 20) ∧ f.propertyTokens = [52] ∧
        (f.lexemes.take 20).length = 20) = true := by
    decide +kernel
  obtain ⟨f, hf, hall⟩ := (Option.any_eq_true _ _).1 heval
  obtain ⟨hlexemes, hsettled, hproperty, hlength⟩ := of_decide_eq_true hall
  have hparse : parse "a.php"
      ("<?php class A \x7b #[X] function f() \x7b\x7d " ++
        "#[ORM\\Id] #[Y, ORM\\Column(options: ['k' => (1)])] private $x; \x7d").toList = .ok f := by
    cases hr : parse "a.php" _ <;> rw [hr] at hf <;> cases hf
    rfl
  have hp : 52 = (f.lexemes.take 20).length + [(⟨.blank, [' ']⟩ : Lexeme)].length +
      (idAndColumn.flatMap AttributeGroup.lexemes).length := by
    rw [hlength]
    rfl
  have hmem : 52 ∈ f.propertyTokens := hproperty ▸ List.mem_singleton_self 52
  refine ⟨f, _, _, hparse, hlexemes, by decide, hsettled, hmem, hp, ?_⟩
  rw [nativeTags_in_front hparse hlexemes (by decide) hsettled hp hmem, hlength]
  decide

end SourceFile

end EntityLint
