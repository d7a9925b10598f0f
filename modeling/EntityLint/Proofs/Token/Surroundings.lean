import EntityLint.Proofs.Token.Enclosure
import EntityLint.Proofs.Token.Pairing
import EntityLint.Source.Declaration

/-!
# What surrounds a token

The conditions, the depth and the enclosing class of a token, said by the links of the other tokens.

* `Token.ScopeAround`, `Token.ownersAround`: the owners whose scopes lie around an index;
* `Token.roundAround`: the round pairs around an index;
* `conditions_ofLexemes`, `parenDepth_ofLexemes`: what a token says of them;
* `SourceFile.Surroundings`, `SourceFile.surroundings_of_wellPaired`: the same for a file, and the
  class that encloses a token.
-/

namespace EntityLint

open Pairing

theorem pairwise_zipIdx {α : Type} (l : List α) :
    l.zipIdx.Pairwise fun x y => l[x.2]? = some x.1 ∧ l[y.2]? = some y.1 ∧ x.2 < y.2 := by
  rw [List.pairwise_iff_getElem]
  intro i j hi hj hij
  simp only [List.getElem_zipIdx, Nat.zero_add]
  exact ⟨List.getElem?_eq_getElem _, List.getElem?_eq_getElem _, hij⟩

/-- What a search finds first is related to all that it could have found. -/
theorem eq_or_rel_of_find? {α : Type} {l : List α} {R : α → α → Prop} {p : α → Bool} {a b : α}
    (h : l.Pairwise R) (ha : l.find? p = some a) (hb : b ∈ l) (hp : p b = true) :
    b = a ∨ R a b := by
  obtain ⟨-, before, after, rfl, hbefore⟩ := List.find?_eq_some_iff_append.1 ha
  rcases List.mem_append.1 hb with hb | hb
  · exact absurd hp (by simpa using hbefore b hb)
  · rcases List.mem_cons.1 hb with rfl | hb
    · exact .inl rfl
    · exact .inr (List.rel_of_pairwise_cons (List.pairwise_append.1 h).2.1 hb)

namespace Token

/-- An owner at `w` whose scope lies around an index. -/
structure ScopeAround (tokens : List Token) (i w : ℕ) (k : Kind) (r : Range) : Prop where
  token : ∃ t, tokens[w]? = some t ∧ t.kind = k ∧ t.scope = some r
  owner : k.isScopeOwner = true
  opener_lt : r.opener < i
  lt_closer : i < r.closer

/-- The owners whose scopes lie around an index, with their kinds, in the order of the text. -/
def ownersAround (tokens : List Token) (i : ℕ) : List (ℕ × Kind) :=
  tokens.zipIdx.filterMap fun (t, w) =>
    if t.kind.isScopeOwner && t.scope.any fun r => r.opener < i && i < r.closer then
      some (w, t.kind)
    else none

/-- The round pairs around an index, in the order of the text. -/
def roundAround (tokens : List Token) (i : ℕ) : List Range :=
  tokens.zipIdx.filterMap fun (t, _) =>
    if t.kind = .openRound then t.parens.filter fun r => r.opener < i && i < r.closer else none

variable {tokens : List Token} {i w : ℕ} {k : Kind} {r : Range}

theorem mem_ownersAround : (w, k) ∈ ownersAround tokens i ↔ ∃ r, ScopeAround tokens i w k r := by
  simp only [ownersAround, List.mem_filterMap, Prod.exists, List.mem_zipIdx_iff_getElem?,
    Option.ite_none_right_eq_some, Bool.and_eq_true, Option.any_eq_true, decide_eq_true_eq,
    Option.some.injEq, Prod.mk.injEq]
  constructor
  · rintro ⟨t, w, ht, ⟨howner, r, hr, hri, hir⟩, rfl, rfl⟩
    exact ⟨r, ⟨t, ht, rfl, hr⟩, howner, hri, hir⟩
  · rintro ⟨r, ⟨t, ht, rfl, hr⟩, howner, hri, hir⟩
    exact ⟨t, w, ht, ⟨howner, r, hr, hri, hir⟩, rfl, rfl⟩

theorem sorted_ownersAround : (ownersAround tokens i).Pairwise fun x y => x.1 < y.1 := by
  refine List.Pairwise.filterMap _ ?_ (pairwise_zipIdx tokens)
  rintro ⟨t, v⟩ ⟨u, w⟩ ⟨-, -, hlt⟩ x hx y hy
  obtain ⟨-, hx⟩ := Option.ite_none_right_eq_some.1 hx
  obtain ⟨-, hy⟩ := Option.ite_none_right_eq_some.1 hy
  cases hx
  cases hy
  exact hlt

section WellPaired

variable (hpaired : WellPaired tokens)

include hpaired

/-- The scope that an owner carries is a pair of curly brackets whose opener it owns. -/
theorem WellPaired.owns_scope {t : Token} (ht : tokens[w]? = some t)
    (howner : t.kind.isScopeOwner = true) (hr : t.scope = some r) :
    Ownership.scopes.Owns (kinds tokens) w r.opener ∧ Family.curly.Matches (kinds tokens) r := by
  obtain ⟨hsome, hnone⟩ := hpaired.scope_owner w t ht howner
  obtain ⟨b, howns⟩ : ∃ b, Ownership.scopes.Owns (kinds tokens) w b := by
    by_contra hno
    rw [hnone (not_exists.1 hno)] at hr
    cases hr
  obtain ⟨c, hmatches, hscope⟩ := hsome b howns
  cases hscope.symm.trans hr
  exact ⟨howns, hmatches⟩

/-- An owner carries a scope exactly where it owns the bracket that opens it. -/
theorem scopeAround_iff : ScopeAround tokens i w k r ↔
    (kinds tokens)[w]? = some k ∧ Ownership.scopes.Owns (kinds tokens) w r.opener ∧
      Family.curly.Matches (kinds tokens) r ∧ r.opener < i ∧ i < r.closer := by
  constructor
  · rintro ⟨⟨t, ht, rfl, hr⟩, howner, hri, hir⟩
    have hk := getElem?_kinds ht fun h => by rw [h] at howner; cases howner
    obtain ⟨howns, hmatches⟩ := hpaired.owns_scope ht howner hr
    exact ⟨hk, howns, hmatches, hri, hir⟩
  · rintro ⟨hk, howns, hmatches, hri, hir⟩
    have howner := howns.waits.keyword_of_getElem? hk
    obtain ⟨t, ht, rfl⟩ := exists_token_of_kinds hk fun h => by rw [h] at howner; cases howner
    obtain ⟨c, hmatches', hscope⟩ := (hpaired.scope_owner w t ht howner).1 _ howns
    rw [hmatches'.closer_unique hmatches rfl] at hscope
    exact ⟨⟨t, ht, rfl, hscope⟩, howner, hri, hir⟩

/-- Of two scopes around an index the one of the later owner lies inside the other one. -/
theorem ScopeAround.inside_of_lt {v : ℕ} {k' : Kind} {s : Range}
    (hr : ScopeAround tokens i w k r) (hs : ScopeAround tokens i v k' s) (h : w < v) :
    r.opener < s.opener ∧ s.closer < r.closer := by
  obtain ⟨-, hw, hr, -, hir⟩ := (scopeAround_iff hpaired).1 hr
  obtain ⟨-, hv, hs, hsi, -⟩ := (scopeAround_iff hpaired).1 hs
  have hlt : r.opener < s.opener := by
    rcases lt_trichotomy r.opener s.opener with hrs | hrs | hrs
    · exact hrs
    · exact absurd (hw.keyword_unique (hrs ▸ hv)) h.ne
    · have h₁ := hv.lt_of_lt hw hrs
      have h₂ := hv.waits.lt
      omega
  exact ⟨hlt, hr.not_crossing hs hlt (hsi.trans hir)⟩

/-- A round opener carries its own pair. -/
theorem parens_of_openRound {t : Token} (ht : tokens[w]? = some t) (hk : t.kind = .openRound) :
    ∃ c, Family.round.Matches (kinds tokens) ⟨w, c⟩ ∧ t.parens = some ⟨w, c⟩ := by
  have hkind := getElem?_kinds ht (by rw [hk]; nofun)
  obtain ⟨c, hmatches, -⟩ := hpaired.closer .round w ⟨t.kind, hkind, round_opens_iff.2 hk⟩
  exact ⟨c, hmatches, hpaired.round ⟨w, c⟩ w t hmatches (.inl rfl) ht⟩

theorem mem_roundAround : r ∈ roundAround tokens i ↔
    Family.round.Matches (kinds tokens) r ∧ r.opener < i ∧ i < r.closer := by
  simp only [roundAround, List.mem_filterMap, Prod.exists, List.mem_zipIdx_iff_getElem?,
    Option.ite_none_right_eq_some, Option.filter_eq_some_iff, Bool.and_eq_true, decide_eq_true_eq]
  constructor
  · rintro ⟨t, w, ht, hk, hr, hri, hir⟩
    obtain ⟨c, hmatches, hparens⟩ := parens_of_openRound hpaired ht hk
    obtain rfl : (⟨w, c⟩ : Range) = r := Option.some.inj (hparens.symm.trans hr)
    exact ⟨hmatches, hri, hir⟩
  · rintro ⟨hmatches, hri, hir⟩
    obtain ⟨k, hk, hopens⟩ := hmatches.opens
    obtain rfl := round_opens_iff.1 hopens
    obtain ⟨t, ht, htk⟩ := exists_token_of_kinds hk nofun
    exact ⟨t, r.opener, ht, htk, hpaired.round r _ t hmatches (.inl rfl) ht, hri, hir⟩

theorem sorted_roundAround : (roundAround tokens i).Pairwise fun r s => r.opener < s.opener := by
  refine List.Pairwise.filterMap _ ?_ (pairwise_zipIdx tokens)
  rintro ⟨t, v⟩ ⟨u, w⟩ ⟨ht, hu, hlt⟩ r hr s hs
  obtain ⟨htk, hr⟩ := Option.ite_none_right_eq_some.1 hr
  obtain ⟨huk, hs⟩ := Option.ite_none_right_eq_some.1 hs
  obtain ⟨c, -, hparens⟩ := parens_of_openRound hpaired ht htk
  obtain ⟨d, -, hparens'⟩ := parens_of_openRound hpaired hu huk
  cases hparens.symm.trans (Option.filter_eq_some_iff.1 hr).1
  cases hparens'.symm.trans (Option.filter_eq_some_iff.1 hs).1
  exact hlt

end WellPaired

section OfLexemes

variable {ls : List Lexeme} {docs : List DocComment} {pairs : Pairs} {t : Token}
  (hpairs : pairAll (ls.map Lexeme.kind) = .ok pairs)
  (ht : (ofLexemes ls docs pairs)[i]? = some t)

include hpairs ht

theorem exists_around_of_getElem? (family : Family) :
    ∃ openers, (family.aroundFrom [] 0 (ls.map Lexeme.kind))[i]? = some openers ∧
      openers.Pairwise (· > ·) ∧ ∀ o, o ∈ openers ↔
        ∃ c, family.Matches (ls.map Lexeme.kind) ⟨o, c⟩ ∧ o < i ∧ i < c := by
  refine exists_around (exists_pairAll_iff.1 ⟨pairs, hpairs⟩ family) ?_
  rw [List.length_map, ← length_ofLexemes ls docs pairs]
  exact (List.getElem?_eq_some_iff.1 ht).1

variable (hls : ∀ l ∈ ls, l.kind ≠ .attributeClose)

include hls

/-- The conditions of a token are the owners of the scopes around it. -/
theorem conditions_ofLexemes : t.conditions = ownersAround (ofLexemes ls docs pairs) i := by
  have hkinds := kinds_ofLexemes hpairs docs hls
  have hpaired := wellPaired_ofLexemes hpairs docs hls
  obtain ⟨l, -, hdesc⟩ := describes_of_getElem? ht
  obtain ⟨openers, hopeners, hsorted, hmem⟩ := exists_around_of_getElem? hpairs ht .curly
  rw [hdesc.conditions, openersFrom_eq, hopeners, Option.getD_some]
  have hirrefl : Std.Irrefl fun x y : ℕ × Kind => x.1 < y.1 := ⟨fun x => lt_irrefl x.1⟩
  have hantisymm : Std.Antisymm fun x y : ℕ × Kind => x.1 < y.1 :=
    ⟨fun x y hxy hyx => absurd hxy (Nat.lt_asymm hyx)⟩
  refine (sorted_conditionsOf hsorted).eq_of_mem_iff sorted_ownersAround ?_
  rintro ⟨w, k⟩
  rw [mem_conditionsOf, mem_ownersAround]
  simp only [scopeAround_iff hpaired, hkinds, hmem]
  constructor
  · rintro ⟨hk, b, ⟨c, hmatches, hbi, hic⟩, howns⟩
    exact ⟨⟨b, c⟩, hk, howns, hmatches, hbi, hic⟩
  · rintro ⟨⟨b, c⟩, hk, howns, hmatches, hbi, hic⟩
    exact ⟨hk, b, ⟨c, hmatches, hbi, hic⟩, howns⟩

/-- The depth of a token is the number of round pairs around it. -/
theorem parenDepth_ofLexemes :
    t.parenDepth = (roundAround (ofLexemes ls docs pairs) i).length := by
  have hkinds := kinds_ofLexemes hpairs docs hls
  have hpaired := wellPaired_ofLexemes hpairs docs hls
  obtain ⟨l, -, hdesc⟩ := describes_of_getElem? ht
  obtain ⟨openers, hopeners, hsorted, hmem⟩ := exists_around_of_getElem? hpairs ht .round
  have hdepth : t.parenDepth = openers.length := by
    rw [hdesc.parenDepth, ← List.length_nil, depthsFrom_eq 0, List.getElem?_map, hopeners]
    rfl
  -- both lists are in the order of the text and have the same members
  have hsame : openers.reverse = (roundAround (ofLexemes ls docs pairs) i).map Range.opener := by
    refine (List.pairwise_reverse.2 hsorted).eq_of_mem_iff
      (List.pairwise_map.2 (sorted_roundAround hpaired)) fun o => ?_
    simp only [List.mem_reverse, List.mem_map, hmem, mem_roundAround hpaired, hkinds]
    constructor
    · rintro ⟨c, hmatches, hoi, hic⟩
      exact ⟨⟨o, c⟩, ⟨hmatches, hoi, hic⟩, rfl⟩
    · rintro ⟨⟨o, c⟩, ⟨hmatches, hoi, hic⟩, rfl⟩
      exact ⟨c, hmatches, hoi, hic⟩
  rw [hdepth, ← List.length_reverse, hsame, List.length_map]

end OfLexemes

end Token

open Token

/-! ### Files -/

namespace SourceFile

/-- What a file says of the surroundings of the token at an index. -/
structure Surroundings (f : SourceFile) (i : ℕ) (t : Token) : Prop where
  /-- The conditions are the owners whose scopes lie around the token, with their kinds. -/
  conditions : t.conditions = ownersAround f.tokens.toList i
  mem_conditions : ∀ w k, (w, k) ∈ t.conditions ↔ ∃ r, ScopeAround f.tokens.toList i w k r
  /-- Of two conditions the latter is inside the former. -/
  outermost_first : t.conditions.Pairwise fun x y =>
    ∀ r s, ScopeAround f.tokens.toList i x.1 x.2 r → ScopeAround f.tokens.toList i y.1 y.2 s →
      r.opener < s.opener ∧ s.closer < r.closer
  /-- The depth is the number of round pairs around the token. -/
  parenDepth : t.parenDepth = (roundAround f.tokens.toList i).length
  nodup_roundAround : (roundAround f.tokens.toList i).Nodup
  mem_roundAround : ∀ r, r ∈ roundAround f.tokens.toList i ↔
    Family.round.Matches (kinds f.tokens.toList) r ∧ r.opener < i ∧ i < r.closer
  /-- The enclosing class is class-like, and its scope is inside that of every other class-like
  owner around the token. -/
  innermost_class : ∀ w, f.enclosingClass? i = some w →
    ∃ k r, ScopeAround f.tokens.toList i w k r ∧ k.isClassLike = true ∧
      ∀ v k' s, ScopeAround f.tokens.toList i v k' s → k'.isClassLike = true →
        v = w ∨ (s.opener < r.opener ∧ r.closer < s.closer)
  /-- There is no enclosing class where no class-like owner is around the token. -/
  no_class : f.enclosingClass? i = none ↔
    ∀ w k r, ScopeAround f.tokens.toList i w k r → k.isClassLike = false

variable {f : SourceFile} {i : ℕ} {t : Token}

theorem enclosingClass?_eq (ht : f.tokens[i]? = some t) :
    f.enclosingClass? i = (t.conditions.reverse.find? fun x => x.2.isClassLike).map Prod.fst := by
  simp only [enclosingClass?, ht, bind, Option.bind_some]
  cases t.conditions.reverse.find? fun x => x.2.isClassLike <;> rfl

/-- The surroundings of a token, by the links of the token stream that it belongs to. -/
theorem surroundings_of_wellPaired (hpaired : WellPaired f.tokens.toList)
    (ht : f.tokens[i]? = some t) (hconditions : t.conditions = ownersAround f.tokens.toList i)
    (hdepth : t.parenDepth = (roundAround f.tokens.toList i).length) : f.Surroundings i t := by
  have hmem : ∀ w k, (w, k) ∈ t.conditions ↔ ∃ r, ScopeAround f.tokens.toList i w k r :=
    fun w k => hconditions ▸ mem_ownersAround
  have hsorted : t.conditions.Pairwise fun x y => x.1 < y.1 := hconditions ▸ sorted_ownersAround
  have henclosing := enclosingClass?_eq ht
  constructor
  case conditions => exact hconditions
  case mem_conditions => exact hmem
  case outermost_first =>
    exact hsorted.imp fun hlt r s hr hs => ScopeAround.inside_of_lt hpaired hr hs hlt
  case parenDepth => exact hdepth
  case nodup_roundAround =>
    exact (sorted_roundAround hpaired).imp fun hlt h => hlt.ne (congrArg Range.opener h)
  case mem_roundAround => exact fun r => Token.mem_roundAround hpaired
  case innermost_class =>
    intro w hw
    obtain ⟨⟨w, k⟩, hfind, rfl⟩ := Option.map_eq_some_iff.1 (henclosing.symm.trans hw)
    obtain ⟨r, hr⟩ := (hmem w k).1 (List.mem_reverse.1 (List.mem_of_find?_eq_some hfind))
    have hk := List.find?_some hfind
    refine ⟨k, r, hr, hk, fun v k' s hs hk' => ?_⟩
    have hv : (v, k') ∈ t.conditions.reverse := List.mem_reverse.2 ((hmem v k').2 ⟨s, hs⟩)
    -- from the end of the conditions the search meets the inner owners first
    rcases eq_or_rel_of_find? (List.pairwise_reverse.2 hsorted) hfind hv hk' with h | h
    · exact .inl (congrArg Prod.fst h)
    · exact .inr (ScopeAround.inside_of_lt hpaired hs hr h)
  case no_class =>
    rw [henclosing, Option.map_eq_none_iff, List.find?_eq_none]
    constructor
    · intro hno w k r hr
      exact Bool.eq_false_iff.2 (hno (w, k) (List.mem_reverse.2 ((hmem w k).2 ⟨r, hr⟩)))
    · rintro hno ⟨w, k⟩ hx
      obtain ⟨r, hr⟩ := (hmem w k).1 (List.mem_reverse.1 hx)
      rw [hno w k r hr]
      exact Bool.false_ne_true

end SourceFile

/-- **Each token of a file knows its surroundings**: the scopes around it, how deep it is inside
round brackets, and the innermost class-like declaration around it. -/
theorem surroundings_of_parse {path : String} {source : Text} {f : SourceFile} {i : ℕ} {t : Token}
    (h : SourceFile.parse path source = .ok f) (ht : f.tokens[i]? = some t) :
    f.Surroundings i t := by
  obtain ⟨tokens, htokens, rfl⟩ : ∃ tokens, tokenize source = .ok tokens ∧
      f = ⟨path, source, tokens.toArray⟩ := by
    cases htokens : tokenize source with
    | error e => simp [SourceFile.parse, htokens, bind, Except.bind] at h
    | ok tokens =>
      refine ⟨tokens, rfl, ?_⟩
      simpa [SourceFile.parse, htokens, bind, Except.bind, pure, Except.pure, eq_comm] using h
  obtain ⟨ls, docs, pairs, hls, hpairs, rfl⟩ := exists_lexemes_of_tokenize htokens
  have hkinds := fun l hl => (Lexeme.mem_ofSource hls l hl).2
  have ht' : (ofLexemes ls docs pairs)[i]? = some t := by
    rwa [List.getElem?_toArray] at ht
  exact SourceFile.surroundings_of_wellPaired (wellPaired_ofLexemes hpairs docs hkinds) ht
    (conditions_ofLexemes hpairs ht' hkinds) (parenDepth_ofLexemes hpairs ht' hkinds)

/-- An argument inside a method of a class. -/
theorem surroundings_argument : ∃ f t,
    SourceFile.parse "a.php" "<?php class A{function f(){g(1);}}".toList = .ok f ∧
      f.tokens[14]? = some t ∧ t.text = ['1'] ∧ f.Surroundings 14 t := by
  obtain ⟨f, h, t, ht, htext⟩ : ∃ f,
      SourceFile.parse "a.php" "<?php class A{function f(){g(1);}}".toList = .ok f ∧
        ∃ t, f.tokens[14]? = some t ∧ t.text = ['1'] := ⟨_, by cbv, _, by cbv, by cbv⟩
  exact ⟨f, t, h, ht, htext, surroundings_of_parse h ht⟩

end EntityLint
