import EntityLint.Proofs.Source.Spelled

/-!
# Surroundings on both sides of balanced brackets

Tokens with properly nested brackets between them stand inside of the same pairs. So they have the same
conditions and the same depth, and they are both in an attribute group or both in none.

* `Spells.around_iff`, `Spells.inside_iff`: the pairs around both ends;
* `Spells.conditions_eq`, `Spells.parenDepth_eq`, `Spells.attrGroup_eq_none`: what the tokens say.
-/

namespace EntityLint

open Lexeme Pairing

/-- The depth of a token is the number of round pairs around it. -/
theorem parenDepth_of_parse {path : String} {source : Text} {f : SourceFile} {i : ℕ} {t : Token}
    (h : SourceFile.parse path source = .ok f) (ht : f.tokens[i]? = some t) :
    t.parenDepth = (Token.roundAround f.tokens.toList i).length := by
  obtain ⟨tokens, htokens, rfl⟩ := SourceFile.exists_tokens_of_parse h
  obtain ⟨ls, docs, pairs, hls, hpairs, rfl⟩ := exists_lexemes_of_tokenize htokens
  rw [List.getElem?_toArray] at ht
  exact Token.parenDepth_ofLexemes hpairs ht fun l hl => (Lexeme.mem_ofSource hls l hl).2

namespace SourceFile

/-- A token stands in the attribute group that it carries. -/
theorem isGroup_of_attrGroup {path : String} {source : Text} {f : SourceFile} {i : ℕ} {t : Token}
    (h : parse path source = .ok f) (ht : f.tokens[i]? = some t) {g : Range}
    (hg : t.attrGroup = some g) : f.IsGroup g ∧ g.opener ≤ i ∧ i ≤ g.closer := by
  obtain ⟨tokens, htokens, rfl⟩ := exists_tokens_of_parse h
  obtain ⟨ls, docs, pairs, hls, hpairs, rfl⟩ := exists_lexemes_of_tokenize htokens
  have hkinds := Token.kinds_ofLexemes hpairs docs fun l hl => (Lexeme.mem_ofSource hls l hl).2
  rw [List.getElem?_toArray] at ht
  obtain ⟨l, -, hdesc⟩ := Token.describes_of_getElem? ht
  have hcarry : (attributesFrom (pairs.groups (ls.map Lexeme.kind)) 0 none
      (ls.map Lexeme.kind))[i]? = some (some g) := by
    rw [hdesc.attrGroup] at hg
    cases hat : (attributesFrom (pairs.groups (ls.map Lexeme.kind)) 0 none (ls.map Lexeme.kind))[i]? with
    | none =>
      rw [hat] at hg
      cases hg
    | some a =>
      rw [hat, Option.getD_some] at hg
      rw [hg]
  have hranges := fun r hr => ((Token.mem_groups_iff (r := r) hpairs).1 hr)
  obtain ⟨hmem, hle, hge⟩ := mem_of_attributesFrom (fun r hr => (hranges r hr).1.lt)
    (fun r hr => by cases hr) hcarry
  rw [Nat.zero_add] at hle hge
  obtain ⟨hmatches, hopens⟩ := hranges g hmem
  rw [← hkinds] at hmatches hopens
  exact ⟨⟨hmatches, hopens⟩, hle, hge⟩

namespace Spells

variable {f : SourceFile} {start : ℕ} {ls : List Lexeme} {l : Lexeme}

/-! ### Pairs around some lexemes -/

/-- Balanced brackets are inside of the same pairs at both ends. -/
theorem around_iff (h : f.Spells start ls) {family : Family}
    (hbalanced : family.Balanced (ls.map Lexeme.kind)) {r : Range}
    (hr : family.Matches (Token.kinds f.tokens.toList) r) :
    (r.opener < start ∧ start ≤ r.closer) ↔
      (r.opener < start + ls.length ∧ start + ls.length ≤ r.closer) := by
  have hinside {a : ℕ} (ha : a < ls.length) {q : Kind → Bool} (hq : q .nullable = false)
      (hc : ∃ c, (Token.kinds f.tokens.toList)[start + a]? = some c ∧ q c = true) :
      ∃ c, (ls.map Lexeme.kind)[a]? = some c ∧ q c = true := by
    obtain ⟨c, hc, hqc⟩ := hc
    obtain ⟨c', hc', rfl | ⟨-, rfl⟩⟩ := h.exists_kind (List.getElem?_eq_getElem ha)
    · cases hc'.symm.trans hc
      exact ⟨_, by rw [List.getElem?_map, List.getElem?_eq_getElem ha, Option.map_some], hqc⟩
    · cases hc'.symm.trans hc
      rw [hq] at hqc
      cases hqc
  have hlength {r : Range} (hr : family.Matches (ls.map Lexeme.kind) r) : r.closer < ls.length := by
    have hlt := lt_length_of_closesAt hr.closes
    rwa [List.length_map] at hlt
  constructor
  · rintro ⟨hopener, hcloser⟩
    refine ⟨by omega, not_lt.1 fun hlt => ?_⟩
    -- what closes among the lexemes has been opened among them
    obtain ⟨a, ha⟩ := Nat.exists_eq_add_of_le hcloser
    obtain ⟨o, ho⟩ := hbalanced.exists_opener
      (hinside (by omega) (by cases family <;> rfl) (ha ▸ hr.closes))
    have hopens := congrArg Range.opener (hr.opener_unique (h.matching ho) ha)
    dsimp only at hopens
    omega
  · rintro ⟨hopener, hcloser⟩
    refine ⟨not_le.1 fun hle => ?_, by omega⟩
    obtain ⟨a, ha⟩ := Nat.exists_eq_add_of_le hle
    obtain ⟨c, hc⟩ := hbalanced.exists_closer
      (hinside (by omega) (by cases family <;> rfl) (ha ▸ hr.opens))
    have hcloses := congrArg Range.closer (hr.closer_unique (h.matching hc) ha)
    have hlt := hlength hc
    dsimp only at hcloses hlt
    omega


section Ends

variable {path : String} {source : Text} {t u : Token} {commas : Bool}
  (hparse : parse path source = .ok f) (h : f.Spells start ls)
  (hls : Nested commas (ls.map Lexeme.kind)) (ht : f.tokens[start]? = some t)
  (hu : f.tokens[start + ls.length]? = some u)
  (htk : t.kind.isBracket = false) (huk : u.kind.isBracket = false)

include h hls ht hu htk huk

/-- Between tokens that are no brackets themselves. -/
theorem inside_iff {family : Family} {r : Range}
    (hr : family.Matches (Token.kinds f.tokens.toList) r) :
    (r.opener < start ∧ start < r.closer) ↔
      (r.opener < start + ls.length ∧ start + ls.length < r.closer) := by
  have hne {i : ℕ} {v : Token} (hv : f.tokens[i]? = some v) (hvk : v.kind.isBracket = false) :
      i ≠ r.closer := by
    rintro rfl
    obtain ⟨k, hk, hcloses⟩ := hr.closes
    have hvk' := Token.getElem?_kinds (Array.getElem?_toList.trans hv) fun hclose => by
      rw [hclose] at hvk
      cases hvk
    cases hk.symm.trans hvk'
    have hstep := Family.step?_eq_down_iff.2 hcloses
    rw [Kind.step?_of_isBracket hvk] at hstep
    cases hstep
  have hiff := h.around_iff (hls.balanced family) hr
  have hstart := hne ht htk
  have hend := hne hu huk
  omega

include hparse

/-- Both ends are inside of the same bodies of classes and functions. -/
theorem conditions_eq : u.conditions = t.conditions := by
  have hpaired := wellPaired_of_parse hparse
  rw [conditions_of_parse hparse hu, conditions_of_parse hparse ht]
  refine List.filterMap_congr fun ⟨v, w⟩ hmem => ?_
  have hv : f.tokens.toList[w]? = some v := List.mk_mem_zipIdx_iff_getElem?.1 hmem
  dsimp only
  by_cases howner : v.kind.isScopeOwner = true
  · cases hscope : v.scope with
    | none => rfl
    | some r =>
      have hinside := h.inside_iff hls ht hu htk huk (hpaired.owns_scope hv howner hscope).2
      simp only [howner, Option.any_some, Bool.true_and, ← Bool.decide_and, hinside]
  · simp only [howner, Bool.false_and]

theorem parenDepth_eq : u.parenDepth = t.parenDepth := by
  have hpaired := wellPaired_of_parse hparse
  rw [parenDepth_of_parse hparse hu, parenDepth_of_parse hparse ht]
  congr 1
  refine List.filterMap_congr fun ⟨v, w⟩ hmem => ?_
  have hv : f.tokens.toList[w]? = some v := List.mk_mem_zipIdx_iff_getElem?.1 hmem
  dsimp only
  split
  · next hround =>
    obtain ⟨c, hmatches, hparens⟩ := Token.parens_of_openRound hpaired hv hround
    have hinside := h.inside_iff hls ht hu htk huk hmatches
    simp only [hparens, Option.filter_some, ← Bool.decide_and, hinside]
  · rfl

theorem attrGroup_eq_none (hnone : t.attrGroup = none) : u.attrGroup = none := by
  refine Option.eq_none_iff_forall_ne_some.2 fun g hg => ?_
  obtain ⟨hgroup, hle, hge⟩ := isGroup_of_attrGroup hparse hu hg
  have hopener : start + ls.length ≠ g.opener := by
    intro hsame
    obtain ⟨v, hv, hopen⟩ := Token.exists_token_of_kinds hgroup.opens (by decide)
    rw [Array.getElem?_toList, ← hsame, hu] at hv
    cases hv
    rw [hopen] at huk
    cases huk
  have hcloser : start + ls.length ≠ g.closer := by
    intro hsame
    rw [(hgroup.carried hparse hle hge hu).2 hsame] at huk
    cases huk
  obtain ⟨hlt, hlt'⟩ := (h.inside_iff hls ht hu htk huk hgroup.matching).2 (by omega)
  exact (hgroup.carried hparse hlt.le hlt'.le ht).1 hnone

end Ends

end Spells

end SourceFile

end EntityLint
