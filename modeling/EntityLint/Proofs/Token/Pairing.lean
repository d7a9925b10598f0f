import EntityLint.Proofs.Token.Group
import EntityLint.Proofs.Token.Owner
import EntityLint.Proofs.Token.Stream
import Mathlib

/-!
# The pairs of a token stream

Which texts have brackets without partners, and what the links of a token stream say otherwise.

* `Token.kinds`, `kinds_ofLexemes`, `kinds_of_tokenize`: the kinds of a token stream as pairing sees
  them;
* `exists_lexeme_of_tokenize`: how tokens read the lexemes as they were cut;
* `Token.WellPaired`: each bracket has one partner, and brackets and keywords carry their pairs;
* `wellPaired_ofLexemes`: where all families are balanced, a token stream is so paired.
-/

namespace EntityLint

open Pairing

/-- The kind that a token has while brackets are paired. Until then the end of an attribute group is
a square bracket like any other. -/
def Kind.unpaired : Kind → Kind
  | attributeClose => closeSquare
  | k => k

theorem Kind.unpaired_of_ne {k : Kind} (h : k ≠ .attributeClose) : k.unpaired = k := by
  cases k <;> first | rfl | exact absurd rfl h

/-- Pairing tells all kinds apart but those that end groups of square brackets. -/
theorem Kind.unpaired_eq_iff {k k' : Kind} (hk : k ∉ [.attributeClose, .closeSquare]) :
    k'.unpaired = k ↔ k' = k := by
  simp only [List.mem_cons, List.not_mem_nil, or_false, not_or] at hk
  by_cases hclose : k' = .attributeClose
  · subst hclose
    exact iff_of_false (fun h => hk.2 h.symm) fun h => hk.1 h.symm
  · rw [Kind.unpaired_of_ne hclose]

namespace Token

/-- The kinds of a token stream while brackets are paired. -/
def kinds (tokens : List Token) : List Kind := tokens.map fun t => t.kind.unpaired

/-- The links of a token stream. Brackets match family by family, and keywords own the brackets that
follow them. -/
structure WellPaired (tokens : List Token) : Prop where
  /-- Every opener has exactly one closer, after it. -/
  closer : ∀ (family : Family) (o : ℕ), family.OpensAt (kinds tokens) o →
    ∃! c, family.Matches (kinds tokens) ⟨o, c⟩
  /-- Every closer has exactly one opener, before it. -/
  opener : ∀ (family : Family) (c : ℕ), family.ClosesAt (kinds tokens) c →
    ∃! o, family.Matches (kinds tokens) ⟨o, c⟩
  /-- Pairs of one family do not cross. -/
  not_crossing : ∀ (family : Family) (r s : Range), family.Matches (kinds tokens) r →
    family.Matches (kinds tokens) s → r.opener < s.opener → s.opener < r.closer →
    s.closer < r.closer
  /-- Both round brackets of a pair carry it. -/
  round : ∀ (r : Range) (i : ℕ) (t : Token), Family.round.Matches (kinds tokens) r →
    r.opener = i ∨ r.closer = i → tokens[i]? = some t → t.parens = some r
  /-- Both curly brackets of a pair carry it. -/
  curly : ∀ (r : Range) (i : ℕ) (t : Token), Family.curly.Matches (kinds tokens) r →
    r.opener = i ∨ r.closer = i → tokens[i]? = some t → t.scope = some r
  /-- Both square brackets of a pair carry it. -/
  square : ∀ (r : Range) (i : ℕ) (t : Token), Family.square.Matches (kinds tokens) r →
    (kinds tokens)[r.opener]? = some .openSquare →
    r.opener = i ∨ r.closer = i → tokens[i]? = some t → t.brackets = some r
  /-- Both ends of an attribute group carry the same group: itself, or one that it is part of. -/
  group : ∀ r : Range, Family.square.Matches (kinds tokens) r →
    (kinds tokens)[r.opener]? = some .attributeOpen →
    ∃ g, Family.square.Matches (kinds tokens) g ∧ (kinds tokens)[g.opener]? = some .attributeOpen ∧
      g.opener ≤ r.opener ∧ r.closer ≤ g.closer ∧
      ∀ i t, r.opener = i ∨ r.closer = i → tokens[i]? = some t → t.attrGroup = some g
  /-- A function carries the round pair that it owns, and none where it owns none. -/
  parens_owner : ∀ (w : ℕ) (t : Token), tokens[w]? = some t →
    Ownership.parens.keyword t.kind = true →
    (∀ b, Ownership.parens.Owns (kinds tokens) w b →
      ∃ c, Family.round.Matches (kinds tokens) ⟨b, c⟩ ∧ t.parens = some ⟨b, c⟩) ∧
    ((∀ b, ¬Ownership.parens.Owns (kinds tokens) w b) → t.parens = none)
  /-- A scope owner carries the curly pair that it owns, and none where it owns none. -/
  scope_owner : ∀ (w : ℕ) (t : Token), tokens[w]? = some t →
    Ownership.scopes.keyword t.kind = true →
    (∀ b, Ownership.scopes.Owns (kinds tokens) w b →
      ∃ c, Family.curly.Matches (kinds tokens) ⟨b, c⟩ ∧ t.scope = some ⟨b, c⟩) ∧
    ((∀ b, ¬Ownership.scopes.Owns (kinds tokens) w b) → t.scope = none)

theorem getElem?_kinds {tokens : List Token} {i : ℕ} {t : Token} (h : tokens[i]? = some t)
    (hne : t.kind ≠ .attributeClose) : (kinds tokens)[i]? = some t.kind := by
  rw [kinds, List.getElem?_map, h, Option.map_some, Kind.unpaired_of_ne hne]

theorem exists_token_of_kinds {tokens : List Token} {i : ℕ} {k : Kind}
    (h : (kinds tokens)[i]? = some k) (hne : k ≠ .closeSquare) :
    ∃ t, tokens[i]? = some t ∧ t.kind = k := by
  rw [kinds, List.getElem?_map, Option.map_eq_some_iff] at h
  obtain ⟨t, ht, rfl⟩ := h
  refine ⟨t, ht, (Kind.unpaired_of_ne fun hclose => hne ?_).symm⟩
  rw [hclose]
  rfl

section OfLexemes

variable {ls : List Lexeme} {docs : List DocComment} {pairs : Pairs}
  (hpairs : pairAll (ls.map Lexeme.kind) = .ok pairs)

include hpairs

theorem mem_groups_iff {r : Range} :
    r ∈ pairs.groups (ls.map Lexeme.kind) ↔ Family.square.Matches (ls.map Lexeme.kind) r ∧
      (ls.map Lexeme.kind)[r.opener]? = some .attributeOpen := by
  rw [Pairs.groups, List.mem_filter, beq_iff_eq,
    ← mem_ofFamily_iff hpairs .square]
  rfl

theorem mem_brackets_iff {r : Range} :
    r ∈ pairs.brackets (ls.map Lexeme.kind) ↔ Family.square.Matches (ls.map Lexeme.kind) r ∧
      (ls.map Lexeme.kind)[r.opener]? ≠ some .attributeOpen := by
  rw [Pairs.brackets, List.mem_filter, Bool.not_eq_true', beq_eq_false_iff_ne,
    ← mem_ofFamily_iff hpairs .square]
  rfl

/-- Apart from the ends of attribute groups, tokens have the kinds of their lexemes. -/
theorem kinds_ofLexemes (docs : List DocComment) (hls : ∀ l ∈ ls, l.kind ≠ .attributeClose) :
    kinds (ofLexemes ls docs pairs) = ls.map Lexeme.kind := by
  apply List.ext_getElem
  · rw [kinds, List.length_map, length_ofLexemes, List.length_map]
  · intro i hi hi'
    rw [kinds, List.length_map] at hi
    obtain ⟨l, hl, hdesc⟩ := describes_of_getElem? (List.getElem?_eq_getElem hi)
    have hkind : (ls.map Lexeme.kind)[i]? = some l.kind := by rw [List.getElem?_map, hl]; rfl
    have hlk : (ls.map Lexeme.kind)[i] = l.kind := (List.getElem?_eq_some_iff.1 hkind).2
    simp only [kinds, List.getElem_map] at hlk ⊢
    rw [hdesc.kind, hlk]
    split_ifs with hgroup
    · obtain ⟨r, hr, hrc⟩ := List.any_eq_true.1 hgroup
      obtain rfl : r.closer = i := by simpa using hrc
      have hcloses := (closesAt_iff hkind).1 ((mem_groups_iff hpairs).1 hr).1.closes
      exact (square_closes_iff.1 hcloses).symm
    · exact Kind.unpaired_of_ne (hls l (List.mem_of_getElem? hl))

/-- The links of a token stream that is made of lexemes. -/
theorem wellPaired_ofLexemes (docs : List DocComment) (hls : ∀ l ∈ ls, l.kind ≠ .attributeClose) :
    WellPaired (ofLexemes ls docs pairs) := by
  have hkinds := kinds_ofLexemes hpairs docs hls
  have hbalanced := exists_pairAll_iff.1 ⟨pairs, hpairs⟩
  have hmem := fun (family : Family) r => mem_ofFamily_iff hpairs family (r := r)
  constructor
  case closer =>
    rw [hkinds]
    intro family o ho
    obtain ⟨c, hc⟩ := (hbalanced family).exists_closer ho
    exact ⟨c, hc, fun c' hc' => congrArg Range.closer (hc'.closer_unique hc rfl)⟩
  case opener =>
    rw [hkinds]
    intro family c hc
    obtain ⟨o, ho⟩ := (hbalanced family).exists_opener hc
    exact ⟨o, ho, fun o' ho' => congrArg Range.opener (ho'.opener_unique ho rfl)⟩
  case not_crossing => exact fun family r s hr hs => hr.not_crossing hs
  case round =>
    rw [hkinds]
    intro r i t hr hi ht
    obtain ⟨l, -, hdesc⟩ := describes_of_getElem? ht
    rw [hdesc.parens]
    exact rangeAt_of_mem (fun s hs => (hmem .round s).1 hs) ((hmem .round r).2 hr) hi
  case curly =>
    rw [hkinds]
    intro r i t hr hi ht
    obtain ⟨l, -, hdesc⟩ := describes_of_getElem? ht
    rw [hdesc.scope]
    exact rangeAt_of_mem (fun s hs => (hmem .curly s).1 hs) ((hmem .curly r).2 hr) hi
  case square =>
    rw [hkinds]
    intro r i t hr hopen hi ht
    obtain ⟨l, -, hdesc⟩ := describes_of_getElem? ht
    have hr' : r ∈ pairs.brackets (ls.map Lexeme.kind) :=
      (mem_brackets_iff hpairs).2 ⟨hr, by simp [hopen]⟩
    rw [hdesc.brackets]
    exact rangeAt_of_mem (fun s hs => ((mem_brackets_iff hpairs).1 hs).1) hr' hi
  case group =>
    rw [hkinds]
    intro r hr hopen
    obtain ⟨g, hg, hle, hge, hopener, hcloser⟩ :=
      exists_group_around (fun s hs => ((mem_groups_iff hpairs).1 hs).1)
        ((mem_groups_iff hpairs).2 ⟨hr, hopen⟩)
    obtain ⟨hgmatches, hgopen⟩ := (mem_groups_iff hpairs).1 hg
    refine ⟨g, hgmatches, hgopen, hle, hge, fun i t hi ht => ?_⟩
    obtain ⟨l, -, hdesc⟩ := describes_of_getElem? ht
    rw [hdesc.attrGroup]
    rcases hi with rfl | rfl
    · rw [hopener]; rfl
    · rw [hcloser]; rfl
  case parens_owner =>
    intro w t ht hkeyword
    have hk := getElem?_kinds ht fun h => by rw [h] at hkeyword; cases hkeyword
    rw [hkinds] at hk ⊢
    obtain ⟨l, -, hdesc⟩ := describes_of_getElem? ht
    rw [hdesc.parens]
    exact rangeAt_keyword .parens (hbalanced _) (hmem .round)
      (fun _ _ => mem_parenOwners_iff) hk hkeyword
  case scope_owner =>
    intro w t ht hkeyword
    have hk := getElem?_kinds ht fun h => by rw [h] at hkeyword; cases hkeyword
    rw [hkinds] at hk ⊢
    obtain ⟨l, -, hdesc⟩ := describes_of_getElem? ht
    rw [hdesc.scope]
    exact rangeAt_keyword .scopes (hbalanced _) (hmem .curly)
      (fun _ _ => mem_scopeOwners_iff) hk hkeyword

end OfLexemes

end Token

/-- The kinds of the tokens of a text, while brackets are paired, are those of its lexemes. -/
theorem kinds_of_tokenize {source : Text} {tokens : List Token} {pieces : List Piece}
    (h : tokenize source = .ok tokens) (hpieces : Piece.cutAll Context.start source = .ok pieces) :
    Token.kinds tokens =
      (Lexeme.resolveNullable none (pieces.flatMap Piece.lexemes)).map Lexeme.kind := by
  obtain ⟨_, pairs, hpieces', hpairs, rfl⟩ := exists_pieces_of_tokenize h
  cases hpieces.symm.trans hpieces'
  have hls : Lexeme.ofSource source =
      .ok (Lexeme.resolveNullable none (pieces.flatMap Piece.lexemes)) := by
    rw [Lexeme.ofSource, hpieces]
    rfl
  exact Token.kinds_ofLexemes hpairs _ fun l hl => (Lexeme.mem_ofSource hls l hl).2

/-- How a token reads the lexeme as it was cut. Only brackets that close an attribute group and question
marks that begin a type have other kinds. -/
theorem exists_lexeme_of_tokenize {source : Text} {tokens : List Token} {pieces : List Piece} {i : ℕ}
    {t : Token} (h : tokenize source = .ok tokens)
    (hpieces : Piece.cutAll Context.start source = .ok pieces) (ht : tokens[i]? = some t) :
    ∃ l, (pieces.flatMap Piece.lexemes)[i]? = some l ∧ t.text = l.text ∧
      (t.kind ∉ [.attributeClose, .nullable] → l.kind = t.kind) ∧
      (l.kind ∉ [.ternary, .attributeClose, .closeSquare] → t.kind = l.kind) := by
  have hkinds := kinds_of_tokenize h hpieces
  obtain ⟨_, pairs, hpieces', -, rfl⟩ := exists_pieces_of_tokenize h
  cases hpieces.symm.trans hpieces'
  obtain ⟨l', hl', hdesc⟩ := Token.describes_of_getElem? ht
  obtain ⟨l, hl, htext, hkind⟩ := Lexeme.getElem?_resolveNullable hl'
  have hunpaired : t.kind.unpaired = l'.kind := by
    have heq := congrArg (·[i]?) hkinds
    simpa [Token.kinds, ht, hl'] using heq
  refine ⟨l, hl, hdesc.text.trans htext, fun hk => ?_, fun hk => ?_⟩
  · simp only [List.mem_cons, List.not_mem_nil, or_false, not_or] at hk
    rw [Kind.unpaired_of_ne hk.1] at hunpaired
    rw [hunpaired] at hk ⊢
    exact (hkind.resolve_right fun h => hk.2 h.2).symm
  · obtain ⟨hternary, hsquare⟩ := not_or.1 (mt List.mem_cons.2 hk)
    rw [hkind.resolve_right fun h => hternary h.1] at hunpaired
    exact (Kind.unpaired_eq_iff hsquare).1 hunpaired

/-- **A text that can be cut has a bracket without a partner exactly where the brackets of some
family, taken on their own, are not balanced.** Otherwise it has a token stream, whose links are
those of `Token.WellPaired`. -/
theorem tokenize_pairs {source : Text} {ls : List Lexeme} (h : Lexeme.ofSource source = .ok ls) :
    ((∃ line bracket, tokenize source = .error (.unbalancedBracket line bracket)) ↔
      ∃ family : Family, ¬family.Balanced (ls.map Lexeme.kind)) ∧
    ((∀ family : Family, family.Balanced (ls.map Lexeme.kind)) →
      ∃ tokens, tokenize source = .ok tokens ∧ Token.kinds tokens = ls.map Lexeme.kind ∧
        Token.WellPaired tokens) := by
  obtain ⟨docs, htokens⟩ := tokenize_of_lexemes h
  have hls := fun l hl => (Lexeme.mem_ofSource h l hl).2
  rw [← not_forall, ← exists_pairAll_iff, htokens]
  cases hpairs : pairAll (ls.map Lexeme.kind) with
  | error i => exact ⟨⟨fun _ => nofun, fun _ => ⟨_, _, rfl⟩⟩, nofun⟩
  | ok pairs =>
    refine ⟨⟨nofun, fun hno => absurd ⟨pairs, rfl⟩ hno⟩, fun _ => ?_⟩
    exact ⟨_, rfl, Token.kinds_ofLexemes hpairs _ hls, Token.wellPaired_ofLexemes hpairs _ hls⟩

/-- Brackets of different families may interleave. -/
theorem tokenize_pairs_interleaved : ∃ ls tokens,
    Lexeme.ofSource "<?php fn([)]; #[A]".toList = .ok ls ∧
      tokenize "<?php fn([)]; #[A]".toList = .ok tokens ∧ Token.WellPaired tokens := by
  obtain ⟨ls, hls, pairs, hpairs⟩ : ∃ ls, Lexeme.ofSource "<?php fn([)]; #[A]".toList = .ok ls ∧
      ∃ pairs, pairAll (ls.map Lexeme.kind) = .ok pairs := ⟨_, by cbv, _, by cbv⟩
  obtain ⟨tokens, htokens, -, hpaired⟩ :=
    (tokenize_pairs hls).2 (exists_pairAll_iff.1 ⟨pairs, hpairs⟩)
  exact ⟨ls, tokens, hls, htokens, hpaired⟩

end EntityLint
