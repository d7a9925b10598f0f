import EntityLint.Proofs.Source.Beside
import EntityLint.Proofs.Token.GroupMarks

/-!
# Attribute groups around a token

A token carries the outermost attribute group that it stands in, its ends included, and a square
bracket ends a group where the one that it closes opens it.

* `Lexeme.BracketWritten`: how the square brackets of groups are written;
* `SourceFile.exists_groups`: the groups of a file in a list, and how its tokens come from it;
* `kind_eq_attributeClose_iff`: which square brackets end a group;
* `TellsGroup`: what a token says of the groups around it.

The main statement is `groups_are_outermost`.
-/

namespace EntityLint

open Pairing Lexeme

/-! ### The text of square brackets -/

/-- How the opening of a group and the end of square brackets are written. -/
structure Lexeme.BracketWritten (l : Lexeme) : Prop where
  opens : l.kind = .attributeOpen → l.text = "#[".toList
  closes : l.kind = .closeSquare → l.text = "]".toList

theorem Lexeme.BracketWritten.of_kind {l : Lexeme} (h : l.kind ∉ [.attributeOpen, .closeSquare]) :
    l.BracketWritten := by
  simp only [List.mem_cons, List.not_mem_nil, or_false, not_or] at h
  exact ⟨fun hk => absurd hk h.1, fun hk => absurd hk h.2⟩

theorem CodePiece.bracketWritten {ctx : Context} {c : Char} {t : Text} {p : Piece}
    (h : CodePiece ctx c t p) {l : Lexeme} (hl : l ∈ p.lexemes) : l.BracketWritten := by
  have hcut : ∀ {kind : Kind} {n : ℕ}, l ∈ (Piece.cut kind c t n).lexemes →
      l = ⟨kind, c :: t.take (n - 1)⟩ := fun hl => List.mem_singleton.1 hl
  cases h with
  | attributeOpen hc ht =>
    obtain rfl := hcut hl
    obtain ⟨u, rfl⟩ := List.head?_eq_some_iff.1 ht
    exact ⟨fun _ => by rw [hc]; rfl, nofun⟩
  | symbol h =>
    obtain rfl := hcut hl
    have htable : ∀ x ∈ Kind.operatorTable, x.2 ∉ [.attributeOpen, .closeSquare] := by decide
    unfold symbolAt
    split
    · next hfind => exact .of_kind (htable _ (List.mem_of_find?_eq_some hfind))
    · dsimp only
      unfold Kind.ofSymbol
      split <;> first | exact .of_kind (by dsimp only; decide) | exact ⟨nofun, fun _ => rfl⟩
  | docComment body rest hdoc h =>
    have hkinds : ∀ k : Kind, k ∈ [.docOpen, .docBlank, .docStar, .docTag, .docText, .docClose] →
        k ∉ [.attributeOpen, .closeSquare] := by decide
    exact .of_kind (hkinds _ (mem_lexemes_docComment hl).2)
  | word hc =>
    obtain rfl := hcut hl
    exact .of_kind (Context.of_wordKind (P := (· ∉ [.attributeOpen, .closeSquare])) (by decide)
      (by decide) ctx _ _)
  | _ =>
    obtain rfl := hcut hl
    exact .of_kind (by dsimp only; decide)

theorem bracketWritten_of_cutAll {ctx : Context} {t : Text} {pieces : List Piece}
    (h : Piece.cutAll ctx t = .ok pieces) {l : Lexeme} (hl : l ∈ pieces.flatMap Piece.lexemes) :
    l.BracketWritten := by
  obtain ⟨p, hp, hl⟩ := List.mem_flatMap.1 hl
  refine forall_cutAll (P := fun p => ∀ l ∈ p.lexemes, l.BracketWritten)
    (fun ctx c t p hp l hl => ?_) h p hp l hl
  unfold nextPiece at hp
  split at hp
  · exact (codePiece_of_ok hp).bracketWritten hl
  · split at hp <;> cases hp <;> cases List.mem_singleton.1 hl <;>
      exact .of_kind (by dsimp only; decide)

namespace SourceFile

theorem isGroup_iff {f : SourceFile} {r : Range} :
    f.IsGroup r ↔ Family.square.Matches (Token.kinds f.tokens.toList) r ∧
      (Token.kinds f.tokens.toList)[r.opener]? = some .attributeOpen :=
  ⟨fun hr => ⟨hr.matching, hr.opens⟩, fun hr => ⟨hr.1, hr.2⟩⟩

section OfParse

variable {path : String} {source : Text} {f : SourceFile} {i : ℕ} {t : Token}

/-- Tokens that open a group, or close square brackets, are written so. -/
theorem bracketWritten_of_parse (h : parse path source = .ok f) {k : Kind}
    (hk : (Token.kinds f.tokens.toList)[i]? = some k) (hne : k ≠ .nullable) :
    Lexeme.BracketWritten ⟨k, f.textAt i⟩ := by
  obtain ⟨tokens, htokens, rfl⟩ := exists_tokens_of_parse h
  obtain ⟨pieces, _, hpieces, -⟩ := exists_pieces_of_tokenize htokens
  have hkinds := kinds_of_tokenize htokens hpieces
  obtain ⟨t, ht, -⟩ : ∃ t, tokens[i]? = some t ∧ t.kind.unpaired = k := by
    simpa [Token.kinds, Option.map_eq_some_iff] using hk
  obtain ⟨l, hl, htext, -⟩ := exists_lexeme_of_tokenize htokens hpieces ht
  rw [hkinds, List.getElem?_map, Option.map_eq_some_iff] at hk
  obtain ⟨l', hl', rfl⟩ := hk
  obtain ⟨_, hl'', -, hkind⟩ := getElem?_resolveNullable hl'
  cases hl.symm.trans hl''
  have hsame : (⟨l'.kind, textAt ⟨path, source, tokens.toArray⟩ i⟩ : Lexeme) = l := by
    rw [textAt, List.getElem?_toArray, ht, Option.map_some, Option.getD_some, htext,
      hkind.resolve_right fun hternary => hne hternary.2]
  rw [hsame]
  exact bracketWritten_of_cutAll hpieces (List.mem_of_getElem? hl)

/-- The opening and the end of a group as they are written. -/
theorem IsGroup.text (h : parse path source = .ok f) {r : Range} (hr : f.IsGroup r) :
    f.textAt r.opener = "#[".toList ∧ f.textAt r.closer = "]".toList := by
  obtain ⟨k, hk, hcloses⟩ := hr.matching.closes
  obtain rfl := square_closes_iff.1 hcloses
  exact ⟨(bracketWritten_of_parse h hr.opens nofun).opens rfl,
    (bracketWritten_of_parse h hk nofun).closes rfl⟩

/-! ### What a token says of groups -/

/-- The groups of a file in a list, and how its tokens come from it. -/
theorem exists_groups (h : parse path source = .ok f) : ∃ ranges : List Range,
    (∀ r, r ∈ ranges ↔ f.IsGroup r) ∧ Family.square.Balanced (Token.kinds f.tokens.toList) ∧
    ∀ i t, f.tokens[i]? = some t →
      t.attrGroup =
        ((attributesFrom ranges 0 none (Token.kinds f.tokens.toList))[i]?).getD none ∧
      (t.kind = .attributeClose ↔ ∃ r ∈ ranges, r.closer = i) := by
  obtain ⟨tokens, htokens, rfl⟩ := exists_tokens_of_parse h
  obtain ⟨ls, docs, pairs, hls, hpairs, rfl⟩ := exists_lexemes_of_tokenize htokens
  have hplain := fun l hl => (Lexeme.mem_ofSource hls l hl).2
  have hkinds := Token.kinds_ofLexemes hpairs docs hplain
  refine ⟨pairs.groups (ls.map Lexeme.kind), fun r => ?_, ?_, fun i t ht => ?_⟩
  · rw [Token.mem_groups_iff hpairs, ← hkinds]
    exact (isGroup_iff (f := ⟨path, source, _⟩)).symm
  · rw [hkinds]
    exact exists_pairAll_iff.1 ⟨pairs, hpairs⟩ .square
  · rw [List.getElem?_toArray] at ht
    obtain ⟨l, hl, hdesc⟩ := Token.describes_of_getElem? ht
    rw [hdesc.attrGroup, hdesc.kind, hkinds]
    refine ⟨rfl, ?_⟩
    by_cases hany : ((pairs.groups (ls.map Lexeme.kind)).any fun r => r.closer == i) = true
    · rw [if_pos hany]
      simpa using hany
    · rw [if_neg hany]
      refine iff_of_false (hplain l (List.mem_of_getElem? hl)) fun ⟨r, hr, hi⟩ => hany ?_
      exact List.any_eq_true.2 ⟨r, hr, beq_iff_eq.2 hi⟩

/-- A closing square bracket ends a group exactly if the bracket that it closes opens one. -/
theorem kind_eq_attributeClose_iff (h : parse path source = .ok f) (ht : f.tokens[i]? = some t)
    {o : ℕ} (ho : Family.square.Matches (Token.kinds f.tokens.toList) ⟨o, i⟩) :
    t.kind = .attributeClose ↔ f.kindAt o = some .attributeOpen := by
  obtain ⟨ranges, hranges, -, htells⟩ := exists_groups h
  rw [(htells i t ht).2]
  constructor
  · rintro ⟨r, hr, hi⟩
    obtain ⟨hmatches, hopens⟩ := (hranges r).1 hr
    obtain rfl := hmatches.opener_unique ho hi
    obtain ⟨u, hu, hk⟩ := Token.exists_token_of_kinds hopens (by decide)
    rw [kindAt, ← Array.getElem?_toList, hu, Option.map_some, hk]
  · intro hk
    obtain ⟨u, hu, hk⟩ := Option.map_eq_some_iff.1 hk
    rw [← Array.getElem?_toList] at hu
    have hopens := Token.getElem?_kinds hu (by rw [hk]; decide)
    rw [hk] at hopens
    exact ⟨⟨o, i⟩, (hranges _).2 ⟨ho, hopens⟩, rfl⟩

/-- What a token says of the attribute groups around it, and that the same is written on it turn by
turn. -/
structure TellsGroup (f : SourceFile) (i : ℕ) (t : Token) : Prop where
  none_iff : t.attrGroup = none ↔ ∀ r, f.IsGroup r → ¬(r.opener ≤ i ∧ i ≤ r.closer)
  some_iff : ∀ g, t.attrGroup = some g ↔ IsOutermost f.IsGroup i g
  close : t.kind ∈ [.closeSquare, .attributeClose] → t.text = "]".toList ∧
    ∃ o, (∀ o', Family.square.Matches (Token.kinds f.tokens.toList) ⟨o', i⟩ ↔ o' = o) ∧
      (t.kind = .attributeClose ↔ f.kindAt o = some .attributeOpen)
  opener : (Marking.ofKinds (Token.kinds f.tokens.toList)).opener i = t.attrGroup.map Range.opener
  closer : (Marking.ofKinds (Token.kinds f.tokens.toList)).closer i = t.attrGroup.map Range.closer
  isEnd : (Marking.ofKinds (Token.kinds f.tokens.toList)).isEnd i = true ↔ t.kind = .attributeClose

/-- **A token carries the outermost attribute group that it stands in, and none if it stands in
none.** A group begins with its mark and ends with the square bracket that closes it, and a closing
square bracket has the kind of an end exactly if it closes a group. The same is left on the tokens
when the groups are marked turn by turn. -/
theorem groups_are_outermost (h : parse path source = .ok f) :
    (∀ r, f.IsGroup r → f.textAt r.opener = "#[".toList ∧ f.textAt r.closer = "]".toList) ∧
      ∀ i t, f.tokens[i]? = some t → f.TellsGroup i t := by
  obtain ⟨ranges, hranges, hbalanced, htells⟩ := exists_groups h
  have hsame : (· ∈ ranges) = f.IsGroup := funext fun r => propext (hranges r)
  have hmatches : ∀ r ∈ ranges, Family.square.Matches (Token.kinds f.tokens.toList) r :=
    fun r hr => ((hranges r).1 hr).matching
  refine ⟨fun r => IsGroup.text h, fun i t ht => ?_⟩
  obtain ⟨hgroup, hclose⟩ := htells i t ht
  have hsome : ∀ g, t.attrGroup = some g ↔ IsOutermost f.IsGroup i g := by
    intro g
    rw [← hsame, ← attributesFrom_eq_some_iff hmatches, hgroup]
    cases (attributesFrom ranges 0 none (Token.kinds f.tokens.toList))[i]? <;> simp
  obtain ⟨hopener, hcloser, hisEnd⟩ :=
    Marking.marks_ofKinds hbalanced (fun r => (hranges r).trans isGroup_iff) i
  constructor
  case none_iff =>
    constructor
    · rintro hnone r hr ⟨hle, hge⟩
      obtain ⟨g, -, -, -, hcarry⟩ := exists_attributesFrom_of_mem hmatches ((hranges r).2 hr) hle hge
      rw [hgroup, hcarry] at hnone
      cases hnone
    · intro hout
      refine Option.eq_none_iff_forall_ne_some.2 fun g hg => ?_
      obtain ⟨hmem, hle, hge, -⟩ := (hsome g).1 hg
      exact hout g hmem ⟨hle, hge⟩
  case some_iff => exact hsome
  case close =>
    intro hk
    have hcloses : (Token.kinds f.tokens.toList)[i]? = some .closeSquare := by
      rw [Token.kinds, List.getElem?_map, Array.getElem?_toList, ht, Option.map_some]
      simp only [List.mem_cons, List.not_mem_nil, or_false] at hk
      rcases hk with hk | hk <;> rw [hk] <;> rfl
    have htext : f.textAt i = t.text := by rw [textAt, ht]; rfl
    obtain ⟨o, ho⟩ := hbalanced.exists_opener ⟨_, hcloses, rfl⟩
    refine ⟨htext ▸ (bracketWritten_of_parse h hcloses (by decide)).closes rfl, o, fun o' => ?_,
      kind_eq_attributeClose_iff h ht ho⟩
    exact ⟨fun ho' => congrArg Range.opener (ho'.opener_unique ho rfl), fun heq => heq ▸ ho⟩
  case opener => rw [hopener, hgroup]
  case closer => rw [hcloser, hgroup]
  case isEnd => exact hisEnd.trans hclose.symm

end OfParse

/-- A group inside of another one, and square brackets in it and behind it. -/
theorem groups_are_outermost_nested : ∃ f b e x,
    parse "a.php" "<?php #[A([1], #[B] C)] $x[0];".toList = .ok f ∧
    f.tokens[11]? = some b ∧ f.tokens[12]? = some e ∧ f.tokens[18]? = some x ∧
    f.textAt 11 = "B".toList ∧ IsOutermost f.IsGroup 11 ⟨2, 16⟩ ∧
    (Marking.ofKinds (Token.kinds f.tokens.toList)).opener 11 = some 2 ∧
    e.kind = .attributeClose ∧ e.text = "]".toList ∧
    f.textAt 18 = "$x".toList ∧ ∀ r, f.IsGroup r → ¬(r.opener ≤ 18 ∧ 18 ≤ r.closer) := by
  have heval : (parse "a.php" "<?php #[A([1], #[B] C)] $x[0];".toList).toOption.any (fun f =>
      [11, 12, 18].map (fun i => f.tokens[i]?.map Token.attrGroup) =
          [some (some ⟨2, 16⟩), some (some ⟨2, 16⟩), some none] ∧
        f.kindAt 12 = some .attributeClose ∧ f.textAt 11 = "B".toList ∧
        f.textAt 18 = "$x".toList) = true := by
    decide +kernel
  obtain ⟨f, hparse, hgroups, hkind, htext, htext'⟩ := exists_ok_of_any heval
  obtain ⟨b, hb, hinner⟩ := Option.map_eq_some_iff.1 (List.cons.inj hgroups).1
  obtain ⟨e, he, hend⟩ := Option.map_eq_some_iff.1 hkind
  obtain ⟨x, hx, houter⟩ := Option.map_eq_some_iff.1
    (List.cons.inj (List.cons.inj (List.cons.inj hgroups).2).2).1
  obtain ⟨-, htells⟩ := groups_are_outermost hparse
  obtain ⟨hclose, -⟩ := (htells 12 e he).close (by rw [hend]; decide)
  refine ⟨f, b, e, x, hparse, hb, he, hx, htext,
    ((htells 11 b hb).some_iff ⟨2, 16⟩).1 hinner, ?_, hend, hclose, htext',
    (htells 18 x hx).none_iff.1 houter⟩
  rw [(htells 11 b hb).opener, hinner]
  rfl

end SourceFile

end EntityLint
