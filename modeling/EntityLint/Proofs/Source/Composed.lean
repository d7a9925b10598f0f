import EntityLint.Proofs.Mapping.Ownership
import EntityLint.Proofs.Source.Passage
import EntityLint.Proofs.Token.Spelling

/-!
# Files whose pieces are known

A text whose pieces are known makes a file if its brackets are balanced, and the lexemes of this file
are those of the pieces.

* `Stands`: some of the pieces, and how many lexemes are before them;
* `exists_block_of_getElem?`: the block of pieces that a lexeme belongs to;
* `SourceFile.Composed`: a file that is made of given pieces;
* `Composed.passage`, `Composed.comment_of_stands`: what it says of pieces that stand in it.

The main statement is `exists_parse_composed`.
-/

namespace EntityLint

open Pairing

/-! ### Pieces among others -/

/-- Some pieces stand among others, with a number of lexemes before them. -/
def Stands (ps : List Piece) (start : ℕ) (qs : List Piece) : Prop :=
  ∃ before after, ps = before ++ (qs ++ after) ∧ (before.flatMap Piece.lexemes).length = start

/-- Each lexeme belongs to a block of pieces. -/
theorem exists_block_of_getElem? {blocks : List (List Piece)} {i : ℕ} {l : Lexeme}
    (hl : (blocks.flatten.flatMap Piece.lexemes)[i]? = some l) :
    ∃ b ∈ blocks, ∃ start a, Stands blocks.flatten start b ∧ i = start + a ∧
      (b.flatMap Piece.lexemes)[a]? = some l := by
  rw [← List.flatMap_id, List.flatMap_assoc] at hl
  obtain ⟨before, b, after, a, rfl, hi, hget⟩ := exists_part_of_getElem? hl
  refine ⟨b, by simp, _, a, ⟨before.flatten, after.flatten, by simp, ?_⟩, hi, hget⟩
  rw [← List.flatMap_id, List.flatMap_assoc]

theorem exists_stands_of_mem {blocks : List (List Piece)} {b : List Piece} (hb : b ∈ blocks) :
    ∃ start, Stands blocks.flatten start b := by
  obtain ⟨before, after, rfl⟩ := List.append_of_mem hb
  exact ⟨_, before.flatten, after.flatten, by simp, rfl⟩

theorem DocComment.mem_all_of_stands {ps qs : List Piece} {start : ℕ} {body : List Lexeme}
    (h : Stands ps start (.docComment body :: qs)) :
    ⟨⟨start, start + 1 + body.length⟩, tagsOf (start + 1) body⟩ ∈ DocComment.all 0 ps := by
  obtain ⟨before, after, rfl, rfl⟩ := h
  rw [all_append, Nat.zero_add]
  exact List.mem_append_right _ List.mem_cons_self

/-! ### Files -/

namespace SourceFile

/-- A file is made of some pieces. None of them is part of an attribute group. -/
structure Composed (f : SourceFile) (ps : List Piece) : Prop where
  lexemes : f.lexemes = ps.flatMap Piece.lexemes
  paired : Token.WellPaired f.tokens.toList
  conditions : ∀ (i : ℕ) (t : Token), f.tokens[i]? = some t →
    t.conditions = Token.ownersAround f.tokens.toList i
  parenDepth : ∀ (i : ℕ) (t : Token), f.tokens[i]? = some t →
    t.parenDepth = (Token.roundAround f.tokens.toList i).length
  /-- The ends of a doc comment carry it, and its opening carries its tags. -/
  comment : ∀ (i : ℕ) (t : Token), f.tokens[i]? = some t → ∀ d ∈ DocComment.all 0 ps,
    (d.range.opener = i ∨ d.range.closer = i → t.comment = some d.range) ∧
      (d.range.opener = i → t.docTags = d.tags)
  plain : ∀ l ∈ f.lexemes, l.kind ∉ [.ternary, .attributeOpen, .attributeClose]

namespace Composed

variable {f : SourceFile} {ps qs : List Piece} {start : ℕ} (h : f.Composed ps)

include h

theorem kindAt_ne {i : ℕ} {k : Kind} (hk : k ∈ [.ternary, .attributeOpen, .attributeClose]) :
    f.kindAt i ≠ some k := by
  intro hki
  rw [kindAt_eq] at hki
  obtain ⟨l, hl, rfl⟩ := Option.map_eq_some_iff.1 hki
  exact h.plain l (List.mem_of_getElem? hl) hk

theorem kinds_eq : Token.kinds f.tokens.toList = f.lexemes.map Lexeme.kind := by
  rw [Token.kinds, SourceFile.lexemes, List.map_map]
  refine List.map_congr_left fun t ht => Kind.unpaired_of_ne fun hk => ?_
  have hplain := h.plain t.lexeme (List.mem_map_of_mem ht)
  rw [Token.lexeme, hk] at hplain
  exact hplain (by simp)

/-- Pieces that stand among those of a file are a passage of it. -/
theorem passage (hqs : Stands ps start qs) : f.Passage start (qs.flatMap Piece.lexemes) := by
  obtain ⟨before, after, rfl, rfl⟩ := hqs
  have happend : f.lexemes = before.flatMap Piece.lexemes ++
      (qs.flatMap Piece.lexemes ++ after.flatMap Piece.lexemes) := by
    rw [h.lexemes, List.flatMap_append, List.flatMap_append]
  exact .of_append happend

/-- The two ends of a doc comment. -/
theorem comment_of_stands {body : List Lexeme}
    (hqs : Stands ps start (.docComment body :: qs)) :
    (f.tokens[start]?.map Token.docTags = some (DocComment.tagsOf (start + 1) body)) ∧
      f.tokens[start + 1 + body.length]?.map Token.comment =
        some (some ⟨start, start + 1 + body.length⟩) := by
  have hd := DocComment.mem_all_of_stands hqs
  have hpassage := h.passage hqs
  have hlen : ((Piece.docComment body :: qs).flatMap Piece.lexemes).length =
      body.length + 2 + (qs.flatMap Piece.lexemes).length := by
    rw [List.flatMap_cons, List.length_append, Piece.lexemes, List.length_cons, List.length_append,
      List.length_singleton]
  have hopener := hpassage.lt_size (a := 0) (by omega)
  have hcloser := hpassage.lt_size (a := 1 + body.length) (by omega)
  rw [Nat.add_zero] at hopener
  rw [← Nat.add_assoc] at hcloser
  rw [Array.getElem?_eq_getElem hopener, Array.getElem?_eq_getElem hcloser]
  refine ⟨congrArg some ?_, congrArg some ?_⟩
  · exact (h.comment _ _ (Array.getElem?_eq_getElem hopener) _ hd).2 rfl
  · exact (h.comment _ _ (Array.getElem?_eq_getElem hcloser) _ hd).1 (.inr rfl)

theorem nativeTags_eq (i : ℕ) : f.nativeTags i = [] := by
  have hgroups : f.attributeGroupsBefore i i = [] := by
    rw [attributeGroupsBefore]
    split
    · rfl
    · split
      · rfl
      · next close hclose =>
        obtain ⟨-, -, hk⟩ := previous?_eq_some hclose
        have hkind : f.kindAt close = some .attributeClose := by
          unfold holdsAt at hk
          unfold kindAt
          cases ht : f.tokens[close]? <;> simp_all
        exact absurd hkind (h.kindAt_ne (by decide))
  rw [nativeTags, attributeGroups, hgroups]
  rfl

end Composed

theorem resolveNullable_eq_self {ls : List Lexeme} (h : ∀ l ∈ ls, l.kind ≠ .ternary)
    (before : Option Kind) : Lexeme.resolveNullable before ls = ls := by
  induction ls generalizing before with
  | nil => rfl
  | cons l ls ih =>
    obtain ⟨hl, hls⟩ := List.forall_mem_cons.1 h
    have hkind : ¬(l.kind = .ternary ∧ before.any Kind.precedesType ∧
        (Lexeme.firstSignificant? ls).any Kind.beginsType) := fun h => hl h.1
    rw [Lexeme.resolveNullable, if_neg hkind, ih hls]

/-- **A text whose pieces are known makes a file of these pieces**, if its brackets are balanced. -/
theorem exists_parse_composed {path : String} {source : Text} {ps : List Piece}
    (hcut : Piece.cutAll Context.start source = .ok ps)
    (hplain : ∀ l ∈ ps.flatMap Piece.lexemes, l.kind ∉ [.ternary, .attributeOpen, .attributeClose])
    (hbalanced : ∀ family : Family,
      family.Balanced ((ps.flatMap Piece.lexemes).map Lexeme.kind)) :
    ∃ f, parse path source = .ok f ∧ f.Composed ps := by
  obtain ⟨pairs, hpairs⟩ := exists_pairAll_iff.2 hbalanced
  have hresolve : Lexeme.resolveNullable none (ps.flatMap Piece.lexemes) =
      ps.flatMap Piece.lexemes :=
    resolveNullable_eq_self (fun l hl h => hplain l hl (by rw [h]; decide)) none
  have htokens : tokenize source = .ok (Token.ofLexemes (ps.flatMap Piece.lexemes)
      (DocComment.all 0 ps) pairs) := by
    unfold tokenize
    simp only [hcut, bind, Except.bind, hresolve, hpairs]
    rfl
  have hclose : ∀ l ∈ ps.flatMap Piece.lexemes, l.kind ≠ .attributeClose :=
    fun l hl h => hplain l hl (by rw [h]; decide)
  have hlexemes : (Token.ofLexemes (ps.flatMap Piece.lexemes) (DocComment.all 0 ps) pairs).map
      Token.lexeme = ps.flatMap Piece.lexemes := by
    apply List.ext_getElem
    · rw [List.length_map, Token.length_ofLexemes]
    · intro i hi hi'
      rw [List.length_map] at hi
      obtain ⟨l, hl, hdesc⟩ := Token.describes_of_getElem? (List.getElem?_eq_getElem hi)
      obtain ⟨hlt, rfl⟩ := List.getElem?_eq_some_iff.1 hl
      have hkind := hdesc.kind
      rw [if_neg] at hkind
      · rw [List.getElem_map, Token.lexeme, hkind, hdesc.text]
      · -- without an opening there is no attribute group
        rw [List.any_eq_true]
        rintro ⟨r, hr, -⟩
        obtain ⟨-, hopen⟩ := (Token.mem_groups_iff hpairs).1 hr
        rw [List.getElem?_map] at hopen
        obtain ⟨o, ho, hok⟩ := Option.map_eq_some_iff.1 hopen
        exact hplain o (List.mem_of_getElem? ho) (by rw [hok]; decide)
  refine ⟨⟨path, source, (Token.ofLexemes (ps.flatMap Piece.lexemes) (DocComment.all 0 ps)
    pairs).toArray⟩, ?_, ?_⟩
  · unfold parse
    rw [htokens]
    rfl
  · constructor
    case lexemes => exact hlexemes
    case paired => exact Token.wellPaired_ofLexemes hpairs _ hclose
    case conditions =>
      intro i t ht
      rw [List.getElem?_toArray] at ht
      exact Token.conditions_ofLexemes hpairs ht hclose
    case parenDepth =>
      intro i t ht
      rw [List.getElem?_toArray] at ht
      exact Token.parenDepth_ofLexemes hpairs ht hclose
    case comment =>
      intro i t ht d hd
      rw [List.getElem?_toArray] at ht
      refine ⟨Token.comment_of_end htokens hcut hd ht, ?_⟩
      rintro rfl
      exact Token.docTags_of_opener htokens hcut hd ht
    case plain =>
      intro l hl
      rw [SourceFile.lexemes, hlexemes] at hl
      exact hplain l hl

end SourceFile

end EntityLint
