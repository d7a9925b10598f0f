import EntityLint.Proofs.Token.DocComments
import EntityLint.Proofs.Token.Spelling

/-!
# Parts of code and the lexemes they are cut into

A text in code is cut into certain lexemes in front of a given rest, whatever stands before it. This is
said part by part, and parts one after the other are cut into their lexemes one after the other.

* `cutAll_behind`, `exists_split_of_getElem?`: pieces in the middle of a text;
* `CutsInto`, with `CutsInto.append` and `CutsInto.mono`: a part of code and its lexemes;
* `CutsInto.of_codePiece`: a part that is one lexeme;
* `Writes`, `CutsInto.writes_append`: parts whose lexemes are of one sort;
* `cutsInto_symbol`, `cutsInto_mark`, `cutsInto_name`, `cutsInto_space`, `cutsInto_quoted`,
  `cutsInto_digits`: the rules of the cutter.
-/

namespace EntityLint

open Lexeme Text

/-! ### Cutting from the middle -/

/-- The pieces from the middle on are those of the rest of the text. -/
theorem cutAll_behind {ctx : Context} {t : Text} {ps qs : List Piece}
    (h : Piece.cutAll ctx t = .ok (ps ++ qs)) :
    Piece.cutAll ((ps.flatMap Piece.lexemes).foldl Context.after ctx) (Piece.join qs) = .ok qs := by
  induction ps generalizing ctx t with
  | nil =>
    rw [List.nil_append] at h
    have htext : Piece.join qs = t := text_cutAll h
    rwa [htext]
  | cons p ps ih =>
    cases t with
    | nil => simp [Piece.cutAll] at h
    | cons c t =>
      obtain ⟨_, _, following, -, -, hrest, hpieces⟩ := cutAll_cons_eq_ok h
      cases hpieces
      rw [List.flatMap_cons, List.foldl_append]
      exact ih hrest

/-- A piece is cut in the context of all lexemes in front of it. -/
theorem exists_nextPiece_of_split {ctx : Context} {t : Text} {ps qs : List Piece} {p : Piece}
    (h : Piece.cutAll ctx t = .ok (ps ++ p :: qs)) :
    ∃ c u, nextPiece ((ps.flatMap Piece.lexemes).foldl Context.after ctx) c u = .ok p ∧
      Piece.join (p :: qs) = c :: u := by
  have hrest := cutAll_behind h
  cases hjoin : Piece.join (p :: qs) with
  | nil =>
    rw [hjoin, Piece.cutAll] at hrest
    cases hrest
  | cons c u =>
    rw [hjoin] at hrest
    obtain ⟨_, _, _, hnext, -, -, heq⟩ := cutAll_cons_eq_ok hrest
    cases heq
    exact ⟨c, u, hnext, rfl⟩

/-- The parts of a doc comment are cut from its text. -/
theorem exists_body_of_cutAll {ctx : Context} {t : Text} {pieces : List Piece} {parts : List Lexeme}
    (h : Piece.cutAll ctx t = .ok pieces) (hp : .docComment parts ∈ pieces) :
    ∃ body, parts = docLexemes false body := by
  refine forall_cutAll (P := fun p => ∀ parts, p = .docComment parts →
    ∃ body, parts = docLexemes false body) (fun ctx c t p hp parts heq => ?_) h _ hp parts rfl
  rcases nextPiece_cases hp with ⟨kind, n, rfl, -⟩ | ⟨body, rfl, -⟩
  · cases heq
  · cases heq
    exact ⟨body, rfl⟩

/-- A significant lexeme is a piece of its own. -/
theorem exists_split_of_getElem? {ctx : Context} {t : Text} {pieces : List Piece} {i : ℕ} {l : Lexeme}
    (h : Piece.cutAll ctx t = .ok pieces) (hl : (pieces.flatMap Piece.lexemes)[i]? = some l)
    (hk : l.kind.isTrivia = false) :
    ∃ ps qs, pieces = ps ++ .single l :: qs ∧ (ps.flatMap Piece.lexemes).length = i := by
  obtain ⟨ps, p, qs, m, rfl, rfl, hm⟩ := exists_part_of_getElem? hl
  cases p with
  | single l' =>
    obtain ⟨hm', hl'⟩ := List.getElem?_eq_some_iff.1 hm
    obtain rfl : m = 0 := Nat.lt_one_iff.1 hm'
    obtain rfl : l' = l := hl'
    exact ⟨ps, qs, rfl, rfl⟩
  | docComment parts =>
    obtain ⟨body, rfl⟩ := exists_body_of_cutAll h (List.mem_append_right ps List.mem_cons_self)
    have hkinds : ∀ k : Kind, k ∈ [.docOpen, .docBlank, .docStar, .docTag, .docText, .docClose] →
        k.isTrivia = true := by decide
    rw [hkinds _ (mem_lexemes_docComment (List.mem_of_getElem? hm)).2] at hk
    cases hk

/-- Only tags and the text around code are cut outside of it. -/
theorem inCode_of_nextPiece {ctx : Context} {c : Char} {t : Text} {l : Lexeme}
    (h : nextPiece ctx c t = .ok (.single l)) (hl : l.kind ∉ [.openTag, .plainText]) :
    ctx.inCode = true := by
  by_contra hcode
  rw [nextPiece_of_outside (Bool.eq_false_iff.2 hcode)] at h
  split at h <;> cases h <;> exact hl (by simp)

/-! ### Parts of code -/

/-- In code, a text in front of a certain rest is cut into lexemes as they are described, and the cutter
stays in code. -/
def CutsInto (t rest : Text) (R : List Lexeme → Prop) : Prop :=
  ∀ (ctx : Context) (pieces : List Piece), ctx.inCode = true →
    Piece.cutAll ctx (t ++ rest) = .ok pieces →
      ∃ (ls : List Lexeme) (ps : List Piece) (ctx' : Context), pieces = ls.map .single ++ ps ∧ R ls ∧
        ctx'.inCode = true ∧ Piece.cutAll ctx' rest = .ok ps

namespace CutsInto

variable {t u rest : Text} {R S : List Lexeme → Prop}

theorem mono (h : CutsInto t rest R) (hRS : ∀ ls, R ls → S ls) : CutsInto t rest S := by
  intro ctx pieces hcode hpieces
  obtain ⟨ls, ps, ctx', heq, hls, hcode', hps⟩ := h ctx pieces hcode hpieces
  exact ⟨ls, ps, ctx', heq, hRS ls hls, hcode', hps⟩

theorem nil (h : R []) : CutsInto [] rest R := fun ctx pieces hcode hpieces =>
  ⟨[], pieces, ctx, rfl, h, hcode, hpieces⟩

/-- Parts one after the other. -/
theorem append (ht : CutsInto t (u ++ rest) R) (hu : CutsInto u rest S) :
    CutsInto (t ++ u) rest fun ls => ∃ as bs, ls = as ++ bs ∧ R as ∧ S bs := by
  intro ctx pieces hcode hpieces
  rw [List.append_assoc] at hpieces
  obtain ⟨as, ps, ctx', rfl, has, hcode', hps⟩ := ht ctx pieces hcode hpieces
  obtain ⟨bs, qs, ctx'', rfl, hbs, hcode'', hqs⟩ := hu ctx' ps hcode' hps
  exact ⟨as ++ bs, qs, ctx'', by simp, ⟨as, bs, rfl, has, hbs⟩, hcode'', hqs⟩

/-- A part that is one lexeme. -/
theorem of_codePiece {c : Char} (h : ∀ ctx : Context, ctx.inCode = true → ∃ k : Kind,
    CodePiece ctx c (t ++ rest) (.single ⟨k, c :: t⟩) ∧ k ∉ [.openTag, .closeTag] ∧ R [⟨k, c :: t⟩]) :
    CutsInto (c :: t) rest R := by
  intro ctx pieces hcode hpieces
  obtain ⟨k, hpiece, hk, hR⟩ := h ctx hcode
  rw [List.cons_append] at hpieces
  obtain ⟨p, ps, following, hp, htext, hps, rfl⟩ := cutAll_cons_eq_ok hpieces
  rw [nextPiece_of_inCode hcode, codePiece_eq_ok hpiece] at hp
  cases hp
  rw [Piece.text_single, ← List.cons_append] at htext
  obtain rfl : following = rest := List.append_cancel_left htext
  refine ⟨[⟨k, c :: t⟩], ps, ctx.after ⟨k, c :: t⟩, rfl, hR, ?_, hps⟩
  rw [← hcode]
  cases k <;> first | rfl | exact absurd (by decide) hk

end CutsInto

/-- Some lexemes make up a text, and their kinds are of one sort. -/
structure Writes (P : Kind → Prop) (t : Text) (ls : List Lexeme) : Prop where
  text : ls.flatMap Lexeme.text = t
  kinds : ∀ l ∈ ls, P l.kind

namespace Writes

variable {P : Kind → Prop} {t u : Text} {ls ms : List Lexeme}

theorem append (ht : Writes P t ls) (hu : Writes P u ms) : Writes P (t ++ u) (ls ++ ms) :=
  ⟨by rw [List.flatMap_append, ht.text, hu.text], List.forall_mem_append.2 ⟨ht.kinds, hu.kinds⟩⟩

theorem singleton {k : Kind} (hk : P k) (t : Text) : Writes P t [⟨k, t⟩] :=
  ⟨List.append_nil t, List.forall_mem_singleton.2 hk⟩

end Writes

/-- Parts one after the other that are written in lexemes of one sort. -/
theorem CutsInto.writes_append {P : Kind → Prop} {t u rest : Text}
    (ht : CutsInto t (u ++ rest) (Writes P t)) (hu : CutsInto u rest (Writes P u)) :
    CutsInto (t ++ u) rest (Writes P (t ++ u)) := by
  refine (ht.append hu).mono ?_
  rintro _ ⟨as, bs, rfl, has, hbs⟩
  exact has.append hbs

/-- A part that is one lexeme of some sort. -/
theorem CutsInto.writes {P : Kind → Prop} {t rest : Text} {k : Kind}
    (h : CutsInto t rest (· = [⟨k, t⟩])) (hk : P k) : CutsInto t rest (Writes P t) := by
  refine h.mono ?_
  rintro _ rfl
  exact .singleton hk t

/-! ### The rules of the cutter -/

section Rules

variable {rest : Text}

theorem cutsInto_symbol {c : Char} (hc : IsSymbol c rest) {k : Kind} (hk : symbolAt c rest = (k, 1))
    (hcode : k ∉ [.openTag, .closeTag]) : CutsInto [c] rest (· = [⟨k, [c]⟩]) := by
  refine .of_codePiece fun ctx _ => ⟨k, ?_, hcode, rfl⟩
  have hpiece : CodePiece ctx c rest _ := .symbol hc
  rwa [hk] at hpiece

/-- A bracket, a comma or a backslash, which no operator begins with. -/
theorem cutsInto_mark {c : Char} (hc : c ∈ ['(', ')', ']', ',', '\\']) (rest : Text) :
    CutsInto [c] rest (· = [⟨Kind.ofSymbol c, [c]⟩]) := by
  have hmarks : (['(', ')', ']', ',', '\\'].all fun c =>
      (decide (c ∉ ['?', '#', '/', '$', '<', '.']) && !isCodeBlank c && !isQuote c && !c.isDigit &&
        !isWordStart c) && (Kind.operatorTable.all fun x => x.1.head? != some c) &&
          !([.openTag, .closeTag].contains (Kind.ofSymbol c))) = true := by decide
  have hall := List.all_eq_true.1 hmarks c hc
  simp only [Bool.and_eq_true, Bool.not_eq_true', decide_eq_true_eq, List.all_eq_true,
    bne_iff_ne] at hall
  obtain ⟨⟨⟨⟨⟨⟨hplain, hblank⟩, hquote⟩, hdigit⟩, hword⟩, hhead⟩, hcode⟩ := hall
  exact cutsInto_symbol (IsSymbol.of_char hplain hblank hquote hdigit hword _)
    (symbolAt_eq_single fun x hx h => absurd h (hhead x hx)) fun hmem => by simp [hmem] at hcode

theorem cutsInto_attributeOpen (rest : Text) :
    CutsInto "#[".toList rest (· = [⟨.attributeOpen, "#[".toList⟩]) :=
  .of_codePiece fun _ _ => ⟨.attributeOpen, .attributeOpen rfl rfl, by decide, rfl⟩

/-- A name is a word or a keyword. -/
theorem cutsInto_name {P : Kind → Prop} (hword : P .word) (htable : ∀ x ∈ Kind.keywordTable, P x.2)
    {w : Text} (hw : IsName w) (hrest : rest.head?.any isWordChar = false) :
    CutsInto w rest fun ls => ∃ k, P k ∧ ls = [⟨k, w⟩] := by
  obtain ⟨c, u, rfl, -⟩ := hw.exists_cons
  refine .of_codePiece fun ctx _ => ⟨_, codePiece_of_isName ctx hw hrest, ?_, ?_⟩
  · exact Context.of_wordKind (P := fun k => k ∉ [.openTag, .closeTag]) (by decide) (by decide) ctx _ _
  · exact ⟨_, Context.of_wordKind hword htable ctx _ _, rfl⟩

theorem cutsInto_space (hrest : rest.head?.any isCodeBlank = false) :
    CutsInto [' '] rest (· = [⟨.blank, [' ']⟩]) := by
  refine .of_codePiece fun ctx _ => ⟨.blank, ?_, by decide, rfl⟩
  have hpiece : CodePiece ctx ' ' rest _ := .blank rfl
  have hlen : blankLength (' ' :: rest) = 1 := by
    have hnone : blankLength rest = 0 := by
      cases rest with
      | nil => rfl
      | cons c rest =>
        have hc : isCodeBlank c = false := hrest
        have hline : c ≠ '\n' := by rintro rfl; cases hc
        rw [blankLength, if_neg hline, if_neg (Bool.eq_false_iff.1 hc)]
    rw [blankLength, if_neg (by decide), if_pos (show isCodeBlank ' ' = true from rfl), hnone]
  rwa [hlen] at hpiece

theorem cutsInto_quoted {q : Char} (hq : isQuote q = true) {t : Text} (ht : q ∉ t)
    (hlast : t.getLast? ≠ some '\\') :
    CutsInto (q :: (t ++ [q])) rest (· = [⟨.quoted, q :: (t ++ [q])⟩]) := by
  refine .of_codePiece fun ctx _ => ⟨.quoted, ?_, by decide, rfl⟩
  have hescape : q ≠ '\\' := by rintro rfl; cases hq
  have hlen : quotedLength? (q :: ((t ++ [q]) ++ rest)) = some (t.length + 2) := by
    rw [quotedLength?, List.append_assoc, List.singleton_append,
      quotedTailLength?_of_not_mem hescape ht hlast, Option.map_some]
    exact congrArg some (by omega)
  have hpiece : CodePiece ctx q ((t ++ [q]) ++ rest) _ := .quoted _ hq hlen
  rwa [Piece.cut_append (by simp)] at hpiece

theorem cutsInto_digits {t : Text} (hne : t ≠ []) (ht : ∀ c ∈ t, c.isDigit = true)
    (hrest : rest.head?.any (fun c => c.isAlphanum || ['_', '.', '+', '-'].contains c) = false) :
    CutsInto t rest (· = [⟨.number, t⟩]) := by
  obtain ⟨c, t, rfl⟩ := List.exists_cons_of_ne_nil hne
  obtain ⟨hc, ht⟩ := List.forall_mem_cons.1 ht
  refine .of_codePiece fun ctx _ => ⟨.number, ?_, by decide, rfl⟩
  have hpiece : CodePiece ctx c (t ++ rest) _ := .number (.inl hc)
  rwa [numberLength, numberTailLength_of_isDigit _ _ ht hrest, Piece.cut_append (by omega)] at hpiece

end Rules

end EntityLint
