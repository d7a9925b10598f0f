import EntityLint.Proofs.Token.Recut

/-!
# Texts that are written piece by piece

A text that is put together from pieces is cut into these pieces again, if no piece goes on into the
one behind it and each word is of the kind that its place gives it.

* `Piece.join`: the text of some pieces;
* `Piece.ofBlanks`: blanks as they are cut, line by line;
* `Context.Knows`: the contexts behind a given significant kind;
* `Spelled`: pieces that can stand one behind the other.

The main statement is `cutAll_of_spelled`.
-/

namespace EntityLint

open Lexeme Text

/-! ### Pieces and their text -/

namespace Piece

/-- The text of some pieces, one behind the other. -/
def join (ps : List Piece) : Text := ps.flatMap text

@[simp] theorem join_nil : join [] = [] := rfl

@[simp] theorem join_cons (p : Piece) (ps : List Piece) : join (p :: ps) = p.text ++ join ps := rfl

@[simp] theorem join_append (ps qs : List Piece) : join (ps ++ qs) = join ps ++ join qs :=
  List.flatMap_append

/-- Blanks as they are cut: a piece ends with a line feed or is the last one. -/
def ofBlanks : Text → List Piece
  | [] => []
  | c :: t => cut .blank c t (blankLength (c :: t)) :: ofBlanks (t.drop (blankLength (c :: t) - 1))
termination_by t => t.length
decreasing_by simp only [List.length_drop, List.length_cons]; omega

theorem ofBlanks_cons (c : Char) (t : Text) : ofBlanks (c :: t) =
    cut .blank c t (blankLength (c :: t)) :: ofBlanks (t.drop (blankLength (c :: t) - 1)) := by
  rw [ofBlanks]

theorem kind_ofBlanks {t : Text} {p : Piece} (hp : p ∈ ofBlanks t) :
    ∃ u, p = .single ⟨.blank, u⟩ := by
  fun_induction ofBlanks t with
  | case1 => cases hp
  | case2 c t ih =>
    rcases List.mem_cons.1 hp with rfl | hp
    · exact ⟨_, rfl⟩
    · exact ih hp

theorem join_ofBlanks (t : Text) : join (ofBlanks t) = t := by
  fun_induction ofBlanks t with
  | case1 => rfl
  | case2 c t ih =>
    rw [join_cons, ih, text_cut, List.cons_append, List.take_append_drop]

end Piece

/-- The contexts in code that come behind a significant kind, without a backslash in front. -/
structure Context.Knows (ctx : Context) (last : Option Kind) : Prop where
  inCode : ctx.inCode = true
  last : ctx.last = last
  afterBackslash : ctx.afterBackslash = false

/-- The kinds behind which a word is a name. An ampersand may be one of them. -/
def nameLeads : List Kind :=
  [.kwFunction, .arrow, .nullsafeArrow, .doubleColon, .kwConst, .ampersand]

/-- Pieces that can stand one behind the other in code, behind a significant kind. -/
inductive Spelled : Option Kind → List Piece → Prop
  | nil {last} : Spelled last []
  | blank {last c u ps} (hc : ∀ d ∈ c :: u, isCodeBlank d = true)
    (hlen : blankLength (c :: u ++ Piece.join ps) = (c :: u).length) (h : Spelled last ps) :
    Spelled last (.single ⟨.blank, c :: u⟩ :: ps)
  | keyword {last w k ps} (hw : IsName w) (hlast : ∀ k ∈ last, k ∉ nameLeads)
    (hk : (Kind.ofKeyword? w).getD .word = k) (hne : k ≠ .kwEnum)
    (hnext : (Piece.join ps).head?.any (fun c => isWordChar c || c == '\\') = false)
    (h : Spelled (some k) ps) : Spelled last (.single ⟨k, w⟩ :: ps)
  | name {last w ps} (hw : IsName w) (hlast : last = some .kwFunction ∨ last = some .arrow)
    (hnext : (Piece.join ps).head?.any isWordChar = false) (h : Spelled (some .word) ps) :
    Spelled last (.single ⟨.word, w⟩ :: ps)
  | variableName {last w ps} (hw : IsName w) (hnext : (Piece.join ps).head?.any isWordChar = false)
    (h : Spelled (some .variable) ps) : Spelled last (.single ⟨.variable, '$' :: w⟩ :: ps)
  | symbol {last c u k ps} (hc : IsSymbol c (u ++ Piece.join ps))
    (hk : symbolAt c (u ++ Piece.join ps) = (k, u.length + 1)) (hslash : '\\' ∉ c :: u)
    (h : Spelled (some k) ps) : Spelled last (.single ⟨k, c :: u⟩ :: ps)
  | docComment {last body ps} (hblank : body.head?.any isAsciiBlank = true) (hstar : '*' ∉ body)
    (h : Spelled last ps) : Spelled last (.docComment (docLexemes false body) :: ps)

/-! ### Cutting -/

namespace Context

variable {ctx : Context} {last : Option Kind}

theorem Knows.after (h : ctx.Knows last) {k : Kind} {t : Text} (hk : k ∉ [.openTag, .closeTag])
    (hslash : '\\' ∉ t) :
    (ctx.after ⟨k, t⟩).Knows (if k.isTrivia then last else some k) := by
  obtain ⟨hcode, hlast, -⟩ := h
  refine ⟨?_, ?_, ?_⟩
  · rw [← hcode]
    cases k <;> first | rfl | exact absurd (by decide) hk
  · show (if k.isTrivia then ctx.last else some k) = _
    rw [hlast]
  · show (t.getLast? == some '\\') = false
    exact beq_eq_false_iff_ne.2 fun h => hslash (List.mem_of_getLast? h)

theorem Knows.expectsName_eq (h : ctx.Knows last) (hlast : ∀ k ∈ last, k ∉ nameLeads) :
    ctx.expectsName = false := by
  rw [expectsName, h.last]
  cases last with
  | none => rfl
  | some k =>
    have hk := hlast k rfl
    cases k <;> first | rfl | exact absurd (by decide) hk

/-- A word where no name must stand is the keyword that it spells, if it spells one. -/
theorem Knows.wordKind_eq (h : ctx.Knows last) (hlast : ∀ k ∈ last, k ∉ nameLeads) {w rest : Text}
    (hne : (Kind.ofKeyword? w).getD .word ≠ .kwEnum) (hrest : rest.head? ≠ some '\\') :
    ctx.wordKind w rest = (Kind.ofKeyword? w).getD .word := by
  have hplain : (ctx.expectsName || ctx.afterBackslash || rest.head? == some '\\') = false := by
    rw [h.expectsName_eq hlast, h.afterBackslash, beq_eq_false_iff_ne.2 hrest]
    rfl
  rw [wordKind, hplain, if_neg Bool.false_ne_true]
  cases hk : Kind.ofKeyword? w with
  | none => rfl
  | some k =>
    rw [hk, Option.getD_some] at hne
    cases k <;> first | rfl | exact absurd rfl hne

theorem Knows.wordKind_name (h : ctx.Knows last)
    (hlast : last = some .kwFunction ∨ last = some .arrow) (w rest : Text) :
    ctx.wordKind w rest = .word := by
  have hexpects : ctx.expectsName = true := by
    rw [expectsName, h.last]
    rcases hlast with rfl | rfl <;> rfl
  rw [wordKind, hexpects]
  rfl

end Context

theorem not_mem_of_isName {w : Text} (hw : IsName w) {c : Char} (hc : isWordChar c = false) :
    c ∉ w := by
  intro hmem
  rw [hw.2 c hmem] at hc
  cases hc

theorem Lexeme.IsName.exists_cons {w : Text} (hw : IsName w) :
    ∃ c u, w = c :: u ∧ isWordStart c = true := by
  obtain ⟨hhead, -⟩ := hw
  cases w with
  | nil => cases hhead
  | cons c u => exact ⟨c, u, rfl, hhead⟩

/-- A name is not led by a blank. -/
theorem isCodeBlank_head_of_isName {w : Text} (hw : IsName w) (t : Text) :
    (w ++ t).head?.any isCodeBlank = false := by
  obtain ⟨d, u, rfl, hd⟩ := hw.exists_cons
  show isCodeBlank d = false
  refine Bool.eq_false_iff.2 fun hblank => ?_
  have hcases : d = ' ' ∨ d = '\t' ∨ d = '\r' ∨ d = '\n' := by
    simpa [isCodeBlank, or_assoc] using hblank
  rcases hcases with rfl | rfl | rfl | rfl <;> cases hd

theorem breakOn_of_not_mem {a : Char} {needle t : Text} (ht : a ∉ t) (rest : Text) :
    breakOn (a :: needle) (t ++ (a :: needle ++ rest)) = some (t, rest) := by
  induction t with
  | nil =>
    have hstrip : stripLeading? (a :: needle) (a :: (needle ++ rest)) = some rest :=
      stripLeading?_append (a :: needle) rest
    rw [List.nil_append, List.cons_append, breakOn, hstrip]
  | cons c t ih =>
    obtain ⟨hc, ht⟩ := not_or.1 (mt List.mem_cons.2 ht)
    have hstrip : stripLeading? (a :: needle) (c :: (t ++ (a :: needle ++ rest))) = none := by
      rw [stripLeading?, if_neg hc]
    rw [List.cons_append, breakOn, hstrip]
    dsimp only
    rw [ih ht]
    rfl

/-- **Pieces that can stand one behind the other are cut from their text.** -/
theorem cutAll_of_spelled {last : Option Kind} {ps : List Piece} (h : Spelled last ps)
    {ctx : Context} (hctx : ctx.Knows last) : Piece.cutAll ctx (Piece.join ps) = .ok ps := by
  induction h generalizing ctx with
  | nil => rw [Piece.join_nil, Piece.cutAll]
  | @blank last c u ps hblank hlen _ ih =>
    have hslash : '\\' ∉ c :: u := fun hmem => by cases hblank _ hmem
    rw [Piece.join_cons, Piece.text_single]
    refine cutAll_single rfl ?_ (ih (hctx.after (by decide) hslash))
    rw [nextPiece_of_inCode hctx.inCode, codePiece_eq_ok (.blank (hblank c List.mem_cons_self)),
      ← List.cons_append, hlen, Piece.cut_append List.length_cons]
  | @keyword last w k ps hw hlast hk hne hnext _ ih =>
    subst hk
    obtain ⟨c, u, rfl, -⟩ := hw.exists_cons
    have hnext' : (Piece.join ps).head?.any isWordChar = false ∧
        (Piece.join ps).head? ≠ some '\\' := by
      cases hhead : (Piece.join ps).head? with
      | none => exact ⟨rfl, (Option.some_ne_none _).symm⟩
      | some d => simpa [hhead] using hnext
    have hwordKind := hctx.wordKind_eq hlast hne hnext'.2
    obtain ⟨htag, htrivia⟩ : (Kind.ofKeyword? (c :: u)).getD .word ∉ [.openTag, .closeTag] ∧
        ((Kind.ofKeyword? (c :: u)).getD .word).isTrivia = false := by
      rw [← hwordKind]
      exact Context.of_wordKind (P := fun k => k ∉ [.openTag, .closeTag] ∧ k.isTrivia = false)
        (by decide) (by decide) ctx (c :: u) (Piece.join ps)
    have hafter := hctx.after htag (not_mem_of_isName hw (c := '\\') rfl)
    rw [if_neg (Bool.eq_false_iff.1 htrivia)] at hafter
    rw [Piece.join_cons, Piece.text_single]
    refine cutAll_single rfl ?_ (ih hafter)
    rw [nextPiece_of_inCode hctx.inCode, codePiece_eq_ok (codePiece_of_isName ctx hw hnext'.1),
      hwordKind]
  | @name last w ps hw hlast hnext _ ih =>
    obtain ⟨c, u, rfl, -⟩ := hw.exists_cons
    rw [Piece.join_cons, Piece.text_single]
    refine cutAll_single rfl ?_ (ih (hctx.after (by decide) (not_mem_of_isName hw rfl)))
    rw [nextPiece_of_inCode hctx.inCode, codePiece_eq_ok (codePiece_of_isName ctx hw hnext),
      hctx.wordKind_name hlast]
  | @variableName last w ps hw hnext _ ih =>
    have hslash : '\\' ∉ '$' :: w := by
      simpa using not_mem_of_isName hw rfl
    have hstart : (w ++ Piece.join ps).head?.any isWordStart = true := by
      obtain ⟨c, u, rfl, hc⟩ := hw.exists_cons
      exact hc
    have hlen : 1 + wordLength (w ++ Piece.join ps) = w.length + 1 := by
      rw [wordLength, takeWhile_append_of_head hw.2 hnext, Nat.add_comm]
    rw [Piece.join_cons, Piece.text_single]
    refine cutAll_single rfl ?_ (ih (hctx.after (by decide) hslash))
    rw [nextPiece_of_inCode hctx.inCode, codePiece_eq_ok (.variableName rfl hstart), hlen,
      Piece.cut_append rfl]
  | @symbol last c u k ps hc hk hslash _ ih =>
    have hkinds : k ∉ [.openTag, .closeTag] ∧ k.isTrivia = false := by
      have hof := of_symbolAt (P := fun k => k ∉ [.openTag, .closeTag] ∧ k.isTrivia = false)
        (by decide) (fun d => by unfold Kind.ofSymbol; split <;> decide) c (u ++ Piece.join ps)
      rwa [hk] at hof
    have hafter := hctx.after hkinds.1 hslash
    rw [if_neg (Bool.eq_false_iff.1 hkinds.2)] at hafter
    rw [Piece.join_cons, Piece.text_single]
    refine cutAll_single rfl ?_ (ih hafter)
    rw [nextPiece_of_inCode hctx.inCode, codePiece_eq_ok (.symbol hc), hk, Piece.cut_append rfl]
  | @docComment last body ps hblank hstar _ ih =>
    obtain ⟨hcode, hlast, -, hslash⟩ := Context.foldl_after_docComment body ctx
    have hafter : ((Piece.docComment (docLexemes false body)).lexemes.foldl Context.after ctx).Knows
        last := ⟨hcode.trans hctx.inCode, hlast.trans hctx.last, hslash⟩
    obtain ⟨d, b, rfl⟩ : ∃ d b, body = d :: b := by
      cases body with
      | nil => cases hblank
      | cons d b => exact ⟨d, b, rfl⟩
    have hbreak : breakOn "*/".toList (d :: b ++ ("*/".toList ++ Piece.join ps)) =
        some (d :: b, Piece.join ps) := breakOn_of_not_mem hstar _
    have hpiece : codePiece ctx '/' ('*' :: '*' :: (d :: b ++ ("*/".toList ++ Piece.join ps))) =
        .ok (.docComment (docLexemes false (d :: b))) :=
      codePiece_eq_ok (.docComment _ _ hblank hbreak)
    have htext : (Piece.docComment (docLexemes false (d :: b))).text ++ Piece.join ps =
        '/' :: '*' :: '*' :: (d :: b ++ ("*/".toList ++ Piece.join ps)) := by
      rw [Piece.text_docComment]
      simp
    rw [Piece.join_cons, htext]
    refine cutAll_cons ?_ htext (ih hafter)
    rw [nextPiece_of_inCode hctx.inCode, hpiece]

/-! ### Ways to write -/

namespace Spelled

variable {last : Option Kind} {ps : List Piece}

/-- Blanks in front of something else. -/
theorem blanks {t : Text} (ht : ∀ c ∈ t, isCodeBlank c = true)
    (hnext : (Piece.join ps).head?.any isCodeBlank = false) (h : Spelled last ps) :
    Spelled last (Piece.ofBlanks t ++ ps) := by
  fun_induction Piece.ofBlanks t with
  | case1 => exact h
  | case2 c t ih =>
    obtain ⟨u, rest, htext, hlen, hblank, hends, hstable⟩ := blankLength_spec (c :: t)
    obtain ⟨d, v, rfl⟩ : ∃ d v, u = d :: v := by
      cases u with
      | cons d v => exact ⟨d, v, rfl⟩
      | nil =>
        -- the first character is a blank, so that some of the text is taken
        rw [blankLength, if_pos (ht c List.mem_cons_self)] at hlen
        split at hlen
        · cases hlen
        · rw [List.length_nil, Nat.add_comm] at hlen
          cases hlen
    obtain rfl : c = d := (List.cons.inj htext).1
    obtain rfl : t = v ++ rest := (List.cons.inj htext).2
    have hdrop : (v ++ rest).drop (blankLength (c :: (v ++ rest)) - 1) = rest := by
      rw [hlen, List.length_cons, Nat.add_sub_cancel, List.drop_left]
    have hrest : ∀ c ∈ rest, isCodeBlank c = true := fun d hd =>
      ht d (List.mem_cons_of_mem _ (List.mem_append_right _ hd))
    rw [hdrop] at ih
    rw [hdrop, Piece.cut_append hlen]
    show Spelled last (.single ⟨.blank, c :: v⟩ :: (Piece.ofBlanks rest ++ ps))
    refine .blank hblank ?_ (ih hrest)
    rw [Piece.join_append, Piece.join_ofBlanks]
    refine hstable _ (hends.imp_right fun hhead => ?_)
    cases rest with
    | nil => exact hnext
    | cons d rest =>
      rw [List.head?_cons, Option.any_some, hrest d List.mem_cons_self] at hhead
      cases hhead

theorem space (hnext : (Piece.join ps).head?.any isCodeBlank = false) (h : Spelled last ps) :
    Spelled last (.single ⟨.blank, [' ']⟩ :: ps) := by
  have hspace : Piece.ofBlanks [' '] = [.single ⟨.blank, [' ']⟩] := by
    rw [Piece.ofBlanks_cons, show blankLength [' '] = 1 from rfl, Piece.cut]
    rw [List.take_nil, List.drop_nil, Piece.ofBlanks]
  have hblanks := blanks (t := [' ']) (by simp [isCodeBlank]) hnext h
  rwa [hspace] at hblanks

/-- The symbols of code that are written here. -/
def marks : List Char := ['(', ')', '\x7b', '\x7d', ';', ':', '=', '-']

theorem isSymbol_of_mem {c : Char} (hc : c ∈ marks) (t : Text) : IsSymbol c t := by
  have hmarks : marks.all (fun c => decide (c ∉ ['?', '#', '/', '$', '<', '.']) &&
      !isCodeBlank c && !isQuote c && !c.isDigit && !isWordStart c) = true := by decide
  have hall := List.all_eq_true.1 hmarks c hc
  simp only [Bool.and_eq_true, Bool.not_eq_true', decide_eq_true_eq] at hall
  obtain ⟨⟨⟨⟨hplain, hblank⟩, hquote⟩, hdigit⟩, hword⟩ := hall
  exact .of_char hplain hblank hquote hdigit hword t

/-- A bracket or a semicolon, which no operator begins with. -/
theorem mark {c : Char} (hc : c ∈ marks.take 5) (h : Spelled (some (Kind.ofSymbol c)) ps) :
    Spelled last (.single ⟨Kind.ofSymbol c, [c]⟩ :: ps) := by
  have htable : (marks.take 5).all (fun c => c != '\\' &&
      Kind.operatorTable.all fun x => x.1.head? != some c) = true := by decide
  have hall := List.all_eq_true.1 htable c hc
  simp only [Bool.and_eq_true, bne_iff_ne, List.all_eq_true] at hall
  obtain ⟨hslash, hhead⟩ := hall
  exact .symbol (isSymbol_of_mem (List.mem_of_mem_take hc) _)
    (symbolAt_eq_single fun x hx h => absurd h (hhead x hx)) (by simpa using hslash.symm) h

/-- A symbol in front of a space. -/
theorem spaced {c : Char} (hc : c = ':' ∨ c = '=')
    (h : Spelled (some (Kind.ofSymbol c)) (.single ⟨.blank, [' ']⟩ :: ps)) :
    Spelled last (.single ⟨Kind.ofSymbol c, [c]⟩ :: .single ⟨.blank, [' ']⟩ :: ps) := by
  rcases hc with rfl | rfl
  · exact .symbol (isSymbol_of_mem (by decide) _) rfl (by decide) h
  · exact .symbol (isSymbol_of_mem (by decide) _) rfl (by decide) h

theorem arrow (h : Spelled (some .arrow) ps) :
    Spelled last (.single ⟨.arrow, "->".toList⟩ :: ps) :=
  .symbol (isSymbol_of_mem (by decide) _) rfl (by decide) h

end Spelled

end EntityLint
