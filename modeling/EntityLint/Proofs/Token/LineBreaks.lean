import EntityLint.Proofs.Token.Padding
import EntityLint.Proofs.Token.Recast

/-!
# Line breaks between lexemes

Line breaks are put in front of some lexemes, each after a lexeme that ends a line. In code they are blanks
of their own, and in front of an open tag they belong to the plain text before it. All other lexemes are
cut as before.

* `MarkedLexeme`: a lexeme, and whether a line break is put in front of it;
* `MarkedLexeme.Follows`: the places at which a line break may be put;
* `MarkedLexeme.spaced`: the lexemes with the line breaks;
* `Context.Respaces`, `respaces_of_cutAll`: they are cut again, by induction on the pieces.

The main statement is `exists_cutAll_spaced`.
-/

namespace EntityLint

open Lexeme Text

/-- A lexeme, and whether a line break is put in front of it. -/
structure MarkedLexeme where
  lexeme : Lexeme
  marked : Bool

namespace MarkedLexeme

/-- A line break may be put after a line break, but neither in a doc comment nor behind code. -/
def Follows (x y : MarkedLexeme) : Prop :=
  y.marked = true → '\n' ∈ x.lexeme.text ∧ x.lexeme.kind ∉ [.docBlank, .closeTag]

section LineBreak

variable (lineBreak : Text)

/-- The line break in front of a lexeme. -/
def lead (x : MarkedLexeme) : Text := if x.marked then lineBreak else []

/-- The text of a lexeme with the line break in front of it. -/
def newText (x : MarkedLexeme) : Text := x.lead lineBreak ++ x.lexeme.text

/-- Whether the line break in front of a lexeme is a blank of its own. -/
def isApart (x : MarkedLexeme) : Bool := x.marked && x.lexeme.kind != .openTag

/-- The blank that the line break in front of a lexeme is. -/
def added (x : MarkedLexeme) : List Lexeme := if x.isApart then [⟨.blank, lineBreak⟩] else []

/-- The line break that some lexemes leave to the plain text before them. -/
def trail (xs : List MarkedLexeme) : Text :=
  if xs.head?.any fun x => x.marked && x.lexeme.kind == .openTag then lineBreak else []

/-- The lexemes with the line breaks. -/
def spaced : List MarkedLexeme → List Lexeme
  | [] => []
  | x :: xs =>
    x.added lineBreak ++ ⟨x.lexeme.kind, x.lexeme.text ++ trail lineBreak xs⟩ :: spaced xs

end LineBreak

variable {lineBreak : Text} {x : MarkedLexeme} {xs ys : List MarkedLexeme}

/-! ### Unmarked lexemes -/

theorem newText_of_unmarked (hx : x.marked = false) : x.newText lineBreak = x.lexeme.text := by
  rw [newText, lead, hx]
  rfl

theorem added_of_unmarked (hx : x.marked = false) : x.added lineBreak = [] := by
  rw [added, isApart, hx]
  rfl

/-- No line break is put in front of some lexemes. -/
def BeginsUnmarked (xs : List MarkedLexeme) : Prop := ∀ x ∈ xs.head?, x.marked = false

theorem trail_of_beginsUnmarked (h : BeginsUnmarked xs) : trail lineBreak xs = [] := by
  unfold trail
  cases xs with
  | nil => rfl
  | cons x xs =>
    have hx : x.marked = false := h x rfl
    simp [hx]

theorem spaced_append_of_unmarked (hxs : ∀ x ∈ xs, x.marked = false) (hys : BeginsUnmarked ys) :
    spaced lineBreak (xs ++ ys) = xs.map lexeme ++ spaced lineBreak ys := by
  induction xs with
  | nil => rfl
  | cons x xs ih =>
    obtain ⟨hx, hxs⟩ := List.forall_mem_cons.1 hxs
    have htrail : trail lineBreak (xs ++ ys) = [] := by
      refine trail_of_beginsUnmarked fun y hy => ?_
      cases xs with
      | nil => exact hys y hy
      | cons z xs =>
        cases hy
        exact hxs _ List.mem_cons_self
    rw [List.cons_append, spaced, added_of_unmarked hx, htrail, ih hxs, List.nil_append,
      List.append_nil]
    rfl

theorem flatMap_newText_of_unmarked (hxs : ∀ x ∈ xs, x.marked = false) :
    xs.flatMap (newText lineBreak) = (xs.map lexeme).flatMap text := by
  induction xs with
  | nil => rfl
  | cons x xs ih =>
    obtain ⟨hx, hxs⟩ := List.forall_mem_cons.1 hxs
    rw [List.flatMap_cons, List.map_cons, List.flatMap_cons, ih hxs, newText_of_unmarked hx]

/-- No line breaks are put between lexemes that have none themselves, or in a doc comment. -/
theorem unmarked_of_isChain (h : (x :: (ys ++ xs)).IsChain Follows)
    (hquiet : ∀ z ∈ x :: ys, '\n' ∈ z.lexeme.text → z.lexeme.kind = .docBlank) :
    (∀ y ∈ ys, y.marked = false) ∧ BeginsUnmarked xs := by
  have hfollows : ∀ {y z : MarkedLexeme}, ('\n' ∈ y.lexeme.text → y.lexeme.kind = .docBlank) →
      Follows y z → z.marked = false := by
    intro y z hy hyz
    refine Bool.eq_false_iff.2 fun hz => ?_
    obtain ⟨hline, hkind⟩ := hyz hz
    rw [hy hline] at hkind
    exact hkind List.mem_cons_self
  induction ys generalizing x with
  | nil =>
    refine ⟨nofun, fun y hy => ?_⟩
    obtain ⟨xs, rfl⟩ := List.head?_eq_some_iff.1 hy
    exact hfollows (hquiet x List.mem_cons_self) (List.isChain_cons_cons.1 h).1
  | cons y ys ih =>
    obtain ⟨hx, hquiet⟩ := List.forall_mem_cons.1 hquiet
    obtain ⟨hxy, hchain⟩ := List.isChain_cons_cons.1 h
    obtain ⟨hys, hxs⟩ := ih hchain hquiet
    exact ⟨List.forall_mem_cons.2 ⟨hfollows hx hxy, hys⟩, hxs⟩

/-- The first of some lexemes without the line break in front of it. -/
def unmark : List MarkedLexeme → List MarkedLexeme
  | [] => []
  | x :: xs => ⟨x.lexeme, false⟩ :: xs

theorem map_lexeme_unmark (xs : List MarkedLexeme) : (unmark xs).map lexeme = xs.map lexeme := by
  cases xs <;> rfl

theorem beginsUnmarked_unmark (xs : List MarkedLexeme) : BeginsUnmarked (unmark xs) := by
  cases xs with
  | nil => nofun
  | cons x xs =>
    rintro _ ⟨⟩
    rfl

theorem isChain_unmark (h : xs.IsChain Follows) : (unmark xs).IsChain Follows := by
  cases xs with
  | nil => exact h
  | cons x xs =>
    cases xs with
    | nil => exact .singleton _
    | cons y xs =>
      obtain ⟨hxy, hchain⟩ := List.isChain_cons_cons.1 h
      exact List.isChain_cons_cons.2 ⟨hxy, hchain⟩

/-! ### The text with the line breaks -/

/-- Line breaks mend what stands behind a lexeme. -/
theorem mendsAll (hlineBreak : IsLineBreak lineBreak) (h : (x :: xs).IsChain Follows)
    (last : Option Kind) :
    MendsAll last x.lexeme.breaksLine (xs.map lexeme) (xs.map (newText lineBreak)) := by
  induction xs generalizing x last with
  | nil => exact .nil
  | cons y xs ih =>
    obtain ⟨hxy, hchain⟩ := List.isChain_cons_cons.1 h
    refine .cons ?_ (ih hchain _)
    unfold newText lead
    split
    · next hy => exact .line (breaksLine_iff.2 (hxy hy).1) lineBreak hlineBreak
    · exact .same

/-- What is not blank in a text is the same with the line breaks. -/
theorem head?_trimStart_newText (hlineBreak : IsLineBreak lineBreak) (xs : List MarkedLexeme) :
    (trimStart ((xs.map lexeme).flatMap text)).head? =
      (trimStart (xs.flatMap (newText lineBreak))).head? := by
  induction xs with
  | nil => rfl
  | cons x xs ih =>
    have hlead : ∀ t, trimStart (x.lead lineBreak ++ t) = trimStart t := by
      intro t
      unfold lead
      split
      · rcases hlineBreak with rfl | rfl <;> rfl
      · rfl
    rw [List.map_cons, List.flatMap_cons, List.flatMap_cons, newText, List.append_assoc, hlead]
    by_cases hblank : ∃ c ∈ x.lexeme.text, isBlank c = false
    · exact head?_trimStart_append hblank _ _
    · have hall : ∀ c ∈ x.lexeme.text, isBlank c = true := by simpa using hblank
      have hskip : ∀ t, trimStart (x.lexeme.text ++ t) = trimStart t :=
        fun t => List.dropWhile_append_of_pos hall
      rw [hskip, hskip, ih]

/-- Line breaks mend some lexemes that begin without one. -/
theorem mendsAll_of_beginsUnmarked (hlineBreak : IsLineBreak lineBreak) (h : xs.IsChain Follows)
    (hxs : BeginsUnmarked xs) (last : Option Kind) :
    MendsAll last false (xs.map lexeme) (xs.map (newText lineBreak)) := by
  cases xs with
  | nil => exact .nil
  | cons x xs =>
    have hx : x.marked = false := hxs x rfl
    refine .cons ?_ (mendsAll hlineBreak h _)
    rw [newText_of_unmarked hx]
    exact .same

/-- The line break in front of the first of some lexemes. -/
theorem newText_unmark (xs : List MarkedLexeme) :
    xs.flatMap (newText lineBreak) =
      (if xs.head?.any marked then lineBreak else []) ++ (unmark xs).flatMap (newText lineBreak) := by
  cases xs with
  | nil => rfl
  | cons x xs =>
    rw [unmark, List.flatMap_cons, List.flatMap_cons, newText, List.append_assoc]
    rfl

theorem spaced_unmark (xs : List MarkedLexeme) :
    spaced lineBreak xs =
      (if xs.head?.any isApart then [⟨.blank, lineBreak⟩] else []) ++ spaced lineBreak (unmark xs) := by
  cases xs with
  | nil => rfl
  | cons x xs => rw [unmark, spaced, spaced, added, added]; rfl

end MarkedLexeme

/-! ### The kinds of lexemes -/

/-- Code has neither open tags nor plain text. -/
theorem CodePiece.kind_ne {ctx : Context} {c : Char} {t : Text} {p : Piece} (h : CodePiece ctx c t p)
    {l : Lexeme} (hl : l ∈ p.lexemes) : l.kind ∉ [.openTag, .plainText] := by
  have hsingle : ∀ {kind : Kind} {n : ℕ}, kind ∉ [.openTag, .plainText] →
      l ∈ (Piece.cut kind c t n).lexemes → l.kind ∉ [.openTag, .plainText] := by
    intro kind n hkind hl
    rwa [List.mem_singleton.1 hl]
  cases h with
  | docComment body rest hdoc h =>
    have hkinds : ∀ k : Kind, k ∈ [.docOpen, .docBlank, .docStar, .docTag, .docText, .docClose] →
      k ∉ [.openTag, .plainText] := by decide
    exact hkinds _ (mem_lexemes_docComment hl).2
  | word hc =>
    exact hsingle (Context.of_wordKind (P := (· ∉ [.openTag, .plainText])) (by decide) (by decide) _ _ _)
      hl
  | symbol h =>
    exact hsingle (of_symbolAt (P := (· ∉ [.openTag, .plainText])) (by decide)
      (fun d => by unfold Kind.ofSymbol; split <;> decide) _ _) hl
  | _ => exact hsingle (by decide) hl

/-- The lines of a doc comment end in blanks. -/
theorem kind_of_mem_docLexemes {lineStart : Bool} {t : Text} {l : Lexeme}
    (h : l ∈ docLexemes lineStart t) (hline : '\n' ∈ l.text) : l.kind = .docBlank := by
  induction lineStart, t using docLexemes_induction with
  | hnil => rw [docLexemes] at h; cases h
  | happend hpart ih =>
    rw [docLexemes_append hpart] at h
    rcases List.mem_cons.1 h with rfl | h
    · cases hpart with
      | star => exact absurd hline (by decide)
      | tag u rest hne hu =>
        rcases List.mem_cons.1 hline with h | h
        · cases h
        · cases hu _ h
      | text c u rest _ _ _ hend => cases hend _ hline
      | _ => rfl
    · exact ih h

/-! ### The pieces of the text with the line breaks -/

open MarkedLexeme

namespace Context

/-- The pieces that are cut in a context are cut again, in similar contexts, when line breaks are put
between their lexemes. -/
def Respaces (lineBreak : Text) (ctx : Context) (pieces : List Piece) : Prop :=
  ∀ (ctx' : Context) (xs : List MarkedLexeme), ctx.Similar ctx' →
    xs.map lexeme = pieces.flatMap Piece.lexemes → xs.IsChain Follows → BeginsUnmarked xs →
    ∃ pieces', Piece.cutAll ctx' (xs.flatMap (newText lineBreak)) = .ok pieces' ∧
      pieces'.flatMap Piece.lexemes = spaced lineBreak xs

variable {lineBreak : Text} {ctx : Context} {l : Lexeme} {pieces : List Piece}

/-- In code, no open tag stands first. -/
theorem kind_ne_openTag_of_cutAll {t : Text} (hcode : ctx.inCode = true)
    (h : Piece.cutAll ctx t = .ok pieces) :
    ∀ l ∈ (pieces.flatMap Piece.lexemes).head?, l.kind ≠ .openTag := by
  intro l hl hk
  cases t with
  | nil =>
    rw [Piece.cutAll] at h
    cases h
    cases hl
  | cons c t =>
    obtain ⟨p, rest, _, hp, -, -, rfl⟩ := cutAll_cons_eq_ok h
    have hpiece := codePiece_of_ok (nextPiece_of_inCode hcode ▸ hp)
    have hne : p.lexemes ≠ [] := by cases p <;> exact List.cons_ne_nil _ _
    rw [List.flatMap_cons, List.head?_append_of_ne_nil _ hne] at hl
    have := hpiece.kind_ne (List.mem_of_head? hl)
    rw [hk] at this
    exact this List.mem_cons_self

/-- In code, a line break in front is a blank of its own. -/
theorem Respaces.of_inCode (h : ctx.Respaces lineBreak pieces) (hlineBreak : IsLineBreak lineBreak)
    (hcode : ctx.inCode = true) {ctx' : Context} {xs : List MarkedLexeme} (hsimilar : ctx.Similar ctx')
    (hxs : xs.map lexeme = pieces.flatMap Piece.lexemes) (hchain : xs.IsChain Follows)
    (hback : BeginsUnmarked xs ∨ ctx.afterBackslash = false)
    (htag : ∀ l ∈ (pieces.flatMap Piece.lexemes).head?, l.kind ≠ .openTag) :
    ∃ pieces', Piece.cutAll ctx' (xs.flatMap (newText lineBreak)) = .ok pieces' ∧
      pieces'.flatMap Piece.lexemes = spaced lineBreak xs := by
  cases xs with
  | nil => exact h ctx' [] hsimilar hxs hchain nofun
  | cons x xs =>
    cases hx : x.marked with
    | false =>
      refine h ctx' _ hsimilar hxs hchain ?_
      rintro _ ⟨⟩
      exact hx
    | true =>
      have hback : ctx.afterBackslash = false :=
        hback.resolve_left fun hbegin => Bool.false_ne_true ((hbegin x rfl).symm.trans hx)
      have hkind : x.lexeme.kind ≠ .openTag := htag _ (by rw [← hxs]; rfl)
      have hlast : lineBreak.getLast? ≠ some '\\' := by
        rcases hlineBreak with rfl | rfl <;> decide
      have hsimilar' : ctx.Similar (ctx'.after ⟨.blank, lineBreak⟩) :=
        ⟨hsimilar.inCode, hsimilar.last, hsimilar.earlier,
          fun _ => hback.trans (beq_eq_false_iff_ne.2 hlast).symm, hsimilar.outside⟩
      obtain ⟨pieces', hcut, hlexemes⟩ := h _ _ hsimilar' ((map_lexeme_unmark _).trans hxs)
        (isChain_unmark hchain) (beginsUnmarked_unmark _)
      refine ⟨.single ⟨.blank, lineBreak⟩ :: pieces', ?_, ?_⟩
      · rw [newText_unmark, List.head?_cons, Option.any_some, hx]
        exact cutAll_lineBreak (hsimilar.inCode ▸ hcode) hlineBreak hcut
      · rw [spaced_unmark, List.flatMap_cons, hlexemes, List.head?_cons, Option.any_some, isApart, hx,
          bne_iff_ne.2 hkind]
        rfl

/-- Single lexemes of code. -/
theorem respaces_single (hlineBreak : IsLineBreak lineBreak) (hcode : ctx.inCode = true) {c : Char}
    {t following : Text} (hpiece : CodePiece ctx c t (.single l)) (hkeeps : Keeps ctx c t (.single l))
    (htext : l.text ++ following = c :: t)
    (hcut : Piece.cutAll (ctx.after l) following = .ok pieces)
    (hregular : ∀ l ∈ pieces.flatMap Piece.lexemes, l.Regular)
    (hrest : (ctx.after l).Respaces lineBreak pieces) :
    ctx.Respaces lineBreak (.single l :: pieces) := by
  obtain ⟨_, u, rest, heq, hl, rfl, hstands, hkeep⟩ := hkeeps
  cases heq
  obtain rfl : following = rest := by
    rw [hl, List.cons_append] at htext
    exact List.append_cancel_left (List.cons.inj htext).2
  have hfollowing : (pieces.flatMap Piece.lexemes).flatMap text = following := by
    rw [List.flatMap_assoc]
    exact text_cutAll hcut
  intro ctx' xs hsimilar hxs hchain hbegin
  rw [List.flatMap_cons, Piece.lexemes, List.singleton_append] at hxs
  obtain ⟨x, ys, rfl, rfl, hys⟩ := List.map_eq_cons_iff.1 hxs
  have hx : x.marked = false := hbegin x rfl
  have hmends := mendsAll hlineBreak hchain (lastAfter ctx.last x.lexeme)
  rw [hys] at hmends
  have htolerates := hmends.tolerates hregular
  rw [hfollowing, ← List.flatMap_def] at htolerates
  obtain ⟨k', halike, hpiece'⟩ := hkeep ctx' _ hsimilar htolerates
  have hkind : k' = x.lexeme.kind := by
    rcases halike with h | ⟨hword, -⟩
    · exact h.symm
    · have htrivia : x.lexeme.kind.isTrivia = false ∧ x.lexeme.kind ≠ .colon := by
        have hkinds : ∀ k : Kind, k ∈ [.word, .kwEnum] → k.isTrivia = false ∧ k ≠ .colon := by decide
        exact hkinds _ hword
      obtain ⟨hname, -, -⟩ := hpiece.kind_eq_wordKind hl hword
      have hline : '\n' ∉ x.lexeme.text := fun hmem => by cases hname.2 _ hmem
      have hheads := head?_trimStart_newText hlineBreak ys
      rw [hys, hfollowing] at hheads
      have hbegins : BeginsName following ↔ BeginsName (ys.flatMap (newText lineBreak)) := by
        rw [BeginsName, BeginsName, hheads]
      exact kind_eq_of_codePiece hcode hsimilar hpiece hl hpiece' hword
        (head?_eq_of_view (htolerates.view_eq hline htrivia.2 htrivia.1)).symm hbegins.1
        fun _ => hbegins.2
  subst hkind
  have hsimilar' : (ctx.after x.lexeme).Similar (ctx'.after x.lexeme) := by
    refine hsimilar.after (.refl _) (fun _ => Iff.rfl) fun hout => ?_
    -- only a closing mark ends code
    rw [Context.after, hcode] at hout
    cases hk : x.lexeme.kind <;> rw [hk] at hout <;> first | rfl | cases hout
  have hchain' : ys.IsChain Follows := hchain.of_cons
  -- the line break in front of what follows does not belong to the lexeme
  obtain ⟨⟨pieces', hcut', hlexemes⟩, htrail⟩ :
      (∃ pieces', Piece.cutAll (ctx'.after x.lexeme) (ys.flatMap (newText lineBreak)) = .ok pieces' ∧
        pieces'.flatMap Piece.lexemes = spaced lineBreak ys) ∧ trail lineBreak ys = [] := by
    cases hcodeAfter : (ctx.after x.lexeme).inCode with
    | true =>
      have htag := kind_ne_openTag_of_cutAll hcodeAfter hcut
      refine ⟨hrest.of_inCode hlineBreak hcodeAfter hsimilar' hys hchain' ?_ htag, ?_⟩
      · by_cases hline : '\n' ∈ x.lexeme.text
        · exact .inr (beq_eq_false_iff_ne.2 (hstands.unescaped (.inl hline)))
        · refine .inl fun y hy => Bool.eq_false_iff.2 fun hmarked => hline ?_
          obtain ⟨zs, rfl⟩ := List.head?_eq_some_iff.1 hy
          exact ((List.isChain_cons_cons.1 hchain).1 hmarked).1
      · unfold trail
        cases ys with
        | nil => rfl
        | cons y ys =>
          have hy : y.lexeme.kind ≠ .openTag := htag _ (by rw [← hys]; rfl)
          simp [hy]
    | false =>
      have hclose : x.lexeme.kind = .closeTag := by
        rw [Context.after, hcode] at hcodeAfter
        cases hk : x.lexeme.kind <;> rw [hk] at hcodeAfter <;> first | rfl | cases hcodeAfter
      have hbegin' : BeginsUnmarked ys := by
        intro y hy
        obtain ⟨zs, rfl⟩ := List.head?_eq_some_iff.1 hy
        refine Bool.eq_false_iff.2 fun hmarked => ?_
        have := ((List.isChain_cons_cons.1 hchain).1 hmarked).2
        rw [hclose] at this
        exact this (by decide)
      exact ⟨hrest _ ys hsimilar' hys hchain' hbegin', trail_of_beginsUnmarked hbegin'⟩
  refine ⟨.single x.lexeme :: pieces', ?_, ?_⟩
  · rw [List.flatMap_cons, newText_of_unmarked hx]
    refine cutAll_single hl ?_ hcut'
    rw [nextPiece_of_inCode (hsimilar.inCode ▸ hcode)]
    exact codePiece_eq_ok hpiece'
  · rw [List.flatMap_cons, hlexemes, spaced, added_of_unmarked hx, htrail, List.append_nil]
    rfl

/-- Doc comments. -/
theorem respaces_docComment (hcode : ctx.inCode = true) {c : Char} {t body rest : Text}
    (hdoc : opensDocComment (c :: t) = true)
    (hbreak : breakOn "*/".toList (t.drop 2) = some (body, rest))
    (hrest : ((Piece.docComment (docLexemes false body)).lexemes.foldl after ctx).Respaces lineBreak
      pieces) :
    ctx.Respaces lineBreak (.docComment (docLexemes false body) :: pieces) := by
  obtain ⟨d, u, rfl, rfl, hd⟩ := eq_cons_of_opensDocComment hdoc
  intro ctx' xs hsimilar hxs hchain hbegin
  rw [List.flatMap_cons] at hxs
  obtain ⟨zs, ys, rfl, hzs, hys⟩ := List.map_eq_append_iff.1 hxs
  obtain ⟨hall, hbegin'⟩ : (∀ z ∈ zs, z.marked = false) ∧ BeginsUnmarked ys := by
    obtain ⟨x, zs, rfl, -, -⟩ := List.map_eq_cons_iff.1 hzs
    obtain ⟨hunmarked, hbegin'⟩ := unmarked_of_isChain hchain fun z hz hline => by
      have hmem : z.lexeme ∈ (Piece.docComment (docLexemes false body)).lexemes :=
        hzs ▸ List.mem_map_of_mem hz
      simp only [Piece.lexemes, List.mem_cons, List.mem_append, List.not_mem_nil, or_false] at hmem
      rcases hmem with h | h | h
      · rw [h] at hline
        exact absurd hline (by decide)
      · exact kind_of_mem_docLexemes h hline
      · rw [h] at hline
        exact absurd hline (by decide)
    exact ⟨List.forall_mem_cons.2 ⟨hbegin x rfl, hunmarked⟩, hbegin'⟩
  obtain ⟨pieces', hcut', hlexemes⟩ := hrest _ ys (hsimilar.after_docComment body body) hys
    hchain.right_of_append hbegin'
  refine ⟨.docComment (docLexemes false body) :: pieces', ?_, ?_⟩
  · have hbody : body.head? = some d := by
      have htext := append_of_breakOn hbreak
      cases body with
      | nil =>
        obtain rfl := (List.cons.inj htext).1
        cases hd
      | cons e b => rw [(List.cons.inj htext).1]; rfl
    obtain ⟨b, rfl⟩ := List.head?_eq_some_iff.1 hbody
    rw [List.flatMap_append, flatMap_newText_of_unmarked hall, hzs, ← Piece.text]
    have hpiece : codePiece ctx' '/'
        ('*' :: '*' :: d :: b ++ "*/".toList ++ ys.flatMap (newText lineBreak)) =
          .ok (.docComment (docLexemes false (d :: b))) :=
      codePiece_eq_ok (.docComment _ _ hd (breakOn_of_isChain (isChain_of_breakOn hbreak) _))
    have htext : (Piece.docComment (docLexemes false (d :: b))).text ++
        ys.flatMap (newText lineBreak) =
          '/' :: ('*' :: '*' :: d :: b ++ "*/".toList ++ ys.flatMap (newText lineBreak)) := by
      rw [Piece.text_docComment]
      rfl
    rw [htext]
    exact cutAll_cons ((nextPiece_of_inCode (hsimilar.inCode ▸ hcode)).trans hpiece) htext hcut'
  · rw [List.flatMap_cons, hlexemes, spaced_append_of_unmarked hall hbegin', hzs]

/-- Open tags. -/
theorem respaces_openTag (hcode : ctx.inCode = false) {u : Text} (hu : IsOpenTag u)
    (hrest : (ctx.after ⟨.openTag, u⟩).Respaces lineBreak pieces) :
    ctx.Respaces lineBreak (.single ⟨.openTag, u⟩ :: pieces) := by
  intro ctx' xs hsimilar hxs hchain hbegin
  rw [List.flatMap_cons, Piece.lexemes, List.singleton_append] at hxs
  obtain ⟨x, ys, rfl, hx, hys⟩ := List.map_eq_cons_iff.1 hxs
  have hquiet : '\n' ∉ x.lexeme.text := by
    rw [hx]
    rcases hu with rfl | rfl <;> decide
  have hchain' : (x :: ([] ++ ys)).IsChain Follows := hchain
  obtain ⟨-, hbegin'⟩ := unmarked_of_isChain hchain' fun z hz hline => by
    rw [List.mem_singleton.1 hz] at hline
    exact absurd hline hquiet
  obtain ⟨pieces', hcut', hlexemes⟩ := hrest _ ys
    (hsimilar.after (.refl _) (fun _ => Iff.rfl) fun _ => rfl) hys hchain.of_cons hbegin'
  have hmarked : x.marked = false := hbegin x rfl
  refine ⟨.single ⟨.openTag, u⟩ :: pieces', ?_, ?_⟩
  · rw [List.flatMap_cons, newText_of_unmarked hmarked, hx]
    obtain ⟨c, v, rfl⟩ := List.exists_cons_of_ne_nil hu.ne_nil
    refine cutAll_single (l := ⟨.openTag, c :: v⟩) rfl ?_ hcut'
    rw [nextPiece_of_outside (hsimilar.inCode ▸ hcode), ← List.cons_append,
      openTagLength?_eq_some_iff.2 ⟨c :: v, ys.flatMap (newText lineBreak), hu, rfl, rfl⟩]
    exact congrArg Except.ok (Piece.cut_append List.length_cons)
  · rw [List.flatMap_cons, hlexemes, spaced, added_of_unmarked hmarked,
      trail_of_beginsUnmarked hbegin', hx, List.append_nil]
    rfl

/-- Plain text, which takes the line break of what follows. -/
theorem respaces_plainText (hlineBreak : IsLineBreak lineBreak) (hcode : ctx.inCode = false)
    {u following : Text} (hu : u ≠ []) (hplain : plainTextLength u = u.length)
    (hfollowing : following = [] ∨ (openTagLength? following).isSome = true)
    (hcut : Piece.cutAll (ctx.after ⟨.plainText, u⟩) following = .ok pieces)
    (hrest : (ctx.after ⟨.plainText, u⟩).Respaces lineBreak pieces) :
    ctx.Respaces lineBreak (.single ⟨.plainText, u⟩ :: pieces) := by
  intro ctx' xs hsimilar hxs hchain hbegin
  rw [List.flatMap_cons, Piece.lexemes, List.singleton_append] at hxs
  obtain ⟨x, ys, rfl, hx, hys⟩ := List.map_eq_cons_iff.1 hxs
  have hmarked : x.marked = false := hbegin x rfl
  have hcode' : (ctx.after ⟨.plainText, u⟩).inCode = false := hcode
  have hys' : (unmark ys).map lexeme = pieces.flatMap Piece.lexemes := (map_lexeme_unmark ys).trans hys
  have hchain' : (unmark ys).IsChain Follows := isChain_unmark hchain.of_cons
  -- what follows is an open tag, if anything
  have htag : ∀ y ∈ ys.head?, y.lexeme.kind = .openTag := by
    intro y hy
    obtain ⟨zs, rfl⟩ := List.head?_eq_some_iff.1 hy
    cases following with
    | nil =>
      rw [Piece.cutAll] at hcut
      cases hcut
      cases hys
    | cons c t =>
      have hsome := hfollowing.resolve_left (List.cons_ne_nil c t)
      obtain ⟨p, rest, _, hp, -, -, rfl⟩ := cutAll_cons_eq_ok hcut
      obtain ⟨v, rest', -, ⟨rfl, hv⟩ | ⟨-, -, -, hnone, -⟩⟩ := nextPiece_outside_cases hcode' hp
      · exact congrArg Lexeme.kind (List.cons.inj hys).1
      · rw [hnone] at hsome
        cases hsome
  have htrail : trail lineBreak ys = if ys.head?.any marked then lineBreak else [] := by
    cases ys with
    | nil => rfl
    | cons y ys =>
      have hy : y.lexeme.kind = .openTag := htag y rfl
      rw [trail, List.head?_cons, Option.any_some, Option.any_some, hy, beq_self_eq_true,
        Bool.and_true]
  have hspaced : spaced lineBreak ys = spaced lineBreak (unmark ys) := by
    rw [spaced_unmark]
    cases ys with
    | nil => rfl
    | cons y ys =>
      have hy : y.lexeme.kind = .openTag := htag y rfl
      simp [isApart, hy]
  have hplain' : u ++ trail lineBreak ys ≠ [] ∧
      plainTextLength (u ++ trail lineBreak ys) = (u ++ trail lineBreak ys).length := by
    refine ⟨by simp [hu], ?_⟩
    rw [htrail]
    split
    · rw [(plainTextLength_append hlineBreak.beginsApart).2 hplain,
        plainTextLength_of_isLineBreak hlineBreak, List.length_append]
    · rwa [List.append_nil]
  have hsimilar' : (ctx.after ⟨.plainText, u⟩).Similar
      (ctx'.after ⟨.plainText, u ++ trail lineBreak ys⟩) :=
    hsimilar.after (.refl _) (fun h => absurd (hcode.symm.trans h) Bool.false_ne_true) fun _ => rfl
  obtain ⟨pieces', hcut', hlexemes⟩ := hrest _ (unmark ys) hsimilar' hys' hchain'
    (beginsUnmarked_unmark ys)
  have hmends := mendsAll_of_beginsUnmarked hlineBreak hchain' (beginsUnmarked_unmark ys) none
  rw [hys'] at hmends
  have hfollowing' := openTag_of_mendsAll hcode' hcut hfollowing hmends
  rw [← List.flatMap_def] at hfollowing'
  refine ⟨.single ⟨.plainText, u ++ trail lineBreak ys⟩ :: pieces', ?_, ?_⟩
  · rw [List.flatMap_cons, newText_of_unmarked hmarked, hx, newText_unmark ys, ← htrail,
      ← List.append_assoc]
    exact cutAll_plainText (hsimilar.inCode ▸ hcode) hplain'.1 hplain'.2 hfollowing' hcut'
  · rw [List.flatMap_cons, hlexemes, spaced, added_of_unmarked hmarked, hx, hspaced]
    rfl

/-- The pieces of a text are cut again when line breaks are put between their lexemes. -/
theorem respaces_of_cutAll (hlineBreak : IsLineBreak lineBreak) {t : Text}
    (h : Piece.cutAll ctx t = .ok pieces) : ctx.Respaces lineBreak pieces := by
  induction pieces generalizing ctx t with
  | nil =>
    intro ctx' xs _ hxs _ _
    obtain rfl := List.map_eq_nil_iff.1 hxs
    exact ⟨[], by rw [List.flatMap_nil, Piece.cutAll], rfl⟩
  | cons p pieces ih =>
    cases t with
    | nil =>
      rw [Piece.cutAll] at h
      cases h
    | cons c t =>
      obtain ⟨_, _, following, hp, htext, hcut, heq⟩ := cutAll_cons_eq_ok h
      cases heq
      have hrest := ih hcut
      cases hcode : ctx.inCode with
      | true =>
        have hpiece := codePiece_of_ok (nextPiece_of_inCode hcode ▸ hp)
        rcases codePiece_keeps hcode hpiece with hkeeps | ⟨body, rest, rfl, hdoc, hbreak⟩
        · obtain ⟨l, _, _, rfl, -⟩ := id hkeeps
          exact respaces_single hlineBreak hcode hpiece hkeeps (Piece.text_single l ▸ htext) hcut
            (regular_of_cutAll hcut) hrest
        · exact respaces_docComment hcode hdoc hbreak hrest
      | false =>
        obtain ⟨u, rest, htext', ⟨rfl, hu⟩ | ⟨rfl, hu, hplain, -, hfollowing⟩⟩ :=
          nextPiece_outside_cases hcode hp
        · exact respaces_openTag hcode hu hrest
        · obtain rfl : following = rest := by
            rw [htext', Piece.text_single] at htext
            exact List.append_cancel_left htext
          exact respaces_plainText hlineBreak hcode hu hplain hfollowing hcut hrest

end Context

/-- A text with line breaks between its lexemes is cut where the old one is. -/
theorem exists_cutAll_spaced {source lineBreak : Text} {pieces : List Piece} {xs : List MarkedLexeme}
    (hlineBreak : IsLineBreak lineBreak) (h : Piece.cutAll Context.start source = .ok pieces)
    (hxs : xs.map lexeme = pieces.flatMap Piece.lexemes) (hchain : xs.IsChain Follows)
    (hbegin : BeginsUnmarked xs) :
    ∃ pieces', Piece.cutAll Context.start (xs.flatMap (newText lineBreak)) = .ok pieces' ∧
      pieces'.flatMap Piece.lexemes = spaced lineBreak xs :=
  Context.respaces_of_cutAll hlineBreak h _ xs Context.similar_start hxs hchain hbegin

end EntityLint
