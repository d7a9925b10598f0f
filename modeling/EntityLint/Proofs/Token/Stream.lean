import EntityLint.Token.Basic
import Mathlib.Tactic

/-!
# Token streams and the lexemes they are made of

Tokens are lexemes with links. This module goes from the text to the lexemes, and from the lexemes
to the tokens, so that later ones need neither the cutter nor the assembly of tokens.

* `codePiece_cases`, `nextPiece_cases`: what the next piece of a text can be;
* `text_cutAll`: the pieces of a text make it up;
* `Lexeme.ofSource`, `tokenize_of_lexemes`, `exists_pieces_of_tokenize`, `exists_lexemes_of_tokenize`: the
  pieces and lexemes of a text;
* `DocComment.tagsOf`: the tags among the lexemes of a doc comment;
* `Token.Describes`, `Token.describes_of_getElem?`: each field of a token, read off the lexemes.
-/

namespace EntityLint

/-! ### Kinds of lexemes -/

/-- Kinds that come up only inside of doc comments. -/
def Kind.isDocPart : Kind → Bool
  | docOpen | docClose | docStar | docBlank | docTag | docText => true
  | _ => false

/-- Kinds that a single lexeme can have. The end of an attribute group shows only in pairing. -/
def Kind.isCut (k : Kind) : Bool := !k.isDocPart && k != .attributeClose

theorem Kind.isCut_of_ofKeyword? {word : Text} {k : Kind} (h : ofKeyword? word = some k) :
    k.isCut = true := by
  obtain ⟨before, after, htable, -⟩ := List.lookup_eq_some_iff.1 h
  have hmem : (Text.asciiLower word, k) ∈ keywordTable := by rw [htable]; simp
  have hall : ∀ entry ∈ keywordTable, entry.2.isCut = true := by decide
  exact hall _ hmem

theorem Context.isCut_wordKind (ctx : Context) (word following : Text) :
    (ctx.wordKind word following).isCut = true := by
  unfold Context.wordKind
  split
  · rfl
  · split
    · split <;> rfl
    · next hk => exact Kind.isCut_of_ofKeyword? hk
    · rfl

theorem Lexeme.isCut_symbolAt (c : Char) (t : Text) : (symbolAt c t).1.isCut = true := by
  unfold symbolAt
  split
  · next op kind h =>
    have hall : ∀ entry ∈ Kind.operatorTable, entry.2.isCut = true := by decide
    exact hall _ (List.mem_of_find?_eq_some h)
  · unfold Kind.ofSymbol
    split <;> rfl

/-! ### Pieces -/

theorem docComment_isPrefix {c : Char} {t body rest : Text} (hdoc : opensDocComment (c :: t) = true)
    (h : Text.breakOn "*/".toList (t.drop 2) = some (body, rest)) :
    "/**".toList ++ body ++ "*/".toList <+: c :: t := by
  unfold opensDocComment at hdoc
  split at hdoc
  · next d u hopen =>
    have htext := Text.append_of_stripLeading? hopen
    obtain ⟨rfl, rfl⟩ : c = '/' ∧ t = '*' :: '*' :: d :: u := by simpa [eq_comm] using htext
    refine ⟨rest, ?_⟩
    have hbody : body ++ "*/".toList ++ rest = d :: u := Text.append_of_breakOn h
    simp [← hbody]
  · simp at hdoc

/-- What the next piece of code can be: a single lexeme, or a doc comment that stands there. -/
theorem codePiece_cases {ctx : Context} {c : Char} {t : Text} {p : Piece}
    (h : codePiece ctx c t = .ok p) :
    (∃ kind n, p = Piece.cut kind c t n ∧ kind.isCut = true) ∨
      ∃ body, p = .docComment (docLexemes false body) ∧
        "/**".toList ++ body ++ "*/".toList <+: c :: t := by
  simp only [codePiece] at h
  repeat' split at h
  all_goals try cases h
  all_goals first
    | exact .inl ⟨_, _, rfl, rfl⟩
    | exact .inl ⟨_, _, rfl, Context.isCut_wordKind ..⟩
    | exact .inl ⟨_, _, rfl, Lexeme.isCut_symbolAt ..⟩
    | exact .inr ⟨_, rfl, docComment_isPrefix ‹_› ‹_›⟩

theorem nextPiece_cases {ctx : Context} {c : Char} {t : Text} {p : Piece}
    (h : nextPiece ctx c t = .ok p) :
    (∃ kind n, p = Piece.cut kind c t n ∧ kind.isCut = true) ∨
      ∃ body, p = .docComment (docLexemes false body) ∧
        "/**".toList ++ body ++ "*/".toList <+: c :: t := by
  unfold nextPiece at h
  split at h
  · exact codePiece_cases h
  · split at h <;> cases h <;> exact .inl ⟨_, _, rfl, rfl⟩

theorem Piece.text_docComment (body : Text) :
    (docComment (docLexemes false body)).text = "/**".toList ++ body ++ "*/".toList := by
  simp [text, lexemes, lexemes_text_docLexemes, docOpening, docClosing]

/-- The text of the next piece stands at the beginning of the rest, and is not empty. -/
theorem text_nextPiece {ctx : Context} {c : Char} {t : Text} {p : Piece}
    (h : nextPiece ctx c t = .ok p) : p.text ≠ [] ∧ p.text <+: c :: t := by
  rcases nextPiece_cases h with ⟨kind, n, rfl, -⟩ | ⟨body, rfl, hbody⟩
  · rw [Piece.text_cut]
    exact ⟨List.cons_ne_nil _ _, (List.prefix_cons_inj c).2 (List.take_prefix _ _)⟩
  · rw [Piece.text_docComment]
    exact ⟨by simp, hbody⟩

/-- One turn of the cutter: the next piece, and the pieces of what follows it. -/
theorem cutAll_cons_eq_ok {ctx : Context} {c : Char} {t : Text} {pieces : List Piece}
    (h : Piece.cutAll ctx (c :: t) = .ok pieces) :
    ∃ p rest following, nextPiece ctx c t = .ok p ∧ p.text ++ following = c :: t ∧
      Piece.cutAll (p.lexemes.foldl Context.after ctx) following = .ok rest ∧
      pieces = p :: rest := by
  rw [Piece.cutAll] at h
  cases hp : nextPiece ctx c t with
  | error e => simp [hp, bind, Except.bind] at h
  | ok p =>
    simp only [hp, bind, Except.bind] at h
    split at h
    · simp at h
    · next rest hrest =>
      obtain ⟨hne, hprefix⟩ := text_nextPiece hp
      have hlen := List.length_pos_iff.2 hne
      have hdrop : t.drop (p.text.length - 1) = (c :: t).drop p.text.length := by
        rw [← List.drop_succ_cons (a := c), Nat.sub_add_cancel hlen]
      exact ⟨p, rest, _, rfl, hdrop ▸ (List.prefix_iff_eq_append.1 hprefix), hrest,
        (Except.ok.inj h).symm⟩

/-- The pieces of a text make it up. -/
theorem text_cutAll {ctx : Context} {t : Text} {pieces : List Piece}
    (h : Piece.cutAll ctx t = .ok pieces) : pieces.flatMap Piece.text = t := by
  induction pieces generalizing ctx t with
  | nil =>
    cases t with
    | nil => rfl
    | cons c t => obtain ⟨p, rest, _, -, -, -, hpieces⟩ := cutAll_cons_eq_ok h; cases hpieces
  | cons p pieces ih =>
    cases t with
    | nil => simp [Piece.cutAll] at h
    | cons c t =>
      obtain ⟨q, rest, following, -, htext, hrest, hpieces⟩ := cutAll_cons_eq_ok h
      cases hpieces
      rw [List.flatMap_cons, ih hrest, htext]

/-- What holds of every next piece holds of all pieces of a text. -/
theorem forall_cutAll {P : Piece → Prop} (hP : ∀ ctx c t p, nextPiece ctx c t = .ok p → P p)
    {ctx : Context} {t : Text} {pieces : List Piece} (h : Piece.cutAll ctx t = .ok pieces) :
    ∀ p ∈ pieces, P p := by
  induction pieces generalizing ctx t with
  | nil => simp
  | cons p pieces ih =>
    cases t with
    | nil => simp [Piece.cutAll] at h
    | cons c t =>
      obtain ⟨q, rest, following, hq, -, hrest, hpieces⟩ := cutAll_cons_eq_ok h
      cases hpieces
      exact List.forall_mem_cons.2 ⟨hP ctx c t _ hq, ih hrest⟩

/-! ### Lexemes -/

theorem docLexeme_kind (lineStart : Bool) (c : Char) (t : Text) :
    (docLexeme lineStart c t).1.kind ∈ [.docBlank, .docStar, .docTag, .docText] := by
  unfold docLexeme
  repeat' split
  all_goals simp

/-- The parts of the body of a doc comment have texts, and kinds of their own. -/
theorem mem_docLexemes {lineStart : Bool} {t : Text} {l : Lexeme}
    (h : l ∈ docLexemes lineStart t) :
    l.text ≠ [] ∧ l.kind ∈ [.docBlank, .docStar, .docTag, .docText] := by
  induction lineStart, t using docLexemes.induct with
  | case1 => simp [docLexemes] at h
  | case2 lineStart c t part ih =>
    rw [docLexemes] at h
    rcases List.mem_cons.1 h with rfl | h
    · obtain ⟨n, hn⟩ := docLexeme_text lineStart c t
      exact ⟨by simp [hn], docLexeme_kind lineStart c t⟩
    · exact ih h

theorem mem_lexemes_docComment {body : Text} {l : Lexeme}
    (h : l ∈ (Piece.docComment (docLexemes false body)).lexemes) :
    l.text ≠ [] ∧ l.kind ∈ [.docOpen, .docBlank, .docStar, .docTag, .docText, .docClose] := by
  simp only [Piece.lexemes, List.mem_cons, List.mem_append, List.not_mem_nil, or_false] at h
  rcases h with rfl | h | rfl
  · exact ⟨List.cons_ne_nil _ _, by decide⟩
  · obtain ⟨htext, hkind⟩ := mem_docLexemes h
    have hkinds : ∀ k : Kind, k ∈ [.docBlank, .docStar, .docTag, .docText] →
      k ∈ [.docOpen, .docBlank, .docStar, .docTag, .docText, .docClose] := by decide
    exact ⟨htext, hkinds _ hkind⟩
  · exact ⟨List.cons_ne_nil _ _, by decide⟩

/-- The lexemes of a piece have texts, and none of them is known to end an attribute group. -/
theorem mem_lexemes_nextPiece {ctx : Context} {c : Char} {t : Text} {p : Piece}
    (h : nextPiece ctx c t = .ok p) : ∀ l ∈ p.lexemes, l.text ≠ [] ∧ l.kind ≠ .attributeClose := by
  intro l hl
  rcases nextPiece_cases h with ⟨kind, n, rfl, hkind⟩ | ⟨body, rfl, -⟩
  · obtain rfl : l = ⟨kind, c :: t.take (n - 1)⟩ := by simpa [Piece.cut, Piece.lexemes] using hl
    refine ⟨List.cons_ne_nil _ _, fun hclose => ?_⟩
    rw [show kind = .attributeClose from hclose] at hkind
    cases hkind
  · obtain ⟨htext, hkind⟩ := mem_lexemes_docComment hl
    exact ⟨htext, fun hclose => by simp [hclose] at hkind⟩

namespace Lexeme

theorem text_resolveNullable (before : Option Kind) (ls : List Lexeme) :
    (resolveNullable before ls).map text = ls.map text := by
  induction ls generalizing before with
  | nil => rfl
  | cons l ls ih => simp [resolveNullable, ih]

theorem mem_resolveNullable {before : Option Kind} {ls : List Lexeme} {l : Lexeme}
    (h : l ∈ resolveNullable before ls) :
    ∃ l' ∈ ls, l.text = l'.text ∧ (l.kind = l'.kind ∨ l.kind = .nullable) := by
  induction ls generalizing before with
  | nil => simp [resolveNullable] at h
  | cons l' ls ih =>
    rw [resolveNullable] at h
    rcases List.mem_cons.1 h with rfl | h
    · refine ⟨l', List.mem_cons_self, rfl, ?_⟩
      dsimp only
      split
      · exact .inr rfl
      · exact .inl rfl
    · obtain ⟨l'', hmem, hl⟩ := ih h
      exact ⟨l'', List.mem_cons_of_mem _ hmem, hl⟩

/-- Only question marks get another kind. -/
theorem getElem?_resolveNullable {before : Option Kind} {ls : List Lexeme} {i : ℕ} {l : Lexeme}
    (h : (resolveNullable before ls)[i]? = some l) : ∃ l', ls[i]? = some l' ∧ l.text = l'.text ∧
      (l.kind = l'.kind ∨ l'.kind = .ternary ∧ l.kind = .nullable) := by
  induction ls generalizing before i with
  | nil => cases h
  | cons l' ls ih =>
    rw [resolveNullable] at h
    cases i with
    | zero =>
      cases h
      refine ⟨l', rfl, rfl, ?_⟩
      dsimp only
      split
      · next hmark => exact .inr ⟨hmark.1, rfl⟩
      · exact .inl rfl
    | succ i => exact ih h

/-- The lexemes of a text, which its tokens are made of. -/
def ofSource (source : Text) : Except LexError (List Lexeme) := do
  let pieces ← Piece.cutAll Context.start source
  return resolveNullable none (pieces.flatMap Piece.lexemes)

theorem exists_pieces_of_ofSource {source : Text} {ls : List Lexeme}
    (h : ofSource source = .ok ls) :
    ∃ pieces, Piece.cutAll Context.start source = .ok pieces ∧
      ls = resolveNullable none (pieces.flatMap Piece.lexemes) := by
  unfold ofSource at h
  cases hpieces : Piece.cutAll Context.start source with
  | error e => simp [hpieces, bind, Except.bind] at h
  | ok pieces =>
    simp only [hpieces, bind, Except.bind, pure, Except.pure, Except.ok.injEq] at h
    exact ⟨pieces, rfl, h.symm⟩

/-- The lexemes of a text make it up. -/
theorem text_ofSource {source : Text} {ls : List Lexeme} (h : ofSource source = .ok ls) :
    ls.flatMap text = source := by
  obtain ⟨pieces, hpieces, rfl⟩ := exists_pieces_of_ofSource h
  rw [← text_cutAll hpieces, List.flatMap_def, text_resolveNullable, ← List.flatMap_def,
    List.flatMap_assoc]
  rfl

/-- No lexeme of a text is empty, or known to end an attribute group. -/
theorem mem_ofSource {source : Text} {ls : List Lexeme} (h : ofSource source = .ok ls) :
    ∀ l ∈ ls, l.text ≠ [] ∧ l.kind ≠ .attributeClose := by
  intro l hl
  obtain ⟨pieces, hpieces, rfl⟩ := exists_pieces_of_ofSource h
  obtain ⟨l', hl', htext, hkind⟩ := mem_resolveNullable hl
  obtain ⟨p, hp, hl'⟩ := List.mem_flatMap.1 hl'
  obtain ⟨hne, hclose⟩ :=
    forall_cutAll (fun _ _ _ _ hp => mem_lexemes_nextPiece hp) hpieces p hp l' hl'
  refine ⟨htext ▸ hne, ?_⟩
  rcases hkind with hkind | hkind <;> rw [hkind]
  · exact hclose
  · exact Kind.noConfusion

end Lexeme

/-! ### Doc comments -/

namespace DocComment

/-- The tags of the body of a doc comment, the first part of which is token `i`. -/
def tagsOf (i : ℕ) (body : List Lexeme) : List ℕ :=
  (body.zipIdx i).filterMap fun (l, j) => if l.kind = .docTag then some j else none

@[simp] theorem tagsOf_nil (i : ℕ) : tagsOf i [] = [] := rfl

theorem tagsOf_cons (i : ℕ) (l : Lexeme) (ls : List Lexeme) :
    tagsOf i (l :: ls) = (if l.kind = .docTag then [i] else []) ++ tagsOf (i + 1) ls := by
  rw [tagsOf, List.zipIdx_cons, List.filterMap_cons]
  dsimp only
  by_cases hl : l.kind = .docTag
  · rw [if_pos hl, if_pos hl]
    rfl
  · rw [if_neg hl, if_neg hl]
    rfl

end DocComment

/-! ### Tokens -/

/-- A text that can be cut has a token stream, unless a bracket has no partner. -/
theorem tokenize_of_lexemes {source : Text} {ls : List Lexeme}
    (h : Lexeme.ofSource source = .ok ls) :
    ∃ docs, tokenize source = match Pairing.pairAll (ls.map Lexeme.kind) with
      | .error i => .error (.ofBracket ls i)
      | .ok pairs => .ok (Token.ofLexemes ls docs pairs) := by
  obtain ⟨pieces, hpieces, rfl⟩ := Lexeme.exists_pieces_of_ofSource h
  refine ⟨DocComment.all 0 pieces, ?_⟩
  unfold tokenize
  rw [hpieces]
  rfl

/-- A text that cannot be cut has no token stream, for the same reason. -/
theorem tokenize_of_lexError {source : Text} {e : LexError}
    (h : Lexeme.ofSource source = .error e) :
    tokenize source = .error e := by
  unfold Lexeme.ofSource at h
  cases hpieces : Piece.cutAll Context.start source with
  | error e' =>
    simp only [hpieces, bind, Except.bind, Except.error.injEq] at h
    simp only [tokenize, hpieces, bind, Except.bind, h]
  | ok pieces => simp [hpieces, bind, Except.bind, pure, Except.pure] at h

/-- The pieces of a text that has a token stream. -/
theorem exists_pieces_of_tokenize {source : Text} {tokens : List Token}
    (h : tokenize source = .ok tokens) :
    ∃ pieces pairs, Piece.cutAll Context.start source = .ok pieces ∧
      Pairing.pairAll
        ((Lexeme.resolveNullable none (pieces.flatMap Piece.lexemes)).map Lexeme.kind) = .ok pairs ∧
      tokens = Token.ofLexemes (Lexeme.resolveNullable none (pieces.flatMap Piece.lexemes))
        (DocComment.all 0 pieces) pairs := by
  unfold tokenize at h
  cases hpieces : Piece.cutAll Context.start source with
  | error e => simp [hpieces, bind, Except.bind] at h
  | ok pieces =>
    simp only [hpieces, bind, Except.bind] at h
    split at h
    · cases h
    · next pairs hpairs => exact ⟨pieces, pairs, rfl, hpairs, (Except.ok.inj h).symm⟩

theorem exists_lexemes_of_tokenize {source : Text} {tokens : List Token}
    (h : tokenize source = .ok tokens) :
    ∃ ls docs pairs, Lexeme.ofSource source = .ok ls ∧
      Pairing.pairAll (ls.map Lexeme.kind) = .ok pairs ∧
      tokens = Token.ofLexemes ls docs pairs := by
  cases hls : Lexeme.ofSource source with
  | error e => rw [tokenize_of_lexError hls] at h; cases h
  | ok ls =>
    obtain ⟨docs, htokens⟩ := tokenize_of_lexemes hls
    rw [htokens] at h
    split at h
    · cases h
    · next pairs hpairs => exact ⟨ls, docs, pairs, rfl, hpairs, (Except.ok.inj h).symm⟩

namespace Pairing.Pairs

/-- The square pairs that are attribute groups. -/
def groups (pairs : Pairs) (kinds : List Kind) : List Range :=
  pairs.square.filter fun r => kinds[r.opener]? == some .attributeOpen

/-- The square pairs that are no attribute groups. -/
def brackets (pairs : Pairs) (kinds : List Kind) : List Range :=
  pairs.square.filter fun r => !(kinds[r.opener]? == some .attributeOpen)

end Pairing.Pairs

namespace Token

/-- How the fields of the token at index `i` come from its lexeme and from the pairs. -/
structure Describes (ls : List Lexeme) (pairs : Pairing.Pairs) (i : ℕ) (l : Lexeme) (t : Token) :
    Prop where
  text : t.text = l.text
  kind : t.kind = if (pairs.groups (ls.map Lexeme.kind)).any fun r => r.closer == i
    then .attributeClose else l.kind
  position : t.position =
    ((Position.start.ofTexts (ls.map Lexeme.text))[i]?).getD Position.start
  parens : t.parens =
    Pairing.rangeAt pairs.round (Pairing.parenOwnersFrom 0 none (ls.map Lexeme.kind)) i
  scope : t.scope =
    Pairing.rangeAt pairs.curly (Pairing.scopeOwnersFrom 0 none (ls.map Lexeme.kind)) i
  brackets : t.brackets = Pairing.rangeAt (pairs.brackets (ls.map Lexeme.kind)) [] i
  attrGroup : t.attrGroup = ((Pairing.attributesFrom (pairs.groups (ls.map Lexeme.kind)) 0 none
    (ls.map Lexeme.kind))[i]?).getD none
  conditions : t.conditions = Pairing.conditionsOf (ls.map Lexeme.kind).toArray
    (Pairing.scopeOwnersFrom 0 none (ls.map Lexeme.kind))
    (((Pairing.openersFrom 0 [] (ls.map Lexeme.kind))[i]?).getD [])
  parenDepth : t.parenDepth = ((Pairing.depthsFrom 0 (ls.map Lexeme.kind))[i]?).getD 0

section OfLexemes

variable {ls : List Lexeme} {docs : List DocComment} {pairs : Pairing.Pairs}

theorem length_ofLexemes (ls : List Lexeme) (docs : List DocComment) (pairs : Pairing.Pairs) :
    (ofLexemes ls docs pairs).length = ls.length := by
  simp only [ofLexemes, List.length_mapIdx]

theorem describes_of_getElem? {i : ℕ} {t : Token} (h : (ofLexemes ls docs pairs)[i]? = some t) :
    ∃ l, ls[i]? = some l ∧ Describes ls pairs i l t := by
  simp only [ofLexemes, List.getElem?_mapIdx, Option.map_eq_some_iff,
    List.partition_eq_filter_filter] at h
  obtain ⟨l, hl, rfl⟩ := h
  exact ⟨l, hl, {
    text := rfl
    kind := by simp [Pairing.Pairs.groups]
    position := by simp
    parens := rfl
    scope := rfl
    brackets := by simp [Pairing.Pairs.brackets, Function.comp_def]
    attrGroup := by simp [Pairing.Pairs.groups]
    conditions := by simp
    parenDepth := by simp }⟩

theorem text_ofLexemes (ls : List Lexeme) (docs : List DocComment) (pairs : Pairing.Pairs) :
    (ofLexemes ls docs pairs).map text = ls.map Lexeme.text := by
  apply List.ext_getElem?
  intro i
  simp only [ofLexemes, List.getElem?_map, List.getElem?_mapIdx, Option.map_map]
  rfl

end OfLexemes

end Token

/-- The pieces of a text have as many lexemes as there are tokens. -/
theorem length_of_tokenize {source : Text} {tokens : List Token} {pieces : List Piece}
    (h : tokenize source = .ok tokens) (hpieces : Piece.cutAll Context.start source = .ok pieces) :
    tokens.length = (pieces.flatMap Piece.lexemes).length := by
  obtain ⟨_, pairs, hpieces', -, rfl⟩ := exists_pieces_of_tokenize h
  cases hpieces.symm.trans hpieces'
  rw [Token.length_ofLexemes, ← List.length_map Lexeme.text, Lexeme.text_resolveNullable,
    List.length_map]

end EntityLint
