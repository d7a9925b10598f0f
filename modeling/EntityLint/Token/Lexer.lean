import EntityLint.Token.Lexeme

/-!
# Cutting a text into lexemes

A text is cut into pieces: single lexemes and whole doc comments. What the next piece is depends on
the rest of the text and on a little context, the significant kinds before it.

* `Piece`, `Context`, `nextPiece`, `Piece.cutAll`: the cutter;
* `docLexemes`: the parts of the body of a doc comment;
* `Lexeme.resolveNullable`: question marks that begin a type.

The main statement is `lexemes_text_docLexemes`: the parts of a doc comment lose nothing.
-/

namespace EntityLint

/-- Why a text has no token stream. -/
inductive LexError
  /-- A comment that opens on the given line is never closed. -/
  | unterminatedComment (line : Nat)
  /-- A string that opens on the given line is never closed. -/
  | unterminatedString (line : Nat)
  /-- A bracket on the given line has no partner. -/
  | unbalancedBracket (line : Nat) (bracket : Char)
  deriving DecidableEq, Repr

/-- The wording of an error. -/
def LexError.message : LexError → String
  | unterminatedComment line => s!"unterminated comment starting on line {line}"
  | unterminatedString line => s!"unterminated string starting on line {line}"
  | unbalancedBracket line bracket => s!"unbalanced '{bracket}' on line {line}"

/-! ### Pieces -/

/-- A single lexeme, or a doc comment with the parts of its body. -/
inductive Piece
  | single (lexeme : Lexeme)
  | docComment (body : List Lexeme)
  deriving DecidableEq, Repr

namespace Piece

/-- The opening part of a doc comment. -/
def docOpening : Lexeme := ⟨.docOpen, "/**".toList⟩

/-- The closing part of a doc comment. -/
def docClosing : Lexeme := ⟨.docClose, "*/".toList⟩

/-- The lexemes of a piece, in order. -/
def lexemes : Piece → List Lexeme
  | single lexeme => [lexeme]
  | docComment body => docOpening :: (body ++ [docClosing])

/-- The text of a piece. -/
def text (p : Piece) : Text := p.lexemes.flatMap Lexeme.text

/-- A single lexeme of `n` characters, and of at least one, cut from `c :: t`. -/
def cut (kind : Kind) (c : Char) (t : Text) (n : Nat) : Piece :=
  single ⟨kind, c :: t.take (n - 1)⟩

@[simp] theorem text_single (lexeme : Lexeme) : (single lexeme).text = lexeme.text := by
  simp [text, lexemes]

@[simp] theorem text_cut (kind : Kind) (c : Char) (t : Text) (n : Nat) :
    (cut kind c t n).text = c :: t.take (n - 1) := by
  simp [cut]

end Piece

/-! ### Doc comments -/

/-- The first part of the rest `c :: t` of the body of a doc comment, and whether a line has just
begun after it. A star counts as the mark of its line only where nothing but blanks stands before
it, and never on the line of the opening. -/
def docLexeme (lineStart : Bool) (c : Char) (t : Text) : Lexeme × Bool :=
  let part (kind : Kind) (n : Nat) : Lexeme := ⟨kind, c :: t.take (n - 1)⟩
  if c = '\r' ∧ t.head? = some '\n' then (part .docBlank 2, true)
  else if c = '\n' then (part .docBlank 1, true)
  else if c = '\r' then (part .docBlank 1, lineStart)
  else if Text.isSpaceOrTab c then
    (part .docBlank ((c :: t).takeWhile Text.isSpaceOrTab).length, lineStart)
  else if c = '*' ∧ lineStart then (part .docStar 1, false)
  else if c = '@' ∧ 1 < Lexeme.docTagLength (c :: t) then
    (part .docTag (Lexeme.docTagLength (c :: t)), false)
  else (part .docText (Lexeme.docTextLength (c :: t)), false)

theorem docLexeme_text (lineStart : Bool) (c : Char) (t : Text) :
    ∃ n, (docLexeme lineStart c t).1.text = c :: t.take n := by
  unfold docLexeme
  repeat' split
  all_goals exact ⟨_, rfl⟩

/-- The parts of the body of a doc comment. -/
def docLexemes (lineStart : Bool) : Text → List Lexeme
  | [] => []
  | c :: t =>
    let part := docLexeme lineStart c t
    part.1 :: docLexemes part.2 (t.drop (part.1.text.length - 1))
termination_by t => t.length
decreasing_by simp only [List.length_drop, List.length_cons]; omega

/-- The parts of a doc comment make up its body. -/
theorem lexemes_text_docLexemes (lineStart : Bool) (t : Text) :
    (docLexemes lineStart t).flatMap Lexeme.text = t := by
  fun_induction docLexemes lineStart t with
  | case1 => rfl
  | case2 lineStart c t part ih =>
    obtain ⟨n, hn⟩ := docLexeme_text lineStart c t
    rw [List.flatMap_cons, ih]
    simp only [part, hn, List.length_cons, List.length_take, Nat.add_sub_cancel, List.cons_append,
      List.cons.injEq, true_and]
    rcases Nat.le_total n t.length with h | h
    · rw [Nat.min_eq_left h, List.take_append_drop]
    · rw [Nat.min_eq_right h, List.take_of_length_le h, List.drop_length, List.append_nil]

/-! ### Context -/

/-- What the cutter knows of the text before. -/
structure Context where
  /-- Whether the text before ends inside of code. -/
  inCode : Bool
  /-- The current line, counted from one. -/
  line : Nat
  /-- The kind of the last significant lexeme. -/
  last : Option Kind
  /-- The kind of the significant lexeme before the last one. -/
  earlier : Option Kind
  /-- Whether the character before is a backslash. -/
  afterBackslash : Bool
  deriving DecidableEq, Repr

namespace Context

/-- The context at the beginning of a text. -/
def start : Context := ⟨false, 1, none, none, false⟩

/-- The context after one more lexeme. -/
def after (ctx : Context) (lexeme : Lexeme) : Context where
  inCode :=
    match lexeme.kind with
    | .openTag => true
    | .closeTag => false
    | _ => ctx.inCode
  line := ctx.line + lexeme.text.count '\n'
  last := if lexeme.kind.isTrivia then ctx.last else some lexeme.kind
  earlier := if lexeme.kind.isTrivia then ctx.earlier else ctx.last
  afterBackslash := lexeme.text.getLast? == some '\\'

/-- A word is never a keyword where a member or function name must stand. -/
def expectsName (ctx : Context) : Bool :=
  match ctx.last with
  | some .kwFunction | some .arrow | some .nullsafeArrow | some .doubleColon | some .kwConst => true
  | some .ampersand => ctx.earlier == some .kwFunction
  | _ => false

/-- The kind of a word that is followed by a given text. Parts of a name with backslashes are no
keywords, and `enum` is one only in front of a name. -/
def wordKind (ctx : Context) (word following : Text) : Kind :=
  if ctx.expectsName || ctx.afterBackslash || following.head? == some '\\' then .word
  else match Kind.ofKeyword? word with
    | some .kwEnum =>
      if (Text.trimStart following).head?.any Lexeme.isWordStart then .kwEnum else .word
    | some kind => kind
    | none => .word

end Context

/-! ### The next piece -/

/-- Whether a text begins with the opening of a doc comment. -/
def opensDocComment (t : Text) : Bool :=
  match Text.stripLeading? "/**".toList t with
  | some (c :: _) => Lexeme.isAsciiBlank c
  | _ => false

/-- The next piece of the rest `c :: t` of a text, inside of code. -/
def codePiece (ctx : Context) (c : Char) (t : Text) : Except LexError Piece :=
  let next := t.head?
  let all := c :: t
  let cut (kind : Kind) (n : Nat) : Except LexError Piece := .ok (Piece.cut kind c t n)
  let cutOr (error : Nat → LexError) (kind : Kind) (length : Option Nat) : Except LexError Piece :=
    match length with
    | some n => cut kind n
    | none => .error (error ctx.line)
  if c = '?' ∧ next = some '>' then cut .closeTag (Lexeme.closeTagLength all)
  else if Lexeme.isCodeBlank c then cut .blank (Lexeme.blankLength all)
  else if c = '#' ∧ next = some '[' then cut .attributeOpen 2
  else if c = '#' ∨ c = '/' ∧ next = some '/' then cut .comment (Lexeme.lineCommentLength all)
  else if opensDocComment all then
    match Text.breakOn "*/".toList (t.drop 2) with
    | some (body, _) => .ok (.docComment (docLexemes false body))
    | none => .error (.unterminatedComment ctx.line)
  else if c = '/' ∧ next = some '*' then
    cutOr .unterminatedComment .comment (Lexeme.blockCommentLength? all)
  else if c = '$' ∧ next.any Lexeme.isWordStart then cut .variable (1 + Lexeme.wordLength t)
  else if c = '\'' ∨ c = '"' ∨ c = '\x60' then
    cutOr .unterminatedString .quoted (Lexeme.quotedLength? all)
  else match Lexeme.heredocLabel? all with
  | some label => cutOr .unterminatedString .quoted (Lexeme.heredocLength? label all)
  | none =>
    if c.isDigit ∨ c = '.' ∧ next.any Char.isDigit then cut .number (Lexeme.numberLength all)
    else if Lexeme.isWordStart c then
      let n := Lexeme.wordLength all
      cut (ctx.wordKind (all.take n) (all.drop n)) n
    else
      let (kind, n) := Lexeme.symbolAt c t
      cut kind n

/-- The next piece of the rest `c :: t` of a text. -/
def nextPiece (ctx : Context) (c : Char) (t : Text) : Except LexError Piece :=
  if ctx.inCode then codePiece ctx c t
  else match Lexeme.openTagLength? (c :: t) with
    | some n => .ok (Piece.cut .openTag c t n)
    | none => .ok (Piece.cut .plainText c t (Lexeme.plainTextLength (c :: t)))

/-- The pieces of a text in a context. -/
def Piece.cutAll (ctx : Context) : Text → Except LexError (List Piece)
  | [] => .ok []
  | c :: t => do
    let piece ← nextPiece ctx c t
    let pieces ← cutAll (piece.lexemes.foldl Context.after ctx) (t.drop (piece.text.length - 1))
    return piece :: pieces
termination_by t => t.length
decreasing_by simp only [List.length_drop, List.length_cons]; omega

/-! ### Question marks of types -/

/-- Kinds after which a question mark may begin a type. -/
def Kind.precedesType : Kind → Bool
  | openRound | comma | colon => true
  | k => k.isModifier

/-- Kinds that begin the type after a question mark. -/
def Kind.beginsType : Kind → Bool
  | word | backslash | kwArray | kwStatic | kwNull | kwSelf | kwParent => true
  | _ => false

/-- The kind of the first significant lexeme. -/
def Lexeme.firstSignificant? (lexemes : List Lexeme) : Option Kind :=
  (lexemes.find? fun l => !l.kind.isTrivia).map Lexeme.kind

/-- Question marks in front of a type, where a type may stand, belong to that type. -/
def Lexeme.resolveNullable (before : Option Kind) : List Lexeme → List Lexeme
  | [] => []
  | l :: rest =>
    let kind :=
      if l.kind = .ternary ∧ before.any Kind.precedesType
          ∧ (firstSignificant? rest).any Kind.beginsType then .nullable
      else l.kind
    { l with kind } :: resolveNullable (if kind.isTrivia then before else some kind) rest

end EntityLint
