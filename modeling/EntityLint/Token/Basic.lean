import EntityLint.Token.Lexer
import EntityLint.Token.Pairing

/-!
# Token streams

A token is a lexeme with its place in the text, the bracket pairs it belongs to and what surrounds
it. `tokenize` makes the token stream of a text.

* `Position`, `Position.after`: lines, columns and offsets;
* `Token`;
* `DocComment`, `DocComment.all`: the doc comments of a text, by token index;
* `tokenize`.
-/

namespace EntityLint

/-- A place in a text. Lines and columns count from one, columns in characters and offsets in UTF-8
bytes. -/
structure Position where
  line : Nat
  column : Nat
  offset : Nat
  deriving DecidableEq, Repr

namespace Position

/-- The place at the beginning of a text. -/
def start : Position := ⟨1, 1, 0⟩

/-- The place after one more character. -/
def next (p : Position) (c : Char) : Position :=
  if c = '\n' then ⟨p.line + 1, 1, p.offset + c.utf8Size⟩
  else ⟨p.line, p.column + 1, p.offset + c.utf8Size⟩

/-- The place after some more text. -/
def after (p : Position) (t : Text) : Position := t.foldl next p

/-- The places at which the texts of a list begin, one after the other. -/
def ofTexts (p : Position) : List Text → List Position
  | [] => []
  | t :: texts => p :: ofTexts (p.after t) texts

end Position

/-- A token of a stream, which refers to others by index. -/
structure Token where
  kind : Kind
  text : Text
  position : Position
  /-- The round pair of a bracket or of the function keyword that owns it. -/
  parens : Option Range
  /-- The curly pair of a bracket or of the keyword that owns it. -/
  scope : Option Range
  /-- The square pair of a bracket that does not belong to an attribute group. -/
  brackets : Option Range
  /-- The outermost attribute group that the token is part of. -/
  attrGroup : Option Range
  /-- The doc comment that the token opens or closes. -/
  comment : Option Range
  /-- The tags of the doc comment that the token opens. -/
  docTags : List Nat
  /-- The owners of the scopes around the token, the outermost first. -/
  conditions : List (Nat × Kind)
  /-- The number of round pairs around the token. -/
  parenDepth : Nat
  deriving DecidableEq, Repr

namespace Token

/-- The number of bytes of a token. -/
def length (t : Token) : Nat := Text.utf8Length t.text

end Token

/-! ### Doc comments by index -/

/-- A doc comment: its opening and closing token and the tags between them. -/
structure DocComment where
  range : Range
  tags : List Nat
  deriving DecidableEq, Repr

/-- The doc comments among some pieces, the first of which begins at token `i`. -/
def DocComment.all (i : Nat) : List Piece → List DocComment
  | [] => []
  | .single _ :: pieces => all (i + 1) pieces
  | .docComment body :: pieces =>
    let tags := (body.zipIdx (i + 1)).filterMap fun (l, j) =>
      if l.kind = .docTag then some j else none
    ⟨⟨i, i + 1 + body.length⟩, tags⟩ :: all (i + 2 + body.length) pieces

/-! ### Token streams -/

/-- The tokens of some lexemes whose brackets are paired. -/
def Token.ofLexemes (lexemes : List Lexeme) (docs : List DocComment) (pairs : Pairing.Pairs) :
    List Token :=
  let kinds := lexemes.map Lexeme.kind
  let kindArray := kinds.toArray
  let parenOwners := Pairing.parenOwnersFrom 0 none kinds
  let scopeOwners := Pairing.scopeOwnersFrom 0 none kinds
  let opensGroup (r : Range) : Bool := kindArray[r.opener]? == some .attributeOpen
  let (groups, brackets) := pairs.square.partition opensGroup
  let positions := (Position.start.ofTexts (lexemes.map Lexeme.text)).toArray
  let openers := (Pairing.openersFrom 0 [] kinds).toArray
  let depths := (Pairing.depthsFrom 0 kinds).toArray
  let attributes := (Pairing.attributesFrom groups 0 none kinds).toArray
  lexemes.mapIdx fun i l =>
    let doc := docs.find? fun d => d.range.opener == i || d.range.closer == i
    { kind := if groups.any fun r => r.closer == i then .attributeClose else l.kind
      text := l.text
      position := positions.getD i Position.start
      parens := Pairing.rangeAt pairs.round parenOwners i
      scope := Pairing.rangeAt pairs.curly scopeOwners i
      brackets := Pairing.rangeAt brackets [] i
      attrGroup := attributes.getD i none
      comment := doc.map DocComment.range
      docTags := (doc.filter fun d => d.range.opener == i).elim [] DocComment.tags
      conditions := Pairing.conditionsOf kindArray scopeOwners (openers.getD i [])
      parenDepth := depths.getD i 0 }

/-- The error for a bracket without a partner. -/
def LexError.ofBracket (lexemes : List Lexeme) (i : Nat) : LexError :=
  let line := Position.start.after ((lexemes.take i).flatMap Lexeme.text) |>.line
  .unbalancedBracket line ((lexemes[i]?.bind (·.text.head?)).getD ' ')

/-- The token stream of a text. -/
def tokenize (source : Text) : Except LexError (List Token) := do
  let pieces ← Piece.cutAll Context.start source
  let lexemes := Lexeme.resolveNullable none (pieces.flatMap Piece.lexemes)
  match Pairing.pairAll (lexemes.map Lexeme.kind) with
  | .error i => .error (.ofBracket lexemes i)
  | .ok pairs => return Token.ofLexemes lexemes (DocComment.all 0 pieces) pairs

end EntityLint
