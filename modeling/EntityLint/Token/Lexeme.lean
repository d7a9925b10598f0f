import EntityLint.Token.Kind

/-!
# Lexemes and the rules that measure them

A lexeme is a kind with the text it covers. Each rule below looks at the text from its first
character on and says how many characters the lexeme takes.

* `blankLength`, `lineCommentLength`, `blockCommentLength?`, `quotedLength?`, `heredocLength?`,
  `numberLength`, `wordLength`, `symbolAt`, `closeTagLength`, `openTagLength?`: one rule per form;
* `docTagLength`, `docTextLength`: the rules inside a doc comment.

Rules count characters, so a cut never falls inside one.
-/

namespace EntityLint

/-- A kind and the text it covers. -/
structure Lexeme where
  kind : Kind
  text : Text
  deriving DecidableEq, Repr

namespace Lexeme

/-! ### Character classes -/

/-- Characters that begin a name: ASCII letters, the underscore and all that is not ASCII. -/
def isWordStart (c : Char) : Bool := c.isAlpha || c == '_' || 128 ≤ c.toNat

/-- Characters that continue a name. -/
def isWordChar (c : Char) : Bool := c.isAlphanum || c == '_' || 128 ≤ c.toNat

/-- The blanks that code tells apart from other characters. -/
def isCodeBlank (c : Char) : Bool := c == ' ' || c == '\t' || c == '\r' || c == '\n'

/-- The blanks that make `/**` the opening of a doc comment. -/
def isAsciiBlank (c : Char) : Bool := isCodeBlank c || c == '\x0C'

/-- Characters that end a line. -/
def isLineEnd (c : Char) : Bool := c == '\r' || c == '\n'

/-! ### Rules of code -/

/-- Blanks up to and including the first line feed. -/
def blankLength : Text → Nat
  | [] => 0
  | c :: t => if c = '\n' then 1 else if isCodeBlank c then 1 + blankLength t else 0

/-- A line comment ends before the end of its line and before a closing mark. -/
def lineCommentLength : Text → Nat
  | [] => 0
  | '?' :: '>' :: _ => 0
  | c :: t => if isLineEnd c then 0 else 1 + lineCommentLength t

/-- A block comment reaches to the first end mark after its two opening characters. -/
def blockCommentLength? (t : Text) : Option Nat :=
  (Text.breakOn "*/".toList (t.drop 2)).map fun (body, _) => body.length + 4

/-- The length of a name that begins here. -/
def wordLength (t : Text) : Nat := (t.takeWhile isWordChar).length

/-- The rest of a quoted string, through its closing quote. A backslash keeps the character after
it from closing the string. -/
def quotedTailLength? (quote : Char) : Text → Option Nat
  | [] => none
  | ['\\'] => none
  | '\\' :: _ :: t => (quotedTailLength? quote t).map (2 + ·)
  | c :: t => if c = quote then some 1 else (quotedTailLength? quote t).map (1 + ·)

/-- A quoted string from its opening quote on. -/
def quotedLength? : Text → Option Nat
  | [] => none
  | quote :: t => (quotedTailLength? quote t).map (1 + ·)

/-- The label of a heredoc: the name after `<<<`, spaces, tabs and quotes. -/
def heredocLabel? (t : Text) : Option Text := do
  let header ← Text.stripLeading? "<<<".toList t
  let header := (header.dropWhile Text.isSpaceOrTab).dropWhile fun c => c == '\'' || c == '"'
  match header with
  | [] => none
  | c :: _ => if isWordStart c then some (header.takeWhile isWordChar) else none

/-- The number of characters of a line through a closing label, if the line closes the heredoc: the
label stands after spaces and tabs and is not the beginning of a longer name. -/
def closingLabelLength? (label line : Text) : Option Nat :=
  let indent := line.takeWhile Text.isSpaceOrTab
  match Text.stripLeading? label (line.dropWhile Text.isSpaceOrTab) with
  | none => none
  | some after =>
    if after.head?.any isWordChar then none else some (indent.length + label.length)

/-- The number of characters of some lines through the first one that closes a heredoc. -/
def heredocBodyLength? (label : Text) : List Text → Option Nat
  | [] => none
  | line :: lines =>
    match closingLabelLength? label line with
    | some n => some n
    | none => (heredocBodyLength? label lines).map (line.length + 1 + ·)

/-- A heredoc from `<<<` through its closing label, given its label. -/
def heredocLength? (label t : Text) : Option Nat :=
  match Text.breakOn ['\n'] t with
  | none => none
  | some (head, body) =>
    (heredocBodyLength? label (Text.pieces '\n' body)).map (head.length + 1 + ·)

/-- The rest of a number after the character `last`: letters, digits, `_`, `.`, and outside of a
hexadecimal number a sign between an exponent letter and a digit. -/
def numberTailLength (hex : Bool) (last : Char) : Text → Nat
  | [] => 0
  | c :: t =>
    let exponentSign := (c == '+' || c == '-') && !hex && (last == 'e' || last == 'E')
      && t.head?.any Char.isDigit
    if c.isAlphanum || c == '_' || c == '.' || exponentSign then 1 + numberTailLength hex c t
    else 0

/-- A number from its first digit or point on. -/
def numberLength : Text → Nat
  | [] => 0
  | c :: t => 1 + numberTailLength (c == '0' && t.head?.any fun d => d == 'x' || d == 'X') c t

/-- The kind and length of the operator that begins a text, the first table entry that fits or
else a single character. -/
def symbolAt (c : Char) (t : Text) : Kind × Nat :=
  match Kind.operatorTable.find? fun (op, _) => Text.startsWith (c :: t) op with
  | some (op, kind) => (kind, op.length)
  | none => (Kind.ofSymbol c, 1)

/-- The closing mark takes a line break that directly follows it. -/
def closeTagLength (t : Text) : Nat :=
  let after := t.drop 2
  if Text.startsWith after ['\r', '\n'] then 4 else if Text.startsWith after ['\n'] then 3 else 2

/-! ### Rules of plain text -/

/-- The length of an opening mark that begins the text. -/
def openTagLength? (t : Text) : Option Nat :=
  if Text.startsWith t "<?=".toList then some 3
  else if Text.startsWith t "<?php".toList then some 5
  else none

/-- The number of characters before the first opening mark, or of all characters. -/
def plainTextLength : Text → Nat
  | [] => 0
  | c :: t => if (openTagLength? (c :: t)).isSome then 0 else 1 + plainTextLength t

/-! ### Rules of doc comments -/

/-- A tag from its `@` on reaches to the next blank or opening parenthesis. -/
def docTagLength : Text → Nat
  | [] => 0
  | _ :: t => 1 + (t.takeWhile fun c => !(Text.isBlank c || c == '(')).length

/-- Other text reaches to the end of its line, less spaces and tabs there. -/
def docTextLength (t : Text) : Nat :=
  (Text.dropEndWhile Text.isSpaceOrTab (t.takeWhile (!isLineEnd ·))).length

end Lexeme

end EntityLint
