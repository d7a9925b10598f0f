import EntityLint.Text.Basic

/-!
# Token kinds

The vocabulary of a token stream of PHP source: tags and plain text around the code, comments and
the parts of doc comments, attribute marks, names, literals, keywords, brackets and operators.

* `Kind` and the classes `isTrivia`, `isScopeOwner`, `isClassLike`, `isModifier`;
* `Kind.ofKeyword?`, the keyword table (letter case does not matter);
* `Kind.ofSymbol` and `operatorTable`, the one-character and the longer operators.
-/

namespace EntityLint

/-- The kind of a token. -/
inductive Kind
  /-- The mark `<?php` or `<?=`. -/
  | openTag
  /-- The mark `?>` with a line break directly after it. -/
  | closeTag
  /-- Text outside of the code marks. -/
  | plainText
  /-- Spaces, tabs and line breaks, ending with the first line feed. -/
  | blank
  /-- A comment that is not a doc comment. -/
  | comment
  /-- The opening of a doc comment. -/
  | docOpen
  /-- The end of a doc comment. -/
  | docClose
  /-- A star that begins a line of a doc comment. -/
  | docStar
  /-- Spaces or a line break in a doc comment. -/
  | docBlank
  /-- A tag of a doc comment, `@` and the text up to a blank or parenthesis. -/
  | docTag
  /-- Other text of a doc comment, to the end of its line. -/
  | docText
  /-- The opening `#[` of an attribute group. -/
  | attributeOpen
  /-- The `]` that closes an attribute group. -/
  | attributeClose
  /-- A dollar sign and a name. -/
  | variable
  /-- A name that is no keyword in its place. -/
  | word
  /-- A quoted string or heredoc. -/
  | quoted
  /-- A number. -/
  | number
  | kwClass | kwInterface | kwTrait | kwEnum | kwFunction | kwFn | kwReturn
  | kwPublic | kwProtected | kwPrivate | kwStatic | kwReadonly | kwVar | kwAbstract | kwFinal
  | kwNew | kwNull | kwTrue | kwFalse | kwSwitch | kwCase | kwDefault | kwBreak
  | kwExtends | kwImplements | kwUse | kwNamespace | kwConst | kwSelf | kwParent | kwArray
  | openRound | closeRound | openSquare | closeSquare | openCurly | closeCurly
  | semicolon | comma | colon | doubleColon | arrow | nullsafeArrow | doubleArrow | equals
  /-- A `?` that begins a type. -/
  | nullable
  /-- A `?` of a conditional expression. -/
  | ternary
  | backslash | pipe | ampersand | ellipsis | atSign
  /-- Any other operator or character. -/
  | operator
  deriving DecidableEq, Repr, Inhabited

namespace Kind

/-- Blanks, comments and all parts of doc comments, which searches for code step over. -/
def isTrivia : Kind → Bool
  | blank | comment | docOpen | docClose | docStar | docBlank | docTag | docText => true
  | _ => false

/-- Keywords that declare a class-like structure. -/
def isClassLike : Kind → Bool
  | kwClass | kwInterface | kwTrait | kwEnum => true
  | _ => false

/-- Keywords that own a scope in curly brackets. -/
def isScopeOwner : Kind → Bool
  | kwFunction => true
  | k => k.isClassLike

/-- Keywords that modify a property or method declaration. -/
def isModifier : Kind → Bool
  | kwPublic | kwProtected | kwPrivate => true
  | kwStatic | kwReadonly | kwVar | kwAbstract | kwFinal => true
  | _ => false

/-- The keywords, in small letters. -/
def keywordTable : List (Text × Kind) := [
  ("class".toList, kwClass), ("interface".toList, kwInterface), ("trait".toList, kwTrait),
  ("enum".toList, kwEnum), ("function".toList, kwFunction), ("fn".toList, kwFn),
  ("return".toList, kwReturn), ("public".toList, kwPublic), ("protected".toList, kwProtected),
  ("private".toList, kwPrivate), ("static".toList, kwStatic), ("readonly".toList, kwReadonly),
  ("var".toList, kwVar), ("abstract".toList, kwAbstract), ("final".toList, kwFinal),
  ("new".toList, kwNew), ("null".toList, kwNull), ("true".toList, kwTrue),
  ("false".toList, kwFalse), ("switch".toList, kwSwitch), ("case".toList, kwCase),
  ("default".toList, kwDefault), ("break".toList, kwBreak), ("extends".toList, kwExtends),
  ("implements".toList, kwImplements), ("use".toList, kwUse),
  ("namespace".toList, kwNamespace), ("const".toList, kwConst), ("self".toList, kwSelf),
  ("parent".toList, kwParent), ("array".toList, kwArray)]

/-- The keyword that a word spells, in any letter case. -/
def ofKeyword? (word : Text) : Option Kind := keywordTable.lookup (Text.asciiLower word)

/-- The operators of two or three characters; an earlier entry wins over a later one. -/
def operatorTable : List (Text × Kind) := [
  ("...".toList, ellipsis), ("?->".toList, nullsafeArrow),
  ("<=>".toList, operator), ("**=".toList, operator), ("===".toList, operator),
  ("!==".toList, operator), ("<<=".toList, operator), (">>=".toList, operator),
  ("??=".toList, operator), ("->".toList, arrow), ("=>".toList, doubleArrow),
  ("::".toList, doubleColon), ("==".toList, operator), ("!=".toList, operator),
  ("<>".toList, operator), ("<=".toList, operator), (">=".toList, operator),
  ("&&".toList, operator), ("||".toList, operator), ("??".toList, operator),
  ("++".toList, operator), ("--".toList, operator), ("+=".toList, operator),
  ("-=".toList, operator), ("*=".toList, operator), ("/=".toList, operator),
  (".=".toList, operator), ("%=".toList, operator), ("&=".toList, operator),
  ("|=".toList, operator), ("^=".toList, operator), ("**".toList, operator),
  ("<<".toList, operator), (">>".toList, operator)]

/-- The kind of a character that stands for itself. A question mark counts as part of a conditional
expression until its surroundings show a type. -/
def ofSymbol : Char → Kind
  | '(' => openRound
  | ')' => closeRound
  | '[' => openSquare
  | ']' => closeSquare
  | '\x7b' => openCurly
  | '\x7d' => closeCurly
  | ';' => semicolon
  | ',' => comma
  | ':' => colon
  | '=' => equals
  | '?' => ternary
  | '\\' => backslash
  | '|' => pipe
  | '&' => ampersand
  | '@' => atSign
  | _ => operator

end Kind

end EntityLint
