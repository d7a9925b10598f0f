import EntityLint.Proofs.Bounds.Access
import EntityLint.Proofs.Token.Brackets
import EntityLint.Proofs.Token.Rules

/-!
# Lexemes measured in bytes

The rules that measure lexemes once more, in bytes: each walks over the bytes of a text, or cuts the
text at byte offsets that a search has found.

* `Lexeme.blankLength_pos` and its like: no rule in characters finds an empty lexeme;
* `Bytewise.wordLength`, `lineCommentLength`, `quotedLength?`, `heredocLabel?`, `heredocLength?`,
  `numberLength`, `docTagLength`, `docTextLength`: one rule per form;
* the lemmas `..._eq`: no index is out of range, no cut is inside a character, and the number of
  bytes is that of the characters that the rule in characters takes.
-/

namespace EntityLint

open Lexeme Text

/-! ### No lexeme is empty -/

namespace Lexeme

theorem blankLength_pos {c : Char} (hc : isCodeBlank c = true) (t : Text) :
    0 < blankLength (c :: t) := by
  rw [blankLength, if_pos hc]
  split_ifs <;> omega

/-- A line comment has at least its first mark, which does not end a line and is no closing mark. -/
theorem lineCommentLength_pos {c : Char} (hc : c = '#' ∨ c = '/') (t : Text) :
    0 < lineCommentLength (c :: t) := by
  rcases hc with rfl | rfl <;> simp [lineCommentLength, isLineEnd]

theorem pos_of_blockCommentLength? {t : Text} {n : Nat} (h : n ∈ blockCommentLength? t) : 0 < n := by
  obtain ⟨parts, -, rfl⟩ := Option.map_eq_some_iff.1 h
  exact Nat.succ_pos _

theorem pos_of_quotedLength? {c : Char} {t : Text} {n : Nat} (h : n ∈ quotedLength? (c :: t)) :
    0 < n := by
  obtain ⟨m, -, rfl⟩ := Option.map_eq_some_iff.1 h
  omega

theorem pos_of_heredocLength? {label t : Text} {n : Nat} (h : n ∈ heredocLength? label t) : 0 < n := by
  rw [heredocLength?] at h
  split at h
  · cases h
  · obtain ⟨m, -, rfl⟩ := Option.map_eq_some_iff.1 h
    omega

theorem numberLength_pos (c : Char) (t : Text) : 0 < numberLength (c :: t) :=
  Nat.add_pos_left Nat.one_pos _

theorem wordLength_pos {c : Char} (hc : isWordStart c = true) (t : Text) :
    0 < wordLength (c :: t) := by
  rw [wordLength_cons (isWordChar_of_isWordStart hc)]
  exact Nat.succ_pos _

theorem symbolAt_pos (c : Char) (t : Text) : 0 < (symbolAt c t).2 := by
  obtain ⟨u, -, -, hlength, -⟩ := symbolAt_spec c t
  rw [hlength]
  exact Nat.succ_pos _

theorem closeTagLength_pos (t : Text) : 0 < closeTagLength t := by
  rw [closeTagLength]
  split_ifs <;> decide

theorem plainTextLength_pos {c : Char} {t : Text} (h : openTagLength? (c :: t) = none) :
    0 < plainTextLength (c :: t) := by
  rw [plainTextLength, h]
  exact Nat.add_pos_left Nat.one_pos _

end Lexeme

namespace Bytewise

/-- The number of bytes of the first characters of a text. -/
def size (t : Text) (n : Nat) : Nat := utf8Length (t.take n)

/-! ### Names and comments -/

/-- The length of a name that begins here. -/
def wordLength (t : Text) : Nat := (offsetWhere? (!isWordChar ·) t).getD t.utf8Length

/-- A line comment ends before the end of its line and before a closing mark. -/
def lineCommentLength (t : Text) : Nat :=
  min ((offsetWhere? isLineEnd t).getD t.utf8Length) ((offsetOf? "?>".toList t).getD t.utf8Length)

/-! ### Quoted strings -/

/-- The end of a quoted string whose bytes are looked at from an index on. -/
def quotedEnd? (bytes : List Char) (quote : Char) (i : Nat) : Checked (Option Nat) :=
  if i < bytes.length then do
    let b ← Checked.item bytes i
    if b = '\\' then quotedEnd? bytes quote (i + 2)
    else if b = quote then return some (i + 1)
    else quotedEnd? bytes quote (i + 1)
  else return none
termination_by bytes.length - i

/-- A quoted string from its opening quote on. -/
def quotedLength? (quote : Char) (t : Text) : Checked (Option Nat) := quotedEnd? t.bytes quote 1

/-! ### Heredocs -/

/-- The label of a heredoc: the name after `<<<`, spaces, tabs and quotes. -/
def heredocLabel? (t : Text) : Checked (Option Text) := do
  let header ← cutFrom t 3
  let header := (header.dropWhile isSpaceOrTab).dropWhile fun c => c == '\'' || c == '"'
  let n := wordLength header
  if 0 < n && header.head?.any isWordStart then return some (← cutTo header n) else return none

/-- Whether a text begins with a label that is not the beginning of a longer name. -/
def beginsWithLabel (label t : Text) : Checked Bool :=
  if startsWith t label then do
    let after ← cutFrom t label.utf8Length
    return !after.head?.any isWordChar
  else return false

/-- The end of a heredoc whose lines are looked at from a byte offset on. -/
def heredocEnd? (label t : Text) (lineStart : Nat) : Checked (Option Nat) :=
  if lineStart < t.utf8Length then do
    let rest ← cutFrom t lineStart
    let lineEnd := ((offsetWhere? (· == '\n') rest).map (lineStart + ·)).getD t.utf8Length
    let line ← cut t lineStart lineEnd
    let indent ← Checked.minus line.utf8Length (utf8Length (line.dropWhile isSpaceOrTab))
    let candidate ← cutFrom line indent
    if ← beginsWithLabel label candidate then
      return some (lineStart + indent + label.utf8Length)
    else if lineStart < lineEnd + 1 then heredocEnd? label t (lineEnd + 1)
    else throw .stuck
  else return none
termination_by t.utf8Length - lineStart

/-- A heredoc from `<<<` through its closing label. -/
def heredocLength? (t : Text) : Checked (Option Nat) := do
  match ← heredocLabel? t with
  | none => return none
  | some label =>
    match offsetWhere? (· == '\n') t with
    | none => return none
    | some i => heredocEnd? label t (i + 1)

/-! ### Numbers -/

/-- Whether the byte at an index is the sign of an exponent. -/
def isExponentSign (bytes : List Char) (hex : Bool) (b : Char) (i : Nat) : Checked Bool :=
  if (b == '+' || b == '-') && !hex && 0 < i then do
    let before ← Checked.item bytes (← Checked.minus i 1)
    return (before == 'e' || before == 'E') && bytes[i + 1]?.any Char.isDigit
  else return false

/-- The end of a number whose bytes are looked at from an index on. -/
def numberEnd (bytes : List Char) (hex : Bool) (i : Nat) : Checked Nat :=
  if i < bytes.length then do
    let b ← Checked.item bytes i
    let sign ← isExponentSign bytes hex b i
    if b.isAlphanum || b == '_' || b == '.' || sign then numberEnd bytes hex (i + 1)
    else return i
  else return i
termination_by bytes.length - i

/-- A number from its first digit or point on. -/
def numberLength (t : Text) : Checked Nat :=
  numberEnd t.bytes (startsWith t "0x".toList || startsWith t "0X".toList) 0

/-! ### Comments and marks -/

/-- A block comment reaches to the first end mark after its two opening characters. -/
def blockCommentLength? (t : Text) : Checked (Option Nat) := do
  let after ← cutFrom t 2
  return (offsetOf? "*/".toList after).map (· + 4)

/-- The closing mark takes a line break that directly follows it. -/
def closeTagLength (t : Text) : Checked Nat := do
  let after ← cutFrom t 2
  return 2 + (if startsWith after ['\r', '\n'] then 2 else if startsWith after ['\n'] then 1 else 0)

/-- The kind and length of the operator that begins a text, or of its first character. -/
def symbolAt (c : Char) (t : Text) : Kind × Nat :=
  match Kind.operatorTable.find? fun (op, _) => startsWith (c :: t) op with
  | some (op, kind) => (kind, utf8Length op)
  | none => (Kind.ofSymbol c, c.utf8Size)

/-- The offset of the first opening mark. -/
def openTagOffset? (t : Text) : Option Nat :=
  match offsetOf? "<?php".toList t, offsetOf? "<?=".toList t with
  | some i, some j => some (min i j)
  | some i, none => some i
  | none, j => j

/-! ### Doc comments -/

/-- Spaces and tabs, or a single carriage return. -/
def docBlankLength (t : Text) : Nat :=
  max ((offsetWhere? (fun c => c != ' ' && c != '\t') t).getD t.utf8Length) 1

/-- A tag from its `@` on reaches to the next blank or opening parenthesis. -/
def docTagLength : Text → Nat
  | [] => 0
  | c :: t => c.utf8Size + (offsetWhere? (fun c => isBlank c || c == '(') t).getD (utf8Length t)

/-- Other text reaches to the end of its line, less spaces and tabs there. -/
def docTextLength (t : Text) : Checked Nat := do
  let line ← cutTo t ((offsetWhere? isLineEnd t).getD t.utf8Length)
  return utf8Length (dropEndWhile isSpaceOrTab line)

/-! ### Names and comments in characters -/

theorem size_append (u t : Text) : size (u ++ t) u.length = u.utf8Length := by
  rw [size, List.take_left]

theorem size_cons (c : Char) (t : Text) (n : Nat) : size (c :: t) (n + 1) = c.utf8Size + size t n :=
  rfl

theorem size_of_leading {u t : Text} (h : u <+: t) : size t u.length = u.utf8Length := by
  rw [size, ← List.prefix_iff_eq_take.1 h]

theorem size_takeWhile (p : Char → Bool) (t : Text) :
    size t (t.takeWhile p).length = utf8Length (t.takeWhile p) :=
  size_of_leading (List.takeWhile_prefix p)

theorem offsetWhere?_not_getD (p : Char → Bool) (t : Text) :
    (offsetWhere? (!p ·) t).getD t.utf8Length = size t (t.takeWhile p).length := by
  rw [offsetWhere?_getD, size_takeWhile]
  simp only [Bool.not_not]

theorem wordLength_eq (t : Text) : wordLength t = size t (Lexeme.wordLength t) :=
  offsetWhere?_not_getD isWordChar t

theorem size_blankLength (t : Text) : size t (blankLength t) = blankLength t := by
  obtain ⟨u, rest, rfl, hlen, hblank, -⟩ := blankLength_spec t
  rw [hlen, size_append]
  clear hlen
  induction u with
  | nil => rfl
  | cons c u ih =>
    obtain ⟨hc, hu⟩ := List.forall_mem_cons.1 hblank
    have hsize : c.utf8Size = 1 := by
      rcases (by simpa [isCodeBlank, or_assoc] using hc : c = ' ' ∨ c = '\t' ∨ c = '\r' ∨ c = '\n')
        with rfl | rfl | rfl | rfl <;> rfl
    rw [utf8Length_cons, hsize, ih hu, List.length_cons, Nat.add_comm]

theorem lineCommentLength_eq (t : Text) :
    lineCommentLength t = size t (Lexeme.lineCommentLength t) := by
  rw [lineCommentLength, offsetWhere?_getD]
  fun_induction Lexeme.lineCommentLength t with
  | case1 => rfl
  | case2 t => exact Nat.min_zero _
  | case3 c t hmark hc =>
    rw [List.takeWhile_cons_of_neg (by simp [hc])]
    exact Nat.zero_min _
  | case4 c t hmark hc ih =>
    have hnone : stripLeading? "?>".toList (c :: t) = none := by
      cases hs : stripLeading? "?>".toList (c :: t) with
      | none => rfl
      | some rest =>
        have := append_of_stripLeading? hs
        cases this
        exact (hmark rest rfl rfl).elim
    have hoffset : (offsetOf? "?>".toList (c :: t)).getD (utf8Length (c :: t)) =
        c.utf8Size + (offsetOf? "?>".toList t).getD (utf8Length t) := by
      rw [offsetOf?, breakOn, hnone, offsetOf?]
      cases breakOn "?>".toList t with
      | none => rfl
      | some parts => rfl
    rw [List.takeWhile_cons_of_pos (by simp [hc]), hoffset, utf8Length_cons, Nat.add_min_add_left,
      ih, Nat.add_comm 1, size_cons]

/-! ### Walks over bytes -/

section Walk

variable {α : Type} {g : ℕ → α} {bytes rest : List Char} {i : ℕ}

/-- What a walk comes to from an index does not depend on bytes that are no ASCII characters. -/
def PassesOver (g : ℕ → α) (bytes : List Char) : Prop :=
  ∀ i b, bytes[i]? = some b → 128 ≤ b.toNat → g i = g (i + 1)

theorem PassesOver.append (hg : PassesOver g bytes) {more : List Char}
    (hmore : ∀ b ∈ more, 128 ≤ b.toNat) (h : bytes.drop i = more ++ rest) :
    g i = g (i + more.length) := by
  induction more generalizing i with
  | nil => rfl
  | cons b more ih =>
    obtain ⟨hb, hmore⟩ := List.forall_mem_cons.1 hmore
    obtain ⟨hitem, hrest⟩ := Pairing.of_drop_eq_cons h
    rw [hg i b hitem hb, ih hmore hrest, List.length_cons, Nat.add_right_comm, Nat.add_assoc]

/-- After the first byte of a character its other bytes are passed over. -/
theorem PassesOver.succ (hg : PassesOver g bytes) {c : Char}
    (h : bytes.drop i = bytesOf c ++ rest) : g (i + 1) = g (i + c.utf8Size) := by
  rcases bytesOf_cases c with ⟨hc, -⟩ | ⟨-, b, more, hbytes, -, hmore⟩
  · rw [utf8Size_of_lt hc]
  · have hsize : c.utf8Size = more.length + 1 := by rw [← length_bytesOf, hbytes, List.length_cons]
    rw [hbytes] at h
    rw [hg.append hmore (Pairing.of_drop_eq_cons h).2, hsize, Nat.add_assoc, Nat.add_comm 1]

theorem drop_bytesOf {c : Char} (h : bytes.drop i = bytesOf c ++ rest) :
    bytes.drop (i + c.utf8Size) = rest := by
  rw [← length_bytesOf, ← List.drop_drop, h, List.drop_left]

end Walk

/-! ### Strings in characters -/

section Quoted

variable {bytes rest : List Char} {quote : Char} {i : ℕ}

theorem quotedEnd?_cons {b : Char} (h : bytes.drop i = b :: rest) : quotedEnd? bytes quote i =
    if b = '\\' then quotedEnd? bytes quote (i + 2)
    else if b = quote then .ok (some (i + 1)) else quotedEnd? bytes quote (i + 1) := by
  have hb := (Pairing.of_drop_eq_cons h).1
  rw [quotedEnd?, if_pos (List.getElem?_eq_some_iff.1 hb).1, Checked.item_eq hb]
  rfl

theorem quotedEnd?_of_drop_nil (h : bytes.drop i = []) : quotedEnd? bytes quote i = .ok none := by
  rw [quotedEnd?, if_neg (Nat.not_lt_of_le (List.drop_eq_nil_iff.1 h))]
  rfl

theorem passesOver_quotedEnd? (hquote : quote.toNat < 128) :
    PassesOver (quotedEnd? bytes quote) bytes := by
  intro i b hitem hb
  rw [quotedEnd?, if_pos (List.getElem?_eq_some_iff.1 hitem).1, Checked.item_eq hitem,
    Checked.ok_bind, if_neg (ne_ascii hb (by decide)), if_neg (ne_ascii hb hquote)]

/-- A character is no backslash if no escape begins with it. -/
theorem ne_backslash {c : Char} {t : Text} (hlast : c = '\\' → t = [] → False)
    (hescape : ∀ d u, c = '\\' → t = d :: u → False) : c ≠ '\\' := by
  intro hc
  cases t with
  | nil => exact hlast hc rfl
  | cons d u => exact hescape d u hc rfl

/-- **A quoted string in bytes.** An escape takes the byte after it. If that is the first one of a
longer character, the others are passed over. -/
theorem quotedEnd?_eq (hquote : quote.toNat < 128) {t : Text} (h : bytes.drop i = Text.bytes t) :
    quotedEnd? bytes quote i = .ok ((quotedTailLength? quote t).map fun n => i + size t n) := by
  fun_induction quotedTailLength? quote t generalizing i with
  | case1 => exact quotedEnd?_of_drop_nil h
  | case2 =>
    rw [bytes_cons, bytesOf_of_lt (by decide)] at h
    rw [quotedEnd?_cons h, if_pos rfl]
    exact quotedEnd?_of_drop_nil (by rw [← List.drop_drop, h]; rfl)
  | case3 c t ih =>
    -- the walk lands on the second byte of `c`, the rule in characters behind all of it
    rw [bytes_cons, bytesOf_of_lt (by decide)] at h
    have hrest : bytes.drop (i + 1) = bytesOf c ++ Text.bytes t := (Pairing.of_drop_eq_cons h).2
    rw [quotedEnd?_cons h, if_pos rfl, (passesOver_quotedEnd? hquote).succ hrest,
      ih (drop_bytesOf hrest), Option.map_map]
    refine congrArg Except.ok (Option.map_congr fun n _ => ?_)
    have hslash : ('\\' : Char).utf8Size = 1 := rfl
    rw [Function.comp_apply, Nat.add_comm 2 n, size_cons, size_cons, hslash]
    omega
  | case4 t hlast hescape =>
    have hne : quote ≠ '\\' := ne_backslash hlast hescape
    rw [bytes_cons, bytesOf_of_lt hquote] at h
    rw [quotedEnd?_cons h, if_neg hne, if_pos rfl, Option.map_some, size_cons,
      utf8Size_of_lt hquote]
    rfl
  | case5 c t hlast hescape hc ih =>
    have hne : c ≠ '\\' := ne_backslash hlast hescape
    have hrest : bytes.drop (i + c.utf8Size) = Text.bytes t := drop_bytesOf h
    have hstep : quotedEnd? bytes quote i = quotedEnd? bytes quote (i + 1) := by
      rw [bytes_cons] at h
      rcases bytesOf_cases c with ⟨-, hbytes⟩ | ⟨-, b, more, hbytes, hb, -⟩
      · rw [hbytes] at h
        rw [quotedEnd?_cons h, if_neg hne, if_neg hc]
      · rw [hbytes] at h
        exact passesOver_quotedEnd? hquote i b (Pairing.of_drop_eq_cons h).1 hb
    rw [hstep, (passesOver_quotedEnd? hquote).succ h, ih hrest, Option.map_map]
    refine congrArg Except.ok (Option.map_congr fun n _ => ?_)
    rw [Function.comp_apply, Nat.add_comm 1 n, size_cons, Nat.add_assoc]

theorem quotedLength?_eq (hquote : quote.toNat < 128) (t : Text) :
    quotedLength? quote (quote :: t) =
      .ok ((Lexeme.quotedLength? (quote :: t)).map (size (quote :: t))) := by
  have hdrop : List.drop 1 (Text.bytes (quote :: t)) = Text.bytes t := by
    rw [bytes_cons, bytesOf_of_lt hquote]
    rfl
  rw [quotedLength?, quotedEnd?_eq hquote hdrop, Lexeme.quotedLength?, Option.map_map]
  refine congrArg Except.ok (Option.map_congr fun n _ => ?_)
  rw [Function.comp_apply, Nat.add_comm 1 n, size_cons, utf8Size_of_lt hquote, Nat.add_comm]

end Quoted

/-! ### Heredocs in characters -/

theorem heredocLabel?_eq (header : Text) : heredocLabel? ("<<<".toList ++ header) =
    .ok (Lexeme.heredocLabel? ("<<<".toList ++ header)) := by
  have hcut : cutFrom ("<<<".toList ++ header) 3 = .ok header := cutFrom_eq rfl rfl
  rw [heredocLabel?, hcut, Lexeme.heredocLabel?, stripLeading?_append]
  simp only [Checked.ok_bind, Option.bind_eq_bind, Option.bind_some]
  generalize (header.dropWhile isSpaceOrTab).dropWhile (fun c => c == '\'' || c == '"') = name
  have hcut : cutTo name (wordLength name) = .ok (name.takeWhile isWordChar) :=
    cutTo_eq List.takeWhile_append_dropWhile.symm
      ((wordLength_eq name).trans (size_takeWhile isWordChar name))
  rw [hcut]
  cases name with
  | nil => rfl
  | cons c rest =>
    cases hc : isWordStart c with
    | false => simp [hc]
    | true =>
      have hpos : 0 < wordLength (c :: rest) := by
        rw [wordLength_eq, Lexeme.wordLength,
          List.takeWhile_cons_of_pos (isWordChar_of_isWordStart hc), List.length_cons, size_cons]
        exact Nat.add_pos_left c.utf8Size_pos _
      simp [hc, hpos]

section Heredoc

variable {label : Text}

theorem beginsWithLabel_eq (label line : Text) :
    beginsWithLabel label (line.dropWhile isSpaceOrTab) =
      .ok (closingLabelLength? label line).isSome := by
  rw [beginsWithLabel, closingLabelLength?, startsWith]
  cases hstrip : stripLeading? label (line.dropWhile isSpaceOrTab) with
  | none => rfl
  | some after =>
    rw [Option.isSome_some, if_pos rfl, cutFrom_eq (append_of_stripLeading? hstrip).symm rfl,
      Checked.ok_bind]
    dsimp only
    cases after.head?.any isWordChar <;> rfl

theorem size_closingLabel {line : Text} {n : ℕ} (h : closingLabelLength? label line = some n) :
    size line n = utf8Length (line.takeWhile isSpaceOrTab) + utf8Length label := by
  unfold closingLabelLength? at h
  dsimp only at h
  split at h
  · cases h
  · next after hstrip =>
    split at h
    · cases h
    · cases h
      have hline : line = (line.takeWhile isSpaceOrTab ++ label) ++ after := by
        rw [List.append_assoc, append_of_stripLeading? hstrip, List.takeWhile_append_dropWhile]
      have hsize := size_append (line.takeWhile isSpaceOrTab ++ label) after
      rwa [← hline, List.length_append, utf8Length_append] at hsize

/-- What one line of a heredoc adds: the label, if it closes there, or the line itself. -/
theorem heredocEnd?_line {t a : Text} (line rest : Text) (ht : t = a ++ (line ++ rest))
    (hne : line ++ rest ≠ [])
    (hline : ((offsetWhere? (· == '\n') (line ++ rest)).map (a.utf8Length + ·)).getD t.utf8Length =
      a.utf8Length + line.utf8Length) :
    heredocEnd? label t a.utf8Length = match closingLabelLength? label line with
      | some n => .ok (some (a.utf8Length + size line n))
      | none => heredocEnd? label t (a.utf8Length + line.utf8Length + 1) := by
  have hlt : a.utf8Length < t.utf8Length := by
    have := utf8Length_pos hne
    rw [ht, utf8Length_append]
    omega
  have hparts : line.takeWhile isSpaceOrTab ++ line.dropWhile isSpaceOrTab = line :=
    List.takeWhile_append_dropWhile
  have hsize : line.utf8Length =
      utf8Length (line.dropWhile isSpaceOrTab) + utf8Length (line.takeWhile isSpaceOrTab) := by
    conv_lhs => rw [← hparts]
    rw [utf8Length_append, Nat.add_comm]
  have hindent : Checked.minus line.utf8Length (utf8Length (line.dropWhile isSpaceOrTab)) =
      .ok (utf8Length (line.takeWhile isSpaceOrTab)) := by rw [hsize, Checked.minus_add]
  rw [heredocEnd?, if_pos hlt, cutFrom_eq ht rfl]
  simp only [Checked.ok_bind, hline]
  rw [cut_eq ht rfl rfl]
  simp only [Checked.ok_bind, hindent]
  rw [cutFrom_eq hparts.symm rfl, Checked.ok_bind, beginsWithLabel_eq, Checked.ok_bind]
  cases hclose : closingLabelLength? label line with
  | some n =>
    dsimp only
    rw [Option.isSome_some, if_pos rfl, size_closingLabel hclose, ← Nat.add_assoc]
    rfl
  | none =>
    dsimp only [Option.isSome_none]
    rw [if_neg Bool.false_ne_true, if_pos (by omega)]

theorem closingLabelLength?_nil (hlabel : label ≠ []) : closingLabelLength? label [] = none := by
  obtain ⟨c, label, rfl⟩ := List.exists_cons_of_ne_nil hlabel
  rfl

theorem length_le_of_closingLabelLength? {line : Text} {n : ℕ}
    (h : closingLabelLength? label line = some n) : n ≤ line.length := by
  obtain ⟨indent, after, rfl, rfl, -⟩ := exists_of_closingLabelLength? h
  simp only [List.length_append]
  omega

theorem size_of_le {u : Text} {n : ℕ} (h : n ≤ u.length) (t : Text) : size (u ++ t) n = size u n := by
  rw [size, size, List.take_append_of_le_length h]

theorem offsetWhere?_of_not_mem {c : Char} {u : Text} (hu : c ∉ u) :
    offsetWhere? (· == c) u = none := by
  rw [offsetWhere?, if_neg]
  simpa using hu

theorem offsetWhere?_of_mem {c : Char} {u : Text} (hu : c ∉ u) (t : Text) :
    offsetWhere? (· == c) (u ++ c :: t) = some u.utf8Length := by
  rw [offsetWhere?, if_pos (by simp), takeWhile_append_cons (by simp), List.takeWhile_eq_self_iff.2]
  intro d hd
  simpa using ne_of_mem_of_not_mem hd hu

theorem size_line (line more : Text) (n : ℕ) :
    size (line ++ '\n' :: more) (line.length + 1 + n) = line.utf8Length + 1 + size more n := by
  rw [size, Nat.add_assoc, List.take_length_add_append, Nat.add_comm 1 n, List.take_succ_cons,
    utf8Length_append, utf8Length_cons, Nat.add_assoc]
  rfl

/-- **The lines of a heredoc in bytes.** -/
theorem heredocEnd?_eq (hlabel : label ≠ []) {t a body : Text} (ht : t = a ++ body) :
    heredocEnd? label t a.utf8Length = .ok
      ((heredocBodyLength? label (pieces '\n' body)).map fun n => a.utf8Length + size body n) := by
  have hend : ∀ {i}, t.utf8Length ≤ i → heredocEnd? label t i = .ok none := by
    intro i hi
    rw [heredocEnd?, if_neg (Nat.not_lt_of_le hi)]
    rfl
  -- each turn takes a line and its line feed, so that the induction is on the lines
  induction hlines : pieces '\n' body generalizing a body with
  | nil =>
    rcases pieces_cases '\n' body with ⟨-, hpieces⟩ | ⟨u, more, -, -, hpieces⟩ <;>
      rw [hlines] at hpieces <;> cases hpieces
  | cons line lines ih =>
    rcases pieces_cases '\n' body with ⟨hnone, hpieces⟩ | ⟨u, more, hu, rfl, hpieces⟩
    · rw [hlines] at hpieces
      cases hpieces
      cases hline : line with
      | nil =>
        subst hline
        rw [hend (by rw [ht, List.append_nil]), heredocBodyLength?, closingLabelLength?_nil hlabel]
        rfl
      | cons c u =>
        rw [← hline]
        have htotal : t.utf8Length = a.utf8Length + line.utf8Length := by rw [ht, utf8Length_append]
        rw [heredocEnd?_line line [] (by rw [List.append_nil, ht])
          (by simp [hline])
          (by rw [List.append_nil, offsetWhere?_of_not_mem hnone, Option.map_none, Option.getD_none,
            htotal]), heredocBodyLength?]
        cases closingLabelLength? label line with
        | some n => rfl
        | none => exact hend (by omega)
    · rw [hlines] at hpieces
      cases hpieces
      rw [heredocEnd?_line _ _ ht (by simp) (by rw [offsetWhere?_of_mem hu]; rfl), heredocBodyLength?]
      cases hclose : closingLabelLength? label line with
      | some n =>
        dsimp only
        rw [Option.map_some, size_of_le (length_le_of_closingLabelLength? hclose)]
      | none =>
        have ht' : t = (a ++ line ++ ['\n']) ++ more := by rw [ht]; simp
        have hfeed : utf8Length ['\n'] = 1 := rfl
        have hih := ih ht' rfl
        rw [utf8Length_append, utf8Length_append, hfeed] at hih
        dsimp only
        rw [hih, Option.map_map]
        refine congrArg Except.ok (Option.map_congr fun n _ => ?_)
        rw [Function.comp_apply, size_line]
        omega

theorem heredocLength?_eq (header : Text) : heredocLength? ("<<<".toList ++ header) =
    .ok ((Lexeme.heredocLabel? ("<<<".toList ++ header)).bind fun label =>
      (Lexeme.heredocLength? label ("<<<".toList ++ header)).map (size ("<<<".toList ++ header))) := by
  rw [heredocLength?, heredocLabel?_eq, Checked.ok_bind]
  cases hlabel : Lexeme.heredocLabel? ("<<<".toList ++ header) with
  | none => rfl
  | some label =>
    have hne : label ≠ [] := by
      rintro rfl
      cases (isName_of_heredocLabel? hlabel).1
    dsimp only [Option.bind_some]
    rw [Lexeme.heredocLength?]
    generalize "<<<".toList ++ header = t
    rcases breakOn_singleton_cases '\n' t with ⟨hnone, hbreak⟩ | ⟨head, body, hhead, rfl, hbreak⟩
    · rw [offsetWhere?_of_not_mem hnone, hbreak]
      rfl
    · have hstart : utf8Length (head ++ ['\n']) = utf8Length head + 1 := utf8Length_append _ _
      rw [offsetWhere?_of_mem hhead, hbreak]
      dsimp only
      have ht : head ++ '\n' :: body = (head ++ ['\n']) ++ body := by simp
      rw [← hstart, heredocEnd?_eq hne ht, hstart, Option.map_map]
      refine congrArg Except.ok (Option.map_congr fun n _ => ?_)
      rw [Function.comp_apply, size_line]

end Heredoc

/-! ### Numbers in characters -/

section Number

variable {bytes : List Char} {hex : Bool} {last : Char} {i : ℕ}

theorem isAlphanum_of_le {c : Char} (h : 128 ≤ c.toNat) : c.isAlphanum = false := by
  have hval : c.val.toNat = c.toNat := rfl
  have hupper : ('Z' : Char).val.toNat = 90 := rfl
  have hlower : ('z' : Char).val.toNat = 122 := rfl
  have hdigit : ('9' : Char).val.toNat = 57 := rfl
  refine Bool.eq_false_iff.2 fun halnum => ?_
  simp only [Char.isAlphanum, Char.isAlpha, Char.isUpper, Char.isLower, Char.isDigit,
    Bool.or_eq_true, Bool.and_eq_true, decide_eq_true_eq, UInt32.le_iff_toNat_le] at halnum
  omega

/-- A number goes on with ASCII characters only. -/
theorem continuesNumber_of_le {c : Char} (h : 128 ≤ c.toNat) (t : Text) :
    continuesNumber hex last c t = false := by
  rw [continuesNumber, isAlphanum_of_le h, beq_false_of_ne (ne_ascii h (by decide)),
    beq_false_of_ne (ne_ascii h (by decide)), beq_false_of_ne (ne_ascii h (by decide)),
    beq_false_of_ne (ne_ascii h (by decide))]
  rfl

theorem size_numberTailLength (hex : Bool) (last : Char) (t : Text) :
    size t (numberTailLength hex last t) = numberTailLength hex last t := by
  induction t generalizing last with
  | nil => rfl
  | cons c t ih =>
    rw [numberTailLength_cons]
    split
    · next hc =>
      have hlt : c.toNat < 128 := by
        by_contra hle
        rw [continuesNumber_of_le (Nat.le_of_not_lt hle)] at hc
        cases hc
      rw [Nat.add_comm 1, size_cons, utf8Size_of_lt hlt, ih, Nat.add_comm]
    · rfl

theorem isDigit_head?_bytes (t : Text) :
    (Text.bytes t).head?.any Char.isDigit = t.head?.any Char.isDigit := by
  cases t with
  | nil => rfl
  | cons c t =>
    rw [bytes_cons]
    rcases bytesOf_cases c with ⟨-, hbytes⟩ | ⟨hc, b, more, hbytes, hb, -⟩
    · rw [hbytes]
      rfl
    · have hdigit : ∀ {d : Char}, 128 ≤ d.toNat → d.isDigit = false := by
        intro d hd
        have := isAlphanum_of_le hd
        rw [Char.isAlphanum, Bool.or_eq_false_iff] at this
        exact this.2
      rw [hbytes]
      simp [hdigit hc, hdigit hb]

theorem numberEnd_of_drop {b : Char} {rest : List Char} {sign : Bool}
    (h : bytes.drop i = b :: rest) (hsign : isExponentSign bytes hex b i = .ok sign) :
    numberEnd bytes hex i = if b.isAlphanum || b == '_' || b == '.' || sign then
      numberEnd bytes hex (i + 1) else .ok i := by
  have hb := (Pairing.of_drop_eq_cons h).1
  rw [numberEnd, if_pos (List.getElem?_eq_some_iff.1 hb).1, Checked.item_eq hb, Checked.ok_bind,
    hsign]
  rfl

theorem isExponentSign_eq {c : Char} {t : Text} (hi : 0 < i) (hlast : bytes[i - 1]? = some last)
    (h : bytes.drop i = c :: Text.bytes t) : isExponentSign bytes hex c i =
      .ok ((c == '+' || c == '-') && !hex && (last == 'e' || last == 'E')
        && t.head?.any Char.isDigit) := by
  have hnext : bytes[i + 1]?.any Char.isDigit = t.head?.any Char.isDigit := by
    rw [← isDigit_head?_bytes, ← (Pairing.of_drop_eq_cons h).2, List.head?_drop]
  rw [isExponentSign, decide_eq_true hi, Bool.and_true]
  cases hc : (c == '+' || c == '-') && !hex with
  | false => rfl
  | true =>
    rw [if_pos rfl, Checked.minus_eq hi, Checked.ok_bind, Checked.item_eq hlast, Checked.ok_bind,
      hnext, Bool.true_and]
    rfl

/-- **A number in bytes.** The byte before a sign is there, since a number does not begin with
one. -/
theorem numberEnd_eq {t : Text} (hi : 0 < i) (hlast : bytes[i - 1]? = some last)
    (h : bytes.drop i = Text.bytes t) :
    numberEnd bytes hex i = .ok (i + numberTailLength hex last t) := by
  induction t generalizing i last with
  | nil =>
    rw [numberEnd, if_neg (Nat.not_lt_of_le (List.drop_eq_nil_iff.1 h))]
    rfl
  | cons c t ih =>
    rw [bytes_cons] at h
    rw [numberTailLength_cons]
    rcases bytesOf_cases c with ⟨-, hbytes⟩ | ⟨hc, b, more, hbytes, hb, -⟩ <;> rw [hbytes] at h
    · have hnext := Pairing.of_drop_eq_cons h
      rw [numberEnd_of_drop h (isExponentSign_eq hi hlast h),
        ih (Nat.succ_pos i) hnext.1 hnext.2, ← continuesNumber]
      split
      · rw [Nat.succ_add_eq_add_succ, Nat.succ_eq_one_add]
      · rfl
    · have hsign : isExponentSign bytes hex b i = .ok false := by
        rw [isExponentSign, beq_false_of_ne (ne_ascii hb (by decide)),
          beq_false_of_ne (ne_ascii hb (by decide))]
        rfl
      rw [continuesNumber_of_le hc, numberEnd_of_drop h hsign, isAlphanum_of_le hb,
        beq_false_of_ne (ne_ascii hb (by decide)), beq_false_of_ne (ne_ascii hb (by decide))]
      rfl

theorem isDigit_lt {c : Char} (h : c.isDigit = true) : c.toNat < 128 := by
  by_contra hle
  have := isAlphanum_of_le (Nat.le_of_not_lt hle)
  rw [Char.isAlphanum, h, Bool.or_true] at this
  cases this

theorem startsWith_hex (c : Char) (t : Text) :
    (startsWith (c :: t) "0x".toList || startsWith (c :: t) "0X".toList) =
      (c == '0' && t.head?.any fun d => d == 'x' || d == 'X') := by
  have hpair : ∀ d : Char, startsWith (c :: t) ['0', d] = (c == '0' && t.head?.any (· == d)) := by
    intro d
    by_cases hc : c = '0'
    · subst hc
      cases t with
      | nil => rfl
      | cons e t =>
        by_cases he : e = d
        · simp [startsWith, stripLeading?, he]
        · simp [startsWith, stripLeading?, he, Ne.symm he]
    · simp [startsWith, stripLeading?, hc, Ne.symm hc]
  rw [show "0x".toList = ['0', 'x'] from rfl, show "0X".toList = ['0', 'X'] from rfl, hpair, hpair]
  cases t.head? <;> cases c == '0' <;> rfl

theorem numberLength_eq {c : Char} (hc : c.isDigit = true ∨ c = '.') (t : Text) :
    numberLength (c :: t) = .ok (size (c :: t) (Lexeme.numberLength (c :: t))) := by
  have hlt : c.toNat < 128 := hc.elim isDigit_lt fun h => h ▸ by decide
  have hgoes : (c.isAlphanum || c == '_' || c == '.') = true := by
    rcases hc with hc | rfl
    · rw [Char.isAlphanum, hc, Bool.or_true]
      rfl
    · rfl
  have hbytes : Text.bytes (c :: t) = c :: Text.bytes t := by rw [bytes_cons, bytesOf_of_lt hlt]; rfl
  have hsign : ∀ hex, isExponentSign (c :: Text.bytes t) hex c 0 = .ok false := by
    intro hex
    rw [isExponentSign, if_neg]
    · rfl
    · simp
  rw [numberLength, startsWith_hex, hbytes, numberEnd_of_drop rfl (hsign _), Bool.or_false, hgoes,
    if_pos rfl, numberEnd_eq Nat.one_pos rfl rfl, Lexeme.numberLength, Nat.add_comm 1, size_cons,
    size_numberTailLength, utf8Size_of_lt hlt, Nat.add_comm 1]

end Number

/-! ### Comments, marks and operators in characters -/

theorem size_two {c d : Char} (hc : c.toNat < 128) (hd : d.toNat < 128) (t : Text) (n : ℕ) :
    size (c :: d :: t) (n + 2) = size t n + 2 := by
  rw [size_cons, size_cons, utf8Size_of_lt hc, utf8Size_of_lt hd]
  omega

theorem cutFrom_two {c d : Char} (hc : c.toNat < 128) (hd : d.toNat < 128) (t : Text) :
    cutFrom (c :: d :: t) 2 = .ok t :=
  cutFrom_eq (u := [c, d]) rfl (by simp [utf8Size_of_lt hc, utf8Size_of_lt hd])

theorem blockCommentLength?_eq (t : Text) : blockCommentLength? ('/' :: '*' :: t) =
    .ok ((Lexeme.blockCommentLength? ('/' :: '*' :: t)).map (size ('/' :: '*' :: t))) := by
  rw [blockCommentLength?, cutFrom_two (by decide) (by decide), Checked.ok_bind,
    Lexeme.blockCommentLength?, Option.map_map, offsetOf?, Option.map_map]
  refine congrArg Except.ok (Option.map_congr ?_)
  rintro ⟨body, after⟩ hbreak
  obtain rfl : body ++ "*/".toList ++ after = t := append_of_breakOn hbreak
  have hsize := size_append (body ++ "*/".toList) after
  rw [utf8Length_append, List.length_append] at hsize
  have hall := size_two (c := '/') (d := '*') (by decide) (by decide)
    (body ++ "*/".toList ++ after) (body.length + 2)
  exact ((congrArg (· + 2) hsize).symm.trans hall.symm)

theorem closeTagLength_eq (t : Text) : closeTagLength ('?' :: '>' :: t) =
    .ok (size ('?' :: '>' :: t) (Lexeme.closeTagLength ('?' :: '>' :: t))) := by
  rw [closeTagLength, cutFrom_two (by decide) (by decide), Checked.ok_bind, Lexeme.closeTagLength,
    List.drop_succ_cons, List.drop_succ_cons, List.drop_zero]
  refine congrArg Except.ok ?_
  by_cases hcr : startsWith t ['\r', '\n'] = true
  · obtain ⟨rest, hrest⟩ := Option.isSome_iff_exists.1 hcr
    obtain rfl := append_of_stripLeading? hrest
    rfl
  · by_cases hlf : startsWith t ['\n'] = true
    · obtain ⟨rest, hrest⟩ := Option.isSome_iff_exists.1 hlf
      obtain rfl := append_of_stripLeading? hrest
      rfl
    · rw [if_neg hcr, if_neg hlf, if_neg hcr, if_neg hlf]
      rfl

theorem symbolAt_eq (c : Char) (t : Text) : symbolAt c t =
    ((Lexeme.symbolAt c t).1, size (c :: t) (Lexeme.symbolAt c t).2) := by
  rw [symbolAt, Lexeme.symbolAt]
  cases hfind : Kind.operatorTable.find? fun x => startsWith (c :: t) x.1 with
  | none => rfl
  | some x =>
    have hstarts : startsWith (c :: t) x.1 = true := by simpa using List.find?_some hfind
    obtain ⟨rest, hrest⟩ := Option.isSome_iff_exists.1 hstarts
    rw [size_of_leading ⟨rest, append_of_stripLeading? hrest⟩]

theorem openTagOffset?_cons (c : Char) (t : Text) : openTagOffset? (c :: t) =
    if (openTagLength? (c :: t)).isSome then some 0
    else (openTagOffset? t).map (c.utf8Size + ·) := by
  have hoffset : ∀ needle : Text, offsetOf? needle (c :: t) =
      if startsWith (c :: t) needle then some 0 else (offsetOf? needle t).map (c.utf8Size + ·) := by
    intro needle
    rw [offsetOf?, breakOn, startsWith]
    cases stripLeading? needle (c :: t) with
    | some rest => rfl
    | none =>
      rw [offsetOf?]
      cases breakOn needle t <;> rfl
  rw [openTagOffset?, hoffset, hoffset, openTagOffset?, openTagLength?]
  cases startsWith (c :: t) "<?=".toList <;> cases startsWith (c :: t) "<?php".toList <;>
    cases offsetOf? "<?php".toList t <;> cases offsetOf? "<?=".toList t <;>
    simp [Nat.add_min_add_left]

theorem openTagOffset?_getD (t : Text) :
    (openTagOffset? t).getD t.utf8Length = size t (plainTextLength t) := by
  induction t with
  | nil => rfl
  | cons c t ih =>
    rw [openTagOffset?_cons, plainTextLength]
    split
    · rfl
    · rw [Nat.add_comm 1, size_cons, ← ih, utf8Length_cons]
      cases openTagOffset? t <;> rfl

/-! ### Doc comments in characters -/

theorem docTagLength_eq (t : Text) : docTagLength t = size t (Lexeme.docTagLength t) := by
  cases t with
  | nil => rfl
  | cons c t =>
    rw [docTagLength, offsetWhere?_getD, Lexeme.docTagLength, Nat.add_comm 1, size_cons,
      size_takeWhile]

theorem docTextLength_eq (t : Text) : docTextLength t = .ok (size t (Lexeme.docTextLength t)) := by
  have hcut : cutTo t ((offsetWhere? isLineEnd t).getD t.utf8Length) =
      .ok (t.takeWhile (!isLineEnd ·)) :=
    cutTo_eq List.takeWhile_append_dropWhile.symm (offsetWhere?_getD isLineEnd t)
  have hprefix : dropEndWhile isSpaceOrTab (t.takeWhile (!isLineEnd ·)) <+: t := by
    obtain ⟨u, v, huv, hdrop, -⟩ := dropEndWhile_spec isSpaceOrTab (t.takeWhile (!isLineEnd ·))
    rw [hdrop]
    exact List.IsPrefix.trans ⟨v, huv.symm⟩ (List.takeWhile_prefix _)
  rw [docTextLength, hcut, Checked.ok_bind, Lexeme.docTextLength, size_of_leading hprefix]
  rfl

theorem docBlankLength_eq {c : Char} (hc : isSpaceOrTab c = true) (t : Text) :
    docBlankLength (c :: t) = size (c :: t) ((c :: t).takeWhile isSpaceOrTab).length := by
  have hset : ∀ d : Char, (!(d != ' ' && d != '\t')) = isSpaceOrTab d := by
    intro d
    rw [isSpaceOrTab, Bool.not_and, bne, bne, Bool.not_not, Bool.not_not]
  rw [docBlankLength, offsetWhere?_getD, size_takeWhile]
  simp only [hset]
  refine Nat.max_eq_left ?_
  rw [List.takeWhile_cons_of_pos hc, utf8Length_cons]
  exact Nat.le_add_right_of_le c.utf8Size_pos

end Bytewise

end EntityLint
