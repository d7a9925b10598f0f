import EntityLint.Proofs.Bounds.Lexeme
import EntityLint.Proofs.Token.LineBreaks

/-!
# A lexer that goes by byte offsets

The lexer keeps a text and the byte offset it has come to. Each turn measures the next lexeme and
cuts it out of the text.

* `Bytewise.Lexer`, `Lexer.push`: a lexer and how it takes a lexeme;
* `Lexer.lexDocComment`, `lexCode`, `lexOutside`, `run`: one doc comment, one turn inside and outside
  of code, all turns;
* `Lexer.Reached`: where a lexer has come to, and what it knows of the text before.

The main statement is `Lexer.run_eq`: the offset stays between characters, each turn gets on, and the
lexemes are those of `Piece.cutAll`.
-/

namespace EntityLint.Bytewise

open Lexeme Text

/-- A lexer on its way through a text. -/
structure Lexer where
  source : Text
  /-- The byte offset of what comes next. -/
  position : Nat
  line : Nat
  /-- The lexemes before, in order. -/
  lexemes : List Lexeme
  /-- The doc comments before, in order. -/
  docs : List DocComment

namespace Lexer

/-- The lexer at the beginning of a text. -/
def start (source : Text) : Lexer := ⟨source, 0, 1, [], []⟩

/-- The text that comes next. -/
def rest (s : Lexer) : Checked Text := cutFrom s.source s.position

/-- The number of bytes that come next. -/
def remaining (s : Lexer) : Nat := s.source.utf8Length - s.position

/-- The lexer after a lexeme. -/
def add (s : Lexer) (l : Lexeme) : Lexer :=
  { s with
    position := s.position + l.text.utf8Length
    line := s.line + l.text.count '\n'
    lexemes := s.lexemes ++ [l] }

/-- Take a lexeme of a number of bytes. -/
def push (s : Lexer) (kind : Kind) (length : Nat) : Checked Lexer := do
  let text ← cut s.source s.position (s.position + length)
  return s.add ⟨kind, text⟩

/-! ### Names -/

/-- The kind of the last significant lexeme after which there are `skip` others. -/
def lastSignificant? (s : Lexer) (skip : Nat) : Option Kind :=
  ((s.lexemes.reverse.filter fun l => !l.kind.isTrivia)[skip]?).map Lexeme.kind

/-- A word is never a keyword where a member or function name must stand. -/
def expectsName (s : Lexer) : Bool :=
  match s.lastSignificant? 0 with
  | some .kwFunction | some .arrow | some .nullsafeArrow | some .doubleColon | some .kwConst => true
  | some .ampersand => s.lastSignificant? 1 == some .kwFunction
  | _ => false

/-- The kind of the word that comes next. -/
def wordKind (s : Lexer) (word : Text) : Checked Kind := do
  let following ← cutFrom s.source (s.position + word.utf8Length)
  let before ← cutTo s.source s.position
  if s.expectsName || before.getLast? == some '\\' || following.head? == some '\\' then return .word
  else match Kind.ofKeyword? word with
    | some .kwEnum =>
      return if (trimStart following).head?.any isWordStart then .kwEnum else .word
    | some kind => return kind
    | none => return .word

/-! ### Doc comments -/

/-- A turn in the body of a doc comment whose rest is `c :: t`: the lexer after it, the tags so far,
and whether a line has just begun. -/
def docTurn (s : Lexer) (tags : List Nat) (lineStart : Bool) (c : Char) (t : Text) :
    Checked (Lexer × List Nat × Bool) := do
  if startsWith (c :: t) ['\r', '\n'] then return (← s.push .docBlank 2, tags, true)
  else if c = '\n' then return (← s.push .docBlank 1, tags, true)
  else if isSpaceOrTab c ∨ c = '\r' then
    return (← s.push .docBlank (docBlankLength (c :: t)), tags, lineStart)
  else if c = '*' ∧ lineStart then return (← s.push .docStar 1, tags, false)
  else if c = '@' ∧ 1 < docTagLength (c :: t) then
    return (← s.push .docTag (docTagLength (c :: t)), tags ++ [s.lexemes.length], false)
  else
    let length ← docTextLength (c :: t)
    return (← s.push .docText (max length c.utf8Size), tags, false)

/-- The body of a doc comment, which ends at a byte offset, with its tags. -/
def docBody (s : Lexer) (bodyEnd : Nat) (tags : List Nat) (lineStart : Bool) :
    Checked (Lexer × List Nat) :=
  if s.position < bodyEnd then do
    match ← cut s.source s.position bodyEnd with
    | [] => return (s, tags)
    | c :: t =>
      let (s', tags, lineStart) ← s.docTurn tags lineStart c t
      if bodyEnd - s'.position < bodyEnd - s.position then s'.docBody bodyEnd tags lineStart
      else throw .stuck
  else return (s, tags)
termination_by bodyEnd - s.position

/-- A doc comment. -/
def lexDocComment (s : Lexer) : Checked Lexer := do
  let after ← cutFrom (← s.rest) 3
  match offsetOf? "*/".toList after with
  | none => throw (.failure (.unterminatedComment s.line))
  | some length =>
    let opener := s.lexemes.length
    let s ← s.push .docOpen 3
    let (s, tags) ← s.docBody (s.position + length) [] false
    let closer := s.lexemes.length
    let s ← s.push .docClose 2
    discard (Checked.item s.lexemes opener)
    discard (Checked.item s.lexemes closer)
    return { s with docs := s.docs ++ [⟨⟨opener, closer⟩, tags⟩] }

/-! ### Turns -/

/-- Whether a doc comment comes next. -/
def opensDocComment (rest : Text) : Checked Bool :=
  if startsWith rest "/**".toList then do
    let after ← cutFrom rest 3
    return after.head?.any isAsciiBlank
  else return false

/-- Whether a heredoc comes next. -/
def opensHeredoc (rest : Text) : Checked Bool :=
  if startsWith rest "<<<".toList then do return (← heredocLabel? rest).isSome else return false

/-- Take a lexeme whose end has been looked for. -/
def pushFound (s : Lexer) (kind : Kind) (error : Nat → LexError) (length : Option Nat) :
    Checked Lexer :=
  match length with
  | some length => s.push kind length
  | none => throw (.failure (error s.line))

/-- A turn inside of code, whose rest is `c :: t`: the lexer after it, and whether that is inside of
code. -/
def lexCode (s : Lexer) (c : Char) (t : Text) : Checked (Lexer × Bool) := do
  let rest := c :: t
  let next := (← cutFrom rest c.utf8Size).head?
  if c = '?' ∧ next = some '>' then return (← s.push .closeTag (← closeTagLength rest), false)
  else if isCodeBlank c then return (← s.push .blank (blankLength rest), true)
  else if c = '#' ∧ next = some '[' then return (← s.push .attributeOpen 2, true)
  else if c = '#' ∨ c = '/' ∧ next = some '/' then
    return (← s.push .comment (lineCommentLength rest), true)
  else if ← opensDocComment rest then return (← s.lexDocComment, true)
  else if c = '/' ∧ next = some '*' then
    return (← s.pushFound .comment .unterminatedComment (← blockCommentLength? rest), true)
  else if c = '$' ∧ next.any isWordStart then
    return (← s.push .variable (1 + wordLength (← cutFrom rest 1)), true)
  else if c = '\'' ∨ c = '"' ∨ c = '\x60' then
    return (← s.pushFound .quoted .unterminatedString (← quotedLength? c rest), true)
  else if ← opensHeredoc rest then
    return (← s.pushFound .quoted .unterminatedString (← heredocLength? rest), true)
  else if c.isDigit ∨ c = '.' ∧ next.any Char.isDigit then
    return (← s.push .number (← numberLength rest), true)
  else if isWordStart c then
    let kind ← s.wordKind (← cutTo rest (wordLength rest))
    return (← s.push kind (wordLength rest), true)
  else
    let (kind, length) := symbolAt c t
    return (← s.push kind length, true)

/-- A turn outside of code. -/
def lexOutside (s : Lexer) : Checked (Lexer × Bool) := do
  let rest ← s.rest
  match openTagOffset? rest with
  | some 0 =>
    return (← s.push .openTag (if startsWith rest "<?=".toList then 3 else 5), true)
  | some length => return (← s.push .plainText length, false)
  | none => return (← s.push .plainText rest.utf8Length, false)

/-- A turn. -/
def turn (s : Lexer) (inCode : Bool) : Checked (Lexer × Bool) :=
  if inCode then do
    match ← s.rest with
    | [] => return (s, true)
    | c :: t => s.lexCode c t
  else s.lexOutside

/-- All turns. -/
def run (s : Lexer) (inCode : Bool) : Checked Lexer :=
  if s.position < s.source.utf8Length then do
    let (s', inCode) ← s.turn inCode
    if s'.remaining < s.remaining then s'.run inCode else throw .stuck
  else return s
termination_by s.remaining

/-! ### How far a lexer has come -/

/-- Where a lexer has come to, and what it knows of the text before. -/
structure Reached (s : Lexer) (ctx : Context) (before rest : Text) : Prop where
  source : s.source = before ++ rest
  position : s.position = before.utf8Length
  line : s.line = ctx.line
  last : s.lastSignificant? 0 = ctx.last
  earlier : s.lastSignificant? 1 = ctx.earlier
  afterBackslash : (before.getLast? == some '\\') = ctx.afterBackslash

variable {s : Lexer} {ctx : Context} {before u t after : Text} {c : Char}

theorem reached_start (source : Text) : (start source).Reached .start [] source :=
  ⟨rfl, rfl, rfl, rfl, rfl, rfl⟩

theorem lastSignificant?_add (s : Lexer) (l : Lexeme) (skip : Nat) :
    (s.add l).lastSignificant? skip = if l.kind.isTrivia then s.lastSignificant? skip
      else match skip with
        | 0 => some l.kind
        | skip + 1 => s.lastSignificant? skip := by
  rw [lastSignificant?, add, List.reverse_append, List.reverse_singleton, List.singleton_append]
  cases hl : l.kind.isTrivia with
  | true => rw [List.filter_cons_of_neg (by simp [hl])]; rfl
  | false =>
    rw [List.filter_cons_of_pos (by simp [hl])]
    cases skip <;> rfl

namespace Reached

theorem rest_eq (h : s.Reached ctx before t) : s.rest = .ok t := cutFrom_eq h.source h.position

/-- A lexeme that stands there is taken. -/
theorem push_eq (h : s.Reached ctx before (u ++ after)) (kind : Kind) :
    s.push kind u.utf8Length = .ok (s.add ⟨kind, u⟩) := by
  rw [push, cut_eq h.source h.position (by rw [h.position])]
  rfl

theorem add (h : s.Reached ctx before (u ++ after)) (kind : Kind) (hu : u ≠ []) :
    (s.add ⟨kind, u⟩).Reached (ctx.after ⟨kind, u⟩) (before ++ u) after where
  source := by rw [List.append_assoc]; exact h.source
  position := by rw [utf8Length_append, ← h.position]; rfl
  line := congrArg (· + u.count '\n') h.line
  last := by
    rw [lastSignificant?_add, h.last]
    rfl
  earlier := by
    rw [lastSignificant?_add, h.earlier]
    dsimp only
    rw [h.last]
    rfl
  afterBackslash := by
    rw [List.getLast?_append_of_ne_nil _ hu]
    rfl

theorem expectsName_eq (h : s.Reached ctx before t) : s.expectsName = ctx.expectsName := by
  rw [expectsName, h.last, h.earlier]
  rfl

theorem wordKind_eq (h : s.Reached ctx before (u ++ after)) :
    s.wordKind u = .ok (ctx.wordKind u after) := by
  have hfollowing : cutFrom s.source (s.position + u.utf8Length) = .ok after :=
    cutFrom_eq (u := before ++ u) (by rw [h.source, List.append_assoc])
      (by rw [h.position, utf8Length_append])
  rw [wordKind, hfollowing, Checked.ok_bind, cutTo_eq h.source h.position, Checked.ok_bind,
    h.expectsName_eq, h.afterBackslash, Context.wordKind]
  split
  · rfl
  · cases Kind.ofKeyword? u with
    | none => rfl
    | some k => cases k <;> rfl

/-- Of some text that stands there, the first characters are taken, one of them at least. -/
theorem push_part (h : s.Reached ctx before (c :: t ++ after)) (kind : Kind) {n : Nat}
    (hn : 0 < n) : s.push kind (size (c :: t) n) = .ok (s.add ⟨kind, c :: t.take (n - 1)⟩) := by
  obtain ⟨n, rfl⟩ := Nat.exists_eq_add_one_of_ne_zero (Nat.pos_iff_ne_zero.1 hn)
  have h' : s.Reached ctx before ((c :: t).take (n + 1) ++ ((c :: t).drop (n + 1) ++ after)) := by
    rwa [← List.append_assoc, List.take_append_drop]
  exact h'.push_eq kind

/-- The next character is taken. -/
theorem push_one (h : s.Reached ctx before (c :: t ++ after)) (hc : c.toNat < 128) (kind : Kind) :
    s.push kind 1 = .ok (s.add ⟨kind, [c]⟩) := by
  have hsize : 1 = size (c :: t) 1 := (utf8Size_of_lt hc).symm
  rw [hsize]
  exact h.push_part kind Nat.one_pos

end Reached

/-! ### Doc comments -/

/-- Some lexemes that stand there are known after they have been taken. -/
theorem Reached.foldl_add {ls : List Lexeme} (h : s.Reached ctx before (u ++ after))
    (hls : ∀ l ∈ ls, l.text ≠ []) (hu : ls.flatMap Lexeme.text = u) :
    (ls.foldl Lexer.add s).Reached (ls.foldl Context.after ctx) (before ++ u) after := by
  subst hu
  induction ls generalizing s ctx before with
  | nil => simpa using h
  | cons l ls ih =>
    obtain ⟨hl, hls⟩ := List.forall_mem_cons.1 hls
    rw [List.flatMap_cons, List.append_assoc] at h
    have := ih hls (h.add l.kind hl)
    rwa [List.append_assoc] at this

/-- The lexer after some lexemes. -/
theorem foldl_add (s : Lexer) (ls : List Lexeme) : ls.foldl add s =
    { s with
      position := s.position + utf8Length (ls.flatMap Lexeme.text)
      line := s.line + (ls.flatMap Lexeme.text).count '\n'
      lexemes := s.lexemes ++ ls } := by
  induction ls generalizing s with
  | nil => simp
  | cons l ls ih =>
    rw [List.foldl_cons, ih]
    simp [add, Nat.add_assoc]

theorem startsWith_lineBreak (c : Char) (t : Text) :
    startsWith (c :: t) ['\r', '\n'] = true ↔ c = '\r' ∧ t.head? = some '\n' := by
  rw [startsWith, stripLeading?]
  split
  · next hc =>
    cases t with
    | nil => simp [stripLeading?]
    | cons d t =>
      rw [stripLeading?]
      split <;> simp_all [stripLeading?, eq_comm]
  · next hc => simp [Ne.symm hc]

theorem one_lt_docTagLength {c : Char} (hc : c.toNat < 128) (t : Text) :
    1 < docTagLength (c :: t) ↔ 1 < Lexeme.docTagLength (c :: t) := by
  rw [docTagLength, offsetWhere?_getD, Lexeme.docTagLength, utf8Size_of_lt hc]
  generalize t.takeWhile _ = u
  cases u with
  | nil => rfl
  | cons d u =>
    have := d.utf8Size_pos
    simp only [utf8Length_cons, List.length_cons]
    omega

/-- What takes no character takes one all the same. -/
theorem max_size (c : Char) (t : Text) (n : Nat) :
    max (size (c :: t) n) c.utf8Size = size (c :: t) (max n 1) := by
  cases n with
  | zero => exact Nat.zero_max _
  | succ n =>
    rw [Nat.max_eq_left (Nat.succ_pos n), size_cons]
    exact Nat.max_eq_left (Nat.le_add_right _ _)

/-- **A turn in a doc comment.** It takes the first part of the rest of the body. -/
theorem docTurn_eq (h : s.Reached ctx before (c :: t ++ after)) (tags : List Nat)
    (lineStart : Bool) :
    let part := docLexeme lineStart c t
    s.docTurn tags lineStart c t = .ok (s.add part.1,
      tags ++ (if part.1.kind = .docTag then [s.lexemes.length] else []), part.2) := by
  unfold docTurn docLexeme
  -- the same questions in the same order, so that both sides are split together
  simp only [startsWith_lineBreak]
  by_cases hbreak : c = '\r' ∧ t.head? = some '\n'
  · obtain ⟨rfl, ht⟩ := hbreak
    obtain ⟨t, rfl⟩ : ∃ u, t = '\n' :: u := by
      cases t with
      | nil => cases ht
      | cons d t => cases ht; exact ⟨t, rfl⟩
    have hpush : s.push .docBlank 2 = .ok (s.add ⟨.docBlank, ['\r', '\n']⟩) :=
      h.push_part .docBlank (n := 2) (by decide)
    rw [if_pos ⟨rfl, rfl⟩, if_pos ⟨rfl, rfl⟩, hpush]
    simp
  · rw [if_neg hbreak, if_neg hbreak]
    by_cases hline : c = '\n'
    · subst hline
      rw [if_pos rfl, if_pos rfl, h.push_one (by decide)]
      simp
    · rw [if_neg hline, if_neg hline]
      by_cases hreturn : c = '\r'
      · subst hreturn
        have hlength : docBlankLength ('\r' :: t) = 1 := rfl
        rw [if_pos (.inr rfl), if_pos rfl, hlength, h.push_one (by decide)]
        simp
      · rw [if_neg hreturn]
        by_cases hspace : isSpaceOrTab c = true
        · have hpos : 0 < ((c :: t).takeWhile isSpaceOrTab).length := by
            rw [List.takeWhile_cons_of_pos hspace]
            exact Nat.succ_pos _
          rw [if_pos (.inl hspace), if_pos hspace, docBlankLength_eq hspace, h.push_part _ hpos]
          simp
        · rw [if_neg (not_or.2 ⟨hspace, hreturn⟩), if_neg hspace]
          by_cases hstar : c = '*' ∧ lineStart = true
          · obtain ⟨rfl, hstart⟩ := hstar
            rw [if_pos ⟨rfl, hstart⟩, if_pos ⟨rfl, hstart⟩, h.push_one (by decide)]
            simp
          · rw [if_neg hstar, if_neg hstar]
            have htag : (c = '@' ∧ 1 < docTagLength (c :: t)) ↔
                (c = '@' ∧ 1 < Lexeme.docTagLength (c :: t)) := by
              refine and_congr_right fun hc => one_lt_docTagLength ?_ t
              rw [hc]
              decide
            simp only [htag]
            split
            · next ht =>
              rw [docTagLength_eq, h.push_part _ (Nat.lt_trans Nat.one_pos ht.2)]
              simp
            · have hone : ∀ n, max n 1 - 1 = n - 1 := by omega
              rw [docTextLength_eq, Checked.ok_bind, max_size, h.push_part _ (by omega), hone]
              simp

/-- What is known after the first part of a doc comment. -/
theorem Reached.add_docLexeme (h : s.Reached ctx before (c :: t ++ after)) (lineStart : Bool) :
    ∃ u rest, (docLexeme lineStart c t).1.text = c :: u ∧ t = u ++ rest ∧
      t.drop ((docLexeme lineStart c t).1.text.length - 1) = rest ∧
      (s.add (docLexeme lineStart c t).1).Reached (ctx.after (docLexeme lineStart c t).1)
        (before ++ (docLexeme lineStart c t).1.text) (rest ++ after) := by
  obtain ⟨n, hn⟩ := docLexeme_text lineStart c t
  refine ⟨t.take n, t.drop n, hn, (List.take_append_drop n t).symm, ?_, ?_⟩
  · rw [hn, List.length_cons, List.length_take, Nat.add_sub_cancel]
    rcases Nat.le_total n t.length with hle | hle
    · rw [Nat.min_eq_left hle]
    · rw [Nat.min_eq_right hle, List.drop_length, List.drop_eq_nil_of_le hle]
  · refine Reached.add ?_ _ (by rw [hn]; exact List.cons_ne_nil _ _)
    rw [hn, List.cons_append, ← List.append_assoc, List.take_append_drop]
    exact h

/-- **The body of a doc comment.** Each turn gets on, and the last one comes to its end. -/
theorem docBody_eq {body : Text} {bodyEnd : Nat} {lineStart : Bool} {tags : List Nat}
    (h : s.Reached ctx before (body ++ after))
    (hend : bodyEnd = before.utf8Length + body.utf8Length) :
    s.docBody bodyEnd tags lineStart = .ok ((docLexemes lineStart body).foldl add s,
      tags ++ DocComment.tagsOf s.lexemes.length (docLexemes lineStart body)) := by
  fun_induction docLexemes lineStart body generalizing s ctx before tags with
  | case1 =>
    have hposition : ¬s.position < bodyEnd := by rw [hend, h.position]; exact Nat.lt_irrefl _
    rw [docBody, if_neg hposition, DocComment.tagsOf_nil, List.append_nil]
    rfl
  | case2 lineStart c t part =>
    rename_i ih
    -- the first part is not empty, so that the offset moves on and stays within the body
    obtain ⟨u, rest, htext, ht, hdrop, hreached⟩ := h.add_docLexeme lineStart
    have hpos : 0 < part.1.text.utf8Length := by
      rw [htext]
      exact Nat.add_pos_left c.utf8Size_pos _
    have hlt : s.position < bodyEnd := by
      rw [hend, h.position, utf8Length_cons]
      exact Nat.lt_add_of_pos_right (Nat.add_pos_left c.utf8Size_pos _)
    have hposition : (s.add part.1).position = s.position + part.1.text.utf8Length := rfl
    have hlength : (s.add part.1).lexemes.length = s.lexemes.length + 1 := List.length_append
    have hend' : bodyEnd = utf8Length (before ++ part.1.text) + utf8Length rest := by
      rw [hend, ht, ← List.cons_append, ← htext, utf8Length_append, utf8Length_append, Nat.add_assoc]
    change t.drop (part.1.text.length - 1) = rest at hdrop
    rw [hdrop] at ih ⊢
    rw [docBody, if_pos hlt, cut_eq h.source h.position hend]
    dsimp only [Checked.ok_bind]
    rw [docTurn_eq h]
    dsimp only [Checked.ok_bind]
    have hon : bodyEnd - (s.add (docLexeme lineStart c t).1).position < bodyEnd - s.position := by
      change bodyEnd - (s.add part.1).position < _
      omega
    rw [if_pos hon]
    refine (ih hreached hend').trans ?_
    rw [hlength, List.foldl_cons, DocComment.tagsOf_cons, List.append_assoc]

/-- The lexer after a piece. -/
def addPiece (s : Lexer) (p : Piece) : Lexer :=
  { p.lexemes.foldl add s with docs := s.docs ++ DocComment.all s.lexemes.length [p] }

@[simp] theorem addPiece_single (s : Lexer) (l : Lexeme) : s.addPiece (.single l) = s.add l := by
  rw [addPiece, DocComment.all, DocComment.all, List.append_nil]
  rfl

@[simp] theorem lexemes_addPiece (s : Lexer) (p : Piece) :
    (s.addPiece p).lexemes = s.lexemes ++ p.lexemes := by
  rw [addPiece, Lexer.foldl_add]

/-- The two ends of a doc comment stand where it begins and behind its body. -/
theorem item_docComment (earlier body : List Lexeme) :
    Checked.item (earlier ++ (Piece.docComment body).lexemes) earlier.length =
      .ok Piece.docOpening ∧
    Checked.item (earlier ++ (Piece.docComment body).lexemes) (earlier.length + 1 + body.length) =
      .ok Piece.docClosing := by
  constructor
  · refine Checked.item_eq ?_
    rw [List.getElem?_append_right (Nat.le_refl _), Nat.sub_self]
    rfl
  · refine Checked.item_eq ?_
    rw [List.getElem?_append_right (by omega), Nat.add_assoc, Nat.add_sub_cancel_left,
      Piece.lexemes, Nat.add_comm 1, List.getElem?_cons_succ, List.getElem?_concat_length]

/-- **A doc comment.** Its two ends are among the lexemes. -/
theorem lexDocComment_eq (h : s.Reached ctx before ("/**".toList ++ t)) :
    s.lexDocComment = match breakOn "*/".toList t with
      | some (body, _) => .ok (s.addPiece (.docComment (docLexemes false body)))
      | none => .error (.failure (.unterminatedComment ctx.line)) := by
  have hcut : cutFrom ("/**".toList ++ t) 3 = .ok t := cutFrom_eq rfl rfl
  rw [lexDocComment, h.rest_eq, Checked.ok_bind, hcut, Checked.ok_bind, offsetOf?]
  cases hbreak : breakOn "*/".toList t with
  | none => rw [Option.map_none, h.line]; rfl
  | some parts =>
    obtain ⟨body, after⟩ := parts
    obtain rfl : body ++ "*/".toList ++ after = t := append_of_breakOn hbreak
    have hbody : (s.add Piece.docOpening).Reached (ctx.after Piece.docOpening)
        (before ++ "/**".toList) (body ++ ("*/".toList ++ after)) := by
      rw [← List.append_assoc]
      exact h.add .docOpen (by decide)
    have hclose := hbody.foldl_add (fun l hl => (@mem_docLexemes false body l hl).1)
      (lexemes_text_docLexemes false body)
    have hopenPush : s.push .docOpen 3 = .ok (s.add Piece.docOpening) := h.push_eq .docOpen
    have hclosePush := hclose.push_eq .docClose
    dsimp only [Option.map_some]
    rw [hopenPush, Checked.ok_bind, docBody_eq hbody (congrArg (· + body.utf8Length) hbody.position)]
    dsimp only [Checked.ok_bind]
    generalize hls : docLexemes false body = ls at hclosePush ⊢
    have hlexemes : ((ls.foldl add (s.add Piece.docOpening)).add Piece.docClosing).lexemes =
        s.lexemes ++ (Piece.docComment ls).lexemes := by
      rw [Lexer.foldl_add]
      simp [add, Piece.lexemes]
    have hlength : (ls.foldl add (s.add Piece.docOpening)).lexemes.length =
        s.lexemes.length + 1 + ls.length := by
      rw [Lexer.foldl_add]
      simp only [add, List.length_append, List.length_singleton]
    obtain ⟨hopener, hcloser⟩ := item_docComment s.lexemes ls
    rw [← hlexemes] at hopener hcloser
    have hpush : (ls.foldl add (s.add Piece.docOpening)).push .docClose 2 =
        .ok ((ls.foldl add (s.add Piece.docOpening)).add Piece.docClosing) := hclosePush
    rw [hpush, Checked.ok_bind, hlength, hopener, hcloser, addPiece, Piece.lexemes]
    have hone : (s.add Piece.docOpening).lexemes.length = s.lexemes.length + 1 := List.length_append
    rw [List.foldl_cons, List.foldl_append, List.foldl_cons, List.foldl_nil, Lexer.foldl_add _ ls,
      DocComment.all, DocComment.all, hone]
    rfl

/-! ### Turns in code -/

/-- What a turn comes to when the next piece, or the lack of one, is known. -/
def taking (s : Lexer) (ctx : Context) : Except LexError Piece → Checked (Lexer × Bool)
  | .ok p => .ok (s.addPiece p, (p.lexemes.foldl Context.after ctx).inCode)
  | .error e => .error (.failure e)

/-- Kinds that do not change whether a text is inside of code. -/
abbrev stays (kind : Kind) : Prop := kind ∉ [.openTag, .closeTag]

theorem inCode_after {l : Lexeme} (hl : stays l.kind) : (ctx.after l).inCode = ctx.inCode := by
  rw [stays, List.mem_cons, List.mem_singleton, not_or] at hl
  rw [Context.after]
  split
  · next h => exact absurd h hl.1
  · next h => exact absurd h hl.2
  · rfl

/-- A piece that is a single lexeme is taken. -/
theorem Reached.push_cut (h : s.Reached ctx before (c :: t)) (kind : Kind) {n : Nat} (hn : 0 < n) :
    s.push kind (size (c :: t) n) = .ok (s.addPiece (.cut kind c t n)) := by
  have h' : s.Reached ctx before (c :: t ++ []) := by rwa [List.append_nil]
  rw [h'.push_part kind hn, Piece.cut, addPiece_single]

theorem Reached.taking_cut (h : s.Reached ctx before (c :: t)) (hcode : ctx.inCode = true)
    (kind : Kind) (hkind : stays kind) {n : Nat} (hn : 0 < n) :
    (do return (← s.push kind (size (c :: t) n), true)) = s.taking ctx (.ok (.cut kind c t n)) := by
  have hafter : (ctx.after ⟨kind, c :: t.take (n - 1)⟩).inCode = true :=
    (inCode_after (l := ⟨kind, _⟩) hkind).trans hcode
  rw [h.push_cut kind hn, taking, Piece.cut, Piece.lexemes, List.foldl_cons, List.foldl_nil, hafter]
  rfl

/-- A lexeme whose end has been looked for is taken, or its lack is the error. -/
theorem Reached.taking_found (h : s.Reached ctx before (c :: t)) (hcode : ctx.inCode = true)
    (kind : Kind) (hkind : stays kind) (error : Nat → LexError) {length : Option Nat} :
    (∀ n ∈ length, 0 < n) →
    (do return (← s.pushFound kind error (length.map (size (c :: t))), true)) =
      s.taking ctx (match length with
        | some n => .ok (.cut kind c t n)
        | none => .error (error ctx.line)) := by
  intro hn
  cases length with
  | none => rw [Option.map_none, pushFound, h.line]; rfl
  | some n => exact h.taking_cut hcode kind hkind (hn n rfl)

theorem opensDocComment_eq (t : Text) :
    opensDocComment t = .ok (EntityLint.opensDocComment t) := by
  rw [opensDocComment, startsWith, EntityLint.opensDocComment]
  cases hstrip : stripLeading? "/**".toList t with
  | none => rfl
  | some rest =>
    obtain rfl := append_of_stripLeading? hstrip
    have hcut : cutFrom ("/**".toList ++ rest) 3 = .ok rest := cutFrom_eq rfl rfl
    rw [Option.isSome_some, if_pos rfl, hcut]
    cases rest <;> rfl

theorem opensHeredoc_eq (t : Text) :
    opensHeredoc t = .ok (Lexeme.heredocLabel? t).isSome := by
  rw [opensHeredoc, startsWith]
  cases hstrip : stripLeading? "<<<".toList t with
  | none =>
    have hnone : Lexeme.heredocLabel? t = none := by rw [Lexeme.heredocLabel?, hstrip]; rfl
    rw [hnone]
    rfl
  | some rest =>
    obtain rfl := append_of_stripLeading? hstrip
    rw [Option.isSome_some, if_pos rfl, heredocLabel?_eq]
    rfl

/-- **A turn inside of code.** It takes the next piece. -/
theorem lexCode_eq (h : s.Reached ctx before (c :: t)) (hcode : ctx.inCode = true) :
    s.lexCode c t = s.taking ctx (codePiece ctx c t) := by
  have hnext : cutFrom (c :: t) c.utf8Size = .ok t := cutFrom_eq (u := [c]) rfl (by simp)
  rw [lexCode, hnext, Checked.ok_bind, codePiece]
  dsimp only
  -- rule by rule, as the cutter tries them
  by_cases hclose : c = '?' ∧ t.head? = some '>'
  · obtain ⟨rfl, ht⟩ := hclose
    obtain ⟨u, rfl⟩ := List.head?_eq_some_iff.1 ht
    rw [if_pos ⟨rfl, rfl⟩, if_pos ⟨rfl, rfl⟩, closeTagLength_eq, Checked.ok_bind,
      h.push_cut .closeTag (closeTagLength_pos _)]
    rfl
  rw [if_neg hclose, if_neg hclose]
  by_cases hblank : isCodeBlank c = true
  · have hcut := h.taking_cut hcode .blank (by decide) (blankLength_pos hblank t)
    rw [size_blankLength] at hcut
    rwa [if_pos hblank, if_pos hblank]
  rw [if_neg hblank, if_neg hblank]
  by_cases hattribute : c = '#' ∧ t.head? = some '['
  · obtain ⟨rfl, ht⟩ := hattribute
    obtain ⟨u, rfl⟩ := List.head?_eq_some_iff.1 ht
    rw [if_pos ⟨rfl, rfl⟩, if_pos ⟨rfl, rfl⟩]
    exact h.taking_cut hcode _ (by decide) (n := 2) (by decide)
  rw [if_neg hattribute, if_neg hattribute]
  by_cases hline : c = '#' ∨ c = '/' ∧ t.head? = some '/'
  · rw [if_pos hline, if_pos hline, lineCommentLength_eq]
    exact h.taking_cut hcode _ (by decide) (lineCommentLength_pos (hline.imp_right And.left) t)
  rw [if_neg hline, if_neg hline, opensDocComment_eq, Checked.ok_bind]
  by_cases hdoc : EntityLint.opensDocComment (c :: t) = true
  · rw [if_pos hdoc, if_pos hdoc]
    obtain ⟨d, u, rfl, rfl, -⟩ := eq_cons_of_opensDocComment hdoc
    have h' : s.Reached ctx before ("/**".toList ++ d :: u) := h
    rw [lexDocComment_eq h', List.drop_succ_cons, List.drop_succ_cons, List.drop_zero]
    cases breakOn "*/".toList (d :: u) with
    | none => rfl
    | some parts =>
      dsimp only [Checked.ok_bind, taking]
      rw [(Context.foldl_after_docComment parts.1 ctx).1, hcode]
      rfl
  rw [if_neg hdoc, if_neg hdoc]
  by_cases hblock : c = '/' ∧ t.head? = some '*'
  · obtain ⟨rfl, ht⟩ := hblock
    obtain ⟨u, rfl⟩ := List.head?_eq_some_iff.1 ht
    rw [if_pos ⟨rfl, rfl⟩, if_pos ⟨rfl, rfl⟩, blockCommentLength?_eq, Checked.ok_bind]
    exact h.taking_found hcode .comment (by decide) _ fun n hn => pos_of_blockCommentLength? hn
  rw [if_neg hblock, if_neg hblock]
  by_cases hvariable : c = '$' ∧ t.head?.any isWordStart = true
  · obtain ⟨rfl, ht⟩ := hvariable
    have hone : cutFrom ('$' :: t) 1 = .ok t := hnext
    have hsize : 1 + wordLength t = size ('$' :: t) (1 + Lexeme.wordLength t) := by
      rw [wordLength_eq, Nat.add_comm 1 (Lexeme.wordLength t), size_cons]
      rfl
    rw [if_pos ⟨rfl, ht⟩, if_pos ⟨rfl, ht⟩, hone, Checked.ok_bind, hsize]
    exact h.taking_cut hcode _ (by decide) (by omega)
  rw [if_neg hvariable, if_neg hvariable]
  by_cases hquote : c = '\'' ∨ c = '"' ∨ c = '\x60'
  · have hlt : c.toNat < 128 := by rcases hquote with rfl | rfl | rfl <;> decide
    rw [if_pos hquote, if_pos hquote, quotedLength?_eq hlt, Checked.ok_bind]
    exact h.taking_found hcode .quoted (by decide) _ fun n hn => pos_of_quotedLength? hn
  rw [if_neg hquote, if_neg hquote, opensHeredoc_eq, Checked.ok_bind]
  cases hlabel : Lexeme.heredocLabel? (c :: t) with
  | some label =>
    obtain ⟨header, hheader, -⟩ := Option.bind_eq_some_iff.1 hlabel
    have hlength : heredocLength? (c :: t) =
        .ok ((Lexeme.heredocLength? label (c :: t)).map (size (c :: t))) := by
      rw [← append_of_stripLeading? hheader, heredocLength?_eq, append_of_stripLeading? hheader,
        hlabel]
      rfl
    rw [Option.isSome_some, if_pos rfl, hlength, Checked.ok_bind]
    exact h.taking_found hcode .quoted (by decide) _ fun n hn => pos_of_heredocLength? hn
  | none =>
    dsimp only [Option.isSome_none]
    rw [if_neg Bool.false_ne_true]
    by_cases hnumber : c.isDigit = true ∨ c = '.' ∧ t.head?.any Char.isDigit = true
    · rw [if_pos hnumber, if_pos hnumber, numberLength_eq (hnumber.imp_right And.left),
        Checked.ok_bind]
      exact h.taking_cut hcode _ (by decide) (numberLength_pos c t)
    rw [if_neg hnumber, if_neg hnumber]
    by_cases hword : isWordStart c = true
    · have hparts : (c :: t).take (Lexeme.wordLength (c :: t)) ++
          (c :: t).drop (Lexeme.wordLength (c :: t)) = c :: t := List.take_append_drop _ _
      have h' := h
      rw [← hparts] at h'
      rw [if_pos hword, if_pos hword, wordLength_eq, size, cutTo_eq hparts.symm rfl, Checked.ok_bind,
        h'.wordKind_eq, Checked.ok_bind]
      exact h.taking_cut hcode _
        (Context.of_wordKind (P := stays) (by decide) (by decide) _ _ _) (wordLength_pos hword t)
    · rw [if_neg hword, if_neg hword, symbolAt_eq]
      exact h.taking_cut hcode _ (of_symbolAt (P := stays) (by decide)
        (fun d => by unfold Kind.ofSymbol; split <;> decide) _ _) (symbolAt_pos c t)

/-! ### All turns -/

/-- **A turn outside of code.** It takes an opening mark, or the text before it. -/
theorem lexOutside_eq (h : s.Reached ctx before (c :: t)) (hcode : ctx.inCode = false) :
    s.lexOutside = s.taking ctx (nextPiece ctx c t) := by
  have hafter : ∀ l : Lexeme, l.kind = .plainText → (ctx.after l).inCode = false := by
    intro l hl
    rw [inCode_after (by rw [stays, hl]; decide), hcode]
  rw [lexOutside, h.rest_eq, Checked.ok_bind, nextPiece_of_outside hcode, openTagOffset?_cons]
  cases hopen : openTagLength? (c :: t) with
  | some n =>
    obtain ⟨hpos, hsize⟩ : 0 < n ∧
        (if startsWith (c :: t) "<?=".toList then 3 else 5) = size (c :: t) n := by
      unfold openTagLength? at hopen
      split_ifs at hopen with hshort hlong
      · cases hopen
        obtain ⟨rest, hrest⟩ := Option.isSome_iff_exists.1 hshort
        rw [if_pos hshort, ← append_of_stripLeading? hrest]
        exact ⟨by decide, rfl⟩
      · cases hopen
        obtain ⟨rest, hrest⟩ := Option.isSome_iff_exists.1 hlong
        rw [if_neg hshort, ← append_of_stripLeading? hrest]
        exact ⟨by decide, rfl⟩
    rw [Option.isSome_some, if_pos rfl]
    dsimp only
    rw [hsize, h.push_cut .openTag hpos]
    rfl
  | none =>
    have hpush := h.push_cut .plainText (plainTextLength_pos hopen)
    have hsize := openTagOffset?_getD (c :: t)
    rw [openTagOffset?_cons, hopen] at hsize
    dsimp only [Option.isSome_none] at hsize ⊢
    rw [if_neg Bool.false_ne_true] at hsize ⊢
    rw [← hsize] at hpush
    have htaking : s.taking ctx (.ok (.cut .plainText c t (plainTextLength (c :: t)))) =
        .ok (s.addPiece (.cut .plainText c t (plainTextLength (c :: t))), false) := by
      rw [taking, Piece.cut, Piece.lexemes, List.foldl_cons, List.foldl_nil, hafter _ rfl]
    rw [htaking]
    cases hoffset : openTagOffset? t with
    | none =>
      rw [hoffset, Option.map_none, Option.getD_none] at hpush
      dsimp only [Option.map_none]
      rw [hpush]
      rfl
    | some i =>
      obtain ⟨m, hm⟩ := Nat.exists_eq_add_one_of_ne_zero
        (Nat.pos_iff_ne_zero.1 (Nat.add_pos_left c.utf8Size_pos i))
      rw [hoffset, Option.map_some, Option.getD_some] at hpush
      rw [hm] at hpush
      rw [Option.map_some, hm]
      change (do return (← s.push .plainText (m + 1), false) : Checked (Lexer × Bool)) = _
      rw [hpush]
      rfl

/-- **A turn.** -/
theorem turn_eq (h : s.Reached ctx before (c :: t)) :
    s.turn ctx.inCode = s.taking ctx (nextPiece ctx c t) := by
  rw [turn]
  cases hcode : ctx.inCode with
  | true => rw [if_pos rfl, h.rest_eq, nextPiece_of_inCode hcode]; exact lexCode_eq h hcode
  | false => rw [if_neg Bool.false_ne_true]; exact lexOutside_eq h hcode

theorem text_ne_nil_of_nextPiece {p : Piece} (h : nextPiece ctx c t = .ok p) :
    ∀ l ∈ p.lexemes, l.text ≠ [] := by
  intro l hl
  rcases nextPiece_cases h with ⟨kind, n, rfl, -⟩ | ⟨body, rfl, -⟩
  · rw [List.mem_singleton.1 hl]
    exact List.cons_ne_nil _ _
  · exact (mem_lexemes_docComment hl).1

theorem Reached.addPiece {p : Piece} (h : s.Reached ctx before (p.text ++ after))
    (hp : ∀ l ∈ p.lexemes, l.text ≠ []) :
    (s.addPiece p).Reached (p.lexemes.foldl Context.after ctx) (before ++ p.text) after := by
  obtain ⟨hsource, hposition, hline, hlast, hearlier, hback⟩ := h.foldl_add hp rfl
  exact ⟨hsource, hposition, hline, hlast, hearlier, hback⟩

/-- **All turns.** The offset stays between characters, each turn gets on, and the pieces are those
that the cutter finds. -/
theorem run_eq (h : s.Reached ctx before t) :
    s.run ctx.inCode = match Piece.cutAll ctx t with
      | .ok pieces => .ok (pieces.foldl Lexer.addPiece s)
      | .error e => .error (.failure e) := by
  have hlength : s.source.utf8Length = s.position + t.utf8Length := by
    rw [h.source, utf8Length_append, h.position]
  -- a piece may take any number of characters, so that the induction is on what is left of the text
  induction hn : t.length using Nat.strong_induction_on generalizing s ctx before t with
  | _ n ih =>
    subst hn
    cases t with
    | nil =>
      rw [run, if_neg (by rw [hlength]; exact Nat.lt_irrefl _), Piece.cutAll]
      rfl
    | cons c t =>
      have hlt : s.position < s.source.utf8Length := by
        rw [hlength]
        exact Nat.lt_add_of_pos_right (utf8Length_pos (List.cons_ne_nil c t))
      rw [run, if_pos hlt, turn_eq h, Piece.cutAll]
      cases hp : nextPiece ctx c t with
      | error e => rfl
      | ok p =>
        obtain ⟨hne, following, hfollowing⟩ := text_nextPiece hp
        have hdrop : t.drop (p.text.length - 1) = following := by
          have hlen := List.length_pos_iff.2 hne
          rw [← List.drop_succ_cons (a := c), Nat.sub_add_cancel hlen, ← hfollowing, List.drop_left]
        rw [← hfollowing] at h hlength
        have hreached := h.addPiece (text_ne_nil_of_nextPiece hp)
        have hsource : (s.addPiece p).source.utf8Length =
            (s.addPiece p).position + utf8Length following := by
          rw [hreached.source, utf8Length_append, hreached.position]
        have hposition : (s.addPiece p).position = s.position + p.text.utf8Length := by
          rw [hreached.position, utf8Length_append, h.position]
        -- the lexer measures its progress in bytes
        have hon : (s.addPiece p).remaining < s.remaining := by
          have hpos := utf8Length_pos hne
          rw [remaining, remaining, hsource, hlength, utf8Length_append]
          omega
        have hshorter : following.length < (c :: t).length := by
          have hpos := List.length_pos_iff.2 hne
          rw [← hfollowing, List.length_append]
          omega
        have hrest := ih _ hshorter hreached hsource rfl
        dsimp only [taking, Checked.ok_bind]
        rw [if_pos hon, hrest]
        simp only [bind, Except.bind]
        rw [hdrop]
        cases Piece.cutAll (p.lexemes.foldl Context.after ctx) following <;> rfl

theorem foldl_addPiece (s : Lexer) (pieces : List Piece) :
    (pieces.foldl Lexer.addPiece s).lexemes = s.lexemes ++ pieces.flatMap Piece.lexemes ∧
    (pieces.foldl Lexer.addPiece s).docs =
      s.docs ++ DocComment.all s.lexemes.length pieces := by
  induction pieces generalizing s with
  | nil => simp [DocComment.all]
  | cons p pieces ih =>
    obtain ⟨hls, hdocs⟩ := ih (s.addPiece p)
    rw [List.foldl_cons, hls, hdocs, lexemes_addPiece]
    refine ⟨by simp, ?_⟩
    rw [Lexer.addPiece]
    cases p with
    | single l => simp [DocComment.all, Piece.lexemes]
    | docComment body =>
      have hnext : s.lexemes.length + (body.length + 1 + 1) = s.lexemes.length + 2 + body.length := by
        omega
      simp [DocComment.all, Piece.lexemes, hnext]

/-- The lexemes and doc comments of a text. -/
theorem run_start_eq (source : Text) :
    (start source).run false = match Piece.cutAll .start source with
      | .ok pieces => .ok (pieces.foldl Lexer.addPiece (start source))
      | .error e => .error (.failure e) :=
  run_eq (reached_start source)

end Lexer

end EntityLint.Bytewise
