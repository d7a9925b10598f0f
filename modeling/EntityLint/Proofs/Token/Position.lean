import EntityLint.Proofs.Token.Stream
import Mathlib

/-!
# Positions in a token stream

A position is carried along while a text is cut. Here it is shown to be what one would count in the
text before a token: its line feeds, the characters after the last of them, and its bytes.

* `Position.after_start`: the position after a text, counted at once;
* `Token.Covers`: the tokens of a text make it up, none is empty, and each is where it says. This
  holds of every token stream.
-/

namespace EntityLint

/-- The bytes of a text are those of the string it makes. -/
theorem Text.utf8ByteSize_ofList (t : Text) : (String.ofList t).utf8ByteSize = t.utf8Length := by
  induction t with
  | nil => rfl
  | cons c t ih =>
    rw [← List.singleton_append, String.ofList_append, String.utf8ByteSize_append, ih]
    simp

/-- The characters of a text after its last line feed. -/
def Text.lastLine (t : Text) : Text := t.rtakeWhile (· != '\n')

namespace Position

theorem after_append (p : Position) (s t : Text) : p.after (s ++ t) = (p.after s).after t :=
  List.foldl_append

theorem next_eq (p : Position) (c : Char) :
    p.next c = ⟨p.line + [c].count '\n', if c = '\n' then 1 else p.column + 1,
      p.offset + c.utf8Size⟩ := by
  unfold next
  split_ifs with h
  · rw [h]; rfl
  · rw [List.count_singleton, if_neg (by simpa using h)]; rfl

/-- The position after a text from its beginning, counted at once. -/
theorem after_start (t : Text) :
    start.after t = ⟨1 + t.count '\n', 1 + t.lastLine.length, t.utf8Length⟩ := by
  induction t using List.reverseRecOn with
  | nil => rfl
  | append_singleton t c ih =>
    rw [after_append, ih]
    show next _ c = _
    rw [next_eq, List.count_append, Text.utf8Length_append, Text.lastLine, Text.lastLine]
    congr 1
    · simp only [Nat.add_assoc]
    · split_ifs with h
      · rw [List.rtakeWhile_concat_neg _ _ _ (by simp [h])]; rfl
      · rw [List.rtakeWhile_concat_pos _ _ _ (by simpa using h), List.length_append]; rfl

/-- Each text of a list begins where those before it end. -/
theorem getElem?_ofTexts (p : Position) (texts : List Text) {i : ℕ} (hi : i < texts.length) :
    (p.ofTexts texts)[i]? = some (p.after (texts.take i).flatten) := by
  induction texts generalizing p i with
  | nil => simp at hi
  | cons t texts ih =>
    cases i with
    | zero => rfl
    | succ i =>
      rw [ofTexts, List.getElem?_cons_succ, ih _ (by simpa using hi), ← after_append]
      rfl

end Position

/-- What a token stream says of the text it was made of: its tokens make the text up, none of them
is empty, and each is where it says. Its offset counts the bytes before it, its line the line feeds
before it, and its column the characters after the last of these. -/
structure Token.Covers (source : Text) (tokens : List Token) : Prop where
  text : tokens.flatMap Token.text = source
  ne_nil : ∀ t ∈ tokens, t.text ≠ []
  position : ∀ (i : ℕ) (hi : i < tokens.length),
    let before : Text := (tokens.take i).flatMap Token.text
    tokens[i].position.offset = (String.ofList before).utf8ByteSize ∧
      tokens[i].position.line = 1 + before.count '\n' ∧
      tokens[i].position.column = 1 + before.lastLine.length

/-- The tokens of some lexemes cover the text that these are cut from, however they are paired. -/
theorem Token.covers_ofLexemes {source : Text} {ls : List Lexeme} (hls : Lexeme.ofSource source = .ok ls)
    (docs : List DocComment) (pairs : Pairing.Pairs) :
    Token.Covers source (Token.ofLexemes ls docs pairs) := by
  have htexts := Token.text_ofLexemes ls docs pairs
  refine ⟨?_, fun t ht => ?_, fun i hi => ?_⟩
  · rw [List.flatMap_def, htexts, ← List.flatMap_def, Lexeme.text_ofSource hls]
  · have hmem : t.text ∈ ls.map Lexeme.text := htexts ▸ List.mem_map_of_mem ht
    obtain ⟨l, hl, htext⟩ := List.mem_map.1 hmem
    exact htext ▸ (Lexeme.mem_ofSource hls l hl).1
  · intro before
    obtain ⟨l, -, hdesc⟩ := Token.describes_of_getElem? (List.getElem?_eq_getElem hi)
    have hbefore : before = ((ls.map Lexeme.text).take i).flatten := by
      rw [← htexts, ← List.map_take, ← List.flatMap_def]
    have hi' : i < (ls.map Lexeme.text).length := by
      rwa [List.length_map, ← Token.length_ofLexemes ls docs pairs]
    have hpos : (Token.ofLexemes ls docs pairs)[i].position = Position.start.after before := by
      rw [hdesc.position, Position.getElem?_ofTexts _ _ hi', hbefore]
      rfl
    rw [hpos, Position.after_start, Text.utf8ByteSize_ofList]
    exact ⟨rfl, rfl, rfl⟩

/-- **The tokens of a text cover it.** -/
theorem covers_of_tokenize {source : Text} {tokens : List Token}
    (h : tokenize source = .ok tokens) : Token.Covers source tokens := by
  obtain ⟨ls, docs, pairs, hls, -, rfl⟩ := exists_lexemes_of_tokenize h
  exact Token.covers_ofLexemes hls docs pairs

/-- The tokens of a text with a doc comment, both line ends and a character of two bytes. -/
theorem covers_docComment : ∃ tokens,
    tokenize "a<?php\r\n/** é\n*/'é';".toList = .ok tokens ∧
      Token.Covers "a<?php\r\n/** é\n*/'é';".toList tokens := by
  obtain ⟨tokens, h⟩ : ∃ tokens, tokenize "a<?php\r\n/** é\n*/'é';".toList = .ok tokens :=
    ⟨_, by cbv⟩
  exact ⟨tokens, h, covers_of_tokenize h⟩

end EntityLint
