import EntityLint.Proofs.Bounds.Turns

/-!
# Where a lexer comes to

A lexer has two loops, one over a text and one over the body of a doc comment. Here every position is
looked at that it comes to in either of them, also on its way to an error.

* `Stage`: what a lexer is in the middle of;
* `Lexer.Continues`, `ahead`, `Stage.measure`, `Lexer.Takes`: whether it goes on, the text it looks at,
  the rule it asks, and what it takes;
* `Lexer.Visits`: the positions it comes to;
* `Lexer.Stands`: what stands at such a position.

The main statement is `Lexer.measured_lengths_fit`.
-/

namespace EntityLint.Bytewise

open Lexeme Text

/-- What a lexer is in the middle of. -/
inductive Stage
  /-- A text, inside or outside of code. -/
  | text (inCode : Bool)
  /-- The body of a doc comment that ends at a byte offset, with the tags so far, and whether a line has
  just begun. -/
  | body (bodyEnd : Nat) (tags : List Nat) (lineStart : Bool)
  /-- A doc comment whose body is read. -/
  | close
  deriving DecidableEq, Repr

/-- The rule that is asked at a stage. -/
def Stage.measure : Stage → Char → Text → Checked Measure
  | text true, c, t => codeMeasure c t
  | text false, c, t => return outsideMeasure c t
  | body _ _ lineStart, c, t => return docMeasure lineStart c t
  | close, _, _ => return .docClose

namespace Lexer

/-- Whether a lexer has something left to take at a stage. -/
def Continues (s : Lexer) : Stage → Prop
  | .text _ => s.position < s.source.utf8Length
  | .body bodyEnd _ _ => s.position < bodyEnd
  | .close => True

instance (s : Lexer) : (stage : Stage) → Decidable (s.Continues stage)
  | .text _ => inferInstanceAs (Decidable (_ < _))
  | .body _ _ _ => inferInstanceAs (Decidable (_ < _))
  | .close => .isTrue True.intro

/-- The text that a lexer looks at, which in a doc comment ends with the body. -/
def ahead (s : Lexer) : Stage → Checked Text
  | .text _ | .close => s.rest
  | .body bodyEnd _ _ => cut s.source s.position bodyEnd

/-- What a lexer does at a stage is to take what a rule finds. -/
def Takes (s : Lexer) (stage : Stage) (c : Char) (t : Text) (m : Measure) : Prop :=
  match stage with
  | .text inCode => s.turn inCode = s.takeTurn c t m
  | .body _ tags lineStart => s.docTurn tags lineStart c t = s.takePart tags lineStart c t m
  | .close => s.push .docClose 2 = s.take m c t

/-- A lexer that begins with a text comes to a stage. -/
inductive Visits (source : Text) : Lexer → Stage → Prop
  | start : Visits source (.start source) (.text false)
  | turn {s s' : Lexer} {inCode inCode' : Bool} (h : Visits source s (.text inCode))
    (hs : s.Continues (.text inCode)) (hturn : s.turn inCode = .ok (s', inCode')) :
    Visits source s' (.text inCode')
  | enter {s s' : Lexer} {c : Char} {t body : Text} {length : Nat} (h : Visits source s (.text true))
    (hrest : s.rest = .ok (c :: t)) (hm : codeMeasure c t = .ok .docOpen)
    (hbody : cutFrom (c :: t) 3 = .ok body) (hlength : offsetOf? "*/".toList body = some length)
    (hopen : s.take .docOpen c t = .ok s') :
    Visits source s' (.body (s'.position + length) [] false)
  | part {s s' : Lexer} {bodyEnd : Nat} {tags tags' : List Nat} {lineStart lineStart' : Bool} {c : Char}
    {t : Text} (h : Visits source s (.body bodyEnd tags lineStart))
    (hs : s.Continues (.body bodyEnd tags lineStart))
    (hahead : s.ahead (.body bodyEnd tags lineStart) = .ok (c :: t))
    (hturn : s.docTurn tags lineStart c t = .ok (s', tags', lineStart')) :
    Visits source s' (.body bodyEnd tags' lineStart')
  | leave {s : Lexer} {bodyEnd : Nat} {tags : List Nat} {lineStart : Bool}
    (h : Visits source s (.body bodyEnd tags lineStart))
    (hs : ¬s.Continues (.body bodyEnd tags lineStart)) : Visits source s .close

/-! ### What stands there -/

/-- What stands where a lexer has come to. -/
def Stands (s : Lexer) : Stage → Prop
  | .text inCode => ∃ ctx before rest, s.Reached ctx before rest ∧ ctx.inCode = inCode
  | .body bodyEnd _ _ => ∃ ctx before body after,
      s.Reached ctx before (body ++ ("*/".toList ++ after)) ∧
      bodyEnd = before.utf8Length + body.utf8Length
  | .close => ∃ ctx before after, s.Reached ctx before ("*/".toList ++ after)

variable {source rest t : Text} {s s' : Lexer} {ctx : Context} {before : Text} {stage : Stage} {c : Char}
  {inCode inCode' lineStart lineStart' : Bool} {bodyEnd : Nat} {tags tags' : List Nat}

theorem Reached.exists_cons (h : s.Reached ctx before rest) (hs : s.position < s.source.utf8Length) :
    ∃ c t, rest = c :: t := by
  refine List.exists_cons_of_ne_nil fun hnil => ?_
  rw [h.source, hnil, List.append_nil, h.position] at hs
  exact Nat.lt_irrefl _ hs

/-- A turn comes behind a piece. -/
theorem Stands.turn (h : s.Stands (.text inCode)) (hs : s.Continues (.text inCode))
    (hturn : s.turn inCode = .ok (s', inCode')) :
    s'.source = s.source ∧ s'.Stands (.text inCode') := by
  obtain ⟨ctx, before, rest, hreached, rfl⟩ := h
  obtain ⟨c, t, rfl⟩ := hreached.exists_cons hs
  rw [turn_eq hreached] at hturn
  cases hp : nextPiece ctx c t with
  | error e =>
    rw [hp] at hturn
    cases hturn
  | ok p =>
    rw [hp] at hturn
    cases hturn
    obtain ⟨-, following, hfollowing⟩ := text_nextPiece hp
    rw [← hfollowing] at hreached
    exact ⟨by rw [addPiece, foldl_add],
      _, _, following, hreached.addPiece (text_ne_nil_of_nextPiece hp), rfl⟩

theorem take_docOpen (s : Lexer) {body : Text} {length : Nat} (hbody : cutFrom (c :: t) 3 = .ok body)
    (hlength : offsetOf? "*/".toList body = some length) :
    s.take .docOpen c t = s.push .docOpen 3 := by
  simp only [take, kindOf, Measure.length?, hbody, hlength, Checked.pure_eq, Checked.ok_bind,
    Option.map_some, Measure.kind]

/-- Behind the opening of a doc comment stands its body. -/
theorem Stands.enter {body : Text} {length : Nat} (h : s.Stands (.text true))
    (hrest : s.rest = .ok (c :: t)) (hm : codeMeasure c t = .ok .docOpen)
    (hbody : cutFrom (c :: t) 3 = .ok body) (hlength : offsetOf? "*/".toList body = some length)
    (hopen : s.take .docOpen c t = .ok s') :
    s'.source = s.source ∧ s'.Stands (.body (s'.position + length) [] false) := by
  obtain ⟨ctx, before, rest, hreached, -⟩ := h
  obtain rfl : rest = c :: t := Except.ok.inj (hreached.rest_eq.symm.trans hrest)
  obtain ⟨m, hm', hbegins⟩ := exists_codeMeasure c t
  cases hm.symm.trans hm'
  obtain ⟨u, hu⟩ := hbegins
  obtain rfl : body = u := Except.ok.inj (hbody.symm.trans (cutFrom_eq hu.symm rfl))
  obtain ⟨⟨inner, after⟩, hbreak, rfl⟩ := Option.map_eq_some_iff.1 hlength
  obtain rfl : inner ++ "*/".toList ++ after = body := append_of_breakOn hbreak
  rw [take_docOpen s hbody hlength] at hopen
  rw [← hu] at hreached
  cases hopen.symm.trans (hreached.push_eq .docOpen)
  have hadd := hreached.add .docOpen (List.cons_ne_nil _ _)
  rw [List.append_assoc] at hadd
  exact ⟨rfl, _, _, inner, after, hadd, congrArg (· + inner.utf8Length) hadd.position⟩

theorem Stands.ahead_body (h : s.Stands (.body bodyEnd tags lineStart))
    (hs : s.Continues (.body bodyEnd tags lineStart)) : ∃ ctx before c t after,
      s.Reached ctx before (c :: t ++ ("*/".toList ++ after)) ∧
      bodyEnd = before.utf8Length + utf8Length (c :: t) ∧
      s.ahead (.body bodyEnd tags lineStart) = .ok (c :: t) := by
  obtain ⟨ctx, before, body, after, hreached, rfl⟩ := h
  cases body with
  | nil => exact absurd hs (by rw [Continues, hreached.position]; exact Nat.lt_irrefl _)
  | cons c t => exact ⟨ctx, before, c, t, after, hreached, rfl,
      cut_eq hreached.source hreached.position rfl⟩

/-- A turn in a doc comment comes behind a part of its body. -/
theorem Stands.part (h : s.Stands (.body bodyEnd tags lineStart))
    (hs : s.Continues (.body bodyEnd tags lineStart))
    (hahead : s.ahead (.body bodyEnd tags lineStart) = .ok (c :: t))
    (hturn : s.docTurn tags lineStart c t = .ok (s', tags', lineStart')) :
    s'.source = s.source ∧ s'.Stands (.body bodyEnd tags' lineStart') := by
  obtain ⟨ctx, before, d, u, after, hreached, hend, hahead'⟩ := h.ahead_body hs
  cases hahead.symm.trans hahead'
  cases hturn.symm.trans (docTurn_eq hreached tags lineStart)
  obtain ⟨first, rest, htext, ht, -, hadd⟩ := hreached.add_docLexeme lineStart
  refine ⟨rfl, _, _, rest, after, hadd, ?_⟩
  have hparts : c :: t = (docLexeme lineStart c t).1.text ++ rest := by
    rw [htext, List.cons_append, ← ht]
  rw [hend, hparts, utf8Length_append, utf8Length_append, Nat.add_assoc]

/-- Behind the body of a doc comment stands its closing mark. -/
theorem Stands.leave (h : s.Stands (.body bodyEnd tags lineStart))
    (hs : ¬s.Continues (.body bodyEnd tags lineStart)) : s.Stands .close := by
  obtain ⟨ctx, before, body, after, hreached, rfl⟩ := h
  cases body with
  | nil => exact ⟨ctx, before, after, hreached⟩
  | cons c t =>
    refine absurd ?_ hs
    rw [Continues, hreached.position]
    exact Nat.lt_add_of_pos_right (utf8Length_pos (List.cons_ne_nil c t))

/-- **Where a lexer comes to, something known stands.** -/
theorem Visits.stands (h : Visits source s stage) : s.source = source ∧ s.Stands stage := by
  induction h with
  | start => exact ⟨rfl, .start, [], source, reached_start source, rfl⟩
  | turn _ hs hturn ih =>
    obtain ⟨hsource, hstands⟩ := ih.2.turn hs hturn
    exact ⟨hsource.trans ih.1, hstands⟩
  | enter _ hrest hm hbody hlength hopen ih =>
    obtain ⟨hsource, hstands⟩ := ih.2.enter hrest hm hbody hlength hopen
    exact ⟨hsource.trans ih.1, hstands⟩
  | part _ hs hahead hturn ih =>
    obtain ⟨hsource, hstands⟩ := ih.2.part hs hahead hturn
    exact ⟨hsource.trans ih.1, hstands⟩
  | leave _ hs ih => exact ⟨ih.1, ih.2.leave hs⟩

theorem Stands.exists_reached (h : s.Stands stage) : ∃ ctx before rest, s.Reached ctx before rest := by
  cases stage with
  | text inCode =>
    obtain ⟨ctx, before, rest, hreached, -⟩ := h
    exact ⟨ctx, before, rest, hreached⟩
  | body bodyEnd tags lineStart =>
    obtain ⟨ctx, before, body, after, hreached, -⟩ := h
    exact ⟨ctx, before, _, hreached⟩
  | close =>
    obtain ⟨ctx, before, after, hreached⟩ := h
    exact ⟨ctx, before, _, hreached⟩

/-- **At a stage a rule is asked where it belongs, and what it finds is taken.** -/
theorem Stands.exists_measure (h : s.Stands stage) (hs : s.Continues stage) :
    ∃ c t m, s.ahead stage = .ok (c :: t) ∧ stage.measure c t = .ok m ∧ m.Begins c t ∧
      s.Takes stage c t m := by
  cases stage with
  | text inCode =>
    obtain ⟨ctx, before, rest, hreached, -⟩ := h
    obtain ⟨c, t, rfl⟩ := hreached.exists_cons hs
    cases inCode with
    | true =>
      obtain ⟨m, hm, hbegins⟩ := exists_codeMeasure c t
      refine ⟨c, t, m, hreached.rest_eq, hm, hbegins, ?_⟩
      rw [Takes, Lexer.turn, if_pos rfl, hreached.rest_eq, Checked.ok_bind]
      dsimp only
      rw [lexCode_eq_takeTurn, hm, Checked.ok_bind]
    | false =>
      refine ⟨c, t, outsideMeasure c t, hreached.rest_eq, rfl, begins_outsideMeasure c t, ?_⟩
      rw [Takes, Lexer.turn, if_neg Bool.false_ne_true, lexOutside_eq_takeTurn hreached.rest_eq]
  | body bodyEnd tags lineStart =>
    obtain ⟨ctx, before, c, t, after, hreached, -, hahead⟩ := h.ahead_body hs
    exact ⟨c, t, docMeasure lineStart c t, hahead, rfl, begins_docMeasure lineStart c t,
      docTurn_eq_takePart s tags lineStart c t⟩
  | close =>
    obtain ⟨ctx, before, after, hreached⟩ := h
    refine ⟨'*', '/' :: after, .docClose, hreached.rest_eq, rfl, ⟨after, rfl⟩, rfl⟩

/-- **What a lexer measures fits.** Every position that a lexer comes to in a text is between two
characters. As long as there is something left, a rule is asked there, it has an answer, and what it
finds is taken: at least one byte, no more than the text has, or the body of the doc comment, and up to
a place between two characters. The scan of a string finds such a place in every text, although it takes
two bytes where there is a backslash. Both loops come to an end: the run, which would stop at a turn that
does not get on and at a cut inside of a character, comes to the pieces of the text or to the reason why
it has none. -/
theorem measured_lengths_fit (source : Text) :
    (∀ s stage, Visits source s stage →
      String.Pos.Raw.IsValid (String.ofList source) ⟨s.position⟩ ∧
      (s.Continues stage → ∃ c t m length,
        s.ahead stage = .ok (c :: t) ∧ stage.measure c t = .ok m ∧ s.Takes stage c t m ∧
        m.length? c t = .ok length ∧ ∀ n ∈ length, Fits (c :: t) n)) ∧
    (∀ quote t, isQuote quote = true → ∃ length,
      quotedLength? quote (quote :: t) = .ok length ∧ ∀ n ∈ length, Fits (quote :: t) n) ∧
    ((∃ pieces, Piece.cutAll .start source = .ok pieces ∧
        (start source).run false = .ok (pieces.foldl addPiece (start source))) ∨
      ∃ cause, Piece.cutAll .start source = .error cause ∧
        (start source).run false = .error (.failure cause)) := by
  refine ⟨fun s stage h => ⟨?_, fun hs => ?_⟩, fun quote t hquote => ?_, ?_⟩
  · obtain ⟨hsource, hstands⟩ := h.stands
    obtain ⟨ctx, before, rest, hreached⟩ := hstands.exists_reached
    rw [hreached.position, ← hsource, hreached.source]
    exact isValid_append before rest
  · obtain ⟨c, t, m, hahead, hm, hbegins, htakes⟩ := h.stands.2.exists_measure hs
    obtain ⟨length, hlength, hfits⟩ := Measure.isSound hbegins
    exact ⟨c, t, m, length, hahead, hm, htakes, hlength, hfits⟩
  · exact Measure.isSound_quoted ⟨rfl, hquote⟩
  · rw [run_start_eq]
    cases Piece.cutAll .start source with
    | ok pieces => exact .inl ⟨pieces, rfl, rfl⟩
    | error cause => exact .inr ⟨cause, rfl, rfl⟩

/-- A string in which a character of two bytes stands behind a backslash. -/
theorem measured_lengths_fit_escape : ∃ s, Visits "<?php '\\é'".toList s (.text true) ∧
    s.position = 6 ∧ s.Continues (.text true) ∧
    ∃ c t m length, s.ahead (.text true) = .ok (c :: t) ∧ Stage.measure (.text true) c t = .ok m ∧
      s.Takes (.text true) c t m ∧ m.length? c t = .ok length ∧ ∀ n ∈ length, Fits (c :: t) n := by
  have hopen : (start "<?php '\\é'".toList).turn false =
      .ok ((start "<?php '\\é'".toList).add ⟨.openTag, "<?php".toList⟩, true) := rfl
  generalize hs : (start "<?php '\\é'".toList).add ⟨.openTag, "<?php".toList⟩ = s at hopen
  have hblank : s.turn true = .ok (s.add ⟨.blank, [' ']⟩, true) := by rw [← hs]; rfl
  have hvisits : Visits "<?php '\\é'".toList s (.text true) := .turn .start (by decide) hopen
  have hcontinues : (s.add ⟨.blank, [' ']⟩).Continues (.text true) := by rw [← hs]; decide
  have hvisits' := hvisits.turn (by rw [← hs]; decide) hblank
  exact ⟨_, hvisits', by rw [← hs]; rfl, hcontinues,
    ((measured_lengths_fit _).1 _ _ hvisits').2 hcontinues⟩

end Lexer

end EntityLint.Bytewise
