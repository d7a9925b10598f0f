import EntityLint.Proofs.Token.Brackets
import EntityLint.Proofs.Token.Tolerance
import EntityLint.Rule.InterfaceSuffix

/-!
# Mended texts

The rules of the linter mend single lexemes, each in a way of its own. What stands in front of a
mended lexeme, or ends after it, is not disturbed.

* `Lexeme.Mends`, `Lexeme.MendsAt`, `MendsAll`: what a lexeme may be mended to, and what some
  lexemes in a row;
* `MendsAll.alters`: what the cutter sees of the mended text in front of it;
* `MendsAll.isChain_of_mendsAll`, `breakOn_of_isChain`: doc comments end where they did.

The main statements are `MendsAll.tolerates` and `MendsAll.exists_of_docComment`.
-/

namespace EntityLint

open Lexeme Text

/-! ### Mended lexemes -/

/-- A text that ends a line and nothing else. -/
def IsLineBreak (t : Text) : Prop := t = ['\n'] ∨ t = ['\r', '\n']

namespace Lexeme

/-- What a lexeme may be mended to, after a significant lexeme of some kind, and after a lexeme that
has a line break or not. -/
inductive Mends (last : Option Kind) (broken : Bool) (l : Lexeme) : Text → Prop
  | same : Mends last broken l l.text
  /-- A name gets a suffix. -/
  | suffix (hk : l.kind = .word) : Mends last broken l (l.text ++ InterfaceSuffix.suffix)
  /-- A string after a colon is exchanged for a name in quotes. -/
  | literal (hk : l.kind = .quoted) (hlast : last = some .colon) (name : Text)
    (hname : ∀ c ∈ name, isWordChar c = true) : Mends last broken l ('\'' :: (name ++ ['\'']))
  /-- In a doc comment, what stands in quotes is exchanged for a name. -/
  | docLiteral (hk : l.kind = .docText) (before old name after : Text)
    (htext : l.text = before ++ '"' :: (old ++ '"' :: after))
    (hbefore : ∃ c ∈ before, isSoft c = false) (hname : ∀ c ∈ name, isWordChar c = true) :
    Mends last broken l (before ++ '"' :: (name ++ '"' :: after))
  /-- A line is put above. -/
  | line (hbroken : broken = true) (lineBreak : Text) (h : IsLineBreak lineBreak) :
    Mends last broken l (lineBreak ++ l.text)

namespace Mends

variable {last : Option Kind} {broken : Bool} {l : Lexeme} {t : Text}

/-- Lexemes of most kinds are only moved to a further line. -/
theorem eq_or_line (h : l.Mends last broken t) (hk : l.kind ∉ [.word, .quoted, .docText]) :
    ∃ lineBreak, t = lineBreak ++ l.text ∧
      (lineBreak = [] ∨ broken = true ∧ IsLineBreak lineBreak) := by
  simp only [List.mem_cons, List.not_mem_nil, or_false, not_or] at hk
  cases h with
  | same => exact ⟨[], rfl, .inl rfl⟩
  | suffix h => exact absurd h hk.1
  | literal h => exact absurd h hk.2.1
  | docLiteral h => exact absurd h hk.2.2
  | line hbroken lineBreak h => exact ⟨lineBreak, rfl, .inr ⟨hbroken, h⟩⟩

/-- A part of a doc comment begins as before when it is mended in its line. -/
theorem head?_eq (h : l.Mends last false t) (hk : l.kind.isDocPart = true) :
    t.head? = l.text.head? := by
  cases h with
  | same => rfl
  | suffix h => rw [h] at hk; cases hk
  | literal h => rw [h] at hk; cases hk
  | docLiteral h before old name after htext hbefore =>
    rw [htext]
    obtain ⟨c, hc, -⟩ := hbefore
    cases before with
    | nil => cases hc
    | cons d before => rfl
  | line h => cases h

end Mends

/-- The kind of the last significant lexeme after one more. -/
def lastAfter (last : Option Kind) (l : Lexeme) : Option Kind :=
  if l.kind.isTrivia then last else some l.kind

theorem foldl_lastAfter_of_isTrivia {ls : List Lexeme} (h : ∀ l ∈ ls, l.kind.isTrivia = true)
    (last : Option Kind) : ls.foldl lastAfter last = last := by
  induction ls with
  | nil => rfl
  | cons l ls ih =>
    obtain ⟨hl, hls⟩ := List.forall_mem_cons.1 h
    rw [List.foldl_cons, lastAfter, if_pos hl, ih hls]

/-- Whether a lexeme has a line break. -/
def breaksLine (l : Lexeme) : Bool := l.text.contains '\n'

theorem breaksLine_iff {l : Lexeme} : l.breaksLine = true ↔ '\n' ∈ l.text := List.contains_iff_mem

/-- What the lexeme at an index may be mended to, after those before it. -/
def MendsAt (ls : List Lexeme) (i : ℕ) (t : Text) : Prop :=
  ∃ l, ls[i]? = some l ∧
    l.Mends ((ls.take i).foldl lastAfter none) ((ls.take i).getLast?.any breaksLine) t

end Lexeme

/-- What some lexemes in a row may be mended to. -/
inductive MendsAll : Option Kind → Bool → List Lexeme → List Text → Prop
  | nil {last broken} : MendsAll last broken [] []
  | cons {last broken l t ls ts} (h : Lexeme.Mends last broken l t)
    (hs : MendsAll (lastAfter last l) l.breaksLine ls ts) : MendsAll last broken (l :: ls) (t :: ts)

namespace MendsAll

variable {last : Option Kind} {broken : Bool} {l : Lexeme} {ls ls' : List Lexeme} {t : Text}
  {ts : List Text}

theorem exists_of_append (h : MendsAll last broken (ls ++ ls') ts) :
    ∃ ts₁ ts₂ broken', ts = ts₁ ++ ts₂ ∧ MendsAll last broken ls ts₁ ∧
      MendsAll (ls.foldl lastAfter last) broken' ls' ts₂ := by
  induction ls generalizing last broken ts with
  | nil => exact ⟨[], ts, broken, rfl, .nil, h⟩
  | cons l ls ih =>
    cases h with
    | cons hl hs =>
      obtain ⟨ts₁, ts₂, broken', rfl, h₁, h₂⟩ := ih hs
      exact ⟨_ :: ts₁, ts₂, broken', rfl, .cons hl h₁, h₂⟩

/-- Lexemes can be mended one by one. -/
theorem of_forall (hlen : ts.length = ls.length)
    (h : ∀ (i : ℕ) (l : Lexeme) (t : Text), ls[i]? = some l → ts[i]? = some t →
      l.Mends ((ls.take i).foldl lastAfter last)
        (((ls.take i).getLast?.map breaksLine).getD broken) t) : MendsAll last broken ls ts := by
  induction ls generalizing last broken ts with
  | nil =>
    rw [List.eq_nil_of_length_eq_zero hlen]
    exact .nil
  | cons l ls ih =>
    cases ts with
    | nil => cases hlen
    | cons t ts =>
      refine .cons (h 0 l t rfl rfl) (ih (Nat.succ.inj hlen) fun i l' t' hl' ht' => ?_)
      have hmends := h (i + 1) l' t' hl' ht'
      rw [List.take_succ_cons, List.foldl_cons, List.getLast?_cons] at hmends
      cases hlast : (ls.take i).getLast? with
      | none => rwa [hlast] at hmends
      | some l'' => rwa [hlast] at hmends

theorem of_mendsAt (hlen : ts.length = ls.length)
    (h : ∀ i t, ts[i]? = some t → Lexeme.MendsAt ls i t) : MendsAll none false ls ts := by
  refine of_forall hlen fun i l t hl ht => ?_
  obtain ⟨l', hl', hmends⟩ := h i t ht
  cases hl.symm.trans hl'
  cases hlast : (ls.take i).getLast? with
  | none => rwa [hlast] at hmends
  | some l'' => rwa [hlast] at hmends

/-- How a mended text differs from the old one where it begins. -/
theorem alters (h : MendsAll last broken ls ts) (hregular : ∀ l ∈ ls, l.Regular) :
    view (ls.flatMap text) = view ts.flatten ∨
    (broken = true ∧ ∃ c t, ts.flatten = c :: t ∧ isLineEnd c = true) ∨
    last = some .colon ∧ ∃ s q t t', (isQuote q = true ∨ q = '<') ∧
      ls.flatMap text = s ++ q :: t ∧ ts.flatten = s ++ '\'' :: t' := by
  -- what comes later shows only behind a lexeme that is kept and has soft characters alone
  induction h with
  | nil => exact .inl rfl
  | @cons last broken l t ls ts hl hs ih =>
    obtain ⟨hl', hregular⟩ := List.forall_mem_cons.1 hregular
    rw [List.flatMap_cons, List.flatten_cons]
    cases hl with
    | same =>
      rcases ih hregular with hview | ⟨hbroken, -⟩ | ⟨hlast, s, q, u, u', hq, hold, hnew⟩
      · exact .inl (view_append_congr hview _)
      · exact .inl (view_append_of_mem ⟨'\n', breaksLine_iff.1 hbroken, rfl⟩ _ _)
      · unfold lastAfter at hlast
        split at hlast
        · refine .inr (.inr ⟨hlast, l.text ++ s, q, u, u', hq, ?_, ?_⟩)
          · rw [hold, List.append_assoc]
          · rw [hnew, List.append_assoc]
        · exact .inl (view_append_of_mem (hl'.colon (Option.some.inj hlast)) _ _)
    | suffix hk =>
      obtain ⟨hstart, -⟩ := hl'.word hk
      rw [List.append_assoc]
      refine .inl (view_append_of_mem ?_ _ _)
      cases htext : l.text with
      | nil => rw [htext] at hstart; cases hstart
      | cons c u =>
        rw [htext] at hstart
        exact ⟨c, List.mem_cons_self, isSoft_eq_false_of_isWordStart hstart⟩
    | literal hk hlast name hname =>
      obtain ⟨q, u, htext, hq⟩ := hl'.quoted hk
      exact .inr (.inr ⟨hlast, [], q, u ++ ls.flatMap text, _, hq, by rw [htext]; rfl, rfl⟩)
    | docLiteral hk before old name after htext hbefore hname =>
      rw [htext, List.append_assoc, List.append_assoc]
      exact .inl (view_append_of_mem hbefore _ _)
    | line hbroken lineBreak h =>
      rcases h with rfl | rfl
      · exact .inr (.inl ⟨hbroken, '\n', _, rfl, rfl⟩)
      · exact .inr (.inl ⟨hbroken, '\r', _, rfl, rfl⟩)

/-- A lexeme tolerates that what follows it is mended. -/
theorem tolerates (h : MendsAll (lastAfter last l) l.breaksLine ls ts)
    (hregular : ∀ l ∈ ls, l.Regular) : l.Tolerates (ls.flatMap text) ts.flatten := by
  rcases h.alters hregular with hview | ⟨hbroken, c, t, hnew, hc⟩ |
    ⟨hlast, s, q, t, t', hq, hold, hnew⟩
  · exact .view hview
  · exact .line (breaksLine_iff.1 hbroken) c t hnew hc
  · refine .literal ?_ s q t t' hq hold hnew
    unfold lastAfter at hlast
    split at hlast
    · next htrivia => exact .inr htrivia
    · exact .inl (Option.some.inj hlast)

end MendsAll

/-! ### Doc comments -/

/-- Whether two characters do not make up the end of a comment. -/
def Apart (a b : Char) : Prop := ¬(a = '*' ∧ b = '/')

/-- Whether a character is no part of the end of a comment. -/
def IsNeutral (c : Char) : Prop := c ≠ '*' ∧ c ≠ '/'

theorem Apart.of_neutral {a b : Char} (h : IsNeutral a ∨ IsNeutral b) : Apart a b := by
  rintro ⟨ha, hb⟩
  exact h.elim (fun h => h.1 ha) fun h => h.2 hb

theorem isNeutral_of_isWordChar {c : Char} (h : isWordChar c = true) : IsNeutral c := by
  constructor <;> rintro rfl <;> cases h

theorem IsLineBreak.ne_nil {t : Text} (h : IsLineBreak t) : t ≠ [] := by
  rcases h with rfl | rfl <;> exact List.cons_ne_nil _ _

theorem IsLineBreak.isNeutral {t : Text} (h : IsLineBreak t) : ∀ c ∈ t, IsNeutral c := by
  rcases h with rfl | rfl <;> simp [IsNeutral]

theorem isChain_of_isNeutral {t : Text} (h : ∀ c ∈ t, IsNeutral c) : t.IsChain Apart :=
  List.Pairwise.isChain (List.pairwise_of_forall_mem_list fun a ha _ _ => .of_neutral (.inl (h a ha)))

/-- Neutral characters may be put anywhere. -/
theorem isChain_insert {a m b : Text} (h : (a ++ b).IsChain Apart) (hm : ∀ c ∈ m, IsNeutral c)
    (hne : m ≠ []) : (a ++ (m ++ b)).IsChain Apart := by
  obtain ⟨ha, hb, -⟩ := List.isChain_append.1 h
  refine List.isChain_append.2 ⟨ha, List.isChain_append.2 ⟨isChain_of_isNeutral hm, hb, ?_⟩, ?_⟩
  · exact fun x hx y _ => .of_neutral (.inl (hm x (List.mem_of_getLast? hx)))
  · intro x _ y hy
    rw [List.head?_append_of_ne_nil _ hne] at hy
    exact .of_neutral (.inr (hm y (List.mem_of_head? hy)))

/-- What stands between two neutral characters may be exchanged. -/
theorem isChain_exchange {a old new b : Text} {q : Char} (hq : IsNeutral q)
    (h : (a ++ q :: (old ++ q :: b)).IsChain Apart) (hnew : ∀ c ∈ new, IsNeutral c) :
    (a ++ q :: (new ++ q :: b)).IsChain Apart := by
  obtain ⟨ha, h⟩ := List.isChain_split.1 h
  rw [← List.cons_append] at h
  obtain ⟨-, hb⟩ := List.isChain_split.1 h
  refine List.isChain_split.2 ⟨ha, ?_⟩
  rw [← List.cons_append]
  refine List.isChain_split.2 ⟨isChain_of_isNeutral fun c hc => ?_, hb⟩
  rcases List.mem_append.1 hc with hc | hc
  · exact (List.mem_cons.1 hc).elim (fun h => h ▸ hq) (hnew c)
  · exact List.mem_singleton.1 hc ▸ hq

theorem breakOn_of_isChain {body : Text} (h : (body ++ ['*']).IsChain Apart) (rest : Text) :
    breakOn "*/".toList (body ++ "*/".toList ++ rest) = some (body, rest) := by
  induction body with
  | nil => cases rest <;> rfl
  | cons c body ih =>
    rw [List.cons_append] at h
    obtain ⟨hhead, htail⟩ := List.isChain_cons.1 h
    have hnone : stripLeading? "*/".toList (c :: (body ++ "*/".toList ++ rest)) = none := by
      cases hstrip : stripLeading? "*/".toList (c :: (body ++ "*/".toList ++ rest)) with
      | none => rfl
      | some s =>
        obtain ⟨rfl, htext⟩ := List.cons.inj (append_of_stripLeading? hstrip)
        have hslash : '/' ∈ (body ++ ['*']).head? := by
          cases body with
          | nil => cases htext
          | cons d body =>
            obtain ⟨rfl, -⟩ := List.cons.inj htext
            rfl
        exact absurd ⟨rfl, rfl⟩ (hhead _ hslash)
    rw [List.cons_append, List.cons_append, breakOn, hnone, ih htail]
    rfl

theorem isChain_of_breakOn {t body rest : Text}
    (h : breakOn "*/".toList t = some (body, rest)) : (body ++ ['*']).IsChain Apart := by
  induction t generalizing body with
  | nil => cases h
  | cons c t ih =>
    rw [breakOn] at h
    split at h
    · cases h
      exact List.isChain_singleton _
    · next hnone =>
      obtain ⟨⟨b, a⟩, hba, heq⟩ := Option.map_eq_some_iff.1 h
      cases heq
      refine List.isChain_cons.2 ⟨?_, ih hba⟩
      rintro d hd ⟨rfl, rfl⟩
      obtain rfl := append_of_breakOn hba
      cases b with
      | nil => cases hd
      | cons e b =>
        obtain rfl : e = '/' := Option.some.inj hd
        cases hnone.symm.trans (stripLeading?_append "*/".toList (b ++ "*/".toList ++ rest))

namespace MendsAll

variable {last : Option Kind} {broken : Bool} {ls : List Lexeme} {ts : List Text}

/-- No end of a comment comes up when the parts of a doc comment are mended. -/
theorem isChain_of_mendsAll (h : MendsAll last broken ls ts)
    (hdoc : ∀ l ∈ ls, l.kind.isDocPart = true) (before after : Text)
    (hchain : (before ++ (ls.flatMap text ++ after)).IsChain Apart) :
    (before ++ (ts.flatten ++ after)).IsChain Apart := by
  induction h generalizing before with
  | nil => exact hchain
  | @cons last broken l t ls ts hl hs ih =>
    obtain ⟨hkind, hdoc⟩ := List.forall_mem_cons.1 hdoc
    rw [List.flatMap_cons, List.append_assoc] at hchain
    rw [List.flatten_cons, List.append_assoc, ← List.append_assoc]
    -- the parts already mended are taken as text in front of the others
    refine ih hdoc (before ++ t) ?_
    rw [List.append_assoc]
    cases hl with
    | same => exact hchain
    | suffix hk => rw [hk] at hkind; cases hkind
    | literal hk => rw [hk] at hkind; cases hkind
    | docLiteral hk a old name b htext hbefore hname =>
      have hquote : IsNeutral '"' := by constructor <;> decide
      rw [htext] at hchain
      have hold : ((before ++ a) ++ '"' :: (old ++ '"' :: (b ++ (ls.flatMap text ++ after)))).IsChain
          Apart := by simpa using hchain
      have hnew := isChain_exchange hquote hold fun c hc => isNeutral_of_isWordChar (hname c hc)
      simpa using hnew
    | line hbroken lineBreak h =>
      rw [List.append_assoc]
      exact isChain_insert hchain h.isNeutral h.ne_nil

/-- A mended doc comment is one that begins in the same way and ends where the old one does. -/
theorem exists_of_docComment {d : Char} {u : Text} (hchain : (d :: u ++ ['*']).IsChain Apart)
    (h : MendsAll last false ((Piece.docComment (docLexemes false (d :: u))).lexemes ++ ls) ts) :
    ∃ body' ts', ts.flatten = "/**".toList ++ body' ++ "*/".toList ++ ts'.flatten ∧
      body'.head? = some d ∧ (body' ++ ['*']).IsChain Apart ∧ MendsAll last false ls ts' := by
  have htrivia : ∀ k : Kind, k ∈ [.docBlank, .docStar, .docTag, .docText] →
      k.isTrivia = true ∧ k.isDocPart = true := by decide
  have hparts : ∀ l ∈ docLexemes false (d :: u), l.kind.isTrivia = true ∧ l.kind.isDocPart = true :=
    fun l hl => htrivia _ (mem_docLexemes hl).2
  have hchain' : ([] ++ ((docLexemes false (d :: u)).flatMap text ++ ['*'])).IsChain Apart := by
    rw [lexemes_text_docLexemes]
    exact hchain
  rw [Piece.lexemes, List.cons_append, List.append_assoc] at h
  cases h with
  | @cons _ _ _ topen _ ts hopen hs =>
    obtain ⟨_, rfl, rfl | ⟨hbroken, -⟩⟩ := hopen.eq_or_line (by decide)
    · obtain ⟨parts, _, _, rfl, hbody, hrest⟩ := exists_of_append hs
      rw [show lastAfter last Piece.docOpening = last from rfl,
        foldl_lastAfter_of_isTrivia fun l hl => (hparts l hl).1] at hrest
      have hhead : parts.flatten.head? = some d := by
        rw [docLexemes] at hbody hparts
        cases hbody with
        | cons hfirst _ =>
          obtain ⟨n, hn⟩ := docLexeme_text false d u
          have := hfirst.head?_eq (hparts _ List.mem_cons_self).2
          rw [hn] at this
          rw [List.flatten_cons, List.head?_append, this]
          rfl
      have hbodyChain := hbody.isChain_of_mendsAll (fun l hl => (hparts l hl).2) [] ['*'] hchain'
      cases hrest with
      | @cons _ _ _ tclose _ ts' hclose hrest =>
        obtain ⟨lineBreak, rfl, hline⟩ := hclose.eq_or_line (by decide)
        refine ⟨parts.flatten ++ lineBreak, ts', ?_, ?_, ?_, hrest⟩
        · simp [Piece.docOpening, Piece.docClosing]
        · rw [List.head?_append, hhead]
          rfl
        · rcases hline with rfl | ⟨-, hline⟩
          · rwa [List.append_nil]
          · rw [List.append_assoc]
            exact isChain_insert hbodyChain hline.isNeutral hline.ne_nil
    · cases hbroken

end MendsAll

end EntityLint
