import EntityLint.Proofs.Text.Trimmed
import EntityLint.Proofs.Token.Recut

/-!
# Recast texts

A text is *recast* when each of its lexemes is mended where it stands, so that no line is added and no
name gets longer. It is *retold* when names get longer too, but none that a word before it looks at. A
retold text is cut into lexemes of the same kinds as the old one.

* `Lexeme.Recasts`, `RecastAll`: what a lexeme may be recast to, and what some lexemes in a row;
* `BeginsName`, `Retold`: what a word looks at, and what some lexemes in a row may be retold as;
* `DocPart`, `docLexemes_append`: the parts of doc comments, rule by rule;
* `docLexemes_recast`: the parts of a recast doc comment;
* `Kept`: pieces of the same kinds;
* `Context.Recovers`, `recovers_of_cutAll`: the pieces of the retold text, by induction on the old
  ones.

The main statement is `exists_kept_of_retold`.
-/

namespace EntityLint

open Lexeme Text

/-! ### Recast lexemes -/

namespace Lexeme

/-- What a lexeme may be recast to, after a significant lexeme of some kind. -/
inductive Recasts (last : Option Kind) (l : Lexeme) : Text → Prop
  | same : Recasts last l l.text
  /-- A string after a colon is exchanged for a name in quotes. -/
  | literal (hk : l.kind = .quoted) (hlast : last = some .colon) (name : Text)
    (hname : ∀ c ∈ name, isWordChar c = true) : Recasts last l ('\'' :: (name ++ ['\'']))
  /-- In a doc comment, what stands in quotes is exchanged for a name. -/
  | docLiteral (hk : l.kind = .docText) (before old name after : Text)
    (htext : l.text = before ++ '"' :: (old ++ '"' :: after))
    (hbefore : ∃ c ∈ before, isSoft c = false ∧ isBlank c = false)
    (hname : ∀ c ∈ name, isWordChar c = true) :
    Recasts last l (before ++ '"' :: (name ++ '"' :: after))

namespace Recasts

variable {last : Option Kind} {l : Lexeme} {t : Text}

theorem mends (h : l.Recasts last t) (broken : Bool) : l.Mends last broken t := by
  cases h with
  | same => exact .same
  | literal hk hlast name hname => exact .literal hk hlast name hname
  | docLiteral hk before old name after htext hbefore hname =>
    obtain ⟨c, hc, hsoft, -⟩ := hbefore
    exact .docLiteral hk before old name after htext ⟨c, hc, hsoft⟩ hname

/-- Only strings and the texts of doc comments are recast to something else. -/
theorem eq_text (h : l.Recasts last t) (hk : l.kind ∉ [.quoted, .docText]) : t = l.text := by
  simp only [List.mem_cons, List.not_mem_nil, or_false, not_or] at hk
  cases h with
  | same => rfl
  | literal h => exact absurd h hk.1
  | docLiteral h => exact absurd h hk.2

end Recasts

end Lexeme

/-- What some lexemes in a row may be recast to. -/
inductive RecastAll : Option Kind → List Lexeme → List Text → Prop
  | nil {last} : RecastAll last [] []
  | cons {last l t ls ts} (h : Lexeme.Recasts last l t) (hs : RecastAll (lastAfter last l) ls ts) :
    RecastAll last (l :: ls) (t :: ts)

namespace RecastAll

variable {last : Option Kind} {ls ls' : List Lexeme} {ts : List Text}

theorem mendsAll (h : RecastAll last ls ts) (broken : Bool) : MendsAll last broken ls ts := by
  induction h generalizing broken with
  | nil => exact .nil
  | cons h _ ih => exact .cons (h.mends broken) (ih _)

theorem exists_of_append (h : RecastAll last (ls ++ ls') ts) :
    ∃ ts₁ ts₂, ts = ts₁ ++ ts₂ ∧ RecastAll last ls ts₁ ∧
      RecastAll (ls.foldl lastAfter last) ls' ts₂ := by
  induction ls generalizing last ts with
  | nil => exact ⟨[], ts, rfl, .nil, h⟩
  | cons l ls ih =>
    cases h with
    | cons hl hs =>
      obtain ⟨ts₁, ts₂, rfl, h₁, h₂⟩ := ih hs
      exact ⟨_ :: ts₁, ts₂, rfl, .cons hl h₁, h₂⟩

/-- Lexemes can be recast one by one. -/
theorem of_forall (hlen : ts.length = ls.length)
    (h : ∀ (i : ℕ) (l : Lexeme) (t : Text), ls[i]? = some l → ts[i]? = some t →
      l.Recasts ((ls.take i).foldl lastAfter last) t) : RecastAll last ls ts := by
  induction ls generalizing last ts with
  | nil =>
    rw [List.eq_nil_of_length_eq_zero hlen]
    exact .nil
  | cons l ls ih =>
    cases ts with
    | nil => cases hlen
    | cons t ts =>
      refine .cons (h 0 l t rfl rfl) (ih (Nat.succ.inj hlen) fun i l' t' hl' ht' => ?_)
      have hrecasts := h (i + 1) l' t' hl' ht'
      rwa [List.take_succ_cons, List.foldl_cons] at hrecasts

end RecastAll

/-! ### The first character that is not blank -/

theorem head?_trimStart_append {u : Text} (hu : ∃ c ∈ u, isBlank c = false) (t t' : Text) :
    (trimStart (u ++ t)).head? = (trimStart (u ++ t')).head? := by
  induction u with
  | nil =>
    obtain ⟨c, hc, -⟩ := hu
    cases hc
  | cons d u ih =>
    rw [trimStart, trimStart, List.cons_append, List.cons_append, List.dropWhile_cons,
      List.dropWhile_cons]
    split
    · next hd =>
      obtain ⟨c, hc, hblank⟩ := hu
      rcases List.mem_cons.1 hc with rfl | hc
      · rw [hd] at hblank
        cases hblank
      · exact ih ⟨c, hc, hblank⟩
    · rfl

/-- Whether a text begins with a name, apart from blanks. The word `enum` looks at it. -/
def BeginsName (t : Text) : Prop := (trimStart t).head?.any isWordStart = true

theorem beginsName_append_of_blank {u : Text} (hu : ∀ c ∈ u, isBlank c = true) (t : Text) :
    BeginsName (u ++ t) ↔ BeginsName t := by
  rw [BeginsName, BeginsName, trimStart, trimStart, List.dropWhile_append_of_pos hu]

theorem BeginsName.append {u t t' : Text} (h : BeginsName (u ++ t))
    (hrest : BeginsName t → BeginsName t') : BeginsName (u ++ t') := by
  by_cases hu : ∃ c ∈ u, isBlank c = false
  · rwa [BeginsName, head?_trimStart_append hu t' t]
  · have hblank : ∀ c ∈ u, isBlank c = true := by simpa using hu
    rw [beginsName_append_of_blank hblank] at h ⊢
    exact hrest h

theorem not_beginsName_cons {c : Char} (hblank : isBlank c = false) (hc : isWordStart c = false)
    (t : Text) : ¬BeginsName (c :: t) := by
  rw [BeginsName, trimStart, List.dropWhile_cons, hblank]
  simp [hc]

/-- No name comes up or is lost where a lexeme is recast. -/
theorem Lexeme.Recasts.beginsName_iff {last : Option Kind} {l : Lexeme} {t : Text}
    (h : l.Recasts last t) (hl : l.Regular) (rest : Text) :
    BeginsName (l.text ++ rest) ↔ BeginsName (t ++ rest) := by
  cases h with
  | same => rfl
  | literal hk =>
    obtain ⟨q, u, htext, hq⟩ := hl.quoted hk
    have hq' : q = '\'' ∨ q = '"' ∨ q = '\x60' ∨ q = '<' := by
      simpa [isQuote, or_assoc] using hq
    rw [htext]
    refine iff_of_false ?_ (not_beginsName_cons rfl rfl _)
    rcases hq' with rfl | rfl | rfl | rfl <;> exact not_beginsName_cons rfl rfl _
  | docLiteral hk before old name after htext hbefore hname =>
    obtain ⟨c, hc, -, hblank⟩ := hbefore
    rw [htext, List.append_assoc, List.append_assoc, BeginsName, BeginsName,
      head?_trimStart_append ⟨c, hc, hblank⟩]

/-- A recast text begins with a name only if the old one does. -/
theorem RecastAll.beginsName {last : Option Kind} {ls : List Lexeme} {ts : List Text}
    (h : RecastAll last ls ts) (hregular : ∀ l ∈ ls, l.Regular) (hbegins : BeginsName ts.flatten) :
    BeginsName (ls.flatMap text) := by
  induction h with
  | nil => exact hbegins
  | cons hl _ ih =>
    obtain ⟨hl', hregular⟩ := List.forall_mem_cons.1 hregular
    rw [List.flatten_cons] at hbegins
    rw [List.flatMap_cons]
    exact ((hl.beginsName_iff hl' _).2 hbegins).append (ih hregular)

/-- No name comes up where texts get longer, unless one gets longer behind blanks alone. -/
theorem beginsName_of_forall {ls : List Lexeme} {ts : List Text} (hlen : ts.length = ls.length)
    (h : ∀ (i : ℕ) (l : Lexeme) (t : Text), ls[i]? = some l → ts[i]? = some t → l.text <+: t ∧
      ((∀ l' ∈ ls.take (i + 1), ∀ c ∈ l'.text, isBlank c = true) → t = l.text))
    (hbegins : BeginsName ts.flatten) : BeginsName (ls.flatMap text) := by
  induction ls generalizing ts with
  | nil =>
    rw [List.eq_nil_of_length_eq_zero hlen] at hbegins
    exact hbegins
  | cons l ls ih =>
    cases ts with
    | nil => cases hlen
    | cons t ts =>
      obtain ⟨⟨u, rfl⟩, hsame⟩ := h 0 l t rfl rfl
      rw [List.flatten_cons, List.append_assoc] at hbegins
      rw [List.flatMap_cons]
      by_cases hl : ∃ c ∈ l.text, isBlank c = false
      · rwa [BeginsName, head?_trimStart_append hl _ (u ++ ts.flatten)]
      · have hblank : ∀ c ∈ l.text, isBlank c = true := by simpa using hl
        have hu : u = [] := by simpa using hsame (by simpa using hblank)
        rw [hu, List.nil_append, beginsName_append_of_blank hblank] at hbegins
        rw [beginsName_append_of_blank hblank]
        refine ih (Nat.succ.inj hlen) (fun i l' t' hl' ht' => ?_) hbegins
        obtain ⟨hlonger, hsame'⟩ := h (i + 1) l' t' hl' ht'
        refine ⟨hlonger, fun hall => hsame' ?_⟩
        rw [List.take_succ_cons]
        exact List.forall_mem_cons.2 ⟨hblank, hall⟩

/-! ### Names that get longer -/

/-- What some lexemes in a row may be retold as. A lexeme is recast, or it is a name and gets a suffix.
A name that stays is not followed by one that begins where blanks were before. -/
inductive Retold : Option Kind → List Lexeme → List Text → Prop
  | nil {last} : Retold last [] []
  | recast {last l t ls ts} (h : Lexeme.Recasts last l t)
    (hword : l.kind = .word → BeginsName ts.flatten → BeginsName (ls.flatMap text))
    (hs : Retold (lastAfter last l) ls ts) : Retold last (l :: ls) (t :: ts)
  | suffix {last l ls ts} (hk : l.kind = .word) (hs : Retold (lastAfter last l) ls ts) :
    Retold last (l :: ls) ((l.text ++ InterfaceSuffix.suffix) :: ts)

theorem RecastAll.retold {last : Option Kind} {ls : List Lexeme} {ts : List Text}
    (h : RecastAll last ls ts) (hregular : ∀ l ∈ ls, l.Regular) : Retold last ls ts := by
  induction h with
  | nil => exact .nil
  | cons hl hs ih =>
    obtain ⟨-, hregular⟩ := List.forall_mem_cons.1 hregular
    exact .recast hl (fun _ => hs.beginsName hregular) (ih hregular)

namespace Retold

variable {last : Option Kind} {l : Lexeme} {ls ls' : List Lexeme} {ts : List Text}

/-- How the first lexeme is retold. -/
theorem exists_cons (h : Retold last (l :: ls) ts) : ∃ t ts', ts = t :: ts' ∧
    l.Mends last false t ∧ Retold (lastAfter last l) ls ts' ∧
    (l.kind ≠ .word → l.Recasts last t) ∧
    (l.kind = .word → t = l.text ++ InterfaceSuffix.suffix ∨
      t = l.text ∧ (BeginsName ts'.flatten → BeginsName (ls.flatMap text))) := by
  cases h with
  | recast h hword hs =>
    exact ⟨_, _, rfl, h.mends false, hs, fun _ => h,
      fun hk => .inr ⟨h.eq_text (by rw [hk]; decide), hword hk⟩⟩
  | suffix hk hs => exact ⟨_, _, rfl, .suffix hk, hs, fun h => absurd hk h, fun _ => .inl rfl⟩

theorem mendsAll (h : Retold last ls ts) (broken : Bool) : MendsAll last broken ls ts := by
  induction h generalizing broken with
  | nil => exact .nil
  | recast h _ _ ih => exact .cons (h.mends broken) (ih _)
  | suffix hk _ ih => exact .cons (.suffix hk) (ih _)

theorem exists_of_append (h : Retold last (ls ++ ls') ts) (hword : ∀ l ∈ ls, l.kind ≠ .word) :
    ∃ ts₁ ts₂, ts = ts₁ ++ ts₂ ∧ RecastAll last ls ts₁ ∧
      Retold (ls.foldl lastAfter last) ls' ts₂ := by
  induction ls generalizing last ts with
  | nil => exact ⟨[], ts, rfl, .nil, h⟩
  | cons l ls ih =>
    obtain ⟨hl, hword⟩ := List.forall_mem_cons.1 hword
    obtain ⟨t, ts, rfl, -, hs, hrecasts, -⟩ := h.exists_cons
    obtain ⟨ts₁, ts₂, rfl, h₁, h₂⟩ := ih hs hword
    exact ⟨t :: ts₁, ts₂, rfl, .cons (hrecasts hl) h₁, h₂⟩

/-- A retold text begins with a name if the old one does. -/
theorem beginsName (h : Retold last ls ts) (hregular : ∀ l ∈ ls, l.Regular)
    (hbegins : BeginsName (ls.flatMap text)) : BeginsName ts.flatten := by
  induction h with
  | nil => exact hbegins
  | recast hl _ _ ih =>
    obtain ⟨hl', hregular⟩ := List.forall_mem_cons.1 hregular
    rw [List.flatMap_cons] at hbegins
    rw [List.flatten_cons]
    exact (hl.beginsName_iff hl' _).1 (hbegins.append (ih hregular))
  | suffix hk _ ih =>
    rw [List.flatMap_cons] at hbegins
    rw [List.flatten_cons, List.append_assoc]
    exact hbegins.append fun _ => rfl

/-- Names can get longer one by one. -/
theorem of_forall (hlen : ts.length = ls.length)
    (h : ∀ (i : ℕ) (l : Lexeme) (t : Text), ls[i]? = some l → ts[i]? = some t →
      (l.kind = .word ∧ t = l.text ++ InterfaceSuffix.suffix) ∨
        t = l.text ∧ (l.kind = .word → BeginsName (ts.drop (i + 1)).flatten →
          BeginsName ((ls.drop (i + 1)).flatMap text))) : Retold last ls ts := by
  induction ls generalizing last ts with
  | nil =>
    rw [List.eq_nil_of_length_eq_zero hlen]
    exact .nil
  | cons l ls ih =>
    cases ts with
    | nil => cases hlen
    | cons t ts =>
      have hs : Retold (lastAfter last l) ls ts :=
        ih (Nat.succ.inj hlen) fun i l' t' hl' ht' => h (i + 1) l' t' hl' ht'
      rcases h 0 l t rfl rfl with ⟨hk, rfl⟩ | ⟨rfl, hword⟩
      · exact .suffix hk hs
      · exact .recast .same hword hs

end Retold

/-! ### The parts of doc comments -/

/-- Characters that end a tag of a doc comment. -/
def endsTag (c : Char) : Bool := isBlank c || c == '('

/-- The part that stands at the beginning of the rest of a doc comment, one constructor for each
rule: the part, whether a line has just begun after it, and the text that follows. -/
inductive DocPart (lineStart : Bool) : Lexeme → Bool → Text → Prop
  | crlf (rest : Text) : DocPart lineStart ⟨.docBlank, ['\r', '\n']⟩ true rest
  | lf (rest : Text) : DocPart lineStart ⟨.docBlank, ['\n']⟩ true rest
  | cr (rest : Text) (h : rest.head? ≠ some '\n') :
    DocPart lineStart ⟨.docBlank, ['\r']⟩ lineStart rest
  | blanks (u rest : Text) (hne : u ≠ []) (hu : ∀ c ∈ u, isSpaceOrTab c = true)
    (h : rest.head?.any isSpaceOrTab = false) : DocPart lineStart ⟨.docBlank, u⟩ lineStart rest
  | star (rest : Text) (h : lineStart = true) : DocPart lineStart ⟨.docStar, ['*']⟩ false rest
  | tag (u rest : Text) (hne : u ≠ []) (hu : ∀ c ∈ u, endsTag c = false)
    (h : rest.head?.all endsTag = true) : DocPart lineStart ⟨.docTag, '@' :: u⟩ false rest
  | text (c : Char) (u rest : Text) (hspace : isSpaceOrTab c = false)
    (hstar : ¬(c = '*' ∧ lineStart = true))
    (htag : c = '@' → (u ++ rest).head?.all endsTag = true)
    (hline : ∀ d ∈ c :: u, isLineEnd d = false)
    (hlast : (c :: u).getLast?.any isSpaceOrTab = false)
    (h : ∀ d ∈ rest.takeWhile (!isLineEnd ·), isSpaceOrTab d = true) :
    DocPart lineStart ⟨.docText, c :: u⟩ false rest

theorem endsTag_eq_false_iff {c : Char} : endsTag c = false ↔ (!(isBlank c || c == '(')) = true := by
  rw [Bool.not_eq_true']
  rfl

theorem docTagLength_of_endsTag {c : Char} {u rest : Text} (hu : ∀ c ∈ u, endsTag c = false)
    (hrest : rest.head?.all endsTag = true) : docTagLength (c :: (u ++ rest)) = u.length + 1 := by
  rw [docTagLength, takeWhile_append_of_head (fun c hc => endsTag_eq_false_iff.1 (hu c hc)),
    Nat.add_comm]
  cases rest with
  | nil => rfl
  | cons d rest =>
    rw [List.head?_cons, Option.any_some, Bool.not_eq_false']
    exact hrest

theorem exists_docTag (t : Text) : ∃ u rest, t = u ++ rest ∧ (∀ c ∈ u, endsTag c = false) ∧
    rest.head?.all endsTag = true := by
  obtain ⟨u, rest, rfl, hu, hrest⟩ := exists_run (fun c => !endsTag c) t
  refine ⟨u, rest, rfl, fun c hc => by simpa using hu c hc, ?_⟩
  cases rest with
  | nil => rfl
  | cons d rest => simpa using hrest

theorem docTextLength_append {u rest : Text} (hline : ∀ c ∈ u, isLineEnd c = false)
    (hlast : u.getLast?.any isSpaceOrTab = false)
    (h : ∀ c ∈ rest.takeWhile (!isLineEnd ·), isSpaceOrTab c = true) :
    docTextLength (u ++ rest) = u.length := by
  rw [docTextLength, List.takeWhile_append_of_pos (by simpa using hline), dropEndWhile_append hlast h]

/-- The text of a part of a doc comment that takes `u` after its first character. -/
theorem docPart_of_eq {lineStart flag : Bool} {kind : Kind} {c : Char} {u rest : Text} {n : ℕ}
    (hn : n = u.length + 1) (h : DocPart lineStart ⟨kind, c :: u⟩ flag rest) :
    DocPart lineStart ⟨kind, c :: (u ++ rest).take (n - 1)⟩ flag
      ((u ++ rest).drop ((c :: (u ++ rest).take (n - 1)).length - 1)) := by
  subst hn
  simpa using h

theorem docPart_docLexeme (lineStart : Bool) (c : Char) (t : Text) :
    DocPart lineStart (docLexeme lineStart c t).1 (docLexeme lineStart c t).2
      (t.drop ((docLexeme lineStart c t).1.text.length - 1)) := by
  unfold docLexeme
  split_ifs with hcrlf hlf hcr hspace hstar htag
  · obtain ⟨rfl, ht⟩ := hcrlf
    obtain ⟨rest, rfl⟩ := List.head?_eq_some_iff.1 ht
    exact .crlf rest
  · subst hlf
    exact .lf t
  · subst hcr
    exact .cr t fun h => hcrlf ⟨rfl, h⟩
  · obtain ⟨u, rest, rfl, hu, hrest⟩ := exists_run isSpaceOrTab t
    have hall : ∀ d ∈ c :: u, isSpaceOrTab d = true := List.forall_mem_cons.2 ⟨hspace, hu⟩
    refine docPart_of_eq ?_ (.blanks (c :: u) rest (List.cons_ne_nil c u) hall hrest)
    rw [← List.cons_append, takeWhile_append_of_head hall hrest, List.length_cons]
  · obtain ⟨rfl, rfl⟩ := hstar
    exact .star t rfl
  · obtain ⟨rfl, hlen⟩ := htag
    obtain ⟨u, rest, rfl, hu, hrest⟩ := exists_docTag t
    rw [docTagLength_of_endsTag hu hrest] at hlen ⊢
    refine docPart_of_eq rfl (.tag u rest ?_ hu hrest)
    rintro rfl
    exact absurd hlen (by simp)
  · have hcline : isLineEnd c = false := by
      simp only [isLineEnd, Bool.or_eq_false_iff, beq_eq_false_iff_ne]
      exact ⟨hcr, hlf⟩
    have hcspace : isSpaceOrTab c = false := Bool.eq_false_iff.2 hspace
    obtain ⟨line, rest, rfl, hline, hrest⟩ := exists_run (!isLineEnd ·) t
    have hall : ∀ d ∈ c :: line, (!isLineEnd d) = true :=
      List.forall_mem_cons.2 ⟨by rw [hcline]; rfl, hline⟩
    obtain ⟨u, v, huv, -, hv, hu⟩ := dropEndWhile_spec isSpaceOrTab (c :: line)
    cases u with
    | nil =>
      rw [List.nil_append] at huv
      have := hv c (huv ▸ List.mem_cons_self)
      rw [hcspace] at this
      cases this
    | cons d u =>
      obtain rfl := (List.cons.inj huv).1
      obtain rfl : line = u ++ v := (List.cons.inj huv).2
      have hulineEnd : ∀ d ∈ c :: u, isLineEnd d = false := fun d hd => by
        simpa using hall d (by rw [huv]; exact List.mem_append_left _ hd)
      have hafter : ∀ d ∈ (v ++ rest).takeWhile (!isLineEnd ·), isSpaceOrTab d = true := by
        rw [takeWhile_append_of_head (fun d hd => hline d (List.mem_append_right _ hd)) hrest]
        exact hv
      rw [List.append_assoc] at htag ⊢
      refine docPart_of_eq (docTextLength_append hulineEnd hu hafter)
        (.text c u _ hcspace hstar ?_ hulineEnd hu hafter)
      rintro rfl
      obtain ⟨w, rest', hw, hwtag, hrest'⟩ := exists_docTag (u ++ (v ++ rest))
      rw [hw, docTagLength_of_endsTag hwtag hrest'] at htag
      cases w with
      | nil => rwa [hw]
      | cons d w => exact absurd ⟨rfl, by simp⟩ htag

/-- Each rule of doc comments, when its part stands there, is the one that counts. -/
theorem docLexeme_of_docPart {lineStart flag : Bool} {l : Lexeme} {rest : Text}
    (h : DocPart lineStart l flag rest) : ∃ c t, l.text ++ rest = c :: t ∧
      docLexeme lineStart c t = (l, flag) ∧ t.drop (l.text.length - 1) = rest := by
  cases h with
  | crlf => exact ⟨_, _, rfl, rfl, rfl⟩
  | lf => exact ⟨_, _, rfl, rfl, rfl⟩
  | cr rest h => exact ⟨_, _, rfl, by simp [docLexeme, h], rfl⟩
  | blanks u rest hne hu h =>
    obtain ⟨c, u, rfl⟩ := List.exists_cons_of_ne_nil hne
    have hc := hu c List.mem_cons_self
    have hline : c ≠ '\r' ∧ c ≠ '\n' := by constructor <;> rintro rfl <;> cases hc
    refine ⟨c, u ++ rest, rfl, ?_, by simp⟩
    rw [docLexeme, ← List.cons_append, takeWhile_append_of_head hu h]
    simp [hline, hc]
  | star rest h => exact ⟨_, _, rfl, by simp [docLexeme, h, isSpaceOrTab], rfl⟩
  | tag u rest hne hu h =>
    refine ⟨'@', u ++ rest, rfl, ?_, by simp⟩
    have hlen : 0 < u.length := List.length_pos_iff.2 hne
    rw [docLexeme, docTagLength_of_endsTag hu h]
    simp [isSpaceOrTab, hlen]
  | text c u rest hspace hstar htag hline hlast h =>
    refine ⟨c, u ++ rest, rfl, ?_, by simp⟩
    have hend := hline c List.mem_cons_self
    have hne : c ≠ '\r' ∧ c ≠ '\n' := by constructor <;> rintro rfl <;> cases hend
    have hnot : ¬(c = '@' ∧ 1 < docTagLength (c :: (u ++ rest))) := by
      rintro ⟨rfl, hlen⟩
      obtain ⟨w, rest', hw, hwtag, hrest'⟩ := exists_docTag (u ++ rest)
      rw [hw, docTagLength_of_endsTag hwtag hrest'] at hlen
      have hhead := htag rfl
      cases w with
      | nil => exact absurd hlen (lt_irrefl 1)
      | cons d w =>
        rw [hw] at hhead
        exact absurd hhead (by simp [hwtag d List.mem_cons_self])
    rw [docLexeme, if_neg fun h => hne.1 h.1, if_neg hne.2, if_neg hne.1,
      if_neg (Bool.eq_false_iff.1 hspace), if_neg hstar, if_neg hnot, ← List.cons_append,
      docTextLength_append hline hlast h]
    simp

/-- The parts of a doc comment that begins with a known one. -/
theorem docLexemes_append {lineStart flag : Bool} {l : Lexeme} {rest : Text}
    (h : DocPart lineStart l flag rest) :
    docLexemes lineStart (l.text ++ rest) = l :: docLexemes flag rest := by
  obtain ⟨c, t, htext, hl, hrest⟩ := docLexeme_of_docPart h
  rw [htext, docLexemes, hl]
  dsimp only
  rw [hrest]

/-- What holds of the end of a doc comment and of each part with what follows holds of all texts. -/
theorem docLexemes_induction {P : Bool → Text → Prop} (hnil : ∀ lineStart, P lineStart [])
    (happend : ∀ {lineStart flag l rest}, DocPart lineStart l flag rest → P flag rest →
      P lineStart (l.text ++ rest)) (lineStart : Bool) (t : Text) : P lineStart t := by
  induction lineStart, t using docLexemes.induct with
  | case1 lineStart => exact hnil lineStart
  | case2 lineStart c t part ih =>
    have hpart := docPart_docLexeme lineStart c t
    obtain ⟨n, hn⟩ := docLexeme_text lineStart c t
    have htext : part.1.text ++ t.drop (part.1.text.length - 1) = c :: t := by
      rw [show part.1.text = c :: t.take n from hn, List.length_cons, Nat.add_sub_cancel,
        List.cons_append, List.prefix_iff_eq_append.1 (List.take_prefix n t)]
    exact htext ▸ happend hpart ih

/-! ### Recast doc comments -/

/-- What the rest of a line of a doc comment may be exchanged for. -/
structure SameLine (rest rest' : Text) : Prop where
  head : rest'.head? = rest.head?
  line : (∀ c ∈ rest.takeWhile (!isLineEnd ·), isSpaceOrTab c = true) →
    rest'.takeWhile (!isLineEnd ·) = rest.takeWhile (!isLineEnd ·)

namespace DocPart

variable {lineStart flag : Bool} {l : Lexeme} {rest rest' : Text}

theorem kind_mem (h : DocPart lineStart l flag rest) :
    l.kind ∈ [.docBlank, .docStar, .docTag, .docText] := by
  cases h <;> simp

/-- A part stays when what follows it is exchanged. -/
theorem congr (h : DocPart lineStart l flag rest) (hrest : SameLine rest rest') :
    DocPart lineStart l flag rest' := by
  cases h with
  | crlf => exact .crlf rest'
  | lf => exact .lf rest'
  | cr _ h => exact .cr rest' (hrest.head ▸ h)
  | blanks u _ hne hu h => exact .blanks u rest' hne hu (hrest.head ▸ h)
  | star _ h => exact .star rest' h
  | tag u _ hne hu h => exact .tag u rest' hne hu (hrest.head ▸ h)
  | text c u _ hspace hstar htag hline hlast h =>
    refine .text c u rest' hspace hstar (fun hc => ?_) hline hlast fun d hd => ?_
    · rw [List.head?_append, hrest.head, ← List.head?_append]
      exact htag hc
    · rw [hrest.line h] at hd
      exact h d hd

/-- A recast part is a part of the same kind. -/
theorem recast (h : DocPart lineStart l flag rest) {last : Option Kind} {t : Text}
    (hl : l.Recasts last t) (hrest : SameLine rest rest') :
    DocPart lineStart ⟨l.kind, t⟩ flag rest' := by
  have hrest' := h.congr hrest
  cases hl with
  | same => exact hrest'
  | literal hk => exact absurd (hk ▸ h.kind_mem) (by decide)
  | docLiteral hk before old name after htext hbefore hname =>
    cases h with
    | text c u _ hspace hstar htag hline hlast h =>
      obtain ⟨d, b, rfl⟩ : ∃ d b, before = d :: b := by
        obtain ⟨d, hd, -⟩ := hbefore
        exact List.exists_cons_of_ne_nil (List.ne_nil_of_mem hd)
      obtain rfl := (List.cons.inj htext).1
      obtain rfl : u = b ++ '"' :: (old ++ '"' :: after) := (List.cons.inj htext).2
      rw [List.cons_append]
      refine .text c _ rest' hspace hstar (fun hc => ?_) (fun e he => ?_) ?_ fun e he => ?_
      · -- a tag would begin here if the quote followed directly
        have hhead := htag hc
        cases b with
        | nil => cases hhead
        | cons e b => exact hhead
      · simp only [List.mem_cons, List.mem_append] at he hline
        rcases he with rfl | he | rfl | he | rfl | he
        · exact hline _ (.inl rfl)
        · exact hline _ (.inr (.inl he))
        · rfl
        · have hword := hname e he
          refine Bool.eq_false_iff.2 fun hend => ?_
          rcases (by simpa [isLineEnd] using hend : e = '\r' ∨ e = '\n') with rfl | rfl <;> cases hword
        · rfl
        · exact hline _ (.inr (.inr (.inr (.inr (.inr he)))))
      · have hsplit : ∀ v : Text, (c :: (b ++ '"' :: (v ++ '"' :: after))).getLast? =
            ('"' :: after).getLast? := by
          intro v
          rw [← List.cons_append, List.getLast?_append, ← List.cons_append, List.getLast?_append,
            List.getLast?_cons]
          rfl
        rwa [hsplit, ← hsplit old]
      · rw [hrest.line h] at he
        exact h e he
    | _ => cases hk

end DocPart

/-- What a doc comment goes on with looks alike when it is recast. -/
theorem sameLine_recast {lineStart : Bool} {s : Text} {last : Option Kind} {ts : List Text}
    (h : RecastAll last (docLexemes lineStart s) ts) : SameLine s ts.flatten := by
  induction lineStart, s using docLexemes_induction generalizing last ts with
  | hnil lineStart =>
    rw [docLexemes] at h
    cases h
    exact ⟨rfl, fun _ => rfl⟩
  | @happend lineStart flag l rest hpart ih =>
    rw [docLexemes_append hpart] at h
    cases h with
    | @cons _ _ t _ ts hl hs =>
      have hrest := ih hs
      have hhead : t.head? = l.text.head? := (hl.mends false).head?_eq <| by
        have hkinds : ∀ k : Kind, k ∈ [.docBlank, .docStar, .docTag, .docText] →
          k.isDocPart = true := by decide
        exact hkinds _ hpart.kind_mem
      refine ⟨?_, fun hline => ?_⟩
      · rw [List.flatten_cons, List.head?_append, List.head?_append, hhead, hrest.head]
      · rw [List.flatten_cons]
        cases hpart with
        | crlf => cases hl.eq_text (by simp); rfl
        | lf => cases hl.eq_text (by simp); rfl
        | cr => cases hl.eq_text (by simp); rfl
        | blanks u _ hne hu h =>
          obtain rfl : t = u := hl.eq_text (by simp)
          have hall : ∀ c ∈ t, (!isLineEnd c) = true := by
            intro c hc
            rcases (by simpa [isSpaceOrTab] using hu c hc : c = ' ' ∨ c = '\t') with rfl | rfl <;> rfl
          rw [List.takeWhile_append_of_pos hall] at hline ⊢
          rw [List.takeWhile_append_of_pos hall,
            hrest.line fun c hc => hline c (List.mem_append_right _ hc)]
        | star => exact absurd (hline '*' (by simp [isLineEnd])) (by decide)
        | tag => exact absurd (hline '@' (by simp [isLineEnd])) (by decide)
        | text c u _ hspace _ _ hend =>
          have hc := hend c List.mem_cons_self
          have := hline c (by simp [hc])
          rw [hspace] at this
          cases this

/-- The parts of a recast doc comment are those of the old one, recast. -/
theorem docLexemes_recast {lineStart : Bool} {s : Text} {last : Option Kind} {ts : List Text}
    (h : RecastAll last (docLexemes lineStart s) ts) :
    (docLexemes lineStart ts.flatten).map kind = (docLexemes lineStart s).map kind ∧
      (docLexemes lineStart ts.flatten).map text = ts := by
  induction lineStart, s using docLexemes_induction generalizing last ts with
  | hnil lineStart =>
    rw [docLexemes] at h
    cases h
    exact ⟨rfl, by rw [List.flatten_nil, docLexemes]; rfl⟩
  | @happend lineStart flag l rest hpart ih =>
    rw [docLexemes_append hpart] at h ⊢
    cases h with
    | @cons _ _ t _ ts hl hs =>
      obtain ⟨hkind, htext⟩ := ih hs
      have hpart' := docLexemes_append (hpart.recast hl (sameLine_recast hs))
      rw [show (⟨l.kind, t⟩ : Lexeme).text = t from rfl] at hpart'
      rw [List.flatten_cons, hpart', List.map_cons, List.map_cons, List.map_cons, hkind, htext]
      exact ⟨rfl, rfl⟩

/-! ### Names -/

/-- A name that may be `enum` has the kind that its context and what follows say. -/
theorem CodePiece.kind_eq_wordKind {ctx : Context} {c : Char} {u rest : Text} {l : Lexeme}
    (h : CodePiece ctx c (u ++ rest) (.single l)) (htext : l.text = c :: u)
    (hk : l.kind ∈ [.word, .kwEnum]) :
    IsName l.text ∧ rest.head?.any isWordChar = false ∧ l.kind = ctx.wordKind l.text rest := by
  generalize hp : Piece.single l = p at h
  cases h with
  | word hc =>
    obtain ⟨v, rest', hsplit, hlen, hword, hhead, -⟩ := wordLength_spec (u ++ rest)
    have hname : IsName (c :: v) :=
      ⟨hc, List.forall_mem_cons.2 ⟨isWordChar_of_isWordStart hc, hword⟩⟩
    rw [hsplit, wordLength_cons (isWordChar_of_isWordStart hc), ← hsplit, hlen,
      show v.length + 1 = (c :: v).length from rfl, hsplit, ← List.cons_append, List.take_left,
      List.drop_left, Piece.cut_append List.length_cons] at hp
    cases hp
    obtain rfl : v = u := (List.cons.inj htext).2
    obtain rfl := List.append_cancel_left hsplit
    exact ⟨hname, hhead, rfl⟩
  | symbol h =>
    cases hp
    refine absurd hk (Lexeme.of_symbolAt (P := fun k => k ∉ [.word, .kwEnum]) (by decide)
      (fun d => by unfold Kind.ofSymbol; split <;> decide) _ _)
  | docComment => cases hp
  | _ =>
    cases hp
    exact absurd hk (by simp)

/-- A name keeps its kind where the same context and what follows say so. -/
theorem kind_eq_of_codePiece {ctx ctx' : Context} {c : Char} {u rest rest' : Text} {l : Lexeme}
    {k' : Kind} (hcode : ctx.inCode = true) (hsimilar : ctx.Similar ctx')
    (h : CodePiece ctx c (u ++ rest) (.single l)) (htext : l.text = c :: u)
    (h' : CodePiece ctx' c (u ++ rest') (.single ⟨k', l.text⟩)) (hk : l.kind ∈ [.word, .kwEnum])
    (hhead : rest'.head? = rest.head?) (hforth : BeginsName rest → BeginsName rest')
    (hback : l.kind = .word → BeginsName rest' → BeginsName rest) : k' = l.kind := by
  obtain ⟨hname, hrest, hkind⟩ := h.kind_eq_wordKind htext hk
  have hword := codePiece_of_isName ctx' (htext ▸ hname) (hhead.symm ▸ hrest)
  rw [← htext] at hword
  have hsame := (codePiece_eq_ok h').symm.trans (codePiece_eq_ok hword)
  obtain rfl : k' = ctx'.wordKind l.text rest' := by
    simpa using hsame
  rw [Context.wordKind, ← hsimilar.expectsName_eq hcode, ← hsimilar.afterBackslash hcode, hhead]
  rw [Context.wordKind] at hkind
  split at hkind
  · rw [if_pos ‹_›, hkind]
  · rw [if_neg ‹_›]
    split at hkind
    · split at hkind
      · next hbegins => exact (if_pos (hforth hbegins)).trans hkind.symm
      · next hbegins => exact (if_neg fun h => hbegins (hback hkind h)).trans hkind.symm
    all_goals exact hkind.symm

/-! ### Pieces of the same kinds -/

/-- Pieces of the same kinds. -/
inductive Kept : List Piece → List Piece → Prop
  | nil : Kept [] []
  | single {l l' ps ps'} (hk : l'.kind = l.kind) (h : Kept ps ps') :
    Kept (.single l :: ps) (.single l' :: ps')
  | docComment {body body' ps ps'} (hk : body'.map kind = body.map kind) (h : Kept ps ps') :
    Kept (.docComment body :: ps) (.docComment body' :: ps')

namespace Kept

variable {ps ps' : List Piece}

theorem map_kind (h : Kept ps ps') :
    (ps'.flatMap Piece.lexemes).map kind = (ps.flatMap Piece.lexemes).map kind := by
  induction h with
  | nil => rfl
  | single hk _ ih => simp [Piece.lexemes, hk, ih]
  | docComment hk _ ih => simp [Piece.lexemes, hk, ih]

/-- Doc comments are told by their kinds. -/
theorem docComments_eq (h : Kept ps ps') (i : ℕ) :
    DocComment.all i ps' = DocComment.all i ps := by
  induction h generalizing i with
  | nil => rfl
  | single _ _ ih => exact ih (i + 1)
  | @docComment body body' _ _ hk _ ih =>
    have hlen : body'.length = body.length := by simpa using congrArg List.length hk
    have hall : ∀ (b : List Lexeme) (qs : List Piece), DocComment.all i (.docComment b :: qs) =
        ⟨⟨i, i + 1 + b.length⟩, ((b.map kind).zipIdx (i + 1)).filterMap fun x =>
          if x.1 = .docTag then some x.2 else none⟩ :: DocComment.all (i + 2 + b.length) qs := by
      intro b qs
      rw [List.zipIdx_map, List.filterMap_map]
      rfl
    rw [hall, hall, hk, hlen, ih]

end Kept

/-! ### The pieces of the retold text -/

namespace Context

/-- The pieces that are cut in a context are cut again when they are retold, in similar contexts. -/
def Recovers (ctx : Context) (pieces : List Piece) : Prop :=
  ∀ (ctx' : Context) (ts : List Text), ctx.Similar ctx' →
    Retold ctx.last (pieces.flatMap Piece.lexemes) ts →
    ∃ pieces', Piece.cutAll ctx' ts.flatten = .ok pieces' ∧ Kept pieces pieces' ∧
      (pieces'.flatMap Piece.lexemes).map text = ts

variable {ctx : Context} {l : Lexeme} {pieces : List Piece}

/-- Single lexemes of code. -/
theorem recovers_single (hcode : ctx.inCode = true) {c : Char} {t following : Text}
    (hpiece : CodePiece ctx c t (.single l)) (hkeeps : Keeps ctx c t (.single l))
    (hcut : l.kind.isCut = true) (htext : l.text ++ following = c :: t)
    (hfollowing : (pieces.flatMap Piece.lexemes).flatMap text = following)
    (hregular : ∀ l ∈ pieces.flatMap Piece.lexemes, l.Regular)
    (hrest : (ctx.after l).Recovers pieces) : ctx.Recovers (.single l :: pieces) := by
  obtain ⟨_, u, rest, heq, hl, rfl, hstands, hkeep⟩ := hkeeps
  cases heq
  obtain rfl : following = rest := by
    rw [hl, List.cons_append] at htext
    exact List.append_cancel_left (List.cons.inj htext).2
  intro ctx' ts hsimilar hretold
  rw [List.flatMap_cons, Piece.lexemes, List.singleton_append] at hretold
  obtain ⟨t, ts, rfl, hmends, hs, hrecasts, hword⟩ := hretold.exists_cons
  have htolerates := (hs.mendsAll l.breaksLine).tolerates hregular
  rw [hfollowing] at htolerates hword
  obtain ⟨k', d, v, halike, rfl, hpiece', hend⟩ := exists_codePiece_of_mends hcut hl hstands
    (hkeep ctx' _ hsimilar htolerates) hmends htolerates
  have hkind : k' = l.kind := by
    rcases halike with h | ⟨hname, hname'⟩
    · exact h.symm
    by_cases hlonger : l.kind = .word ∧ d :: v = l.text ++ InterfaceSuffix.suffix
    · -- a name with the suffix is no keyword
      obtain ⟨hk, htext⟩ := hlonger
      obtain ⟨-, -, hkind⟩ := hpiece'.kind_eq_wordKind rfl hname'
      rw [hk, show k' = _ from hkind, htext]
      exact ctx'.wordKind_append_suffix (by rw [hl]; exact List.cons_ne_nil c u) _
    · have hsame : d :: v = l.text := by
        by_cases hk : l.kind = .word
        · exact ((hword hk).resolve_left fun h => hlonger ⟨hk, h⟩).1
        · refine (hrecasts hk).eq_text ?_
          have hkinds : ∀ k : Kind, k ∈ [.word, .kwEnum] → k ∉ [.quoted, .docText] := by decide
          exact hkinds _ hname
      have hback (hk : l.kind = .word) : BeginsName ts.flatten → BeginsName following :=
        ((hword hk).resolve_left fun h => hlonger ⟨hk, h⟩).2
      have hforth := hs.beginsName hregular
      rw [hfollowing] at hforth
      rw [hsame] at hpiece'
      obtain ⟨rfl, rfl⟩ := List.cons.inj (hl.symm.trans hsame.symm)
      have hline : '\n' ∉ l.text := by
        obtain ⟨⟨-, hchars⟩, -⟩ := hpiece.kind_eq_wordKind hl hname
        exact fun hmem => by cases hchars _ hmem
      have hkinds : ∀ k : Kind, k ∈ [.word, .kwEnum] → k ≠ .colon ∧ k.isTrivia = false := by decide
      obtain ⟨hcolon, htrivia⟩ := hkinds _ hname
      exact kind_eq_of_codePiece hcode hsimilar hpiece hl hpiece' hname
        (head?_eq_of_view (htolerates.view_eq hline hcolon htrivia)).symm hforth hback
  subst hkind
  have hsimilar' : (ctx.after l).Similar (ctx'.after ⟨l.kind, d :: v⟩) := by
    refine hsimilar.after (.refl _) (fun _ => hend) fun hout => ?_
    -- only a closing mark ends code
    rw [Context.after, hcode] at hout
    cases hk : l.kind <;> rw [hk] at hout <;> first | rfl | cases hout
  obtain ⟨pieces', hcut', hkept, hts⟩ := hrest _ ts hsimilar' hs
  refine ⟨.single ⟨l.kind, d :: v⟩ :: pieces', ?_, .single rfl hkept, ?_⟩
  · rw [List.flatten_cons]
    refine cutAll_single (l := ⟨l.kind, d :: v⟩) rfl ?_ hcut'
    rw [nextPiece_of_inCode (hsimilar.inCode ▸ hcode)]
    exact codePiece_eq_ok hpiece'
  · rw [List.flatMap_cons, List.map_append, hts]
    rfl

/-- Contexts stay similar after doc comments. -/
theorem Similar.after_docComment {ctx' : Context} (h : ctx.Similar ctx') (body body' : Text) :
    ((Piece.docComment (docLexemes false body)).lexemes.foldl Context.after ctx).Similar
      ((Piece.docComment (docLexemes false body')).lexemes.foldl Context.after ctx') := by
  obtain ⟨hcode₁, hlast₁, hearlier₁, hback₁⟩ := foldl_after_docComment body ctx
  obtain ⟨hcode₂, hlast₂, hearlier₂, hback₂⟩ := foldl_after_docComment body' ctx'
  constructor
  · rw [hcode₁, hcode₂, h.inCode]
  · rw [hlast₁, hlast₂, h.last]
  · rw [hcode₁, hearlier₁, hearlier₂]
    exact h.earlier
  · rw [hback₁, hback₂]
    exact fun _ => rfl
  · rw [hcode₁, hlast₁]
    exact h.outside

/-- Doc comments. -/
theorem recovers_docComment (hcode : ctx.inCode = true) {c : Char} {t body rest : Text}
    (hdoc : opensDocComment (c :: t) = true)
    (hbreak : breakOn "*/".toList (t.drop 2) = some (body, rest))
    (hrest : ((Piece.docComment (docLexemes false body)).lexemes.foldl after ctx).Recovers pieces) :
    ctx.Recovers (.docComment (docLexemes false body) :: pieces) := by
  obtain ⟨d, u, rfl, rfl, hd⟩ := eq_cons_of_opensDocComment hdoc
  intro ctx' ts hsimilar hretold
  have hkinds : ∀ k : Kind, k ∈ [.docBlank, .docStar, .docTag, .docText] →
    k.isTrivia = true ∧ k.isDocPart = true ∧ k ≠ .word := by decide
  rw [List.flatMap_cons, Piece.lexemes, List.cons_append, List.append_assoc] at hretold
  obtain ⟨topen, ts, rfl, -, hs, hopen, -⟩ := hretold.exists_cons
  obtain rfl := (hopen (by decide)).eq_text (by decide)
  obtain ⟨parts, _, rfl, hbody, hclosing⟩ := hs.exists_of_append
    fun l hl => (hkinds _ (mem_docLexemes hl).2).2.2
  rw [show lastAfter ctx.last Piece.docOpening = ctx.last from rfl] at hbody hclosing
  rw [foldl_lastAfter_of_isTrivia fun l hl => (hkinds _ (mem_docLexemes hl).2).1] at hclosing
  obtain ⟨tclose, ts, rfl, -, hfollowing, hclose, -⟩ := hclosing.exists_cons
  obtain rfl := (hclose (by decide)).eq_text (by decide)
  rw [show lastAfter ctx.last Piece.docClosing = ctx.last from rfl,
    ← (foldl_after_docComment body ctx).2.1] at hfollowing
  obtain ⟨pieces', hcut', hkept, hts⟩ :=
    hrest _ ts (hsimilar.after_docComment body parts.flatten) hfollowing
  obtain ⟨hkind, htext⟩ := docLexemes_recast hbody
  refine ⟨.docComment (docLexemes false parts.flatten) :: pieces', ?_, .docComment hkind hkept, ?_⟩
  · -- the comment ends where the recast parts do
    have hchain := (hbody.mendsAll false).isChain_of_mendsAll
      (fun l hl => (hkinds _ (mem_docLexemes hl).2).2.1) [] ['*']
      (by rw [lexemes_text_docLexemes]; exact isChain_of_breakOn hbreak)
    have hhead : parts.flatten.head? = body.head? := (sameLine_recast hbody).head
    have hbodyHead : body.head? = some d := by
      have htext := append_of_breakOn hbreak
      cases body with
      | nil =>
        obtain rfl := (List.cons.inj htext).1
        cases hd
      | cons e b => rw [(List.cons.inj htext).1]; rfl
    obtain ⟨b', hb'⟩ := List.head?_eq_some_iff.1 (hhead.trans hbodyHead)
    have hpiece : codePiece ctx' '/' ('*' :: '*' :: parts.flatten ++ "*/".toList ++ ts.flatten) =
        .ok (.docComment (docLexemes false parts.flatten)) := by
      refine codePiece_eq_ok (.docComment _ ts.flatten ?_ (breakOn_of_isChain hchain _))
      rw [hb']
      exact hd
    have hflatten : (Piece.docOpening.text :: (parts ++ Piece.docClosing.text :: ts)).flatten =
        '/' :: ('*' :: '*' :: parts.flatten ++ "*/".toList ++ ts.flatten) := by
      simp [Piece.docOpening, Piece.docClosing]
    rw [hflatten]
    refine cutAll_cons ((nextPiece_of_inCode (hsimilar.inCode ▸ hcode)).trans hpiece) ?_ hcut'
    rw [Piece.text_docComment]
    rfl
  · rw [List.flatMap_cons, List.map_append, hts, Piece.lexemes]
    simp [htext]

/-- Open tags and plain text. -/
theorem recovers_outside (hcode : ctx.inCode = false) {u following : Text}
    (h : IsOpenTag u ∧ l = ⟨.openTag, u⟩ ∨ l = ⟨.plainText, u⟩ ∧ u ≠ [] ∧
      plainTextLength u = u.length ∧
        (following = [] ∨ (openTagLength? following).isSome = true))
    (hcut : Piece.cutAll (ctx.after l) following = .ok pieces)
    (hrest : (ctx.after l).Recovers pieces) : ctx.Recovers (.single l :: pieces) := by
  intro ctx' ts hsimilar hretold
  have hkind : l.kind ∉ [.quoted, .docText] ∧ l.kind ≠ .word ∧ l.kind.steers = false := by
    rcases h with ⟨-, rfl⟩ | ⟨rfl, -⟩ <;> exact ⟨by simp, by simp, rfl⟩
  rw [List.flatMap_cons, Piece.lexemes, List.singleton_append] at hretold
  obtain ⟨t, ts, rfl, -, hs, hl, -⟩ := hretold.exists_cons
  obtain rfl := (hl hkind.2.1).eq_text hkind.1
  have hsimilar' : (ctx.after l).Similar (ctx'.after l) :=
    hsimilar.after (.refl _) (fun _ => Iff.rfl) fun _ => hkind.2.2
  obtain ⟨pieces', hcut', hkept, hts⟩ := hrest _ ts hsimilar' hs
  refine ⟨.single l :: pieces', ?_, .single rfl hkept, ?_⟩
  · rw [List.flatten_cons]
    have hcode' : ctx'.inCode = false := hsimilar.inCode ▸ hcode
    rcases h with ⟨hu, rfl⟩ | ⟨rfl, hu, hplain, hfollowing⟩
    · obtain ⟨c, v, rfl⟩ := List.exists_cons_of_ne_nil hu.ne_nil
      refine cutAll_single (l := ⟨.openTag, c :: v⟩) rfl ?_ hcut'
      rw [nextPiece_of_outside hcode', ← List.cons_append,
        openTagLength?_eq_some_iff.2 ⟨c :: v, ts.flatten, hu, rfl, rfl⟩]
      exact congrArg Except.ok (Piece.cut_append List.length_cons)
    · have hcodeAfter : (ctx.after ⟨.plainText, u⟩).inCode = false := hcode
      exact cutAll_plainText hcode' hu hplain
        (openTag_of_mendsAll hcodeAfter hcut hfollowing (hs.mendsAll false)) hcut'
  · rw [List.flatMap_cons, List.map_append, hts]
    rfl

/-- The pieces of a text are cut again when they are retold. -/
theorem recovers_of_cutAll {t : Text} (h : Piece.cutAll ctx t = .ok pieces) :
    ctx.Recovers pieces := by
  induction pieces generalizing ctx t with
  | nil =>
    intro ctx' ts _ hretold
    cases hretold
    exact ⟨[], by rw [List.flatten_nil, Piece.cutAll], .nil, rfl⟩
  | cons p pieces ih =>
    cases t with
    | nil =>
      rw [Piece.cutAll] at h
      cases h
    | cons c t =>
      obtain ⟨_, _, following, hp, htext, hcut, heq⟩ := cutAll_cons_eq_ok h
      cases heq
      have hrest := ih hcut
      cases hcode : ctx.inCode with
      | true =>
        have hpiece := codePiece_of_ok (nextPiece_of_inCode hcode ▸ hp)
        rcases codePiece_keeps hcode hpiece with hkeeps | ⟨body, rest, rfl, hdoc, hbreak⟩
        · obtain ⟨l, _, _, rfl, -⟩ := id hkeeps
          have hkind : l.kind.isCut = true := by
            rcases nextPiece_cases hp with ⟨kind, n, heq, hkind⟩ | ⟨body, heq, -⟩
            · cases heq
              exact hkind
            · cases heq
          refine recovers_single hcode hpiece hkeeps hkind (Piece.text_single l ▸ htext) ?_
            (regular_of_cutAll hcut) hrest
          rw [List.flatMap_assoc]
          exact text_cutAll hcut
        · exact recovers_docComment hcode hdoc hbreak hrest
      | false =>
        obtain ⟨u, rest, htext', ⟨rfl, hu⟩ | ⟨rfl, hu, hplain, -, hfollowing⟩⟩ :=
          nextPiece_outside_cases hcode hp
        · exact recovers_outside hcode (.inl ⟨hu, rfl⟩) hcut hrest
        · obtain rfl : following = rest := by
            rw [htext', Piece.text_single] at htext
            exact List.append_cancel_left htext
          exact recovers_outside hcode (.inr ⟨rfl, hu, hplain, hfollowing⟩) hcut hrest

end Context

/-- A retold text is cut into pieces of the same kinds as the old one. -/
theorem exists_kept_of_retold {source : Text} {pieces : List Piece} {ts : List Text}
    (h : Piece.cutAll Context.start source = .ok pieces)
    (hretold : Retold none (pieces.flatMap Piece.lexemes) ts) :
    ∃ pieces', Piece.cutAll Context.start ts.flatten = .ok pieces' ∧ Kept pieces pieces' ∧
      (pieces'.flatMap Piece.lexemes).map text = ts :=
  Context.recovers_of_cutAll h _ ts Context.similar_start hretold

end EntityLint
