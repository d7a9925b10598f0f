import EntityLint.Proofs.Text.Runs
import EntityLint.Token.Lexer

/-!
# How far the rules of the cutter look ahead

A rule measures the characters that it takes from a text. What it takes does not change when other
text follows, as long as the rule cannot tell the two texts apart.

* `Text.view`, `view_append_congr`: the characters at the beginning of a text that may be looked at;
* `blankLength_spec`, `lineCommentLength_spec`, `quotedTailLength?_spec`, `heredocLength?_spec`,
  `numberLength_spec`, `symbolAt_spec`: for each rule, what it takes and what may follow.
-/

namespace EntityLint

namespace Text

variable {t t' : Text}

/-! ### The beginning of a text -/

/-- Characters after the first one of an operator or of the opening of a heredoc, and those that a
line break may begin with. -/
def isSoft (c : Char) : Bool := "?-<>=!&|*+./%^'\" \t\r".toList.contains c

/-- The text through its first character that is not soft. -/
def view : Text → Text
  | [] => []
  | c :: t => if isSoft c then c :: view t else [c]

theorem head?_view (t : Text) : (view t).head? = t.head? := by
  cases t with
  | nil => rfl
  | cons c t => rw [view]; split <;> rfl

theorem head?_eq_of_view (h : view t = view t') : t.head? = t'.head? := by
  rw [← head?_view, h, head?_view]

theorem eq_nil_of_view (h : view [] = view t) : t = [] := by
  have hhead := head?_eq_of_view h
  cases t with
  | nil => rfl
  | cons c t => cases hhead

theorem view_append_congr (h : view t = view t') (u : Text) : view (u ++ t) = view (u ++ t') := by
  induction u with
  | nil => exact h
  | cons c u ih => rw [List.cons_append, List.cons_append, view, view, ih]

/-- The text after a character that is not soft is not looked at. -/
theorem view_append_of_mem {u : Text} (h : ∃ c ∈ u, isSoft c = false) (t t' : Text) :
    view (u ++ t) = view (u ++ t') := by
  obtain ⟨c, hc, hsoft⟩ := h
  induction u with
  | nil => cases hc
  | cons d u ih =>
    rw [List.cons_append, List.cons_append, view, view]
    rcases List.mem_cons.1 hc with rfl | hc
    · rw [hsoft]
      rfl
    · rw [ih hc]

/-- Texts that look alike begin alike. -/
theorem eq_cons_of_view {c : Char} (h : view (c :: t) = view t') :
    ∃ u, t' = c :: u ∧ (isSoft c = true → view t = view u) := by
  have hhead := head?_eq_of_view h
  cases t' with
  | nil => cases hhead
  | cons d u =>
    obtain rfl : c = d := Option.some.inj hhead
    refine ⟨u, rfl, fun hsoft => ?_⟩
    rw [view, view, if_pos hsoft, if_pos hsoft] at h
    exact (List.cons.inj h).2

theorem exists_of_view_append {lead : Text} (hsoft : ∀ c ∈ lead, isSoft c = true)
    (h : view (lead ++ t) = view t') : ∃ u, t' = lead ++ u ∧ view t = view u := by
  induction lead generalizing t' with
  | nil => exact ⟨t', rfl, h⟩
  | cons c lead ih =>
    obtain ⟨u, rfl, hu⟩ := eq_cons_of_view h
    obtain ⟨v, rfl, hv⟩ :=
      ih (fun d hd => hsoft d (List.mem_cons_of_mem c hd)) (hu (hsoft c List.mem_cons_self))
    exact ⟨v, rfl, hv⟩

theorem startsWith_congr {lead : Text} (h : view t = view t')
    (hsoft : ∀ c ∈ lead.dropLast, isSoft c = true) : startsWith t lead = startsWith t' lead := by
  induction lead generalizing t t' with
  | nil => rfl
  | cons a lead ih =>
    cases t with
    | nil => rw [eq_nil_of_view h]
    | cons c t =>
      obtain ⟨u, rfl, hu⟩ := eq_cons_of_view h
      unfold startsWith
      rw [stripLeading?, stripLeading?]
      split
      · next hac =>
        cases lead with
        | nil => rfl
        | cons b lead =>
          rw [List.dropLast_cons_cons] at hsoft
          exact ih (hu (hac ▸ hsoft a List.mem_cons_self))
            fun x hx => hsoft x (List.mem_cons_of_mem a hx)
      · rfl

theorem view_dropWhile {p : Char → Bool} (hp : ∀ c, p c = true → isSoft c = true)
    (h : view t = view t') : view (t.dropWhile p) = view (t'.dropWhile p) := by
  induction t generalizing t' with
  | nil => rw [eq_nil_of_view h]
  | cons c t ih =>
    obtain ⟨u, rfl, hu⟩ := eq_cons_of_view h
    by_cases hc : p c = true
    · rw [List.dropWhile_cons_of_pos hc, List.dropWhile_cons_of_pos hc]
      exact ih (hu (hp c hc))
    · rw [List.dropWhile_cons_of_neg hc, List.dropWhile_cons_of_neg hc]
      exact h

end Text

namespace Lexeme

open Text

/-! ### Blanks and comments -/

/-- What may follow some blanks: anything after a line feed, and else no further blank. -/
def EndsBlank (u rest : Text) : Prop := '\n' ∈ u ∨ rest.head?.any isCodeBlank = false

theorem blankLength_spec (t : Text) :
    ∃ u rest, t = u ++ rest ∧ blankLength t = u.length ∧ (∀ c ∈ u, isCodeBlank c = true) ∧
      EndsBlank u rest ∧ ∀ rest', EndsBlank u rest' → blankLength (u ++ rest') = u.length := by
  have hstop : ∀ rest' : Text, EndsBlank [] rest' → blankLength rest' = 0 := by
    rintro (_ | ⟨c, rest'⟩) (hmem | hhead)
    · cases hmem
    · rfl
    · cases hmem
    · have hc : isCodeBlank c = false := hhead
      have hne : c ≠ '\n' := by rintro rfl; cases hc
      rw [blankLength, if_neg hne, hc]
      rfl
  induction t with
  | nil => exact ⟨[], [], rfl, rfl, nofun, .inr rfl, hstop⟩
  | cons c t ih =>
    by_cases hline : c = '\n'
    · subst hline
      exact ⟨['\n'], t, rfl, rfl, List.all_eq_true.1 rfl, .inl List.mem_cons_self, fun _ _ => rfl⟩
    · by_cases hc : isCodeBlank c = true
      · obtain ⟨u, rest, rfl, hlen, hblank, hrest, hstable⟩ := ih
        have htail : ∀ rest', EndsBlank (c :: u) rest' ↔ EndsBlank u rest' := by
          intro rest'
          simp [EndsBlank, Ne.symm hline]
        refine ⟨c :: u, rest, rfl, ?_, List.forall_mem_cons.2 ⟨hc, hblank⟩, (htail rest).2 hrest,
          fun rest' hrest' => ?_⟩
        · rw [blankLength, if_neg hline, if_pos hc, hlen, List.length_cons, Nat.add_comm]
        · rw [List.cons_append, blankLength, if_neg hline, if_pos hc,
            hstable rest' ((htail rest').1 hrest'), List.length_cons, Nat.add_comm]
      · refine ⟨[], c :: t, rfl, ?_, nofun, .inr (Bool.eq_false_iff.2 hc), hstop⟩
        rw [blankLength, if_neg hline, if_neg hc, List.length_nil]

/-- What may follow a line comment: the end of its line or of the text, or a closing mark. -/
def EndsLine (rest : Text) : Prop := rest.head?.all isLineEnd = true ∨ ∃ t, rest = '?' :: '>' :: t

theorem lineCommentLength_of_ends {rest : Text} (h : EndsLine rest) : lineCommentLength rest = 0 := by
  rcases h with h | ⟨t, rfl⟩
  · cases rest with
    | nil => rfl
    | cons c t =>
      have hc : isLineEnd c = true := h
      have hne : c ≠ '?' := by rintro rfl; cases hc
      rw [lineCommentLength, if_pos hc]
      exact fun _ hq => absurd hq hne
  · rfl

theorem lineCommentLength_spec (t : Text) :
    ∃ u rest, t = u ++ rest ∧ lineCommentLength t = u.length ∧ (∀ c ∈ u, isLineEnd c = false) ∧
      EndsLine rest ∧ ∀ rest', EndsLine rest' → lineCommentLength (u ++ rest') = u.length := by
  fun_induction lineCommentLength t with
  | case1 => exact ⟨[], [], rfl, rfl, nofun, .inl rfl, fun _ => lineCommentLength_of_ends⟩
  | case2 t => exact ⟨[], _, rfl, rfl, nofun, .inr ⟨t, rfl⟩, fun _ => lineCommentLength_of_ends⟩
  | case3 c t hmark hc =>
    exact ⟨[], _, rfl, rfl, nofun, .inl hc, fun _ => lineCommentLength_of_ends⟩
  | case4 c t hmark hc ih =>
    obtain ⟨u, rest, rfl, hlen, hline, hrest, hstable⟩ := ih
    refine ⟨c :: u, rest, rfl, ?_,
      List.forall_mem_cons.2 ⟨Bool.eq_false_iff.2 hc, hline⟩, hrest, fun rest' hrest' => ?_⟩
    · rw [hlen, List.length_cons, Nat.add_comm]
    · have hmark' : ∀ s, c = '?' → u ++ rest' = '>' :: s → False := by
        rintro s rfl hs
        cases u with
        | nil =>
          rw [List.nil_append] at hs
          rw [hs] at hrest'
          rcases hrest' with h | ⟨_, h⟩ <;> cases h
        | cons d u =>
          obtain rfl : d = '>' := (List.cons.inj hs).1
          exact hmark _ rfl rfl
      rw [List.cons_append, lineCommentLength, if_neg hc, hstable rest' hrest', List.length_cons,
        Nat.add_comm]
      exact hmark'

theorem blockCommentLength?_spec {t : Text} {n : ℕ} (h : blockCommentLength? ('/' :: '*' :: t) = some n) :
    ∃ u rest, t = u ++ "*/".toList ++ rest ∧ n = u.length + 4 ∧
      ∀ rest', blockCommentLength? ('/' :: '*' :: (u ++ "*/".toList ++ rest')) = some n := by
  obtain ⟨⟨u, rest⟩, hbreak, rfl⟩ := Option.map_eq_some_iff.1 h
  refine ⟨u, rest, (append_of_breakOn hbreak).symm, rfl, fun rest' => ?_⟩
  exact Option.map_eq_some_iff.2 ⟨_, breakOn_append_of_eq_some hbreak rest', rfl⟩

/-! ### Closing marks -/

/-- A closing mark takes the line break after it. -/
theorem closeTagLength_spec (t : Text) :
    ∃ u rest, t = u ++ rest ∧ closeTagLength ('?' :: '>' :: t) = u.length + 2 ∧
      (u ≠ [] → u.getLast? = some '\n') ∧
      ∀ rest', (u = [] → view rest = view rest') →
        closeTagLength ('?' :: '>' :: (u ++ rest')) = u.length + 2 := by
  by_cases hcr : startsWith t ['\r', '\n'] = true
  · obtain ⟨rest, hrest⟩ := Option.isSome_iff_exists.1 hcr
    obtain rfl := append_of_stripLeading? hrest
    exact ⟨['\r', '\n'], rest, rfl, rfl, fun _ => rfl, fun _ _ => rfl⟩
  · by_cases hlf : startsWith t ['\n'] = true
    · obtain ⟨rest, hrest⟩ := Option.isSome_iff_exists.1 hlf
      obtain rfl := append_of_stripLeading? hrest
      exact ⟨['\n'], rest, rfl, rfl, fun _ => rfl, fun _ _ => rfl⟩
    · have hsoft : ∀ c ∈ ['\r', '\n'].dropLast, isSoft c = true := List.all_eq_true.1 rfl
      have hnone : ∀ c ∈ ['\n'].dropLast, isSoft c = true := fun c hc => by cases hc
      have hlen : ∀ t' : Text, view t = view t' → closeTagLength ('?' :: '>' :: t') = 2 := by
        intro t' h
        rw [closeTagLength, List.drop_succ_cons, List.drop_succ_cons, List.drop_zero,
          ← startsWith_congr h hsoft, ← startsWith_congr h hnone, if_neg hcr, if_neg hlf]
      exact ⟨[], t, rfl, hlen t rfl, fun h => absurd rfl h, fun t' h => hlen t' (h rfl)⟩

/-! ### Quoted strings -/

theorem quotedTailLength?_spec {quote : Char} (hquote : quote ≠ '\\') {t : Text} {n : ℕ}
    (h : quotedTailLength? quote t = some n) :
    ∃ u rest, t = u ++ quote :: rest ∧ n = u.length + 1 ∧
      ∀ rest', quotedTailLength? quote (u ++ quote :: rest') = some n := by
  fun_induction quotedTailLength? quote t generalizing n with
  | case1 => cases h
  | case2 => cases h
  | case3 c t ih =>
    obtain ⟨m, hm, rfl⟩ := Option.map_eq_some_iff.1 h
    obtain ⟨u, rest, rfl, rfl, hstable⟩ := ih hm
    refine ⟨'\\' :: c :: u, rest, rfl, by simp only [List.length_cons]; omega, fun rest' => ?_⟩
    rw [List.cons_append, List.cons_append, quotedTailLength?, hstable rest', Option.map_some]
  | case4 t _ _ =>
    cases h
    refine ⟨[], t, rfl, rfl, fun rest' => ?_⟩
    rw [List.nil_append, quotedTailLength?, if_pos rfl]
    · exact fun h => absurd h hquote
    · exact fun _ _ h => absurd h hquote
  | case5 c t hlast hescape hc ih =>
    obtain ⟨m, hm, rfl⟩ := Option.map_eq_some_iff.1 h
    obtain ⟨u, rest, rfl, rfl, hstable⟩ := ih hm
    have hc' : c ≠ '\\' := by
      rintro rfl
      cases u with
      | nil => exact hescape _ _ rfl rfl
      | cons d u => exact hescape _ _ rfl rfl
    refine ⟨c :: u, rest, rfl, by simp only [List.length_cons]; omega, fun rest' => ?_⟩
    rw [List.cons_append, quotedTailLength?, if_neg hc, hstable rest', Option.map_some]
    · exact fun h => absurd h hc'
    · exact fun _ _ h => absurd h hc'

/-- A string without its quote in it, unless a backslash stands in front of the closing one. -/
theorem quotedTailLength?_of_not_mem {q : Char} (hq : q ≠ '\\') {t : Text} (ht : q ∉ t)
    (hlast : t.getLast? ≠ some '\\') (rest : Text) :
    quotedTailLength? q (t ++ q :: rest) = some (t.length + 1) := by
  fun_induction quotedTailLength? q t with
  | case1 => rw [List.nil_append, quotedTailLength?] <;> simp [hq]
  | case2 => exact absurd rfl hlast
  | case3 c t ih =>
    have ht' : q ∉ t := fun hmem => ht (List.mem_cons_of_mem _ (List.mem_cons_of_mem _ hmem))
    have hlast' : t.getLast? ≠ some '\\' := by
      cases t with
      | nil => simp
      | cons d t => rwa [List.getLast?_cons_cons, List.getLast?_cons_cons] at hlast
    rw [List.cons_append, List.cons_append, quotedTailLength?, ih ht' hlast', Option.map_some,
      List.length_cons, List.length_cons]
    exact congrArg some (by omega)
  | case4 t _ _ => exact absurd List.mem_cons_self ht
  | case5 c t hend hescape hc ih =>
    have hplain : c ≠ '\\' := by
      rintro rfl
      cases t with
      | nil => exact hend rfl rfl
      | cons d t => exact hescape d t rfl rfl
    have hlast' : t.getLast? ≠ some '\\' := by
      cases t with
      | nil => simp
      | cons d t => rwa [List.getLast?_cons_cons] at hlast
    have ht' : q ∉ t := fun hmem => ht (List.mem_cons_of_mem _ hmem)
    rw [List.cons_append, quotedTailLength?, if_neg hc, ih ht' hlast', Option.map_some,
      List.length_cons]
    · exact congrArg some (by omega)
    · exact fun h => absurd h hplain
    · exact fun _ _ h => absurd h hplain

/-! ### Names and heredocs -/

theorem isWordChar_of_isWordStart {c : Char} (h : isWordStart c = true) : isWordChar c = true := by
  simp only [isWordStart, isWordChar, Char.isAlphanum, Bool.or_eq_true] at h ⊢
  tauto

theorem wordLength_cons {c : Char} (hc : isWordChar c = true) (t : Text) :
    wordLength (c :: t) = wordLength t + 1 := by
  rw [wordLength, List.takeWhile_cons_of_pos hc, List.length_cons]
  rfl

theorem wordLength_spec (t : Text) :
    ∃ u rest, t = u ++ rest ∧ wordLength t = u.length ∧ (∀ c ∈ u, isWordChar c = true) ∧
      rest.head?.any isWordChar = false ∧
      ∀ rest', rest'.head?.any isWordChar = false → wordLength (u ++ rest') = u.length := by
  have hword : ∀ c ∈ t.takeWhile isWordChar, isWordChar c = true :=
    fun c hc => List.mem_takeWhile_imp hc
  refine ⟨_, _, List.takeWhile_append_dropWhile.symm, rfl, hword, head?_dropWhile _ _,
    fun rest' hrest' => ?_⟩
  rw [wordLength, takeWhile_append_of_head hword hrest']

/-- Labels of heredocs are names. -/
def IsName (t : Text) : Prop := t.head?.any isWordStart = true ∧ ∀ c ∈ t, isWordChar c = true

theorem isName_of_heredocLabel? {t label : Text} (h : heredocLabel? t = some label) :
    IsName label := by
  unfold heredocLabel? at h
  obtain ⟨header, -, h⟩ := Option.bind_eq_some_iff.1 h
  dsimp only at h
  split at h
  · cases h
  · next c u hcons =>
    rw [hcons] at h
    split at h
    · next hc =>
      cases h
      refine ⟨?_, fun d hd => List.mem_takeWhile_imp hd⟩
      rw [List.takeWhile_cons_of_pos (isWordChar_of_isWordStart hc)]
      exact hc
    · cases h

theorem isSome_heredocLabel?_iff {t : Text} : (heredocLabel? t).isSome = true ↔
    ∃ header, t = "<<<".toList ++ header ∧
      ((header.dropWhile isSpaceOrTab).dropWhile fun c => c == '\'' || c == '"').head?.any
        isWordStart = true := by
  unfold heredocLabel?
  cases hstrip : stripLeading? "<<<".toList t with
  | none =>
    refine ⟨nofun, ?_⟩
    rintro ⟨header, rfl, -⟩
    rw [stripLeading?_append] at hstrip
    cases hstrip
  | some header =>
    obtain rfl := append_of_stripLeading? hstrip
    simp only [Option.bind_eq_bind, Option.bind_some, List.append_cancel_left_eq,
      exists_eq_left']
    split
    · next hnil => simp [hnil]
    · next c u hcons =>
      rw [hcons]
      split
      · next hc => simp [hc]
      · next hc => simp [hc]

/-- Whether a heredoc is opened does not depend on what is not looked at. -/
theorem isSome_heredocLabel?_of_view {t t' : Text} (h : view t = view t')
    (ht : (heredocLabel? t).isSome = true) : (heredocLabel? t').isSome = true := by
  obtain ⟨header, rfl, hhead⟩ := isSome_heredocLabel?_iff.1 ht
  obtain ⟨header', rfl, hview⟩ := exists_of_view_append (List.all_eq_true.1 (by rfl)) h
  refine isSome_heredocLabel?_iff.2 ⟨header', rfl, ?_⟩
  have hblank : ∀ c, isSpaceOrTab c = true → isSoft c = true := by
    intro c hc
    rcases (by simpa [isSpaceOrTab] using hc : c = ' ' ∨ c = '\t') with rfl | rfl <;> rfl
  have hquote : ∀ c : Char, (c == '\'' || c == '"') = true → isSoft c = true := by
    intro c hc
    rcases (by simpa using hc : c = '\'' ∨ c = '"') with rfl | rfl <;> rfl
  rwa [← head?_eq_of_view (view_dropWhile hquote (view_dropWhile hblank hview))]

/-- The label of a heredoc stands in its first line. -/
theorem heredocLabel?_append_cons (head body body' : Text) :
    heredocLabel? (head ++ '\n' :: body) = heredocLabel? (head ++ '\n' :: body') := by
  unfold heredocLabel?
  rw [stripLeading?_append_cons (by decide), stripLeading?_append_cons (by decide)]
  cases stripLeading? "<<<".toList head with
  | none => rfl
  | some header =>
    simp only [Option.map_some, Option.bind_eq_bind, Option.bind_some]
    rw [dropWhile_append_cons (by decide), dropWhile_append_cons (by decide),
      dropWhile_append_cons (by decide), dropWhile_append_cons (by decide)]
    cases (header.dropWhile isSpaceOrTab).dropWhile fun c => c == '\'' || c == '"' with
    | nil => rfl
    | cons c u =>
      have htake : ∀ t : Text, (c :: u ++ '\n' :: t).takeWhile isWordChar =
          (c :: u).takeWhile isWordChar := takeWhile_append_cons (by decide) (c :: u)
      simp only [List.cons_append] at htake ⊢
      rw [htake, htake]

theorem closingLabelLength?_append {indent label after : Text} (hlabel : IsName label)
    (hindent : ∀ c ∈ indent, isSpaceOrTab c = true) (hafter : after.head?.any isWordChar = false) :
    closingLabelLength? label (indent ++ (label ++ after)) = some (indent.length + label.length) := by
  have hhead : (label ++ after).head?.any isSpaceOrTab = false := by
    cases label with
    | nil => cases hlabel.1
    | cons c label =>
      have hc : isWordStart c = true := hlabel.1
      refine Bool.eq_false_iff.2 fun h => ?_
      rcases (by simpa [isSpaceOrTab] using h : c = ' ' ∨ c = '\t') with rfl | rfl <;> cases hc
  rw [closingLabelLength?, dropWhile_append_of_head hindent hhead,
    takeWhile_append_of_head hindent hhead, stripLeading?_append]
  dsimp only
  rw [hafter]
  rfl

theorem exists_of_closingLabelLength? {label line : Text} {n : ℕ}
    (h : closingLabelLength? label line = some n) :
    ∃ indent after, line = indent ++ (label ++ after) ∧ n = indent.length + label.length ∧
      (∀ c ∈ indent, isSpaceOrTab c = true) ∧ after.head?.any isWordChar = false := by
  unfold closingLabelLength? at h
  dsimp only at h
  split at h
  · cases h
  · next after hafter =>
    split at h
    · cases h
    · next hhead =>
      cases h
      refine ⟨_, after, ?_, rfl, fun c hc => List.mem_takeWhile_imp hc, Bool.eq_false_iff.2 hhead⟩
      rw [append_of_stripLeading? hafter, List.takeWhile_append_dropWhile]

/-- The body of a heredoc, through the label at the beginning of a line that closes it. -/
theorem heredocBodyLength?_spec {label : Text} (hlabel : IsName label) {body : Text} {n : ℕ}
    (h : heredocBodyLength? label (pieces '\n' body) = some n) :
    ∃ u rest, body = u ++ (label ++ rest) ∧ n = u.length + label.length ∧
      rest.head?.any isWordChar = false ∧ ∀ rest', rest'.head?.any isWordChar = false →
        heredocBodyLength? label (pieces '\n' (u ++ (label ++ rest'))) = some n := by
  have hname : ∀ {indent : Text}, (∀ c ∈ indent, isSpaceOrTab c = true) →
      '\n' ∉ indent ++ label := by
    intro indent hindent hmem
    rcases List.mem_append.1 hmem with h | h
    · cases hindent _ h
    · cases hlabel.2 _ h
  -- a line that closes the heredoc also does so when other text follows the label
  have hclose : ∀ {indent : Text}, (∀ c ∈ indent, isSpaceOrTab c = true) → ∀ rest',
      rest'.head?.any isWordChar = false →
      heredocBodyLength? label (pieces '\n' (indent ++ (label ++ rest'))) =
        some (indent.length + label.length) := by
    intro indent hindent rest' hrest'
    obtain ⟨v, more, hmore, ⟨w, rfl⟩⟩ := pieces_eq_cons (hname hindent) rest'
    rw [← List.append_assoc, hmore, heredocBodyLength?, List.append_assoc,
      closingLabelLength?_append hlabel hindent]
    cases v with
    | nil => rfl
    | cons c v => exact hrest'
  induction hlines : pieces '\n' body generalizing body n with
  | nil => rw [hlines] at h; cases h
  | cons line lines ih =>
    rw [hlines, heredocBodyLength?] at h
    split at h
    · next m hm =>
      cases h
      obtain ⟨indent, after, rfl, rfl, hindent, hafter⟩ := exists_of_closingLabelLength? hm
      rcases pieces_cases '\n' body with ⟨-, hpieces⟩ | ⟨line', more, -, rfl, hpieces⟩
      · rw [hlines] at hpieces
        cases hpieces
        exact ⟨indent, after, rfl, rfl, hafter, hclose hindent⟩
      · rw [hlines] at hpieces
        cases hpieces
        refine ⟨indent, after ++ '\n' :: more, by simp, rfl, ?_, hclose hindent⟩
        cases after with
        | nil => rfl
        | cons c after => exact hafter
    · next hopen =>
      obtain ⟨m, hm, rfl⟩ := Option.map_eq_some_iff.1 h
      rcases pieces_cases '\n' body with ⟨-, hpieces⟩ | ⟨line', more, hline, rfl, hpieces⟩
      · rw [hlines] at hpieces
        cases hpieces
        cases hm
      · rw [hlines] at hpieces
        cases hpieces
        obtain ⟨u, rest, rfl, rfl, hrest, hstable⟩ := ih hm rfl
        refine ⟨line ++ '\n' :: u, rest, by simp, by simp; omega, hrest, fun rest' hrest' => ?_⟩
        rw [List.append_assoc, List.cons_append, pieces_append_cons hline, heredocBodyLength?, hopen]
        dsimp only
        rw [hstable rest' hrest', Option.map_some]

/-- A heredoc ends with its label, and no further character of a name may follow. -/
theorem heredocLength?_spec {t label : Text} {n : ℕ} (hlabel : heredocLabel? t = some label)
    (h : heredocLength? label t = some n) :
    ∃ u rest, t = u ++ (label ++ rest) ∧ n = u.length + label.length ∧
      rest.head?.any isWordChar = false ∧ ∀ rest', rest'.head?.any isWordChar = false →
        heredocLabel? (u ++ (label ++ rest')) = some label ∧
        heredocLength? label (u ++ (label ++ rest')) = some n := by
  unfold heredocLength? at h
  split at h
  · cases h
  · next head body hbreak =>
    obtain ⟨m, hm, rfl⟩ := Option.map_eq_some_iff.1 h
    obtain rfl : head ++ ['\n'] ++ body = t := append_of_breakOn hbreak
    obtain ⟨u, rest, rfl, rfl, hrest, hstable⟩ :=
      heredocBodyLength?_spec (isName_of_heredocLabel? hlabel) hm
    refine ⟨head ++ '\n' :: u, rest, by simp, by simp; omega, hrest, fun rest' hrest' => ?_⟩
    have hbreak' : breakOn ['\n'] (head ++ '\n' :: u ++ (label ++ rest')) =
        some (head, u ++ (label ++ rest')) := by
      have := breakOn_append_of_eq_some hbreak (u ++ (label ++ rest'))
      simpa using this
    constructor
    · rw [List.append_assoc, List.cons_append, heredocLabel?_append_cons _ _ (u ++ (label ++ rest)),
        ← hlabel]
      simp
    · rw [heredocLength?, hbreak']
      dsimp only
      rw [hstable rest' hrest', Option.map_some]

/-! ### Numbers -/

/-- Whether a number goes on after the character `last` with `c` in front of a text. -/
def continuesNumber (hex : Bool) (last c : Char) (t : Text) : Bool :=
  c.isAlphanum || c == '_' || c == '.' ||
    ((c == '+' || c == '-') && !hex && (last == 'e' || last == 'E') && t.head?.any Char.isDigit)

theorem numberTailLength_cons (hex : Bool) (last c : Char) (t : Text) :
    numberTailLength hex last (c :: t) =
      if continuesNumber hex last c t then 1 + numberTailLength hex c t else 0 := rfl

theorem continuesNumber_congr {hex : Bool} {last c : Char} {t t' : Text}
    (h : isSoft c = true → t.head? = t'.head?) :
    continuesNumber hex last c t = continuesNumber hex last c t' := by
  rw [continuesNumber, continuesNumber]
  cases hsign : c == '+' || c == '-' with
  | true =>
    have hsoft : isSoft c = true := by
      rcases (by simpa using hsign : c = '+' ∨ c = '-') with rfl | rfl <;> rfl
    rw [h hsoft]
  | false => rfl

theorem numberTailLength_spec (hex : Bool) (last : Char) (t : Text) :
    ∃ u rest, t = u ++ rest ∧ numberTailLength hex last t = u.length ∧ '\n' ∉ u ∧
      ∀ rest', view rest = view rest' → numberTailLength hex last (u ++ rest') = u.length := by
  induction t generalizing last with
  | nil =>
    refine ⟨[], [], rfl, rfl, List.not_mem_nil, fun rest' h => ?_⟩
    rw [eq_nil_of_view h]
    rfl
  | cons c t ih =>
    by_cases hc : continuesNumber hex last c t = true
    · obtain ⟨u, rest, rfl, hlen, hline, hstable⟩ := ih c
      refine ⟨c :: u, rest, rfl, ?_, ?_, fun rest' h => ?_⟩
      · rw [numberTailLength_cons, if_pos hc, hlen, List.length_cons, Nat.add_comm]
      · have hne : '\n' ≠ c := by rintro rfl; cases hc
        exact fun hmem => (List.mem_cons.1 hmem).elim hne hline
      · have hhead := head?_eq_of_view (view_append_congr h u)
        rw [List.cons_append, numberTailLength_cons, ← continuesNumber_congr fun _ => hhead,
          if_pos hc, hstable rest' h, List.length_cons, Nat.add_comm]
    · refine ⟨[], c :: t, rfl, ?_, List.not_mem_nil, fun rest' h => ?_⟩
      · rw [numberTailLength_cons, if_neg hc, List.length_nil]
      · obtain ⟨t', rfl, ht'⟩ := eq_cons_of_view h
        rw [List.nil_append, numberTailLength_cons,
          ← continuesNumber_congr fun hsoft => head?_eq_of_view (ht' hsoft), if_neg hc,
          List.length_nil]

/-- A number goes on through digits, and ends in front of what is no part of one. -/
theorem numberTailLength_of_isDigit (hex : Bool) (last : Char) {t rest : Text}
    (ht : ∀ c ∈ t, c.isDigit = true)
    (hrest : rest.head?.any (fun c => c.isAlphanum || ['_', '.', '+', '-'].contains c) = false) :
    numberTailLength hex last (t ++ rest) = t.length := by
  induction t generalizing last with
  | nil =>
    cases rest with
    | nil => rfl
    | cons c rest =>
      have hc : continuesNumber hex last c rest = false := by
        simp only [List.head?_cons, Option.any_some, Bool.or_eq_false_iff, List.contains_cons,
          List.contains_nil] at hrest
        simp [continuesNumber, hrest]
      rw [List.nil_append, numberTailLength_cons, hc]
      rfl
  | cons c t ih =>
    obtain ⟨hc, ht⟩ := List.forall_mem_cons.1 ht
    have hcontinues : continuesNumber hex last c (t ++ rest) = true := by
      simp [continuesNumber, Char.isAlphanum, hc]
    rw [List.cons_append, numberTailLength_cons, if_pos hcontinues, ih c ht, List.length_cons,
      Nat.add_comm]

theorem numberLength_spec (c : Char) (t : Text) :
    ∃ u rest, t = u ++ rest ∧ numberLength (c :: t) = u.length + 1 ∧ '\n' ∉ u ∧
      ∀ rest', view rest = view rest' → numberLength (c :: (u ++ rest')) = u.length + 1 := by
  obtain ⟨u, rest, rfl, hlen, hline, hstable⟩ :=
    numberTailLength_spec (c == '0' && t.head?.any fun d => d == 'x' || d == 'X') c t
  refine ⟨u, rest, rfl, ?_, hline, fun rest' h => ?_⟩
  · rw [numberLength, hlen, Nat.add_comm]
  · rw [numberLength, ← head?_eq_of_view (view_append_congr h u), hstable rest' h, Nat.add_comm]

/-! ### Operators -/

/-- The operators of the table have more than one character, and soft ones in the middle. -/
theorem operatorTable_shape : ∀ x ∈ Kind.operatorTable,
    ∃ a tail, x.1 = a :: tail ∧ '\n' ∉ x.1 ∧ ∀ c ∈ tail.dropLast, isSoft c = true := by
  have hshape : ∀ x ∈ Kind.operatorTable, x.1 ≠ [] ∧ '\n' ∉ x.1 ∧
      x.1.tail.dropLast.all isSoft = true := by decide
  intro x hx
  obtain ⟨hne, hline, hsoft⟩ := hshape x hx
  exact ⟨_, _, (List.cons_head_tail hne).symm, hline, List.all_eq_true.1 hsoft⟩

theorem symbolAt_congr (c : Char) {t t' : Text} (h : view t = view t') :
    symbolAt c t = symbolAt c t' := by
  have hfind : Kind.operatorTable.find? (fun x => startsWith (c :: t) x.1) =
      Kind.operatorTable.find? fun x => startsWith (c :: t') x.1 := by
    refine List.find?_congr fun x hx => ?_
    obtain ⟨a, tail, ha, -, hsoft⟩ := operatorTable_shape x hx
    rw [ha, startsWith, startsWith, stripLeading?, stripLeading?]
    split
    · exact startsWith_congr h hsoft
    · rfl
  unfold symbolAt
  rw [hfind]

/-- A character that no operator begins with in front of a text stands for itself. -/
theorem symbolAt_eq_single {c : Char} {t : Text}
    (h : ∀ x ∈ Kind.operatorTable, x.1.head? = some c → ∀ d ∈ t.head?, x.1[1]? ≠ some d) :
    symbolAt c t = (Kind.ofSymbol c, 1) := by
  have hlong : ∀ x ∈ Kind.operatorTable, 2 ≤ x.1.length := by decide
  have hnone : Kind.operatorTable.find? (fun x => startsWith (c :: t) x.1) = none := by
    refine List.find?_eq_none.2 fun x hx hstarts => ?_
    obtain ⟨rest, hrest⟩ := Option.isSome_iff_exists.1 hstarts
    have htext := append_of_stripLeading? hrest
    have hlen := hlong x hx
    obtain ⟨op, kind⟩ := x
    dsimp only at htext hlen
    match op, htext, hlen, hx with
    | a :: b :: tail, htext, _, hx =>
      obtain ⟨rfl, rfl⟩ := List.cons.inj htext
      exact h _ hx rfl b rfl rfl
  rw [symbolAt, hnone]

theorem symbolAt_spec (c : Char) (t : Text) :
    ∃ u rest, t = u ++ rest ∧ (symbolAt c t).2 = u.length + 1 ∧ '\n' ∉ u ∧
      ∀ rest', view rest = view rest' → symbolAt c (u ++ rest') = symbolAt c t := by
  have hstable : ∀ {u rest rest' : Text}, view rest = view rest' →
      symbolAt c (u ++ rest') = symbolAt c (u ++ rest) :=
    fun h => (symbolAt_congr c (view_append_congr h _)).symm
  cases hfind : Kind.operatorTable.find? fun x => startsWith (c :: t) x.1 with
  | none =>
    have hsymbol : symbolAt c t = (Kind.ofSymbol c, 1) := by
      unfold symbolAt
      rw [hfind]
    exact ⟨[], t, rfl, by rw [hsymbol]; rfl, List.not_mem_nil, fun rest' h => hstable h⟩
  | some x =>
    obtain ⟨a, u, ha, hline, -⟩ := operatorTable_shape x (List.mem_of_find?_eq_some hfind)
    have hsymbol : symbolAt c t = (x.2, x.1.length) := by
      unfold symbolAt
      rw [hfind]
    have hstarts : startsWith (c :: t) x.1 = true := by simpa using List.find?_some hfind
    obtain ⟨rest, hrest⟩ := Option.isSome_iff_exists.1 hstarts
    have htext := append_of_stripLeading? hrest
    rw [ha] at htext hline
    obtain ⟨rfl, rfl⟩ := List.cons.inj htext
    refine ⟨u, rest, rfl, by rw [hsymbol, ha]; rfl, fun hmem => hline (List.mem_cons_of_mem a hmem),
      fun rest' h => hstable h⟩

end Lexeme

end EntityLint
