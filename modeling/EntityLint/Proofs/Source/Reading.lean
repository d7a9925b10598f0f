import EntityLint.Proofs.Token.Position
import EntityLint.Proofs.Token.Surroundings
import EntityLint.Proofs.Token.Tolerance
import EntityLint.Source.Declaration

/-!
# The lexemes of a file as they were cut

Tokens differ in few kinds from the lexemes that the cutter makes. What the rules read off the tokens
of a file is said of these lexemes here.

* `text_of_kind_variable`: a variable is a dollar sign and a name;
* `SourceFile.mem_propertyTokens_iff`: the properties of a file;
* `SourceFile.Reads`, `exists_reads_of_parse`: how the tokens of a file read the lexemes;
* `SourceFile.offset_lt_of_parse`: the places of the tokens of a file;
* `wellPaired_of_parse`, `conditions_of_parse`: the links between the tokens of a file;
* `findUp_eq_false`, `SourceFile.Reads.isTrivia_of_nextSignificant?`: what a search steps over;
* `previousOfKind?_eq_some_iff`, `isSome_previousOfKind?_iff`, `nextOfKind?_eq_some_iff`: searches by
  kind.
-/

namespace EntityLint

open Lexeme

/-! ### Variables -/

theorem CodePiece.text_of_kind_variable {ctx : Context} {c : Char} {t : Text} {p : Piece}
    (h : CodePiece ctx c t p) {l : Lexeme} (hl : l ∈ p.lexemes) (hk : l.kind = .variable) :
    ∃ u, l.text = '$' :: u ∧ ∀ d ∈ u, isWordChar d = true := by
  have hother : ∀ {kind : Kind} {n : ℕ}, kind ≠ .variable →
      l ∈ (Piece.cut kind c t n).lexemes → False := by
    intro kind n hne hl
    rw [List.mem_singleton.1 hl] at hk
    exact hne hk
  cases h with
  | variableName hc ht =>
    obtain ⟨u, rest, rfl, hlen, hword, -⟩ := wordLength_spec t
    refine ⟨u, ?_, hword⟩
    rw [List.mem_singleton.1 hl, hc, hlen, Nat.add_sub_cancel_left, List.take_left]
  | docComment body rest hdoc h =>
    have hkind := (mem_lexemes_docComment hl).2
    rw [hk] at hkind
    exact absurd hkind (by decide)
  | word hc =>
    exact (hother (Context.of_wordKind (P := (· ≠ .variable)) (by decide) (by decide) _ _ _) hl).elim
  | symbol h =>
    exact (hother (of_symbolAt (P := (· ≠ .variable)) (by decide)
      (fun d => by unfold Kind.ofSymbol; split <;> decide) _ _) hl).elim
  | _ => exact (hother (by decide) hl).elim

theorem text_of_kind_variable {ctx : Context} {t : Text} {pieces : List Piece}
    (h : Piece.cutAll ctx t = .ok pieces) {l : Lexeme} (hl : l ∈ pieces.flatMap Piece.lexemes)
    (hk : l.kind = .variable) : ∃ u, l.text = '$' :: u ∧ ∀ d ∈ u, isWordChar d = true := by
  obtain ⟨p, hp, hl⟩ := List.mem_flatMap.1 hl
  refine forall_cutAll (P := fun p => ∀ l ∈ p.lexemes, l.kind = .variable → ∃ u, l.text = '$' :: u ∧
    ∀ d ∈ u, isWordChar d = true) (fun ctx c t p hp l hl hk => ?_) h p hp l hl hk
  unfold nextPiece at hp
  split at hp
  · exact (codePiece_of_ok hp).text_of_kind_variable hl hk
  · split at hp <;> cases hp <;> cases List.mem_singleton.1 hl <;> cases hk

/-! ### Files -/

theorem SourceFile.mem_propertyTokens_iff {f : SourceFile} {i : ℕ} : i ∈ f.propertyTokens ↔
    ∃ t, f.tokens[i]? = some t ∧ isPropertyToken t = true := by
  simp only [propertyTokens, List.mem_map, List.mem_filter, Prod.exists, exists_eq_right,
    List.mk_mem_zipIdx_iff_getElem?, Array.getElem?_toList]

theorem SourceFile.lt_size_of_mem_propertyTokens {f : SourceFile} {i : ℕ} (h : i ∈ f.propertyTokens) :
    i < f.tokens.size := by
  obtain ⟨t, ht, -⟩ := mem_propertyTokens_iff.1 h
  exact (Array.getElem?_eq_some_iff.1 ht).1

/-- How the tokens of a file read the lexemes as they were cut. Only brackets that close an attribute
group and question marks that begin a type have other kinds. -/
structure SourceFile.Reads (f : SourceFile) (ls : List Lexeme) : Prop where
  size : f.tokens.size = ls.length
  text : ∀ i : ℕ, f.textAt i = (ls[i]?.map Lexeme.text).getD []
  kind : ∀ (i : ℕ) (k : Kind), f.kindAt i = some k → k ∉ [.attributeClose, .nullable] →
    ∃ l, ls[i]? = some l ∧ l.kind = k
  line : ∀ (i : ℕ) (t : Token), f.tokens[i]? = some t →
    t.position.line = 1 + ((ls.take i).flatMap Lexeme.text).count '\n'
  variable_text : ∀ l ∈ ls, l.kind = .variable →
    ∃ u, l.text = '$' :: u ∧ ∀ d ∈ u, isWordChar d = true

namespace SourceFile

theorem exists_tokens_of_parse {path : String} {source : Text} {f : SourceFile}
    (h : parse path source = .ok f) :
    ∃ tokens, tokenize source = .ok tokens ∧ f = ⟨path, source, tokens.toArray⟩ := by
  unfold parse at h
  cases htokens : tokenize source with
  | error e => simp [htokens, bind, Except.bind] at h
  | ok tokens =>
    simp only [htokens, bind, Except.bind, pure, Except.pure, Except.ok.injEq] at h
    exact ⟨tokens, rfl, h.symm⟩

end SourceFile

/-- A computation of whose result something can be evaluated. -/
theorem exists_ok_of_any {ε α : Type} {x : Except ε α} {p : α → Prop} [DecidablePred p]
    (h : x.toOption.any (fun a => p a) = true) : ∃ a, x = .ok a ∧ p a := by
  cases x with
  | error e => cases h
  | ok a => exact ⟨a, rfl, of_decide_eq_true h⟩

/-- The tokens of a file read the lexemes that its text is cut into. -/
theorem exists_reads_of_parse {path : String} {source : Text} {f : SourceFile}
    (h : SourceFile.parse path source = .ok f) :
    ∃ pieces, Piece.cutAll Context.start source = .ok pieces ∧
      f.Reads (pieces.flatMap Piece.lexemes) := by
  obtain ⟨tokens, htokens, rfl⟩ := SourceFile.exists_tokens_of_parse h
  obtain ⟨_, docs, pairs, hls, -, rfl⟩ := exists_lexemes_of_tokenize htokens
  obtain ⟨pieces, hpieces, rfl⟩ := exists_pieces_of_ofSource hls
  have hsize : (resolveNullable none (pieces.flatMap Piece.lexemes)).length =
      (pieces.flatMap Piece.lexemes).length := by
    simpa using congrArg List.length (text_resolveNullable none (pieces.flatMap Piece.lexemes))
  refine ⟨pieces, hpieces, ?_, fun i => ?_, fun i k hk hne => ?_, fun i t ht => ?_,
    fun l => text_of_kind_variable hpieces⟩
  · rw [List.size_toArray, Token.length_ofLexemes, hsize]
  · rw [SourceFile.textAt, List.getElem?_toArray, ← List.getElem?_map, Token.text_ofLexemes,
      text_resolveNullable, List.getElem?_map]
  · rw [SourceFile.kindAt, List.getElem?_toArray] at hk
    obtain ⟨t, ht, rfl⟩ := Option.map_eq_some_iff.1 hk
    obtain ⟨l, hl, -, hkind, -⟩ := exists_lexeme_of_tokenize htokens hpieces ht
    exact ⟨l, hl, hkind hne⟩
  · rw [List.getElem?_toArray] at ht
    obtain ⟨l, hl, hdesc⟩ := Token.describes_of_getElem? ht
    have hi := (List.getElem?_eq_some_iff.1 hl).1
    rw [hdesc.position, text_resolveNullable,
      Position.getElem?_ofTexts _ _ (by rwa [List.length_map, ← hsize]), Option.getD_some,
      Position.after_start, ← List.map_take, ← List.flatMap_def]

/-- Tokens come in the order of their places. -/
theorem SourceFile.offset_lt_of_parse {path : String} {source : Text} {f : SourceFile}
    (h : SourceFile.parse path source = .ok f) {i j : ℕ} {t u : Token} (hij : i < j)
    (ht : f.tokens[i]? = some t) (hu : f.tokens[j]? = some u) :
    t.position.offset < u.position.offset := by
  obtain ⟨tokens, htokens, rfl⟩ := exists_tokens_of_parse h
  obtain ⟨ls, docs, pairs, hls, -, rfl⟩ := exists_lexemes_of_tokenize htokens
  have hoffset : ∀ {n : ℕ} {v : Token}, (Token.ofLexemes ls docs pairs)[n]? = some v →
      v.position.offset = Text.utf8Length ((ls.map Lexeme.text).take n).flatten := by
    intro n v hv
    obtain ⟨l, hl, hdesc⟩ := Token.describes_of_getElem? hv
    have hn := (List.getElem?_eq_some_iff.1 hl).1
    rw [hdesc.position, Position.getElem?_ofTexts _ _ (by rwa [List.length_map]), Option.getD_some,
      Position.after_start]
  rw [List.getElem?_toArray] at ht hu
  obtain ⟨l, hl, -⟩ := Token.describes_of_getElem? ht
  have hne := (Lexeme.mem_ofSource hls l (List.mem_of_getElem? hl)).1
  have hsplit : (ls.map Lexeme.text).take j = (ls.map Lexeme.text).take i ++
      l.text :: ((ls.map Lexeme.text).take j).drop (i + 1) := by
    conv_lhs => rw [← List.take_append_drop i ((ls.map Lexeme.text).take j), List.take_take,
      Nat.min_eq_left hij.le]
    rw [List.drop_eq_getElem?_toList_append, List.getElem?_take, if_pos hij, List.getElem?_map, hl]
    rfl
  rw [hoffset ht, hoffset hu, hsplit, List.flatten_append, List.flatten_cons,
    Text.utf8Length_append, Text.utf8Length_append]
  have := Text.utf8Length_pos hne
  omega

section Links

open Token

variable {path : String} {source : Text} {f : SourceFile}

theorem wellPaired_of_parse (h : SourceFile.parse path source = .ok f) :
    WellPaired f.tokens.toList := by
  obtain ⟨tokens, htokens, rfl⟩ := SourceFile.exists_tokens_of_parse h
  obtain ⟨ls, docs, pairs, hls, hpairs, rfl⟩ := exists_lexemes_of_tokenize htokens
  exact wellPaired_ofLexemes hpairs docs fun l hl => (Lexeme.mem_ofSource hls l hl).2

/-- The conditions of a token are the owners whose scopes lie around it. -/
theorem conditions_of_parse (h : SourceFile.parse path source = .ok f) {i : ℕ} {t : Token}
    (ht : f.tokens[i]? = some t) : t.conditions = ownersAround f.tokens.toList i := by
  obtain ⟨tokens, htokens, rfl⟩ := SourceFile.exists_tokens_of_parse h
  obtain ⟨ls, docs, pairs, hls, hpairs, rfl⟩ := exists_lexemes_of_tokenize htokens
  rw [List.getElem?_toArray] at ht
  exact conditions_ofLexemes hpairs ht fun l hl => (Lexeme.mem_ofSource hls l hl).2

end Links

/-! ### Searches -/

/-- A search steps over what does not satisfy its predicate. -/
theorem findUp_eq_false {p : ℕ → Bool} {start count i : ℕ} (h : findUp p start count = some i) :
    ∀ j, start ≤ j → j < i → p j = false := by
  induction count generalizing start with
  | zero => cases h
  | succ count ih =>
    intro j hstart hj
    rw [findUp] at h
    split at h
    · cases h
      omega
    · next hp =>
      rcases hstart.eq_or_lt with rfl | hlt
      · exact Bool.eq_false_iff.2 hp
      · exact ih h j hlt hj

/-- A search finds the first index that satisfies its predicate. -/
theorem findUp_eq_some_iff {p : ℕ → Bool} {start count i : ℕ} : findUp p start count = some i ↔
    start ≤ i ∧ i < start + count ∧ p i = true ∧ ∀ j, start ≤ j → j < i → p j = false := by
  constructor
  · intro h
    obtain ⟨hle, hlt, hp⟩ := findUp_eq_some h
    exact ⟨hle, hlt, hp, findUp_eq_false h⟩
  · rintro ⟨hle, hlt, hp, hfirst⟩
    induction count generalizing start with
    | zero => omega
    | succ count ih =>
      rw [findUp]
      rcases hle.eq_or_lt with rfl | hstart
      · rw [if_pos hp]
      · rw [hfirst start le_rfl hstart, if_neg Bool.false_ne_true]
        exact ih hstart (by omega) fun j hj => hfirst j (by omega)

/-- A search that finds nothing has stepped over all indices. -/
theorem findUp_eq_none {p : ℕ → Bool} {start count : ℕ} (h : findUp p start count = none) :
    ∀ i, start ≤ i → i < start + count → p i = false := by
  induction count generalizing start with
  | zero => omega
  | succ count ih =>
    intro i hle hlt
    rw [findUp] at h
    split at h
    · cases h
    · next hp =>
      rcases hle.eq_or_lt with rfl | hstart
      · exact Bool.eq_false_iff.2 hp
      · exact ih h i hstart (by omega)

/-- A search downward steps over what does not satisfy its predicate and finds the last index that
does. -/
theorem findDown_eq_some_iff {p : ℕ → Bool} {low stop i : ℕ} : findDown p low stop = some i ↔
    low ≤ i ∧ i < stop ∧ p i = true ∧ ∀ j, i < j → j < stop → p j = false := by
  induction stop with
  | zero => simp [findDown]
  | succ stop ih =>
    rw [findDown]
    split
    · next hlow =>
      constructor
      · intro h
        cases h
      · omega
    · next hlow =>
      split
      · next hp =>
        constructor
        · intro h
          cases h
          exact ⟨by omega, Nat.lt_succ_self _, hp, fun j hj hlt => by omega⟩
        · rintro ⟨-, hlt, -, hlast⟩
          by_contra hne
          have hi : i ≠ stop := fun h => hne (congrArg some h.symm)
          rw [hlast stop (by omega) (Nat.lt_succ_self _)] at hp
          cases hp
      · next hp =>
        rw [ih]
        constructor
        · rintro ⟨hle, hlt, hpi, hlast⟩
          refine ⟨hle, by omega, hpi, fun j hj hlt' => ?_⟩
          rcases Nat.eq_or_lt_of_le (Nat.le_of_lt_succ hlt') with rfl | hlt'
          · exact Bool.eq_false_iff.2 hp
          · exact hlast j hj hlt'
        · rintro ⟨hle, hlt, hpi, hlast⟩
          have hi : i ≠ stop := fun h => hp (h ▸ hpi)
          exact ⟨hle, by omega, hpi, fun j hj hlt' => hlast j hj (by omega)⟩

/-- A search downward finds something if there is something to be found. -/
theorem isSome_findDown_iff {p : ℕ → Bool} {low stop : ℕ} :
    (findDown p low stop).isSome = true ↔ ∃ i, low ≤ i ∧ i < stop ∧ p i = true := by
  rw [Option.isSome_iff_exists]
  constructor
  · rintro ⟨i, hi⟩
    obtain ⟨hle, hlt, hp, -⟩ := findDown_eq_some_iff.1 hi
    exact ⟨i, hle, hlt, hp⟩
  · rintro ⟨i, hle, hlt, hp⟩
    induction stop with
    | zero => exact absurd hlt (Nat.not_lt_zero i)
    | succ stop ih =>
      rw [findDown, if_neg (by omega)]
      split
      · exact ⟨stop, rfl⟩
      · next hstop =>
        have hne : i ≠ stop := fun heq => hstop (heq ▸ hp)
        exact ih (by omega)

namespace SourceFile

variable {f : SourceFile} {kinds : List Kind}

theorem holdsAt_kinds_iff {i : ℕ} : f.holdsAt (fun t => kinds.contains t.kind != false) i = true ↔
    ∃ k ∈ kinds, f.kindAt i = some k := by
  rw [holdsAt, kindAt]
  cases f.tokens[i]? with
  | none => simp
  | some t => simp

theorem holdsAt_kinds_eq_false {i : ℕ}
    (h : f.holdsAt (fun t => kinds.contains t.kind != false) i = false) :
    ∀ k ∈ kinds, f.kindAt i ≠ some k := by
  intro k hk hkind
  rw [holdsAt_kinds_iff.2 ⟨k, hk, hkind⟩] at h
  cases h

theorem lt_size_of_kindAt {i : ℕ} {k : Kind} (h : f.kindAt i = some k) : i < f.tokens.size := by
  obtain ⟨t, ht, -⟩ := Option.map_eq_some_iff.1 h
  exact (Array.getElem?_eq_some_iff.1 ht).1

theorem previousOfKind?_eq_some_iff {start i : ℕ} :
    f.previousOfKind? kinds start none false = some i ↔ i ≤ start ∧ (∃ k ∈ kinds, f.kindAt i = some k) ∧
      ∀ j, i < j → j ≤ start → ∀ k ∈ kinds, f.kindAt j ≠ some k := by
  rw [previousOfKind?, previous?, findDown_eq_some_iff, holdsAt_kinds_iff]
  constructor
  · rintro ⟨-, hlt, hk, hlast⟩
    refine ⟨by omega, hk, fun j hij hj k hmem hkind => ?_⟩
    have hsize := lt_size_of_kindAt hkind
    exact holdsAt_kinds_eq_false (hlast j hij (by omega)) k hmem hkind
  · rintro ⟨hle, ⟨k, hk, hkind⟩, hlast⟩
    have hsize := lt_size_of_kindAt hkind
    refine ⟨Nat.zero_le i, by omega, ⟨k, hk, hkind⟩, fun j hij hj => Bool.eq_false_iff.2 fun hholds => ?_⟩
    obtain ⟨k', hk', hkind'⟩ := holdsAt_kinds_iff.1 hholds
    exact hlast j hij (by omega) k' hk' hkind'

theorem isSome_previousOfKind?_iff {kind : Kind} {start low : ℕ} :
    (f.previousOfKind? [kind] start (some low) false).isSome = true ↔
      ∃ i, f.kindAt i = some kind ∧ low ≤ i ∧ i ≤ start := by
  rw [previousOfKind?, previous?, isSome_findDown_iff, Option.getD_some]
  simp only [holdsAt_kinds_iff, List.mem_singleton, exists_eq_left]
  constructor
  · rintro ⟨i, hle, hlt, hi⟩
    exact ⟨i, hi, hle, by omega⟩
  · rintro ⟨i, hi, hle, hstart⟩
    have hsize := lt_size_of_kindAt hi
    exact ⟨i, hle, by omega, hi⟩

theorem nextOfKind?_eq_some_iff {start i : ℕ} :
    f.nextOfKind? kinds start none false = some i ↔ start ≤ i ∧ (∃ k ∈ kinds, f.kindAt i = some k) ∧
      ∀ j, start ≤ j → j < i → ∀ k ∈ kinds, f.kindAt j ≠ some k := by
  rw [nextOfKind?, next?, findUp_eq_some_iff, holdsAt_kinds_iff, Option.getD_none, Nat.min_self]
  constructor
  · rintro ⟨hle, -, hk, hfirst⟩
    exact ⟨hle, hk, fun j hj hji => holdsAt_kinds_eq_false (hfirst j hj hji)⟩
  · rintro ⟨hle, ⟨k, hk, hkind⟩, hfirst⟩
    have hsize := lt_size_of_kindAt hkind
    refine ⟨hle, by omega, ⟨k, hk, hkind⟩, fun j hj hji => Bool.eq_false_iff.2 fun hholds => ?_⟩
    obtain ⟨k', hk', hkind'⟩ := holdsAt_kinds_iff.1 hholds
    exact hfirst j hj hji k' hk' hkind'

end SourceFile

namespace SourceFile.Reads

variable {f : SourceFile} {ls : List Lexeme}

theorem exists_token (h : f.Reads ls) {i : ℕ} {l : Lexeme} (hl : ls[i]? = some l) :
    ∃ t, f.tokens[i]? = some t := by
  have hi := (List.getElem?_eq_some_iff.1 hl).1
  rw [← h.size] at hi
  exact ⟨_, Array.getElem?_eq_getElem hi⟩

/-- A lexeme with the text of its token. -/
theorem textAt_eq (h : f.Reads ls) {i : ℕ} {l : Lexeme} (hl : ls[i]? = some l) :
    f.textAt i = l.text := by
  rw [h.text, hl]
  rfl

theorem map_text (h : f.Reads ls) : ls.map Lexeme.text = f.tokens.toList.map Token.text := by
  have hlen : ls.length = f.tokens.toList.length := h.size.symm.trans Array.length_toList.symm
  refine List.ext_getElem (by rw [List.length_map, List.length_map, hlen]) ?_
  intro i hi hi'
  rw [List.length_map] at hi hi'
  have hl := List.getElem?_eq_getElem hi
  have htext := h.textAt_eq hl
  rw [textAt, ← Array.getElem?_toList, List.getElem?_eq_getElem hi'] at htext
  rw [List.getElem_map, List.getElem_map]
  exact htext.symm

/-- Between a token and the next significant one there is only trivia. -/
theorem isTrivia_of_nextSignificant? (h : f.Reads ls) {start i : ℕ} {stop : Option ℕ}
    (hnext : f.nextSignificant? start stop = some i) :
    ∀ l ∈ (ls.take i).drop start, l.kind.isTrivia = true := by
  intro l hl
  obtain ⟨j, hj⟩ := List.mem_iff_getElem?.1 hl
  rw [List.getElem?_drop, List.getElem?_take] at hj
  split at hj
  · next hlt =>
    have hfalse := findUp_eq_false hnext (start + j) (Nat.le_add_right ..) hlt
    obtain ⟨t, ht⟩ := h.exists_token hj
    rw [holdsAt, ht] at hfalse
    have htrivia : t.kind.isTrivia = true := by simpa using hfalse
    have hne : t.kind ∉ [.attributeClose, .nullable] := by
      rintro hmem
      rcases (by simpa using hmem : t.kind = .attributeClose ∨ t.kind = .nullable) with hk | hk <;>
        rw [hk] at htrivia <;> cases htrivia
    obtain ⟨l', hl', hk⟩ := h.kind (start + j) t.kind (by rw [kindAt, ht]; rfl) hne
    cases hj.symm.trans hl'
    rw [hk, htrivia]
  · cases hj

end SourceFile.Reads

end EntityLint
