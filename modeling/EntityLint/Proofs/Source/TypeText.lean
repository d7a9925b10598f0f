import EntityLint.Proofs.Source.Reading
import EntityLint.Proofs.Token.Nullable
import EntityLint.Source.Declaration

/-!
# The characters of a type

The type of a property is put together from the tokens in front of its variable. It holds names and the
few marks that types are written with, whatever the text of the file is.

* `isTypeChar`: the characters of types;
* `CodePiece.isTypeChar_of_mem`, `SourceFile.isTypeChar_of_parse`: lexemes and tokens that are part of a
  type;
* `Property.isTypeChar_ofTokens`: the type that is read from some tokens.

The main statement is `SourceFile.isTypeChar_typeText`.
-/

namespace EntityLint

open Lexeme

/-- The marks that a type is written with. -/
def typeMarks : List Char := ['?', '\\', '|', '&', '(', ')']

/-- A character of a type: one of a name, or a mark. -/
def isTypeChar (c : Char) : Bool := isWordChar c || typeMarks.contains c

/-- The kinds of the lexemes that become parts of a type. -/
def Kind.MakesType (k : Kind) : Prop := k.isTypePart = true ∨ k = .ternary

instance (k : Kind) : Decidable k.MakesType := inferInstanceAs (Decidable (_ ∨ _))

/-! ### Lexemes -/

theorem isTypeChar_of_isWordChar {c : Char} (h : isWordChar c = true) : isTypeChar c = true := by
  rw [isTypeChar, h]
  rfl

/-- A symbol that becomes part of a type is one of the marks. -/
theorem Lexeme.symbolAt_of_makesType {c : Char} {t : Text} (h : (symbolAt c t).1.MakesType) :
    c ∈ typeMarks ∧ (symbolAt c t).2 = 1 := by
  unfold symbolAt at h ⊢
  split
  · next x hx =>
    rw [hx] at h
    have hnone : ∀ x ∈ Kind.operatorTable, ¬x.2.MakesType := by decide
    exact absurd h (hnone _ (List.mem_of_find?_eq_some hx))
  · next hx =>
    rw [hx] at h
    change (Kind.ofSymbol c).MakesType at h
    refine ⟨?_, rfl⟩
    unfold Kind.ofSymbol at h
    split at h <;> first | decide | exact absurd h (by decide)

theorem CodePiece.isTypeChar_of_mem {ctx : Context} {c : Char} {t : Text} {p : Piece}
    (h : CodePiece ctx c t p) {l : Lexeme} (hl : l ∈ p.lexemes) (hk : l.kind.MakesType) :
    ∀ d ∈ l.text, isTypeChar d = true := by
  have hcut : ∀ {kind : Kind} {n : ℕ}, l ∈ (Piece.cut kind c t n).lexemes →
      l = ⟨kind, c :: t.take (n - 1)⟩ := fun hl => List.mem_singleton.1 hl
  cases h with
  | docComment body rest hdoc h =>
    have hkind := (mem_lexemes_docComment hl).2
    refine absurd hk ?_
    revert hkind
    cases l.kind <;> decide
  | word hc =>
    obtain ⟨u, rest, rfl, hlen, hword, -⟩ := wordLength_spec t
    have hlen' : wordLength (c :: (u ++ rest)) - 1 = u.length := by
      rw [wordLength_cons (isWordChar_of_isWordStart hc), hlen, Nat.add_sub_cancel]
    obtain rfl := hcut hl
    intro d hd
    rw [hlen', List.take_left] at hd
    rcases List.mem_cons.1 hd with rfl | hd
    · exact isTypeChar_of_isWordChar (isWordChar_of_isWordStart hc)
    · exact isTypeChar_of_isWordChar (hword d hd)
  | symbol h =>
    obtain rfl := hcut hl
    obtain ⟨hc, hlen⟩ := symbolAt_of_makesType hk
    intro d hd
    rw [hlen, List.take_zero, List.mem_singleton] at hd
    subst hd
    rw [isTypeChar, List.contains_iff_mem.2 hc, Bool.or_true]
  | _ =>
    obtain rfl := hcut hl
    exact absurd hk (by dsimp only; decide)

theorem isTypeChar_of_cutAll {ctx : Context} {t : Text} {pieces : List Piece}
    (h : Piece.cutAll ctx t = .ok pieces) {l : Lexeme} (hl : l ∈ pieces.flatMap Piece.lexemes)
    (hk : l.kind.MakesType) : ∀ d ∈ l.text, isTypeChar d = true := by
  obtain ⟨p, hp, hl⟩ := List.mem_flatMap.1 hl
  refine forall_cutAll (P := fun p => ∀ l ∈ p.lexemes, l.kind.MakesType →
    ∀ d ∈ l.text, isTypeChar d = true) (fun ctx c t p hp l hl hk => ?_) h p hp l hl hk
  unfold nextPiece at hp
  split at hp
  · exact (codePiece_of_ok hp).isTypeChar_of_mem hl hk
  · split at hp <;> cases hp <;> cases List.mem_singleton.1 hl <;>
      exact absurd hk (by dsimp only; decide)

/-! ### Tokens -/

namespace SourceFile

variable {path : String} {source : Text} {f : SourceFile}

/-- A token that is part of a type is made of such characters. -/
theorem isTypeChar_of_parse (h : parse path source = .ok f) {t : Token} (ht : t ∈ f.tokens.toList)
    (hk : t.kind.isTypePart = true) : ∀ c ∈ t.text, isTypeChar c = true := by
  obtain ⟨tokens, htokens, rfl⟩ := exists_tokens_of_parse h
  obtain ⟨ls, docs, pairs, hls, -, rfl⟩ := exists_lexemes_of_tokenize htokens
  obtain ⟨pieces, hpieces, rfl⟩ := exists_pieces_of_ofSource hls
  obtain ⟨i, hi⟩ := List.mem_iff_getElem?.1 ht
  obtain ⟨l, hl, hdesc⟩ := Token.describes_of_getElem? hi
  have hkind : t.kind = l.kind := by
    have hclose := hdesc.kind
    split at hclose
    · rw [hclose] at hk
      cases hk
    · exact hclose
  obtain ⟨ls', hresolves, heq⟩ := resolveNullable_append none (pieces.flatMap Piece.lexemes) []
  rw [List.append_nil, resolveNullable, List.append_nil] at heq
  rw [heq] at hl
  obtain ⟨hlength, hget⟩ := List.forall₂_iff_get.1 hresolves
  obtain ⟨hi', rfl⟩ := List.getElem?_eq_some_iff.1 hl
  have hat : Resolves ((pieces.flatMap Piece.lexemes).get ⟨i, by omega⟩) ls'[i] :=
    hget i (by omega) hi'
  rw [hdesc.text, hat.text]
  refine isTypeChar_of_cutAll hpieces (List.get_mem ..) ?_
  rcases hat.kind with hsame | ⟨hternary, -⟩
  · refine .inl ?_
    rw [← hsame]
    exact hkind ▸ hk
  · exact .inr hternary

end SourceFile

/-! ### Properties -/

/-- What is read from a token is taken from it, if it is part of a type. -/
theorem Property.typeText_takeIn {p q : Property} {t : Token} (h : p.takeIn t = some q) :
    q.typeText = p.typeText ∨
      t.kind.isTypePart = true ∧ q.typeText = some (t.text ++ p.typeText.getD []) := by
  unfold takeIn at h
  split at h
  · cases h
    exact .inl rfl
  · split at h
    · cases h
      exact .inl rfl
    · cases h
      exact .inl rfl
    · cases h
      exact .inl rfl
    · split at h
      · next hpart =>
        cases h
        exact .inr ⟨(Bool.and_eq_true_iff.1 hpart).1, rfl⟩
      · cases h

theorem Property.isTypeChar_ofTokens {p : Property} {tokens : List Token}
    (htokens : ∀ t ∈ tokens, t.kind.isTypePart = true → ∀ c ∈ t.text, isTypeChar c = true)
    (hp : ∀ type ∈ p.typeText, ∀ c ∈ type, isTypeChar c = true) :
    ∀ type ∈ (p.ofTokens tokens).typeText, ∀ c ∈ type, isTypeChar c = true := by
  induction tokens generalizing p with
  | nil => exact hp
  | cons t tokens ih =>
    obtain ⟨ht, htokens⟩ := List.forall_mem_cons.1 htokens
    rw [ofTokens]
    split
    · next q hq =>
      refine ih htokens fun type htype c hc => ?_
      rcases typeText_takeIn hq with hsame | ⟨hpart, hmore⟩
      · exact hp type (hsame ▸ htype) c hc
      · rw [hmore] at htype
        cases htype
        rcases List.mem_append.1 hc with hc | hc
        · exact ht hpart c hc
        · cases hbefore : p.typeText with
          | none =>
            rw [hbefore] at hc
            cases hc
          | some before =>
            rw [hbefore] at hc
            exact hp before hbefore c hc
    · exact hp

/-- **The type of a property is made of names and the marks of types.** -/
theorem SourceFile.isTypeChar_typeText {path : String} {source : Text} {f : SourceFile}
    (h : parse path source = .ok f) {i : ℕ} {type : Text}
    (htype : (f.property? i).bind Property.typeText = some type) :
    ∀ c ∈ type, isTypeChar c = true := by
  unfold property? at htype
  split at htype
  · refine Property.isTypeChar_ofTokens (fun t ht => isTypeChar_of_parse h ?_)
      (fun _ hnone => by cases hnone) type htype
    exact List.mem_of_mem_take (List.mem_reverse.1 (List.mem_of_mem_filter ht))
  · cases htype

end EntityLint
