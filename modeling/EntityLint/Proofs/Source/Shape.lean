import EntityLint.Mapping.Tag
import EntityLint.Proofs.Source.Reading
import EntityLint.Proofs.Token.Recast

/-!
# Files of the same shape

The tokens of a retold text have the kinds and the links of the old ones. Whatever is looked up by
kinds and links alone is found at the same place in both files.

* `Token.SameShape`, `SourceFile.SameShape`: tokens and files that differ only in texts and places;
* `tokenize_of_retold`, `SourceFile.parse_of_retold`: the file of a retold text;
* `SourceFile.SameShape.nextOfKind?_eq`, `propertyTokens_eq`, `docCommentOf?_eq`,
  `attributeGroups_eq`, `partBounds_eq`: what does not change with the shape;
* `textBetween_append`, `eq_of_textBetween_eq`, `SameShape.textBetween_eq`: texts, token by token.
-/

namespace EntityLint

/-! ### Tokens of the same shape -/

/-- Tokens that differ only in their texts and places. -/
def Token.SameShape (t t' : Token) : Prop :=
  t' = { t with text := t'.text, position := t'.position }

namespace Lexeme

theorem firstSignificant?_eq (ls : List Lexeme) :
    firstSignificant? ls = (ls.map kind).find? fun k => !k.isTrivia := by
  rw [firstSignificant?, List.find?_map]
  rfl

/-- Which question marks belong to types is told by the kinds. -/
theorem map_kind_resolveNullable {ls ls' : List Lexeme} (h : ls'.map kind = ls.map kind)
    (before : Option Kind) :
    (resolveNullable before ls').map kind = (resolveNullable before ls).map kind := by
  induction ls generalizing ls' before with
  | nil => rw [List.map_eq_nil_iff.1 h]
  | cons l ls ih =>
    cases ls' with
    | nil => cases h
    | cons l' ls' =>
      obtain ⟨hk, hks⟩ := List.cons.inj h
      rw [resolveNullable, resolveNullable, List.map_cons, List.map_cons]
      simp only [firstSignificant?_eq, hk, hks]
      rw [ih hks]

end Lexeme

/-- The tokens of lexemes of the same kinds have the same shape. -/
theorem Token.sameShape_ofLexemes {ls ls' : List Lexeme} (h : ls'.map Lexeme.kind = ls.map Lexeme.kind)
    (docs : List DocComment) (pairs : Pairing.Pairs) :
    List.Forall₂ SameShape (ofLexemes ls docs pairs) (ofLexemes ls' docs pairs) := by
  have hlen : ls'.length = ls.length := by simpa using congrArg List.length h
  rw [List.forall₂_iff_get]
  refine ⟨by rw [length_ofLexemes, length_ofLexemes, hlen], fun i hi hi' => ?_⟩
  rw [length_ofLexemes] at hi hi'
  have hk : (ls'[i]).kind = (ls[i]).kind := by
    simpa [hi, hi'] using congrArg (fun ks => ks[i]?) h
  simp only [SameShape, List.get_eq_getElem, ofLexemes, List.getElem_mapIdx, h, hk]

/-- The token stream of a retold text: tokens of the same shape with the retold texts. -/
theorem tokenize_of_retold {source : Text} {tokens : List Token} {pieces : List Piece}
    {ts : List Text} (h : tokenize source = .ok tokens)
    (hpieces : Piece.cutAll Context.start source = .ok pieces)
    (hretold : Retold none (pieces.flatMap Piece.lexemes) ts) :
    ∃ tokens', tokenize ts.flatten = .ok tokens' ∧ List.Forall₂ Token.SameShape tokens tokens' ∧
      tokens'.map Token.text = ts := by
  obtain ⟨_, pairs, hpieces', hpairs, rfl⟩ := exists_pieces_of_tokenize h
  cases hpieces.symm.trans hpieces'
  obtain ⟨pieces', hcut, hkept, hts⟩ := exists_kept_of_retold hpieces hretold
  have hkinds := Lexeme.map_kind_resolveNullable hkept.map_kind none
  refine ⟨_, ?_, Token.sameShape_ofLexemes hkinds (DocComment.all 0 pieces) pairs, ?_⟩
  · rw [tokenize, hcut]
    simp only [bind, Except.bind, hkinds, hpairs, hkept.docComments_eq]
    rfl
  · rw [Token.text_ofLexemes, Lexeme.text_resolveNullable, hts]

namespace SourceFile

/-- Files whose tokens differ only in texts and places. -/
def SameShape (f f' : SourceFile) : Prop :=
  List.Forall₂ Token.SameShape f.tokens.toList f'.tokens.toList

/-- The file of a retold text. -/
theorem parse_of_retold {path : String} {source : Text} {f : SourceFile} {pieces : List Piece}
    {ts : List Text} (h : parse path source = .ok f)
    (hpieces : Piece.cutAll Context.start source = .ok pieces)
    (hretold : Retold none (pieces.flatMap Piece.lexemes) ts) :
    ∃ f', parse path ts.flatten = .ok f' ∧ f.SameShape f' ∧
      f'.tokens.toList.map Token.text = ts := by
  obtain ⟨tokens, htokens, rfl⟩ := exists_tokens_of_parse h
  obtain ⟨tokens', htokens', hshape, hts⟩ := tokenize_of_retold htokens hpieces hretold
  refine ⟨⟨path, ts.flatten, tokens'.toArray⟩, ?_, hshape, hts⟩
  rw [parse, htokens']
  rfl

/-- The file of a recast text. -/
theorem parse_of_recastAll {path : String} {source : Text} {f : SourceFile} {pieces : List Piece}
    {ts : List Text} (h : parse path source = .ok f)
    (hpieces : Piece.cutAll Context.start source = .ok pieces)
    (hrecast : RecastAll none (pieces.flatMap Piece.lexemes) ts) :
    ∃ f', parse path ts.flatten = .ok f' ∧ f.SameShape f' ∧
      f'.tokens.toList.map Token.text = ts :=
  parse_of_retold h hpieces (hrecast.retold (Lexeme.regular_of_cutAll hpieces))

namespace SameShape

variable {f f' : SourceFile}

/-! ### Single tokens -/

theorem size_eq (h : f.SameShape f') : f'.tokens.size = f.tokens.size := h.length_eq.symm

/-- At an index there is a token in both files or in neither. -/
theorem getElem?_cases (h : f.SameShape f') (i : ℕ) :
    (f.tokens[i]? = none ∧ f'.tokens[i]? = none) ∨
      ∃ t u p, f.tokens[i]? = some t ∧
        f'.tokens[i]? = some { t with text := u, position := p } := by
  obtain ⟨hlen, hget⟩ := List.forall₂_iff_get.1 h
  by_cases hi : i < f.tokens.toList.length
  · have hi' : i < f'.tokens.toList.length := hlen ▸ hi
    refine .inr ⟨f.tokens[i], f'.tokens[i].text, f'.tokens[i].position,
      Array.getElem?_eq_getElem hi, ?_⟩
    rw [Array.getElem?_eq_getElem hi']
    exact congrArg some (hget i hi hi')
  · have hi' : ¬i < f'.tokens.toList.length := hlen ▸ hi
    exact .inl ⟨Array.getElem?_eq_none (not_lt.1 hi), Array.getElem?_eq_none (not_lt.1 hi')⟩

/-- What a token has apart from its text and place is the same in both files. -/
theorem map_getElem? (h : f.SameShape f') {α : Type} {g : Token → α}
    (hg : ∀ (t : Token) (u : Text) (p : Position), g { t with text := u, position := p } = g t)
    (i : ℕ) : f'.tokens[i]?.map g = f.tokens[i]?.map g := by
  rcases h.getElem?_cases i with ⟨hi, hi'⟩ | ⟨t, u, p, hi, hi'⟩
  · rw [hi, hi']
  · rw [hi, hi', Option.map_some, Option.map_some, hg]

theorem bind_getElem? (h : f.SameShape f') {α : Type} {g : Token → Option α}
    (hg : ∀ (t : Token) (u : Text) (p : Position), g { t with text := u, position := p } = g t)
    (i : ℕ) : f'.tokens[i]?.bind g = f.tokens[i]?.bind g := by
  rcases h.getElem?_cases i with ⟨hi, hi'⟩ | ⟨t, u, p, hi, hi'⟩
  · rw [hi, hi']
  · rw [hi, hi', Option.bind_some, Option.bind_some, hg]

theorem kindAt_eq (h : f.SameShape f') (i : ℕ) : f'.kindAt i = f.kindAt i :=
  h.map_getElem? (fun _ _ _ => rfl) i

theorem holdsAt_eq (h : f.SameShape f') {p : Token → Bool}
    (hp : ∀ (t : Token) (u : Text) (q : Position), p { t with text := u, position := q } = p t) :
    f'.holdsAt p = f.holdsAt p := by
  funext i
  rcases h.getElem?_cases i with ⟨hi, hi'⟩ | ⟨t, u, q, hi, hi'⟩
  · rw [holdsAt, holdsAt, hi, hi']
  · rw [holdsAt, holdsAt, hi, hi', Option.any_some, Option.any_some, hp]

/-! ### Searches -/

theorem nextOfKind?_eq (h : f.SameShape f') (kinds : List Kind) (start : ℕ) (stop : Option ℕ)
    (exclude : Bool) :
    f'.nextOfKind? kinds start stop exclude = f.nextOfKind? kinds start stop exclude := by
  unfold nextOfKind? next?
  rw [h.size_eq, h.holdsAt_eq fun _ _ _ => rfl]

theorem previousOfKind?_eq (h : f.SameShape f') (kinds : List Kind) (start : ℕ) (low : Option ℕ)
    (exclude : Bool) :
    f'.previousOfKind? kinds start low exclude = f.previousOfKind? kinds start low exclude := by
  unfold previousOfKind? previous?
  rw [h.size_eq, h.holdsAt_eq fun _ _ _ => rfl]

theorem nextSignificant?_eq (h : f.SameShape f') (start : ℕ) (stop : Option ℕ) :
    f'.nextSignificant? start stop = f.nextSignificant? start stop := by
  unfold nextSignificant? next?
  rw [h.size_eq, h.holdsAt_eq fun _ _ _ => rfl]

/-! ### What stands in front of a declaration -/

theorem ownerOf?_eq (h : f.SameShape f') (stop : ℕ) : f'.ownerOf? stop = f.ownerOf? stop :=
  h.nextOfKind?_eq ..

theorem docCommentOf?_eq (h : f.SameShape f') (declaration : ℕ) :
    f'.docCommentOf? declaration = f.docCommentOf? declaration := by
  simp only [docCommentOf?, h.previousOfKind?_eq, h.ownerOf?_eq]
  refine congrArg _ (funext fun _ => congrArg _ (funext fun close => congrArg _ (funext fun _ => ?_)))
  exact h.bind_getElem? (fun _ _ _ => rfl) close

theorem attributeGroupsBefore_of_close (h : f.SameShape f') {declaration start close : ℕ}
    (hstart : start ≠ 0)
    (hclose : f.previousOfKind? [.attributeClose] (start - 1) none false = some close) :
    f'.attributeGroupsBefore declaration start =
      match f'.tokens[close]?.bind Token.attrGroup with
      | none => []
      | some group =>
        if f'.ownerOf? close = some declaration then
          ⟨group.opener, close⟩ :: f'.attributeGroupsBefore declaration (Nat.min group.opener close)
        else [] := by
  rw [attributeGroupsBefore, dif_neg hstart]
  split
  · next hnone => cases hnone.symm.trans ((h.previousOfKind?_eq ..).trans hclose)
  · next close' hclose' =>
    cases hclose'.symm.trans ((h.previousOfKind?_eq ..).trans hclose)
    rfl

theorem attributeGroupsBefore_eq (h : f.SameShape f') (declaration start : ℕ) :
    f'.attributeGroupsBefore declaration start = f.attributeGroupsBefore declaration start := by
  have hgroup := h.bind_getElem? (g := Token.attrGroup) fun _ _ _ => rfl
  fun_induction f.attributeGroupsBefore declaration start with
  | case1 => rw [attributeGroupsBefore, dif_pos rfl]
  | case2 start hstart hnone =>
    rw [attributeGroupsBefore, dif_neg hstart]
    split
    · rfl
    · next hclose => cases hclose.symm.trans ((h.previousOfKind?_eq ..).trans hnone)
  | case3 start hstart close hclose hnone =>
    rw [h.attributeGroupsBefore_of_close hstart hclose, hgroup, hnone]
  | case4 start hstart close hclose group hsome howner ih =>
    rw [h.attributeGroupsBefore_of_close hstart hclose, hgroup, hsome]
    dsimp only
    rw [h.ownerOf?_eq, if_pos howner, ih]
  | case5 start hstart close hclose group hsome howner =>
    rw [h.attributeGroupsBefore_of_close hstart hclose, hgroup, hsome]
    dsimp only
    rw [h.ownerOf?_eq, if_neg howner]

theorem attributeGroups_eq (h : f.SameShape f') (declaration : ℕ) :
    f'.attributeGroups declaration = f.attributeGroups declaration := by
  rw [attributeGroups, attributeGroups, h.attributeGroupsBefore_eq]

theorem partBounds_eq (h : f.SameShape f') (groups : List Kind) (stop start i : ℕ) :
    f'.partBounds groups stop start i = f.partBounds groups stop start i := by
  fun_induction f.partBounds groups stop start i with
  | case1 start i hi hnone =>
    rcases h.getElem?_cases i with ⟨-, hi'⟩ | ⟨t, u, p, hsome, -⟩
    · rw [partBounds, dif_pos hi, hi']
    · cases hnone.symm.trans hsome
  | case5 start i hi => rw [partBounds, dif_neg hi]
  | _ start i hi token htoken =>
    rcases h.getElem?_cases i with ⟨hnone, -⟩ | ⟨t, u, p, hsome, hi'⟩
    · cases hnone.symm.trans htoken
    · cases hsome.symm.trans htoken
      rw [partBounds, dif_pos hi, hi']
      simp_all [afterGroup]

theorem propertyTokens_eq (h : f.SameShape f') : f'.propertyTokens = f.propertyTokens := by
  have hzip : ∀ {l l' : List Token} (_ : List.Forall₂ Token.SameShape l l') (n : ℕ),
      ((l'.zipIdx n).filter fun x => isPropertyToken x.1).map Prod.snd =
        ((l.zipIdx n).filter fun x => isPropertyToken x.1).map Prod.snd := by
    intro l l' h
    induction h with
    | nil => exact fun _ => rfl
    | @cons t t' l l' ht _ ih =>
      intro n
      have hproperty : isPropertyToken t' = isPropertyToken t := by
        rw [ht]
        rfl
      simp only [List.zipIdx_cons, List.filter_cons, hproperty]
      split
      · rw [List.map_cons, List.map_cons, ih]
      · exact ih (n + 1)
  exact hzip h 0

end SameShape

/-! ### Texts, token by token -/

section Texts

variable {f f' : SourceFile} {start stop : ℕ}

theorem textAt_eq_of_getElem? {i : ℕ} {t : Token} (h : f.tokens[i]? = some t) : f.textAt i = t.text := by
  rw [textAt, h]
  rfl

theorem kindAt_eq_of_getElem? {i : ℕ} {t : Token} (h : f.tokens[i]? = some t) :
    f.kindAt i = some t.kind := by
  rw [kindAt, h]
  rfl

theorem slice_append (mid : ℕ) (h₁ : start ≤ mid) (h₂ : mid ≤ stop) :
    f.slice start stop = f.slice start mid ++ f.slice mid stop := by
  rw [slice, slice, slice, show stop - start = (mid - start) + (stop - mid) by omega, List.take_add,
    List.drop_drop, Nat.add_sub_cancel' h₁]

theorem slice_singleton (i : ℕ) : f.slice i (i + 1) = f.tokens[i]?.toList := by
  rw [slice, Nat.add_sub_cancel_left, ← Array.getElem?_toList, List.take_one, List.head?_drop]

theorem textBetween_append (mid : ℕ) (h₁ : start ≤ mid) (h₂ : mid ≤ stop) :
    f.textBetween start stop = f.textBetween start mid ++ f.textBetween mid stop := by
  rw [textBetween, slice_append mid h₁ h₂, List.flatMap_append]
  rfl

theorem textBetween_singleton (i : ℕ) : f.textBetween i (i + 1) = f.textAt i := by
  rw [textBetween, slice_singleton, textAt]
  cases f.tokens[i]? with
  | none => rfl
  | some t => simp

/-- No token is empty, so that texts from one place end at one place. -/
theorem eq_of_textBetween_eq {path : String} {source : Text} (h : parse path source = .ok f)
    {i a b : ℕ} (ha : i ≤ a) (hb : i ≤ b) (hsize : a ≤ f.tokens.size ∧ b ≤ f.tokens.size)
    (heq : f.textBetween i a = f.textBetween i b) : a = b := by
  have hcovers : ∀ t ∈ f.tokens.toList, t.text ≠ [] := by
    obtain ⟨tokens, htokens, rfl⟩ := exists_tokens_of_parse h
    exact (covers_of_tokenize htokens).ne_nil
  wlog hle : a ≤ b generalizing a b
  · exact (this hb ha hsize.symm heq.symm (Nat.le_of_not_le hle)).symm
  rw [textBetween_append a ha hle] at heq
  by_contra hne
  have hlt : a < f.tokens.size := by omega
  have hempty := List.append_right_eq_self.1 heq.symm
  rw [textBetween_append (a + 1) (by omega) (by omega), textBetween_singleton,
    textAt_eq_of_getElem? (Array.getElem?_eq_getElem hlt)] at hempty
  exact hcovers _ (Array.getElem_mem_toList hlt) (List.append_eq_nil_iff.1 hempty).1

/-- Files of the same shape, token by token. -/
theorem SameShape.forall₂_slice (h : f.SameShape f') (start stop : ℕ) :
    List.Forall₂ (fun t t' : Token => t'.kind = t.kind ∧ ∃ i, start ≤ i ∧ i < stop ∧
      f.textAt i = t.text ∧ f'.textAt i = t'.text ∧ f.kindAt i = some t.kind)
      (f.slice start stop) (f'.slice start stop) := by
  rw [List.forall₂_iff_get]
  refine ⟨by simp [slice, h.size_eq], fun i hi hi' => ?_⟩
  simp only [slice, List.length_take, List.length_drop, Array.length_toList] at hi hi'
  have hget := Array.getElem?_eq_getElem (show start + i < f.tokens.size by omega)
  have hget' := Array.getElem?_eq_getElem (show start + i < f'.tokens.size by omega)
  have hkind := h.kindAt_eq (start + i)
  rw [kindAt_eq_of_getElem? hget, kindAt_eq_of_getElem? hget', Option.some.injEq] at hkind
  simp only [slice, List.get_eq_getElem, List.getElem_take, List.getElem_drop, Array.getElem_toList]
  exact ⟨hkind, start + i, by omega, by omega, textAt_eq_of_getElem? hget,
    textAt_eq_of_getElem? hget', kindAt_eq_of_getElem? hget⟩

theorem flatMap_text_eq {l l' : List Token}
    (h : List.Forall₂ (fun t t' : Token => t'.text = t.text) l l') :
    l'.flatMap Token.text = l.flatMap Token.text := by
  induction h with
  | nil => rfl
  | cons ht _ ih => rw [List.flatMap_cons, List.flatMap_cons, ht, ih]

theorem SameShape.textBetween_eq (h : f.SameShape f')
    (htext : ∀ i, start ≤ i → i < stop → f'.textAt i = f.textAt i) :
    f'.textBetween start stop = f.textBetween start stop := by
  refine flatMap_text_eq ((h.forall₂_slice start stop).imp ?_)
  rintro t t' ⟨-, i, hstart, hstop, hi, hi', -⟩
  rw [← hi, ← hi', htext i hstart hstop]

end Texts

end SourceFile

end EntityLint
