import EntityLint.Proofs.Mapping.DocComment
import EntityLint.Proofs.Source.Shape

/-!
# The arguments of a tag, token by token

The arguments of a tag in a doc comment are put together from the texts of its tokens. The list ends in
the first token with a closing parenthesis, and each text in front of it is found in the arguments as it
stands.

* `endsList`, `map_snd_argumentsFrom`: the token that a list ends in;
* `exists_argumentsFrom_literal`: a part of one text, and the arguments around it;
* `docArguments_stop`, `docArguments_snd_eq`: where the arguments of a tag end.

The main statement is `exists_docArguments_literal`.
-/

namespace EntityLint.SourceFile

open Text

/-! ### Taking in a token -/

/-- Whether a list of arguments ends in a token. -/
def endsList (x : Token × ℕ) : Bool := isListed x.1 && x.1.text.contains ')'

/-- The text of some arguments with one more text. -/
def extended (before t : Text) : Text := if before.isEmpty then t else before ++ ' ' :: t

section Cons

variable {before : Text} {x : Token × ℕ} {l : List (Token × ℕ)}

theorem isListed_iff {t : Token} : isListed t = true ↔ t.kind = .docText ∨ t.kind = .docTag := by
  simp [isListed]

theorem mem_extended {t : Text} (hbefore : ')' ∉ before) : ')' ∈ extended before t ↔ ')' ∈ t := by
  unfold extended
  split <;> simp [hbefore]

/-- What a text is taken in behind does not depend on it. -/
theorem exists_extended (before : Text) :
    ∃ u, (∀ t, extended before t = u ++ t) ∧ (before ≠ [] → u ≠ []) ∧
      (u = [] ∨ u.getLast? = some ' ') ∧ (')' ∉ before → ')' ∉ u) := by
  by_cases h : before.isEmpty = true
  · exact ⟨[], fun _ => if_pos h, fun hne => absurd (List.isEmpty_iff.1 h) hne, .inl rfl, by simp⟩
  · exact ⟨before ++ [' '], fun _ => by rw [extended, if_neg h]; simp, by simp, by simp, by simp⟩

theorem argumentsFrom_cons_of_not_listed (hx : isListed x.1 = false) :
    argumentsFrom before (x :: l) = argumentsFrom before l := by
  obtain ⟨t, i⟩ := x
  rw [argumentsFrom, if_neg (by rw [← isListed_iff, hx]; exact Bool.false_ne_true)]

theorem argumentsFrom_cons_of_close (hx : isListed x.1 = true) {inner rest : Text}
    (htext : extended before x.1.text = inner ++ ')' :: rest) (hinner : ')' ∉ inner) :
    argumentsFrom before (x :: l) = some (inner.drop 1, x.2 + 1) := by
  obtain ⟨t, i⟩ := x
  have hbreak : breakOn [')'] (extended before t.text) = some (inner, rest) := by
    rw [htext]
    exact breakOn_singleton hinner rest
  rw [argumentsFrom, if_pos (isListed_iff.1 hx)]
  rw [extended] at hbreak
  simp only [hbreak]

theorem argumentsFrom_cons_of_open (hx : isListed x.1 = true) (hopen : ')' ∉ extended before x.1.text) :
    argumentsFrom before (x :: l) = argumentsFrom (extended before x.1.text) l := by
  obtain ⟨t, i⟩ := x
  have hbreak : breakOn [')'] (extended before t.text) = none := by
    rcases breakOn_singleton_cases ')' (extended before t.text) with
      ⟨-, hnone⟩ | ⟨inner, rest, -, htext, -⟩
    · exact hnone
    · exact absurd (htext ▸ by simp) hopen
  rw [argumentsFrom, if_pos (isListed_iff.1 hx)]
  rw [extended] at hbreak ⊢
  simp only [hbreak]

end Cons

/-! ### Lists of tokens -/

section Lists

variable {before : Text} {l l' : List (Token × ℕ)}

/-- A list of arguments ends in the first token with a closing parenthesis. -/
theorem map_snd_argumentsFrom (hbefore : ')' ∉ before) (l : List (Token × ℕ)) :
    (argumentsFrom before l).map Prod.snd = (l.find? endsList).map (·.2 + 1) := by
  induction l generalizing before with
  | nil => rfl
  | cons x l ih =>
    cases hx : isListed x.1 with
    | false =>
      rw [argumentsFrom_cons_of_not_listed hx, ih hbefore,
        List.find?_cons_of_neg (by simp [endsList, hx])]
    | true =>
      by_cases hclose : ')' ∈ x.1.text
      · obtain ⟨inner, rest, htext, hinner⟩ :=
          List.eq_append_cons_of_mem ((mem_extended hbefore).2 hclose)
        rw [argumentsFrom_cons_of_close hx htext hinner,
          List.find?_cons_of_pos (by simp [endsList, hx, hclose])]
        rfl
      · have hopen := mt (mem_extended hbefore).1 hclose
        rw [argumentsFrom_cons_of_open hx hopen, ih hopen,
          List.find?_cons_of_neg (by simp [endsList, hclose])]

/-- Only the kinds and the texts of the tokens count. -/
theorem argumentsFrom_congr (h : List.Forall₂ (fun x x' : Token × ℕ =>
    x'.2 = x.2 ∧ x'.1.kind = x.1.kind ∧ x'.1.text = x.1.text) l l') :
    argumentsFrom before l' = argumentsFrom before l := by
  induction h generalizing before with
  | nil => rfl
  | @cons x x' l l' hx _ ih =>
    obtain ⟨t, i⟩ := x
    obtain ⟨t', i'⟩ := x'
    obtain ⟨hi, hkind, htext⟩ := hx
    dsimp only at hi hkind htext
    simp only [argumentsFrom, hi, hkind, htext, ih]

/-- Tokens behind the end of a list do not count. -/
theorem argumentsFrom_append {r : Text × ℕ} (h : argumentsFrom before l = some r)
    (l' : List (Token × ℕ)) : argumentsFrom before (l ++ l') = some r := by
  induction l generalizing before with
  | nil => cases h
  | cons x l ih =>
    obtain ⟨t, i⟩ := x
    rw [List.cons_append]
    rw [argumentsFrom] at h ⊢
    split at h
    · next hkind =>
      rw [if_pos hkind]
      dsimp only at h ⊢
      split at h
      · exact h
      · exact ih h
    · next hkind => rw [if_neg hkind, ih h]

/-- The texts in front of the end of a list stand in front of what is taken in later. -/
theorem exists_argumentsFrom_append (hbefore : ')' ∉ before) (hl : ∀ x ∈ l, endsList x = false) :
    ∃ before', ')' ∉ before' ∧ (before ≠ [] → before' ≠ []) ∧
      ∀ l', argumentsFrom before (l ++ l') = argumentsFrom before' l' := by
  induction l generalizing before with
  | nil => exact ⟨before, hbefore, id, fun _ => rfl⟩
  | cons x l ih =>
    obtain ⟨hx, hl⟩ := List.forall_mem_cons.1 hl
    cases hlisted : isListed x.1 with
    | false =>
      obtain ⟨before', hclose, hne, heq⟩ := ih hbefore hl
      exact ⟨before', hclose, hne, fun l' => by
        rw [List.cons_append, argumentsFrom_cons_of_not_listed hlisted, heq]⟩
    | true =>
      have hopen : ')' ∉ extended before x.1.text := by
        rw [mem_extended hbefore]
        simpa [endsList, hlisted] using hx
      obtain ⟨before', hclose, hne, heq⟩ := ih hopen hl
      obtain ⟨u, hu, hune, -, -⟩ := exists_extended before
      exact ⟨before', hclose, fun h => hne (by simp [hu, hune h]), fun l' => by
        rw [List.cons_append, argumentsFrom_cons_of_open hlisted hopen, heq]⟩

/-- What is taken in behind some text does not depend on that text. -/
theorem exists_argumentsFrom_behind {s : Text} (hs : ')' ∉ s) (l : List (Token × ℕ)) :
    ∃ r : Option (Text × ℕ), ∀ p, p ≠ [] → ')' ∉ p →
      argumentsFrom (p ++ s) l = r.map fun z => ((p ++ z.1).drop 1, z.2) := by
  induction l generalizing s with
  | nil => exact ⟨none, fun _ _ _ => rfl⟩
  | cons x l ih =>
    have hextended : ∀ p : Text, p ≠ [] → extended (p ++ s) x.1.text = p ++ (s ++ ' ' :: x.1.text) := by
      intro p hp
      rw [extended, if_neg (by simp [hp]), List.append_assoc]
    cases hlisted : isListed x.1 with
    | false =>
      obtain ⟨r, hr⟩ := ih hs
      exact ⟨r, fun p hp hclose => by rw [argumentsFrom_cons_of_not_listed hlisted, hr p hp hclose]⟩
    | true =>
      by_cases hclose : ')' ∈ s ++ ' ' :: x.1.text
      · obtain ⟨inner, rest, htext, hinner⟩ := List.eq_append_cons_of_mem hclose
        refine ⟨some (inner, x.2 + 1), fun p hp hp' => ?_⟩
        have hp'' : extended (p ++ s) x.1.text = p ++ inner ++ ')' :: rest := by
          rw [hextended p hp, htext, List.append_assoc]
        exact argumentsFrom_cons_of_close hlisted hp'' (by simp [hp', hinner])
      · obtain ⟨r, hr⟩ := ih hclose
        refine ⟨r, fun p hp hp' => ?_⟩
        have hopen : ')' ∉ p ++ (s ++ ' ' :: x.1.text) := fun h =>
          (List.mem_append.1 h).elim hp' hclose
        rw [argumentsFrom_cons_of_open hlisted (by rwa [hextended p hp]), hextended p hp,
          hr p hp hp']

/-- A part of a text without a closing parenthesis, and the arguments around it. -/
theorem exists_argumentsFrom_literal (hbefore : ')' ∉ before) (hl : ∀ x ∈ l, endsList x = false)
    {x y : Text} (hx : x ≠ []) (hclose : ')' ∉ x) (i : ℕ) (l' : List (Token × ℕ)) :
    ∃ u, ∃ r : Option (Text × ℕ), (before ≠ [] → u ≠ []) ∧ (u = [] ∨ u.getLast? = some ' ') ∧
      ∀ (t : Token) (o : Text), isListed t = true → t.text = x ++ (o ++ y) → ')' ∉ o →
        argumentsFrom before (l ++ (t, i) :: l') =
          r.map fun z => ((u ++ (x ++ (o ++ z.1))).drop 1, z.2) := by
  obtain ⟨before', hclose', hne, heq⟩ := exists_argumentsFrom_append hbefore hl
  obtain ⟨u, hu, hune, hlast, huclose⟩ := exists_extended before'
  have hopen := huclose hclose'
  obtain ⟨r, hr⟩ : ∃ r : Option (Text × ℕ), ∀ (t : Token) (o : Text), isListed t = true →
      t.text = x ++ (o ++ y) → ')' ∉ o → argumentsFrom before' ((t, i) :: l') =
        r.map fun z => ((u ++ (x ++ (o ++ z.1))).drop 1, z.2) := by
    by_cases hy : ')' ∈ y
    · obtain ⟨inner, rest, rfl, hinner⟩ := List.eq_append_cons_of_mem hy
      refine ⟨some (inner, i + 1), fun t o hlisted htext ho => ?_⟩
      have htext' : extended before' t.text = u ++ (x ++ (o ++ inner)) ++ ')' :: rest := by
        simp [hu, htext]
      exact argumentsFrom_cons_of_close hlisted htext' (by simp [hopen, hclose, ho, hinner])
    · obtain ⟨r, hr⟩ := exists_argumentsFrom_behind hy l'
      refine ⟨r, fun t o hlisted htext ho => ?_⟩
      rw [argumentsFrom_cons_of_open hlisted (by simp [hu, htext, hopen, hclose, ho, hy])]
      have hext : extended before' t.text = (u ++ (x ++ o)) ++ y := by simp [hu, htext]
      rw [hext, hr _ (by simp [hx]) (by simp [hopen, hclose, ho])]
      simp only [List.append_assoc]
  exact ⟨u, r, fun h => hune (hne h), hlast, fun t o hlisted htext ho => by
    rw [heq, hr t o hlisted htext ho]⟩

end Lists

/-! ### The tokens behind a tag -/

/-- The tokens from `start` on and before `stop`, with their indices. -/
def indexedTokens (f : SourceFile) (start stop : ℕ) : List (Token × ℕ) :=
  (f.tokens.toList.zipIdx.drop start).take (stop - start)

/-- Whether a list of arguments begins behind a tag. -/
def opensList (f : SourceFile) (tag : ℕ) : Bool :=
  f.holdsAt (fun t => t.kind == .docText && t.text.head? == some '(') (tag + 1)

section Indexed

variable {f f' : SourceFile} {start stop close tag : ℕ}

theorem docArguments_eq (f : SourceFile) (close tag : ℕ) : f.docArguments close tag =
    (if f.opensList tag then argumentsFrom [] (f.indexedTokens (tag + 1) close) else none).getD
      ([], tag + 1) := by
  rw [docArguments, ← opensList, ← indexedTokens]
  split
  · next h => rw [h, Option.getD_some]
  · next h => rw [h, Option.getD_none]

theorem indexedTokens_append (mid : ℕ) (h₁ : start ≤ mid) (h₂ : mid ≤ stop) :
    f.indexedTokens start stop = f.indexedTokens start mid ++ f.indexedTokens mid stop := by
  rw [indexedTokens, indexedTokens, indexedTokens,
    show stop - start = (mid - start) + (stop - mid) by omega, List.take_add, List.drop_drop,
    Nat.add_sub_cancel' h₁]

theorem indexedTokens_of_le (h : stop ≤ start) : f.indexedTokens start stop = [] := by
  rw [indexedTokens, Nat.sub_eq_zero_of_le h, List.take_zero]

theorem indexedTokens_cons {t : Token} (ht : f.tokens[start]? = some t) (hlt : start < stop) :
    f.indexedTokens start stop = (t, start) :: f.indexedTokens (start + 1) stop := by
  have hget : f.tokens.toList.zipIdx[start]? = some (t, start) := by
    rw [List.getElem?_zipIdx, Array.getElem?_toList, ht]
    simp
  obtain ⟨hlen, heq⟩ := List.getElem?_eq_some_iff.1 hget
  rw [indexedTokens, List.drop_eq_getElem_cons hlen, heq,
    show stop - start = stop - (start + 1) + 1 by omega, List.take_succ_cons, indexedTokens]

/-- The tokens of two files of one size, place by place. -/
theorem forall₂_indexedTokens (h : f'.tokens.size = f.tokens.size) (start stop : ℕ) :
    List.Forall₂ (fun x x' : Token × ℕ => x'.2 = x.2 ∧ f.tokens[x.2]? = some x.1 ∧
      f'.tokens[x.2]? = some x'.1 ∧ start ≤ x.2 ∧ x.2 < stop)
      (f.indexedTokens start stop) (f'.indexedTokens start stop) := by
  rw [List.forall₂_iff_get]
  refine ⟨by simp [indexedTokens, h], fun i hi hi' => ?_⟩
  simp only [indexedTokens, List.length_take, List.length_drop, List.length_zipIdx,
    Array.length_toList] at hi hi'
  have hsize : start + i < f.tokens.size := by omega
  simp only [indexedTokens, List.get_eq_getElem, List.getElem_take, List.getElem_drop,
    List.getElem_zipIdx, Array.getElem_toList, Nat.zero_add]
  exact ⟨trivial, Array.getElem?_eq_getElem _, Array.getElem?_eq_getElem _, by omega, by omega⟩

/-- The token behind a list of arguments is told by the places of closing parentheses. -/
theorem docArguments_snd (f : SourceFile) (close tag : ℕ) : (f.docArguments close tag).2 =
    (if f.opensList tag then
      ((f.indexedTokens (tag + 1) close).find? endsList).map (·.2 + 1) else none).getD (tag + 1) := by
  rw [docArguments_eq, ← map_snd_argumentsFrom List.not_mem_nil]
  split
  · cases argumentsFrom [] (f.indexedTokens (tag + 1) close) <;> rfl
  · rfl

/-- The arguments of a tag do not depend on what stands behind them. -/
theorem docArguments_stop (f : SourceFile) (close tag : ℕ) :
    f.docArguments (f.docArguments close tag).2 tag = f.docArguments close tag := by
  cases hopens : f.opensList tag with
  | false => simp [docArguments_eq, hopens]
  | true =>
    cases hread : argumentsFrom [] (f.indexedTokens (tag + 1) close) with
    | none =>
      have hdoc : f.docArguments close tag = ([], tag + 1) := by
        rw [docArguments_eq, if_pos hopens, hread, Option.getD_none]
      rw [hdoc, docArguments_eq, if_pos hopens, indexedTokens_of_le le_rfl]
      rfl
    | some r =>
      have hdoc : f.docArguments close tag = r := by
        rw [docArguments_eq, if_pos hopens, hread, Option.getD_some]
      obtain ⟨x, hfind, hstop⟩ : ∃ x, (f.indexedTokens (tag + 1) close).find? endsList = some x ∧
          x.2 + 1 = r.2 := by
        have := map_snd_argumentsFrom List.not_mem_nil (f.indexedTokens (tag + 1) close)
        rw [hread, Option.map_some] at this
        exact Option.map_eq_some_iff.1 this.symm
      obtain ⟨hstart, hlt, htoken⟩ := mem_listTokens.1 (List.mem_of_find?_eq_some hfind)
      have hprefix : (argumentsFrom [] (f.indexedTokens (tag + 1) r.2)).isSome = true := by
        rw [← Option.isSome_map (f := Prod.snd), map_snd_argumentsFrom (by simp), Option.isSome_map,
          List.find?_isSome]
        exact ⟨x, mem_listTokens.2 ⟨hstart, by omega, htoken⟩, List.find?_some hfind⟩
      obtain ⟨r', hr'⟩ := Option.isSome_iff_exists.1 hprefix
      rw [indexedTokens_append r.2 (by omega) (by omega), argumentsFrom_append hr'] at hread
      cases hread
      rw [hdoc, docArguments_eq, if_pos hopens, hr']
      rfl

/-- The texts of doc comments in two files begin alike and have closing parentheses in the same
tokens. -/
structure ListsAlike (f f' : SourceFile) : Prop where
  shape : f.SameShape f'
  head : ∀ i, f.kindAt i = some .docText → (f'.textAt i).head? = (f.textAt i).head?
  close : ∀ i, f.kindAt i = some .docText ∨ f.kindAt i = some .docTag →
    (')' ∈ f'.textAt i ↔ ')' ∈ f.textAt i)

/-- Whether a list of arguments begins is told by the first character behind a tag. -/
theorem SameShape.opensList_eq (h : f.SameShape f') (hhead : f.kindAt (tag + 1) = some .docText →
    (f'.textAt (tag + 1)).head? = (f.textAt (tag + 1)).head?) : f'.opensList tag = f.opensList tag := by
  unfold opensList holdsAt
  rcases h.getElem?_cases (tag + 1) with ⟨hi, hi'⟩ | ⟨t, u, p, hi, hi'⟩
  · rw [hi, hi']
  · rw [hi, hi', Option.any_some, Option.any_some]
    by_cases hkind : t.kind = .docText
    · rw [kindAt_eq_of_getElem? hi, textAt_eq_of_getElem? hi, textAt_eq_of_getElem? hi'] at hhead
      rw [hhead (congrArg some hkind)]
    · rw [beq_eq_false_iff_ne.2 hkind, Bool.false_and, Bool.false_and]

theorem ListsAlike.docArguments_snd_eq (h : f.ListsAlike f') (close tag : ℕ) :
    (f'.docArguments close tag).2 = (f.docArguments close tag).2 := by
  have hfind : ((f'.indexedTokens (tag + 1) close).find? endsList).map (·.2 + 1) =
      ((f.indexedTokens (tag + 1) close).find? endsList).map (·.2 + 1) := by
    have htokens := forall₂_indexedTokens h.shape.size_eq (tag + 1) close
    generalize f.indexedTokens (tag + 1) close = l at htokens ⊢
    generalize f'.indexedTokens (tag + 1) close = l' at htokens ⊢
    induction htokens with
    | nil => rfl
    | @cons x x' l l' hx _ ih =>
      obtain ⟨hi, ht, ht', -⟩ := hx
      have hkind : x'.1.kind = x.1.kind := by
        have := h.shape.kindAt_eq x.2
        rwa [kindAt_eq_of_getElem? ht, kindAt_eq_of_getElem? ht', Option.some.injEq] at this
      have hlisted' : isListed x'.1 = isListed x.1 := by rw [isListed, hkind, isListed]
      have hends : endsList x' = endsList x := by
        rw [endsList, endsList, hlisted']
        cases hlisted : isListed x.1 with
        | false => rfl
        | true =>
          have hclose := h.close x.2 (by simpa [kindAt_eq_of_getElem? ht] using isListed_iff.1 hlisted)
          rw [textAt_eq_of_getElem? ht, textAt_eq_of_getElem? ht'] at hclose
          rw [Bool.true_and, Bool.true_and, Bool.eq_iff_iff, List.contains_iff_mem,
            List.contains_iff_mem, hclose]
      rw [List.find?_cons, List.find?_cons, hends]
      cases endsList x with
      | true => simp [hi]
      | false => exact ih
  rw [docArguments_snd, docArguments_snd, h.shape.opensList_eq (h.head _), hfind]

/-- Arguments whose tokens have not changed are the same. -/
theorem docArguments_eq_of_textAt_eq (h : f.SameShape f')
    (htext : ∀ i, tag < i → i < stop → f'.textAt i = f.textAt i) :
    f'.docArguments stop tag = f.docArguments stop tag := by
  have hlist : argumentsFrom [] (f'.indexedTokens (tag + 1) stop) =
      argumentsFrom [] (f.indexedTokens (tag + 1) stop) := by
    refine argumentsFrom_congr ((forall₂_indexedTokens h.size_eq (tag + 1) stop).imp ?_)
    rintro x x' ⟨hi, ht, ht', hstart, hlt⟩
    have hkind := h.kindAt_eq x.2
    have htext := htext x.2 hstart hlt
    rw [kindAt_eq_of_getElem? ht, kindAt_eq_of_getElem? ht', Option.some.injEq] at hkind
    rw [textAt_eq_of_getElem? ht, textAt_eq_of_getElem? ht'] at htext
    exact ⟨hi, hkind, htext⟩
  by_cases hlt : tag + 1 < stop
  · have hopens : f'.opensList tag = f.opensList tag :=
      h.opensList_eq fun _ => by rw [htext (tag + 1) (by omega) hlt]
    rw [docArguments_eq, docArguments_eq, hopens, hlist]
  · simp only [docArguments_eq, indexedTokens_of_le (Nat.le_of_not_lt hlt), argumentsFrom, ite_self]

/-- The list of arguments that a token in front of its end is part of. -/
theorem opensList_of_lt {j : ℕ} (hstop : (f.docArguments stop tag).2 = stop) (htag : tag < j)
    (hj : j < stop) : f.opensList tag = true ∧
      (argumentsFrom [] (f.indexedTokens (tag + 1) stop)).isSome = true ∧
      ∀ x ∈ f.indexedTokens (tag + 1) j, endsList x = false := by
  have hsnd := docArguments_snd f stop tag
  rw [hstop] at hsnd
  cases hopens : f.opensList tag with
  | false =>
    rw [hopens, if_neg Bool.false_ne_true, Option.getD_none] at hsnd
    omega
  | true =>
    rw [hopens, if_pos rfl] at hsnd
    cases hfind : (f.indexedTokens (tag + 1) stop).find? endsList with
    | none =>
      rw [hfind, Option.map_none, Option.getD_none] at hsnd
      omega
    | some w =>
      rw [hfind, Option.map_some, Option.getD_some] at hsnd
      refine ⟨rfl, ?_, fun x hx => ?_⟩
      · rw [← Option.isSome_map (f := Prod.snd), map_snd_argumentsFrom (by simp), hfind]
        rfl
      · by_contra hends
        rw [indexedTokens_append j (by omega) (by omega), List.find?_append] at hfind
        obtain ⟨w', hw'⟩ := Option.isSome_iff_exists.1
          (List.find?_isSome.2 ⟨x, hx, Bool.eq_true_of_not_eq_false hends⟩)
        rw [hw', Option.some_or] at hfind
        cases hfind
        have := (mem_listTokens.1 (List.mem_of_find?_eq_some hw')).2.1
        omega

/-- **A part of a text in a list of arguments can be exchanged.** If neither it nor what takes its place
has a closing parenthesis, it is exchanged in the arguments as well, and all else stays. -/
theorem exists_docArguments_literal {j : ℕ} {x o y : Text} (hstop : (f.docArguments stop tag).2 = stop)
    (htag : tag < j) (hj : j < stop) (hkind : f.kindAt j = some .docText)
    (htext : f.textAt j = x ++ (o ++ y)) (hx : x ≠ []) (hclose : ')' ∉ x) (ho : ')' ∉ o) :
    ∃ u z, (f.docArguments stop tag).1 = (u ++ (x ++ (o ++ z))).drop 1 ∧
      (u = [] → x.head? = some '(') ∧ (u = [] ∨ u.getLast? = some ' ') ∧
      ∀ (f' : SourceFile) (o' : Text), f.SameShape f' →
        (∀ i, tag < i → i < stop → i ≠ j → f'.textAt i = f.textAt i) →
        f'.textAt j = x ++ (o' ++ y) → ')' ∉ o' →
        (f'.docArguments stop tag).1 = (u ++ (x ++ (o' ++ z))).drop 1 := by
  obtain ⟨hopens, hread, hl⟩ := opensList_of_lt hstop htag hj
  obtain ⟨t, ht, hkind⟩ := Option.map_eq_some_iff.1 hkind
  have hlisted : isListed t = true := by simp [isListed, hkind]
  have htext' : t.text = x ++ (o ++ y) := textAt_eq_of_getElem? ht ▸ htext
  obtain ⟨t₀, ht₀, hfirst⟩ := (Option.any_eq_true _ _).1 hopens
  simp only [Bool.and_eq_true, beq_iff_eq] at hfirst
  -- the text of the first token stands in front of all others
  obtain ⟨u, r, hu, hlast, hr⟩ : ∃ u, ∃ r : Option (Text × ℕ), (u = [] → x.head? = some '(') ∧
      (u = [] ∨ u.getLast? = some ' ') ∧ ∀ (t : Token) (o : Text), isListed t = true →
        t.text = x ++ (o ++ y) → ')' ∉ o →
        argumentsFrom [] (f.indexedTokens (tag + 1) j ++ (t, j) :: f.indexedTokens (j + 1) stop) =
          r.map fun z => ((u ++ (x ++ (o ++ z.1))).drop 1, z.2) := by
    rcases Nat.eq_or_lt_of_le (Nat.succ_le_of_lt htag) with rfl | hlt
    · obtain ⟨u, r, -, hlast, hr⟩ := exists_argumentsFrom_literal List.not_mem_nil hl hx hclose
        (tag + 1) (f.indexedTokens (tag + 1 + 1) stop) (y := y)
      cases ht₀.symm.trans ht
      refine ⟨u, r, fun _ => ?_, hlast, hr⟩
      rw [← hfirst.2, htext', List.head?_append_of_ne_nil _ hx]
    · have hcons := indexedTokens_cons ht₀ hlt
      rw [hcons] at hl ⊢
      obtain ⟨hclose₀, hl⟩ := List.forall_mem_cons.1 hl
      have hlisted₀ : isListed t₀ = true := by simp [isListed, hfirst.1]
      have hopen₀ : ')' ∉ t₀.text := by simpa [endsList, hlisted₀] using hclose₀
      have hne₀ : t₀.text ≠ [] := fun h => by simp [h] at hfirst
      obtain ⟨u, r, hune, hlast, hr⟩ := exists_argumentsFrom_literal hopen₀ hl hx hclose
        j (f.indexedTokens (j + 1) stop) (y := y)
      refine ⟨u, r, fun h => absurd h (hune hne₀), hlast, fun t o hlisted htext ho => ?_⟩
      rw [List.cons_append, argumentsFrom_cons_of_open hlisted₀ (by simpa [extended] using hopen₀)]
      exact hr t o hlisted htext ho
  have hsplit : ∀ {f' : SourceFile} {t' : Token}, f'.tokens[j]? = some t' →
      f'.indexedTokens (tag + 1) stop =
        f'.indexedTokens (tag + 1) j ++ (t', j) :: f'.indexedTokens (j + 1) stop := by
    intro f' t' ht'
    rw [indexedTokens_append j (by omega) (by omega), indexedTokens_cons ht' hj]
  rw [hsplit ht, hr t o hlisted htext' ho] at hread
  obtain ⟨z, rfl⟩ : ∃ z, r = some z := by
    cases r with
    | none => cases hread
    | some z => exact ⟨z, rfl⟩
  refine ⟨u, z.1, ?_, hu, hlast, fun f' o' hshape hother hnew ho' => ?_⟩
  · rw [docArguments_eq, if_pos hopens, hsplit ht, hr t o hlisted htext' ho]
    rfl
  · obtain ⟨t', ht'⟩ : ∃ t', f'.tokens[j]? = some t' := by
      rcases hshape.getElem?_cases j with ⟨hnone, -⟩ | ⟨_, _, _, -, h⟩
      · cases hnone.symm.trans ht
      · exact ⟨_, h⟩
    have hkind' : isListed t' = true := by
      have := hshape.kindAt_eq j
      rw [kindAt_eq_of_getElem? ht, kindAt_eq_of_getElem? ht', Option.some.injEq] at this
      rwa [isListed, this]
    have hsame : ∀ {a b : ℕ}, tag < a → b ≤ stop → (∀ i, a ≤ i → i < b → i ≠ j) →
        List.Forall₂ (fun x x' : Token × ℕ => x'.2 = x.2 ∧ x'.1.kind = x.1.kind ∧ x'.1.text = x.1.text)
          (f.indexedTokens a b) (f'.indexedTokens a b) := by
      intro a b ha hb hne
      refine (forall₂_indexedTokens hshape.size_eq a b).imp ?_
      rintro x x' ⟨hi, hx, hx', hstart, hlt⟩
      have hkind := hshape.kindAt_eq x.2
      have htext := hother x.2 (by omega) (by omega) (hne x.2 hstart hlt)
      rw [kindAt_eq_of_getElem? hx, kindAt_eq_of_getElem? hx', Option.some.injEq] at hkind
      rw [textAt_eq_of_getElem? hx, textAt_eq_of_getElem? hx'] at htext
      exact ⟨hi, hkind, htext⟩
    have hlist : argumentsFrom [] (f'.indexedTokens (tag + 1) stop) =
        argumentsFrom [] (f.indexedTokens (tag + 1) j ++ (t', j) :: f.indexedTokens (j + 1) stop) := by
      rw [hsplit ht']
      exact argumentsFrom_congr (List.rel_append (hsame (by omega) (by omega) (by omega))
        (.cons ⟨rfl, rfl, rfl⟩ (hsame (by omega) le_rfl (by omega))))
    have hopens' : f'.opensList tag = true := by
      rw [hshape.opensList_eq fun _ => ?_, hopens]
      rcases eq_or_ne (tag + 1) j with rfl | hne
      · rw [hnew, htext, List.head?_append_of_ne_nil _ hx, List.head?_append_of_ne_nil _ hx]
      · rw [hother (tag + 1) (by omega) (by omega) hne]
    rw [docArguments_eq, if_pos hopens', hlist,
      hr t' o' hkind' (textAt_eq_of_getElem? ht' ▸ hnew) ho']
    rfl

end Indexed

end EntityLint.SourceFile
