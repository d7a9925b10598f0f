import EntityLint.Proofs.Source.Shape
import EntityLint.Proofs.Token.LineBreaks

/-!
# Where tokens stand between line breaks

The lexemes of a text with line breaks are the old ones at new places, with blanks between them. So its
tokens have the old kinds, and each is moved down by the line breaks in front of it.

* `MarkedLexeme.place`, `getElem?_place`, `exists_place_of_getElem?`: the new places;
* `count_take_place`: the lines above a place;
* `MarkedLexeme.resolved`, `resolveNullable_spaced`: question marks of types;
* `SourceFile.Respaced`: a file and the one with the line breaks.

The main statement is `SourceFile.exists_respaced`.
-/

namespace EntityLint

open Lexeme Text

/-- Counting in the first elements of a list is counting indices. -/
theorem countP_take_eq_count {α : Type} (p : α → Bool) (l : List α) (n : ℕ) :
    (l.take n).countP p = Nat.count (fun i => l[i]?.any p = true) n := by
  induction n with
  | zero => rfl
  | succ n ih =>
    rw [List.take_add_one, List.countP_append, ih, Nat.count_succ]
    cases l[n]? with
    | none => rfl
    | some a => rw [Option.toList_some, List.countP_singleton, Option.any_some]

namespace MarkedLexeme

variable {lineBreak : Text} {x : MarkedLexeme} {xs : List MarkedLexeme}

/-- Where a lexeme stands in the text with the line breaks. -/
def place (xs : List MarkedLexeme) (i : ℕ) : ℕ :=
  i + Nat.count (fun j => xs[j]?.any isApart = true) (i + 1)

/-- The number of line breaks in front of a lexeme and those before it. -/
def above (xs : List MarkedLexeme) (i : ℕ) : ℕ :=
  Nat.count (fun j => xs[j]?.any marked = true) (i + 1)

theorem strictMono_place (xs : List MarkedLexeme) : StrictMono (place xs) := by
  intro i j hij
  exact Nat.add_lt_add_of_lt_of_le hij (Nat.count_monotone _ (Nat.succ_le_succ hij.le))

theorem above_mono (xs : List MarkedLexeme) {i j : ℕ} (hij : i ≤ j) : above xs i ≤ above xs j :=
  Nat.count_monotone _ (Nat.succ_le_succ hij)

theorem above_lt_above {i j : ℕ} (hij : i < j) (hj : xs[j]?.any marked = true) :
    above xs i < above xs j :=
  (Nat.count_monotone _ hij).trans_lt (Nat.count_strict_mono hj (Nat.lt_succ_self j))

theorem above_eq_above {i j : ℕ} (hij : i ≤ j)
    (hnone : ∀ m, i < m → m ≤ j → xs[m]?.any marked = false) : above xs j = above xs i := by
  induction j, hij using Nat.le_induction with
  | base => rfl
  | succ j hij ih =>
    have hj := hnone (j + 1) (Nat.lt_succ_of_le hij) le_rfl
    rw [above, Nat.count_succ, if_neg (Bool.eq_false_iff.1 hj), Nat.add_zero]
    exact ih fun m hm hmj => hnone m hm (Nat.le_succ_of_le hmj)

theorem length_added : (x.added lineBreak).length = if x.isApart then 1 else 0 := by
  unfold added
  split <;> rfl

theorem place_zero (lineBreak : Text) (x : MarkedLexeme) (xs : List MarkedLexeme) :
    place (x :: xs) 0 = (x.added lineBreak).length := by
  rw [place, Nat.count_succ, Nat.count_zero, length_added, Nat.zero_add, Nat.zero_add]
  rfl

theorem place_succ (lineBreak : Text) (x : MarkedLexeme) (xs : List MarkedLexeme) (i : ℕ) :
    place (x :: xs) (i + 1) = (x.added lineBreak).length + (place xs i + 1) := by
  rw [place, place, Nat.count_succ', length_added]
  simp only [List.getElem?_cons_succ, List.getElem?_cons_zero, Option.any_some]
  omega

/-! ### Kinds -/

theorem getElem?_place (i : ℕ) :
    ((spaced lineBreak xs).map kind)[place xs i]? = ((xs.map lexeme).map kind)[i]? := by
  induction xs generalizing i with
  | nil => rfl
  | cons x xs ih =>
    rw [spaced, List.map_append, List.map_cons]
    cases i with
    | zero =>
      rw [place_zero lineBreak, List.getElem?_append_right (by rw [List.length_map]),
        List.length_map, Nat.sub_self]
      rfl
    | succ i =>
      rw [place_succ lineBreak,
        List.getElem?_append_right (by rw [List.length_map]; omega), List.length_map,
        Nat.add_sub_cancel_left, List.getElem?_cons_succ, ih]
      rfl

theorem exists_place_of_getElem? {j : ℕ} {k : Kind}
    (h : ((spaced lineBreak xs).map kind)[j]? = some k) : (∃ i, j = place xs i) ∨ k = .blank := by
  induction xs generalizing j with
  | nil => cases h
  | cons x xs ih =>
    rw [spaced, List.map_append, List.map_cons] at h
    rcases lt_or_ge j (x.added lineBreak).length with hlt | hge
    · rw [List.getElem?_append_left (by rwa [List.length_map])] at h
      obtain ⟨l, hl, rfl⟩ := List.mem_map.1 (List.mem_of_getElem? h)
      unfold added at hl
      split at hl
      · exact .inr (by rw [List.mem_singleton.1 hl])
      · cases hl
    · rw [List.getElem?_append_right (by rwa [List.length_map]), List.length_map] at h
      obtain ⟨n, rfl⟩ := Nat.exists_eq_add_of_le hge
      rw [Nat.add_sub_cancel_left] at h
      cases n with
      | zero => exact .inl ⟨0, (place_zero lineBreak x xs).symm⟩
      | succ n =>
        rw [List.getElem?_cons_succ] at h
        rcases ih h with ⟨i, hi⟩ | hk
        · refine .inl ⟨i + 1, ?_⟩
          rw [place_succ lineBreak, hi]
        · exact .inr hk

/-- Line breaks are blanks between the lexemes. -/
theorem padded (lineBreak : Text) (xs : List MarkedLexeme) :
    Padded (place xs) ((xs.map lexeme).map kind) ((spaced lineBreak xs).map kind) :=
  ⟨strictMono_place xs, getElem?_place, fun _ _ => exists_place_of_getElem?⟩

/-! ### Lines -/

/-- What stands in front of a lexeme, where the line break of an open tag is in the text before it. -/
theorem flatMap_text_take_place (lineBreak : Text) {i : ℕ} (hi : xs[i]? = some x) :
    trail lineBreak xs ++ ((spaced lineBreak xs).take (place xs i)).flatMap text =
      (xs.take i).flatMap (newText lineBreak) ++ x.lead lineBreak := by
  have htrail : ∀ (y : MarkedLexeme) (ys : List MarkedLexeme),
      trail lineBreak (y :: ys) ++ (y.added lineBreak).flatMap text = y.lead lineBreak := by
    intro y ys
    rw [trail, added, isApart, lead, List.head?_cons, Option.any_some]
    cases y.marked <;> cases hk : y.lexeme.kind == .openTag <;> simp [bne, hk]
  induction xs generalizing i with
  | nil => cases hi
  | cons y ys ih =>
    rw [spaced]
    cases i with
    | zero =>
      obtain rfl := Option.some.inj hi
      rw [place_zero lineBreak, List.take_left, htrail]
      rfl
    | succ i =>
      rw [place_succ lineBreak, List.take_length_add_append, List.take_succ_cons,
        List.flatMap_append, ← List.append_assoc, htrail, List.flatMap_cons, List.append_assoc,
        ih hi, List.take_succ_cons, List.flatMap_cons, newText]
      simp only [List.append_assoc]

theorem count_lead (hlineBreak : IsLineBreak lineBreak) (x : MarkedLexeme) :
    (x.lead lineBreak).count '\n' = [x].countP marked := by
  rw [lead, List.countP_singleton]
  split
  · rcases hlineBreak with rfl | rfl <;> rfl
  · rfl

theorem count_flatMap_newText (hlineBreak : IsLineBreak lineBreak) (xs : List MarkedLexeme) :
    (xs.flatMap (newText lineBreak)).count '\n' =
      ((xs.map lexeme).flatMap text).count '\n' + xs.countP marked := by
  induction xs with
  | nil => rfl
  | cons x xs ih =>
    rw [List.flatMap_cons, List.map_cons, List.flatMap_cons, List.count_append, List.count_append,
      ih, newText, List.count_append, count_lead hlineBreak, ← List.singleton_append (x := x) (l := xs),
      List.countP_append]
    omega

/-- The line breaks above a lexeme. -/
theorem count_take_place (hlineBreak : IsLineBreak lineBreak) (hbegin : BeginsUnmarked xs) {i : ℕ}
    (hi : xs[i]? = some x) :
    (((spaced lineBreak xs).take (place xs i)).flatMap text).count '\n' =
      (((xs.map lexeme).take i).flatMap text).count '\n' + above xs i := by
  have htext := flatMap_text_take_place lineBreak hi
  rw [trail_of_beginsUnmarked hbegin, List.nil_append] at htext
  rw [htext, List.count_append, count_flatMap_newText hlineBreak, count_lead hlineBreak, List.map_take,
    Nat.add_assoc, ← List.countP_append, above, ← countP_take_eq_count, List.take_add_one, hi]
  rfl

/-! ### Question marks of types -/

/-- The lexemes whose question marks belong to types where they stand in front of one. -/
def resolved (before : Option Kind) (xs : List MarkedLexeme) : List MarkedLexeme :=
  List.zipWith (fun x l => ⟨l, x.marked⟩) xs (resolveNullable before (xs.map lexeme))

theorem map_lexeme_resolved (before : Option Kind) (xs : List MarkedLexeme) :
    (resolved before xs).map lexeme = resolveNullable before (xs.map lexeme) := by
  induction xs generalizing before with
  | nil => rfl
  | cons x xs ih => exact congrArg (_ :: ·) (ih _)

theorem firstSignificant?_spaced (lineBreak : Text) (xs : List MarkedLexeme) :
    firstSignificant? (spaced lineBreak xs) = firstSignificant? (xs.map lexeme) := by
  induction xs with
  | nil => rfl
  | cons x xs ih =>
    have hskip : ∀ ls, firstSignificant? (x.added lineBreak ++ ls) = firstSignificant? ls := by
      intro ls
      unfold added
      split <;> rfl
    rw [spaced, hskip, List.map_cons, firstSignificant?_eq, firstSignificant?_eq, List.map_cons,
      List.map_cons, List.find?_cons, List.find?_cons, ← firstSignificant?_eq, ← firstSignificant?_eq, ih]

/-- One more lexeme whose question mark may belong to a type. -/
theorem resolved_cons (before : Option Kind) (x : MarkedLexeme) (xs : List MarkedLexeme) :
    ∃ k before', resolved before (x :: xs) = ⟨⟨k, x.lexeme.text⟩, x.marked⟩ :: resolved before' xs ∧
      (k == .openTag) = (x.lexeme.kind == .openTag) ∧
      ∀ (t : Text) (ls : List Lexeme), firstSignificant? ls = firstSignificant? (xs.map lexeme) →
        resolveNullable before (⟨x.lexeme.kind, t⟩ :: ls) = ⟨k, t⟩ :: resolveNullable before' ls := by
  refine ⟨_, _, rfl, ?_, fun t ls hls => ?_⟩
  · split
    · next h => rw [h.1]; rfl
    · rfl
  · rw [resolveNullable, hls]

theorem added_resolved {k : Kind} (hk : (k == .openTag) = (x.lexeme.kind == .openTag)) :
    added lineBreak ⟨⟨k, x.lexeme.text⟩, x.marked⟩ = x.added lineBreak := by
  rw [added, added, isApart, isApart, bne, bne, hk]

theorem trail_resolved (before : Option Kind) (xs : List MarkedLexeme) :
    trail lineBreak (resolved before xs) = trail lineBreak xs := by
  cases xs with
  | nil => rfl
  | cons x xs =>
    obtain ⟨k, before', heq, hk, -⟩ := resolved_cons before x xs
    rw [heq, trail, trail, List.head?_cons, List.head?_cons, Option.any_some, Option.any_some, hk]

/-- Which question marks belong to types does not depend on line breaks. -/
theorem resolveNullable_spaced (lineBreak : Text) (before : Option Kind) (xs : List MarkedLexeme) :
    resolveNullable before (spaced lineBreak xs) = spaced lineBreak (resolved before xs) := by
  induction xs generalizing before with
  | nil => rfl
  | cons x xs ih =>
    obtain ⟨k, before', heq, hk, hstep⟩ := resolved_cons before x xs
    have hskip : ∀ ls, resolveNullable before (x.added lineBreak ++ ls) =
        x.added lineBreak ++ resolveNullable before ls := by
      intro ls
      unfold added
      split <;> rfl
    rw [spaced, hskip, hstep _ _ (firstSignificant?_spaced lineBreak xs), ih, heq, spaced,
      trail_resolved, added_resolved hk]

theorem place_resolved (before : Option Kind) (xs : List MarkedLexeme) :
    place (resolved before xs) = place xs := by
  funext i
  induction xs generalizing before i with
  | nil => rfl
  | cons x xs ih =>
    obtain ⟨k, before', heq, hk, -⟩ := resolved_cons before x xs
    rw [heq]
    cases i with
    | zero => rw [place_zero [], place_zero [], added_resolved hk]
    | succ i => rw [place_succ [], place_succ [], ih, added_resolved hk]

end MarkedLexeme

/-! ### Tokens -/

open MarkedLexeme

theorem SourceFile.getElem?_kinds (f : SourceFile) (i : ℕ) :
    (Token.kinds f.tokens.toList)[i]? = (f.kindAt i).map Kind.unpaired := by
  rw [Token.kinds, List.getElem?_map, Array.getElem?_toList, kindAt, Option.map_map]
  rfl

/-- Apart from question marks and square brackets, tokens have the kinds of the lexemes as they were
cut. -/
theorem kindAt_of_parse {path : String} {source : Text} {f : SourceFile} {pieces : List Piece}
    (h : SourceFile.parse path source = .ok f)
    (hpieces : Piece.cutAll Context.start source = .ok pieces) {i : ℕ} {l : Lexeme}
    (hl : (pieces.flatMap Piece.lexemes)[i]? = some l)
    (hk : l.kind ∉ [.ternary, .attributeClose, .closeSquare]) : f.kindAt i = some l.kind := by
  obtain ⟨tokens, htokens, rfl⟩ := SourceFile.exists_tokens_of_parse h
  have hlt := (List.getElem?_eq_some_iff.1 hl).1
  rw [← length_of_tokenize htokens hpieces] at hlt
  have ht := List.getElem?_eq_getElem hlt
  obtain ⟨l', hl', -, -, hkind⟩ := exists_lexeme_of_tokenize htokens hpieces ht
  cases hl.symm.trans hl'
  rw [SourceFile.kindAt, List.getElem?_toArray, ht, Option.map_some, hkind hk]

/-- How a file with line breaks in front of some lexemes differs from the old one: its tokens have new
places, and they have moved down. -/
structure SourceFile.Respaced (f f' : SourceFile) (xs : List MarkedLexeme) : Prop where
  padded : Padded (place xs) (Token.kinds f.tokens.toList) (Token.kinds f'.tokens.toList)
  line : ∀ (i : ℕ) (t t' : Token), f.tokens[i]? = some t → f'.tokens[place xs i]? = some t' →
    t'.position.line = t.position.line + above xs i

/-- The file of a text with line breaks between its lexemes. -/
theorem SourceFile.exists_respaced {path : String} {source lineBreak : Text} {f : SourceFile}
    {pieces : List Piece} {xs : List MarkedLexeme} (h : SourceFile.parse path source = .ok f)
    (hpieces : Piece.cutAll Context.start source = .ok pieces) (hlineBreak : IsLineBreak lineBreak)
    (hxs : xs.map lexeme = pieces.flatMap Piece.lexemes) (hchain : xs.IsChain Follows)
    (hbegin : BeginsUnmarked xs) :
    ∃ f', SourceFile.parse path (xs.flatMap (newText lineBreak)) = .ok f' ∧ f.Respaced f' xs := by
  obtain ⟨tokens, htokens, rfl⟩ := exists_tokens_of_parse h
  obtain ⟨tokens', htokens'⟩ : ∃ tokens', tokenize (xs.flatMap (newText lineBreak)) = .ok tokens' := by
    have hmends := mendsAll_of_beginsUnmarked hlineBreak hchain hbegin none
    rw [hxs] at hmends
    rw [List.flatMap_def]
    exact tokenize_of_mendsAll htokens hpieces hmends
  obtain ⟨pieces', hcut, hlexemes⟩ := exists_cutAll_spaced hlineBreak hpieces hxs hchain hbegin
  have hparse' : SourceFile.parse path (xs.flatMap (newText lineBreak)) =
      .ok ⟨path, xs.flatMap (newText lineBreak), tokens'.toArray⟩ := by
    rw [parse, htokens']
    rfl
  refine ⟨_, hparse', ?_, fun i t t' ht ht' => ?_⟩
  · rw [kinds_of_tokenize htokens hpieces, kinds_of_tokenize htokens' hcut, hlexemes,
      resolveNullable_spaced, ← hxs, ← map_lexeme_resolved, ← place_resolved none]
    exact padded lineBreak (resolved none xs)
  · obtain ⟨_, hpieces', hreads⟩ := exists_reads_of_parse h
    obtain ⟨_, hcut', hreads'⟩ := exists_reads_of_parse hparse'
    cases hpieces.symm.trans hpieces'
    cases hcut.symm.trans hcut'
    have hi : i < xs.length := by
      have hlt := (Array.getElem?_eq_some_iff.1 ht).1
      rwa [hreads.size, ← hxs, List.length_map] at hlt
    rw [hreads.line i t ht, hreads'.line _ t' ht', hlexemes, ← hxs,
      count_take_place hlineBreak hbegin (List.getElem?_eq_getElem hi), Nat.add_assoc]

end EntityLint
