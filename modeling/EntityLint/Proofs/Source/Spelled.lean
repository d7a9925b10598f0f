import EntityLint.Proofs.Source.Nested
import EntityLint.Proofs.Token.Nullable

/-!
# Searches among lexemes that a file spells

A question about kinds has the same answer for a lexeme and for the token that is made of it, if it
makes no difference between the kinds that such a lexeme may get. So a search in the file ends where it
ends among the lexemes, and keywords own the same brackets.

* `Kind.IsStable`, `Lexeme.ReadAs.apply_kind`: questions that do not depend on what is found out later;
* `SourceFile.spells_of_parse`, `Spells.of_parse`: the lexemes of a text and the tokens of its file;
* `Spells.next?_eq`, `Spells.nextSignificant?_eq`, `Spells.nextOfKind?_eq`: searches;
* `Spells.codeBetween_eq`, `Spells.exists_significantBefore`: the significant tokens of a file;
* `Ownership.isQuiet`, `Spells.owns`, `Spells.exists_owns_iff`: which brackets a keyword owns.
-/

namespace EntityLint

open Lexeme Pairing

/-! ### Stable questions -/

/-- A question with the same answer for the kinds of a question mark, and for those of a square bracket
that closes. -/
def Kind.IsStable (q : Kind → Bool) : Prop := q nullable = q ternary ∧ q attributeClose = q closeSquare

instance (q : Kind → Bool) : Decidable (Kind.IsStable q) := instDecidableAnd

namespace Lexeme

variable {ls : List Lexeme} {ts : List Token} {q : Kind → Bool}

theorem ReadAs.apply_kind {l : Lexeme} {t : Token} (h : l.ReadAs t) (hq : Kind.IsStable q) :
    q t.kind = q l.kind := by
  rcases h.kind with hkind | ⟨hternary, hnullable⟩
  · rw [← hkind]
    by_cases hclose : t.kind = .attributeClose
    · rw [hclose]
      exact hq.2
    · rw [Kind.unpaired_of_ne hclose]
  · rw [hternary, hnullable]
    exact hq.1

/-- Blanks and comments are left out on both sides. -/
theorem forall₂_significant (h : List.Forall₂ ReadAs ls ts) : List.Forall₂ ReadAs
    (ls.filter fun l => !l.kind.isTrivia) (ts.filter fun t => !t.kind.isTrivia) := by
  refine List.rel_filter (fun l t hread => ?_) h
  have hkind := hread.apply_kind (q := fun k => !k.isTrivia) (by decide)
  exact Iff.of_eq (congrArg (· = true) hkind.symm)

theorem flatMap_text_of_forall₂ (h : List.Forall₂ ReadAs ls ts) :
    ts.flatMap Token.text = ls.flatMap Lexeme.text := by
  induction h with
  | nil => rfl
  | cons hread _ ih => rw [List.flatMap_cons, List.flatMap_cons, hread.text, ih]

theorem lastSignificant_eq_head? (ls : List Lexeme) : lastSignificant none ls =
    ((ls.reverse.filter fun l => !l.kind.isTrivia).map Lexeme.kind).head? := by
  induction ls using List.reverseRecOn with
  | nil => rfl
  | append_singleton ls l ih =>
    rw [lastSignificant_append, List.reverse_append, List.reverse_singleton, List.singleton_append,
      List.filter_cons, ih]
    cases hl : l.kind.isTrivia <;> simp [lastSignificant, hl]

/-- The first kinds of which a question is true, if it is true of settled kinds only. -/
theorem takeWhile_kind_of_forall₂ (h : List.Forall₂ ReadAs ls ts) (hq : Kind.IsStable q)
    (hsettled : ∀ k, q k = true → k.IsSettled) :
    (ts.map Token.kind).takeWhile q = (ls.map Lexeme.kind).takeWhile q := by
  induction h with
  | nil => rfl
  | cons hread _ ih =>
    rw [List.map_cons, List.map_cons, List.takeWhile_cons, List.takeWhile_cons, hread.apply_kind hq, ih]
    split
    · next hl => rw [hread.kind_eq (hsettled _ hl)]
    · rfl

end Lexeme

namespace SourceFile

variable {f : SourceFile} {start : ℕ} {ls xs ys : List Lexeme} {k l : Lexeme}

/-- Lexemes that are resolved in one way whatever stands in front of them are spelled in that way. -/
theorem spells_of_parse {path : String} {source : Text} {pieces : List Piece}
    {before ls ms after : List Lexeme} (h : parse path source = .ok f)
    (hpieces : Piece.cutAll Context.start source = .ok pieces)
    (hsource : pieces.flatMap Piece.lexemes = before ++ (ls ++ after))
    (hresolved : ∀ k, ResolvedAs k ls ms) : f.Spells before.length ms := by
  obtain ⟨tokens, htokens, rfl⟩ := exists_tokens_of_parse h
  obtain ⟨all, docs, pairs, hls, hpairs, rfl⟩ := exists_lexemes_of_tokenize htokens
  have hkinds := Token.kinds_ofLexemes hpairs docs fun l hl => (mem_ofSource hls l hl).2
  obtain ⟨_, hpieces', hresolve⟩ := exists_pieces_of_ofSource hls
  cases hpieces.symm.trans hpieces'
  obtain ⟨before', hbefore, hfirst⟩ := resolveNullable_append none before (ls ++ after)
  obtain ⟨ms', hms, hsecond⟩ := hresolved (lastSignificant none before') after
  intro a l hl
  obtain ⟨hlength, hget⟩ := List.forall₂_iff_get.1 hms
  have ha := (List.getElem?_eq_some_iff.1 hl).1
  have hresolves : Resolves l (ms'[a]) := by
    rw [List.getElem?_eq_getElem ha, Option.some_inj] at hl
    exact hl ▸ hget a ha (by omega)
  have hall : all[before.length + a]? = some ms'[a] := by
    rw [hresolve, hsource, hfirst, hsecond, hbefore.length_eq,
      List.getElem?_append_right (Nat.le_add_right ..), Nat.add_sub_cancel_left,
      List.getElem?_append_left (by omega), List.getElem?_eq_getElem]
  obtain ⟨t, ht⟩ : ∃ t, (Token.ofLexemes all docs pairs)[before.length + a]? = some t :=
    ⟨_, List.getElem?_eq_getElem (by
      rw [Token.length_ofLexemes]
      exact (List.getElem?_eq_some_iff.1 hall).1)⟩
  obtain ⟨l', hl', hdescribes⟩ := Token.describes_of_getElem? ht
  cases hall.symm.trans hl'
  have hkind : t.kind.unpaired = ms'[a].kind := by
    have hat := congrArg (·[before.length + a]?) hkinds
    simpa [Token.kinds, ht, hall] using hat
  refine ⟨t, by rw [List.getElem?_toArray, ht], hdescribes.text.trans hresolves.text, ?_⟩
  rcases hresolves.kind with hsame | ⟨hternary, hnullable⟩
  · exact .inl (hkind.trans hsame)
  · refine .inr ⟨hternary, ?_⟩
    rw [hnullable] at hkind
    rwa [Kind.unpaired_of_ne fun hclose => by rw [hclose] at hkind; cases hkind] at hkind

/-- A file spells the lexemes that its text is cut into. -/
theorem Spells.of_parse {path : String} {source : Text} {pieces : List Piece}
    (h : parse path source = .ok f) (hpieces : Piece.cutAll Context.start source = .ok pieces) :
    f.Spells 0 (pieces.flatMap Piece.lexemes) :=
  have hsource : pieces.flatMap Piece.lexemes = [] ++ (pieces.flatMap Piece.lexemes ++ []) :=
    (List.append_nil _).symm
  spells_of_parse h hpieces hsource fun k => ResolvedAs.refl k _

namespace Spells

/-- The tokens that are made of some lexemes. -/
theorem forall₂_slice (h : f.Spells start ls) :
    List.Forall₂ ReadAs ls (f.slice start (start + ls.length)) := by
  have hget (a : ℕ) (ha : a < ls.length) :
      ∃ t, (f.slice start (start + ls.length))[a]? = some t ∧ ls[a].ReadAs t := by
    obtain ⟨t, ht, hread⟩ := h a _ (List.getElem?_eq_getElem ha)
    refine ⟨t, ?_, hread⟩
    rw [slice, List.getElem?_take_of_lt (by omega), List.getElem?_drop, Array.getElem?_toList, ht]
  refine List.forall₂_iff_get.2 ⟨?_, fun a ha ha' => ?_⟩
  · refine le_antisymm ?_ (by rw [slice, List.length_take]; omega)
    by_contra hlt
    obtain ⟨t, ht, -⟩ := hget _ (not_le.1 hlt)
    exact absurd (List.getElem?_eq_some_iff.1 ht).1 (lt_irrefl _)
  · obtain ⟨t, ht, hread⟩ := hget a ha
    rw [List.getElem?_eq_getElem ha', Option.some_inj] at ht
    rwa [← ht] at hread

/-! ### Searches -/

/-- A search ends at the first lexeme of which its question is true. -/
theorem next?_eq {q : Kind → Bool} (h : f.Spells start (xs ++ l :: ys)) (hq : Kind.IsStable q)
    (hxs : ∀ x ∈ xs, q x.kind = false) (hl : q l.kind = true) :
    f.next? (fun t => q t.kind) start none = some (start + xs.length) := by
  have hholds {a : ℕ} {m : Lexeme} (hm : (xs ++ l :: ys)[a]? = some m) :
      f.holdsAt (fun t => q t.kind) (start + a) = q m.kind := by
    obtain ⟨t, ht, hread⟩ := h a m hm
    rw [holdsAt, ht, Option.any_some, hread.apply_kind hq]
  have hlast : (xs ++ l :: ys)[xs.length]? = some l := by simp
  obtain ⟨t, ht, -⟩ := h _ _ hlast
  have hsize := (Array.getElem?_eq_some_iff.1 ht).1
  refine findUp_eq_some_iff.2 ⟨Nat.le_add_right .., ?_, (hholds hlast).trans hl, fun j hj hlt => ?_⟩
  · rw [Option.getD_none, Nat.min_self]
    omega
  · obtain ⟨a, rfl⟩ := Nat.exists_eq_add_of_le hj
    have ha : a < xs.length := by omega
    rw [hholds (m := xs[a]) (by rw [List.getElem?_append_left ha, List.getElem?_eq_getElem ha])]
    exact hxs _ (List.getElem_mem ha)

theorem nextSignificant?_eq (h : f.Spells start (xs ++ l :: ys))
    (hxs : ∀ x ∈ xs, x.kind.isTrivia = true) (hl : l.kind.isTrivia = false) :
    f.nextSignificant? start none = some (start + xs.length) :=
  h.next?_eq (q := fun k => !k.isTrivia) (by decide) (fun x hx => by rw [hxs x hx]; rfl)
    (by rw [hl]; rfl)

theorem nextOfKind?_eq {kinds : List Kind} (h : f.Spells start (xs ++ l :: ys))
    (hkinds : Kind.IsStable fun k => kinds.contains k != false) (hxs : ∀ x ∈ xs, x.kind ∉ kinds)
    (hl : l.kind ∈ kinds) : f.nextOfKind? kinds start none false = some (start + xs.length) :=
  h.next?_eq hkinds (fun x hx => by simpa using hxs x hx) (by simpa using hl)

/-! ### Significant tokens -/

theorem codeBetween_eq (h : f.Spells start ls) : f.codeBetween start (start + ls.length) =
    (ls.filter fun l => !l.kind.isTrivia).flatMap Lexeme.text :=
  flatMap_text_of_forall₂ (forall₂_significant h.forall₂_slice)

/-- The significant tokens before the end of some lexemes are made of these, and then come those that
stand in front of them. -/
theorem exists_significantBefore (h : f.Spells start ls) :
    ∃ ts, f.significantBefore (start + ls.length) = ts ++ f.significantBefore start ∧
      List.Forall₂ ReadAs (ls.reverse.filter fun l => !l.kind.isTrivia) ts := by
  have hslice := h.forall₂_slice
  rw [slice, Nat.add_sub_cancel_left] at hslice
  refine ⟨_, ?_, forall₂_significant (List.rel_reverse hslice)⟩
  rw [SourceFile.significantBefore, SourceFile.significantBefore, List.take_add, List.reverse_append,
    List.filter_append]

theorem forall₂_significantBefore (h : f.Spells 0 ls) : List.Forall₂ ReadAs
    (ls.reverse.filter fun l => !l.kind.isTrivia) (f.significantBefore ls.length) := by
  obtain ⟨ts, hts, hread⟩ := h.exists_significantBefore
  have hnone : f.significantBefore 0 = [] := by simp [SourceFile.significantBefore]
  rw [Nat.zero_add, hnone, List.append_nil] at hts
  rwa [hts]

end Spells

/-! ### Brackets that keywords own -/

end SourceFile

/-- Kinds that leave a keyword waiting for its bracket. -/
def Pairing.Ownership.isQuiet (own : Ownership) (k : Kind) : Bool :=
  !(own.keyword k || own.bracket k || own.ends k)

theorem Pairing.Ownership.isQuiet_iff {own : Ownership} {k : Kind} : own.isQuiet k = true ↔
    own.keyword k = false ∧ own.bracket k = false ∧ own.ends k = false := by
  simp [isQuiet, and_assoc]

namespace SourceFile.Spells

variable {f : SourceFile} {start : ℕ} {ls xs ys : List Lexeme} {k l : Lexeme}

/-- The kind of a lexeme while brackets are paired. -/
theorem exists_kind (h : f.Spells start ls) {a : ℕ} (hl : ls[a]? = some l) : ∃ c,
    (Token.kinds f.tokens.toList)[start + a]? = some c ∧
      (c = l.kind ∨ l.kind = .ternary ∧ c = .nullable) := by
  obtain ⟨t, ht, hread⟩ := h a l hl
  refine ⟨t.kind.unpaired, ?_, ?_⟩
  · rw [Token.kinds, List.getElem?_map, Array.getElem?_toList, ht, Option.map_some]
  · refine hread.kind.imp_right fun hmark => ⟨hmark.1, ?_⟩
    rw [hmark.2]
    rfl

section Ownership

variable {own : Ownership} (hmarks : own.isQuiet .ternary = true ∧ own.isQuiet .nullable = true)
  (h : f.Spells start (k :: (xs ++ l :: ys))) (hk : own.keyword k.kind = true)
  (hxs : ∀ x ∈ xs, own.isQuiet x.kind = true)

include hmarks h hk hxs

/-- A keyword waits until the first lexeme that does not leave it waiting. -/
theorem waitsAt :
    own.WaitsAt (Token.kinds f.tokens.toList) start (start + (xs.length + 1)) := by
  refine ⟨by omega, ?_, fun j hj hlt c hc => Ownership.isQuiet_iff.1 ?_⟩
  · obtain ⟨c, hc, rfl | ⟨hternary, -⟩⟩ := h.exists_kind (a := 0) rfl
    · exact ⟨_, hc, hk⟩
    · rw [hternary, (Ownership.isQuiet_iff.1 hmarks.1).1] at hk
      cases hk
  · obtain ⟨a, rfl⟩ := Nat.exists_eq_add_of_lt hj
    have ha : a < xs.length := by omega
    have hx : (k :: (xs ++ l :: ys))[a + 1]? = some xs[a] := by
      rw [List.getElem?_cons_succ, List.getElem?_append_left ha, List.getElem?_eq_getElem ha]
    obtain ⟨c', hc', hkind⟩ := h.exists_kind hx
    cases hc'.symm.trans hc
    rcases hkind with rfl | ⟨-, rfl⟩
    · exact hxs _ (List.getElem_mem ha)
    · exact hmarks.2

/-- A keyword owns a bracket that comes up while it waits. -/
theorem owns (hl : own.bracket l.kind = true) :
    own.Owns (Token.kinds f.tokens.toList) start (start + (xs.length + 1)) := by
  refine ⟨h.waitsAt hmarks hk hxs, ?_⟩
  obtain ⟨c, hc, rfl | ⟨hternary, -⟩⟩ := h.exists_kind (a := xs.length + 1) (l := l) (by simp)
  · exact ⟨_, hc, hl⟩
  · rw [hternary, (Ownership.isQuiet_iff.1 hmarks.1).2.1] at hl
    cases hl

/-- A keyword owns a bracket if its wait ends with one. -/
theorem exists_owns_iff (hl : own.isQuiet l.kind = false) :
    (∃ b, own.Owns (Token.kinds f.tokens.toList) start b) ↔ own.bracket l.kind = true := by
  refine ⟨fun ⟨b, hb⟩ => ?_, fun hl => ⟨_, h.owns hmarks hk hxs hl⟩⟩
  obtain ⟨c, hc, rfl | ⟨hternary, -⟩⟩ := h.exists_kind (a := xs.length + 1) (l := l) (by simp)
  · obtain ⟨o, ho, hbracket⟩ := hb.bracket
    rcases lt_trichotomy b (start + (xs.length + 1)) with hlt | rfl | hlt
    · have hquiet := (h.waitsAt hmarks hk hxs).quiet b hb.waits.lt hlt o ho
      rw [hquiet.2.1] at hbracket
      cases hbracket
    · cases hc.symm.trans ho
      exact hbracket
    · have hquiet := hb.waits.quiet _ (by omega) hlt _ hc
      rw [Ownership.isQuiet_iff.2 hquiet] at hl
      cases hl
  · rw [hternary, hmarks.1] at hl
    cases hl

end Ownership

end SourceFile.Spells

end EntityLint
