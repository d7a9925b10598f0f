import EntityLint.Token.Lexer
import Mathlib.Data.List.Forall2
import Mathlib.Tactic

/-!
# Question marks that begin a type

A question mark counts as part of a type by the significant lexemes on both sides of it: one that a type
may follow in front of it, and one that begins a type behind it. What stands farther away does not
matter, and no other lexeme changes.

* `Lexeme.lastSignificant`: the last significant kind after some lexemes;
* `Lexeme.Resolves`, `Lexeme.resolveNullable_append`: lexemes one after the other;
* `Lexeme.ResolvedAs`, with `ResolvedAs.append` and `ResolvedAs.mark`: lexemes that are resolved in the
  same way whatever follows.
-/

namespace EntityLint.Lexeme

variable {before : Option Kind} {ls ls' ms : List Lexeme}

/-- The kind of the last significant lexeme after some more lexemes. -/
def lastSignificant (before : Option Kind) (ls : List Lexeme) : Option Kind :=
  ls.foldl (fun before l => if l.kind.isTrivia then before else some l.kind) before

theorem lastSignificant_append (before : Option Kind) (ls ms : List Lexeme) :
    lastSignificant before (ls ++ ms) = lastSignificant (lastSignificant before ls) ms :=
  List.foldl_append

theorem lastSignificant_of_trivia (h : ∀ l ∈ ls, l.kind.isTrivia = true) :
    lastSignificant before ls = before := by
  induction ls with
  | nil => rfl
  | cons l ls ih =>
    obtain ⟨hl, hls⟩ := List.forall_mem_cons.1 h
    rw [lastSignificant, List.foldl_cons, if_pos hl]
    exact ih hls

/-- Behind a significant lexeme, blanks and comments do not matter. -/
theorem lastSignificant_cons_trivia {l : Lexeme} (hl : l.kind.isTrivia = false)
    (h : ∀ m ∈ ls, m.kind.isTrivia = true) : lastSignificant before (l :: ls) = some l.kind := by
  rw [lastSignificant, List.foldl_cons, hl]
  exact lastSignificant_of_trivia h

/-- The last significant lexeme of some parts, if each of them has one. -/
theorem exists_lastSignificant_flatMap {α : Type} {as : List α} (has : as ≠ []) {g : α → List Lexeme}
    {k : α → Kind} (hg : ∀ (a : α) (before : Option Kind), lastSignificant before (g a) = some (k a))
    (before : Option Kind) : ∃ a, lastSignificant before (as.flatMap g) = some (k a) := by
  obtain ⟨as, a, rfl⟩ := (List.eq_nil_or_concat as).resolve_left has
  refine ⟨a, ?_⟩
  rw [List.concat_eq_append, List.flatMap_append, List.flatMap_singleton, lastSignificant_append, hg]

theorem firstSignificant?_append {k : Kind} (h : firstSignificant? ls = some k) (ms : List Lexeme) :
    firstSignificant? (ls ++ ms) = some k := by
  obtain ⟨l, hl, rfl⟩ := Option.map_eq_some_iff.1 h
  rw [firstSignificant?, List.find?_append, hl]
  rfl

theorem firstSignificant?_of_trivia (h : ∀ l ∈ ls, l.kind.isTrivia = true) (ms : List Lexeme) :
    firstSignificant? (ls ++ ms) = firstSignificant? ms := by
  have hnone : ls.find? (fun l => !l.kind.isTrivia) = none :=
    List.find?_eq_none.2 fun l hl => by simp [h l hl]
  rw [firstSignificant?, List.find?_append, hnone]
  rfl

/-! ### Lexemes one after the other -/

/-- A lexeme and what may become of it. -/
structure Resolves (l l' : Lexeme) : Prop where
  text : l'.text = l.text
  kind : l'.kind = l.kind ∨ l.kind = .ternary ∧ l'.kind = .nullable

theorem Resolves.refl (l : Lexeme) : Resolves l l := ⟨rfl, .inl rfl⟩

theorem Resolves.eq {l l' : Lexeme} (h : Resolves l l') (hl : l.kind ≠ .ternary) : l' = l := by
  obtain ⟨kind, text⟩ := l
  obtain ⟨kind', text'⟩ := l'
  obtain rfl : text' = text := h.text
  obtain rfl : kind' = kind := h.kind.resolve_right fun hmark => hl hmark.1
  rfl

theorem eq_of_forall_resolves (h : List.Forall₂ Resolves ls ls') (hls : ∀ l ∈ ls, l.kind ≠ .ternary) :
    ls' = ls := by
  induction h with
  | nil => rfl
  | cons hl _ ih =>
    obtain ⟨hne, hls⟩ := List.forall_mem_cons.1 hls
    rw [hl.eq hne, ih hls]

theorem resolveNullable_append (before : Option Kind) (ls ms : List Lexeme) :
    ∃ ls', List.Forall₂ Resolves ls ls' ∧ resolveNullable before (ls ++ ms) =
      ls' ++ resolveNullable (lastSignificant before ls') ms := by
  induction ls generalizing before with
  | nil => exact ⟨[], .nil, rfl⟩
  | cons l ls ih =>
    rw [List.cons_append, resolveNullable]
    generalize hkind : (if l.kind = .ternary ∧ before.any Kind.precedesType
      ∧ (firstSignificant? (ls ++ ms)).any Kind.beginsType then Kind.nullable else l.kind) = kind
    obtain ⟨ls', hls, hrest⟩ := ih (if kind.isTrivia then before else some kind)
    refine ⟨⟨kind, l.text⟩ :: ls', .cons ⟨rfl, ?_⟩ hls, ?_⟩
    · split at hkind
      · next hmark => exact .inr ⟨hmark.1, hkind.symm⟩
      · exact .inl hkind.symm
    · exact congrArg (⟨kind, l.text⟩ :: ·) hrest

/-- A question mark between the two significant lexemes that show a type. -/
theorem resolveNullable_mark (hbefore : before.any Kind.precedesType = true)
    (hms : (firstSignificant? ms).any Kind.beginsType = true) (text : Text) :
    resolveNullable before (⟨.ternary, text⟩ :: ms) =
      ⟨.nullable, text⟩ :: resolveNullable (some .nullable) ms := by
  rw [resolveNullable]
  simp only [hbefore, hms, and_self, if_true]
  rfl

/-! ### Whatever follows -/

/-- After a significant kind, and whatever follows, some lexemes are resolved as other ones are. -/
def ResolvedAs (before : Option Kind) (ls ms : List Lexeme) : Prop :=
  ∀ rest, ∃ ms', List.Forall₂ Resolves ms ms' ∧ resolveNullable before (ls ++ rest) =
    ms' ++ resolveNullable (lastSignificant before ms') rest

namespace ResolvedAs

theorem refl (before : Option Kind) (ls : List Lexeme) : ResolvedAs before ls ls := fun rest =>
  resolveNullable_append before ls rest

theorem append {xs ys : List Lexeme} (h : ResolvedAs before ls ms)
    (hxs : ∀ ms', List.Forall₂ Resolves ms ms' → ResolvedAs (lastSignificant before ms') xs ys) :
    ResolvedAs before (ls ++ xs) (ms ++ ys) := by
  intro rest
  obtain ⟨ms', hms, hfirst⟩ := h (xs ++ rest)
  obtain ⟨ys', hys, hsecond⟩ := hxs ms' hms rest
  refine ⟨ms' ++ ys', List.rel_append hms hys, ?_⟩
  rw [List.append_assoc, hfirst, hsecond, lastSignificant_append, List.append_assoc]

/-- Lexemes without question marks stay as they are. -/
theorem append_left {xs ys : List Lexeme} (hls : ∀ l ∈ ls, l.kind ≠ .ternary)
    (h : ResolvedAs (lastSignificant before ls) xs ys) : ResolvedAs before (ls ++ xs) (ls ++ ys) :=
  (refl before ls).append fun ls' hls' => by rwa [eq_of_forall_resolves hls' hls]

/-- A question mark of a type. -/
theorem mark (hbefore : before.any Kind.precedesType = true) {k : Kind}
    (hls : firstSignificant? ls = some k) (hk : k.beginsType = true) (text : Text) :
    ResolvedAs before (⟨.ternary, text⟩ :: ls) (⟨.nullable, text⟩ :: ls) := by
  intro rest
  have hfirst : (firstSignificant? (ls ++ rest)).any Kind.beginsType = true := by
    rw [firstSignificant?_append hls]
    exact hk
  obtain ⟨ls', hls', hrest⟩ := resolveNullable_append (some .nullable) ls rest
  refine ⟨⟨.nullable, text⟩ :: ls', .cons (.refl _) hls', ?_⟩
  rw [List.cons_append, resolveNullable_mark hbefore hfirst, hrest]
  rfl

end ResolvedAs

end EntityLint.Lexeme
