import EntityLint.Proofs.Source.Parameters
import EntityLint.Proofs.Source.WrittenSignature

/-!
# Signatures that a file reads

A function is read as it is written: its modifiers by a scan backward from its keyword, its name and its
type by searches forward, its parameters and its body by the brackets that its keyword owns.

* `Spells.modifiers_eq`: the modifiers in front of a function;
* `Spells.exists_behind_reference`, `Spells.declarationName?_eq`: its name;
* `Spells.exists_parens_uses`, `Spells.afterParameters?_eq`, `Spells.returnType_eq`: its type;
* `Spells.isSome_scope`: its body.

The main statement is `SourceFile.signature_of_written`.
-/

namespace EntityLint

open Lexeme Pairing

/-! ### Modifiers -/

theorem Kind.isTrivia_of_isMethodModifier {k : Kind} (h : k.isMethodModifier = true) :
    k.isTrivia = false ∧ k.IsSettled := by
  revert h
  cases k <;> decide

namespace SourceFile

variable {f : SourceFile} {start o c : ℕ} {d : WrittenSignature} {before after : List Lexeme} {t : Token}

namespace Spells

/-- The modifiers of a function, the nearest first. -/
theorem modifiers_eq (h : f.Spells 0 (before ++ d.front))
    (hbefore : ∀ k ∈ lastSignificant none before, k.isMethodModifier = false) :
    ((f.significantBefore (before ++ d.front).length).map Token.kind).takeWhile Kind.isMethodModifier =
      (d.modifiers.map fun m => m.keyword.kind).reverse := by
  rw [takeWhile_kind_of_forall₂ h.forall₂_significantBefore (by decide)
    fun k hk => (Kind.isTrivia_of_isMethodModifier hk).2]
  rw [List.reverse_append, List.filter_append, List.map_append, List.filter_reverse,
    WrittenSignature.front,
    WrittenKeyword.filter_lexemes fun k hk => (Kind.isTrivia_of_isMethodModifier hk).1]
  have hmodifiers : ∀ k ∈ ((d.modifiers.map WrittenKeyword.keyword).reverse.map Lexeme.kind),
      k.isMethodModifier = true := by
    simp only [List.map_reverse, List.mem_reverse, List.map_map, List.forall_mem_map]
    exact fun m _ => m.isOfSort
  have hnone : (((before.reverse.filter fun l => !l.kind.isTrivia).map Lexeme.kind).takeWhile
      Kind.isMethodModifier) = [] := by
    rw [lastSignificant_eq_head?] at hbefore
    cases hkinds : (before.reverse.filter fun l => !l.kind.isTrivia).map Lexeme.kind with
    | nil => rfl
    | cons k ks =>
      rw [hkinds] at hbefore
      rw [List.takeWhile_cons, hbefore k rfl]
      rfl
  rw [List.takeWhile_append_of_pos hmodifiers, hnone, List.append_nil, List.map_reverse, List.map_map]
  rfl

/-! ### Names -/

theorem exists_keyword (h : f.Spells start (d.keyword :: (d.rest ++ after))) :
    ∃ t, f.tokens[start]? = some t ∧ t.kind = .kwFunction := by
  obtain ⟨t, ht, hread⟩ := h.head
  exact ⟨t, ht, by rw [hread.kind_eq (by rw [d.isFunction]; decide), d.isFunction]⟩

/-- What stands behind a reference mark, or in its place. -/
theorem exists_behind_reference {gap : Gap} {reference : Option Gap} {x : Lexeme} {rest : List Lexeme}
    (h : f.Spells start (gap.lexemes ++ (Gap.behind ⟨.ampersand, ['&']⟩ reference ++ x :: rest)))
    (hx : x.kind.IsSettled ∧ x.kind.isTrivia = false ∧ x.kind ≠ .ampersand) :
    ∃ next e, f.nextSignificant? start none = some next ∧
      (f.kindAt next ≠ some .ampersand ∧ next = e ∨
        f.kindAt next = some .ampersand ∧ f.nextSignificant? (next + 1) none = some e) ∧
      f.Spells e (x :: rest) := by
  obtain ⟨hsettled, hsignificant, hampersand⟩ := hx
  have hright := Spells.right h
  cases reference with
  | none =>
    have hat : f.kindAt (start + gap.lexemes.length) = some x.kind := hright.kindAt (a := 0) rfl hsettled
    exact ⟨_, _, h.nextSignificant?_eq gap.isTrivia_of_mem hsignificant,
      .inl ⟨by rw [hat]; simpa using hampersand, rfl⟩, hright⟩
  | some g =>
    have hbehind := Spells.tail hright
    exact ⟨_, _, h.nextSignificant?_eq gap.isTrivia_of_mem rfl,
      .inr ⟨hright.kindAt (a := 0) rfl (by decide),
        hbehind.nextSignificant?_eq g.isTrivia_of_mem hsignificant⟩, Spells.right hbehind⟩

/-- A function has the name that is written. -/
theorem declarationName?_eq (h : f.Spells start (d.keyword :: (d.rest ++ after)))
    (hname : ∀ n ∈ d.name, n.lexeme.kind = .word) :
    f.declarationName? start = d.name.map fun n => n.lexeme.text := by
  obtain ⟨t, ht, hkind⟩ := h.exists_keyword
  -- a name or a bracket stands behind the keyword and the reference mark
  obtain ⟨x, rest, hrest, hx⟩ : ∃ x rest,
      d.name.elim [] WrittenName.lexemes ++ (inRound d.parameters ++ d.rear ++ after) = x :: rest ∧
        ((∃ n, d.name = some n ∧ x = n.lexeme) ∨ d.name = none ∧ x.kind = .openRound) := by
    cases hn : d.name with
    | none => exact ⟨_, _, rfl, .inr ⟨rfl, rfl⟩⟩
    | some n => exact ⟨_, _, rfl, .inl ⟨n, rfl, rfl⟩⟩
  have hsettled : x.kind.IsSettled ∧ x.kind.isTrivia = false ∧ x.kind ≠ .ampersand := by
    rcases hx with ⟨n, hn, rfl⟩ | ⟨-, hround⟩
    · rw [hname n hn]
      decide
    · rw [hround]
      decide
  have hsplit : d.rest ++ after = d.afterKeyword.lexemes ++
      (Gap.behind ⟨.ampersand, ['&']⟩ d.reference ++ x :: rest) := by
    rw [← hrest]
    simp [WrittenSignature.rest, WrittenSignature.title]
  have htail := h.tail
  rw [hsplit] at htail
  obtain ⟨next, e, hfirst, hsecond, he⟩ := exists_behind_reference htail hsettled
  have hread : (do guard (f.kindAt e = some .word); return f.textAt e : Option Text) =
      d.name.map fun n => n.lexeme.text := by
    have hat : f.kindAt e = some x.kind := he.kindAt (a := 0) rfl hsettled.1
    have htext : f.textAt e = x.text := he.textAt (a := 0) rfl
    rw [hat, htext]
    rcases hx with ⟨n, hn, rfl⟩ | ⟨hn, hround⟩
    · rw [hn, hname n hn]
      rfl
    · rw [hn, hround]
      rfl
  rw [SourceFile.declarationName?, ht]
  simp only [Option.bind_eq_bind, Option.bind_some, hfirst, hkind]
  rcases hsecond with ⟨hplain, rfl⟩ | ⟨hmark, hnext⟩
  · rw [if_neg hplain]
    exact hread
  · rw [if_pos hmark, hnext]
    exact hread

/-! ### Types -/

section Paired

variable (hpaired : Token.WellPaired f.tokens.toList)

include hpaired

/-- A list in round brackets is passed over by its brackets. -/
theorem parens_openRound {ls rest : List Lexeme} (h : f.Spells start (inRound ls ++ rest))
    (hls : Family.round.Balanced (ls.map Lexeme.kind)) (ht : f.tokens[start]? = some t) :
    t.parens = some ⟨start, start + (ls.length + 1)⟩ := by
  have hsplit : inRound ls ++ rest = ⟨.openRound, ['(']⟩ :: (ls ++ ⟨.closeRound, [')']⟩ :: rest) := by
    simp [inRound]
  have hmatches := h.matching_pair .round hsplit hls rfl rfl
  exact hpaired.round _ _ t hmatches (.inl rfl) (Array.getElem?_toList.trans ht)

/-- The brackets around the variables that a closure takes over, and what stands behind them. -/
theorem exists_parens_uses {u : WrittenUses} {x : Lexeme} {rest : List Lexeme}
    (h : f.Spells start (u.lexemes ++ x :: rest)) (hx : x.kind.isTrivia = false) :
    ∃ opener v range, f.nextOfKind? [.openRound] start none false = some opener ∧
      f.tokens[opener]? = some v ∧ v.parens = some range ∧
      ∃ e, f.nextSignificant? (range.closer + 1) none = some e ∧ f.Spells e (x :: rest) := by
  have hsplit : u.lexemes ++ x :: rest = (u.keyword :: u.before.lexemes) ++
      (inRound u.content ++ (u.gap.lexemes ++ x :: rest)) := by
    simp [WrittenUses.lexemes]
  rw [hsplit] at h
  have hlist := Spells.right h
  obtain ⟨v, hv, -⟩ := Spells.head hlist
  have hopener : f.nextOfKind? [.openRound] start none false =
      some (start + (u.keyword :: u.before.lexemes).length) := by
    refine h.nextOfKind?_eq (l := ⟨.openRound, ['(']⟩) (by decide)
      (List.forall_mem_cons.2 ⟨by rw [u.isUse]; decide, fun l hl hk => ?_⟩) (by decide)
    have htrivia := u.before.isTrivia_of_mem l hl
    rw [List.mem_singleton.1 hk] at htrivia
    cases htrivia
  have hlength : (inRound u.content).length = u.content.length + 1 + 1 := by simp [inRound]
  have hgap := Spells.right hlist
  rw [hlength, ← Nat.add_assoc] at hgap
  exact ⟨_, v, _, hopener, hv, parens_openRound hpaired hlist u.balanced_content hv, _,
    hgap.nextSignificant?_eq u.gap.isTrivia_of_mem hx, Spells.right hgap⟩

/-- The mark behind the parameters of a function and the variables that a closure takes over. -/
theorem afterParameters?_eq (hparens : t.parens = some ⟨o, c⟩)
    (h : f.Spells (c + 1) (d.rear ++ after)) : ∃ e, f.afterParameters? t = some e ∧
      f.Spells e (d.close ++ after) := by
  obtain ⟨x, rest, hrest, hx⟩ : ∃ x rest, d.close ++ after = x :: rest ∧
      x.kind ∈ [.colon, .openCurly, .semicolon] := by
    rw [WrittenSignature.close, WrittenSignature.ending]
    cases d.returns with
    | some ls => exact ⟨_, _, rfl, by decide⟩
    | none => exact ⟨_, _, rfl, by cases d.hasBody <;> decide⟩
  have hsettled : x.kind.IsSettled ∧ x.kind.isTrivia = false ∧ x.kind ≠ .kwUse := by
    revert hx
    cases x.kind <;> decide
  rw [WrittenSignature.rear, List.append_assoc, List.append_assoc, hrest] at h
  rw [SourceFile.afterParameters?, hparens, hrest]
  simp only [Option.bind_eq_bind, Option.bind_some]
  cases huses : d.uses with
  | none =>
    rw [huses, Option.elim_none, List.nil_append] at h
    have hat : f.kindAt (c + 1 + d.afterParameters.lexemes.length) = some x.kind :=
      (Spells.right h).kindAt (a := 0) rfl hsettled.1
    rw [h.nextSignificant?_eq d.afterParameters.isTrivia_of_mem hsettled.2.1, Option.bind_some,
      if_neg (by rw [hat]; simpa using hsettled.2.2)]
    exact ⟨_, rfl, Spells.right h⟩
  | some u =>
    rw [huses, Option.elim_some] at h
    have huse := Spells.right h
    have hat : f.kindAt (c + 1 + d.afterParameters.lexemes.length) = some .kwUse := by
      rw [← u.isUse]
      exact huse.kindAt (a := 0) rfl (by rw [u.isUse]; decide)
    rw [h.nextSignificant?_eq d.afterParameters.isTrivia_of_mem (by rw [u.isUse]; rfl),
      Option.bind_some, if_pos hat]
    obtain ⟨opener, v, range, hopener, hv, hrange, e, hbehind, he⟩ :=
      exists_parens_uses hpaired huse hsettled.2.1
    rw [hopener, Option.bind_some, hv, Option.bind_some, hrange, Option.bind_some]
    exact ⟨e, hbehind, he⟩

/-- A function has the type that is written. -/
theorem returnType_eq (hparens : t.parens = some ⟨o, c⟩) (h : f.Spells (c + 1) (d.rear ++ after)) :
    f.returnType t = d.returnType := by
  obtain ⟨e, hafter, he⟩ := afterParameters?_eq hpaired hparens h
  have hending : d.ending.kind ∈ [.openCurly, .semicolon] := by
    rw [WrittenSignature.ending]
    cases d.hasBody <;> decide
  rw [SourceFile.returnType, hafter, WrittenSignature.returnType]
  dsimp only
  cases hreturns : d.returns with
  | none =>
    rw [WrittenSignature.close, hreturns, Option.elim_none, List.nil_append] at he
    have hplain : d.ending.kind.IsSettled ∧ d.ending.kind ≠ .colon := by
      revert hending
      cases d.ending.kind <;> decide
    have hat : f.kindAt e = some d.ending.kind := he.kindAt (a := 0) rfl hplain.1
    rw [hat, if_neg (by simpa using hplain.2)]
    rfl
  | some ls =>
    rw [WrittenSignature.close, hreturns, Option.elim_some, List.cons_append, List.cons_append,
      List.append_assoc] at he
    have hat : f.kindAt e = some .colon := he.kindAt (a := 0) rfl (by decide)
    have hstop : f.nextOfKind? [.openCurly, .semicolon, .doubleArrow] (e + 1) none false =
        some (e + 1 + ls.length) := by
      refine he.tail.nextOfKind?_eq (by decide) (d.returns_plain ls hreturns) ?_
      revert hending
      cases d.ending.kind <;> decide
    rw [hat, if_pos rfl, hstop, Option.getD_some, (Spells.left he.tail).codeBetween_eq]
    rfl

/-! ### Brackets -/

section Keyword

variable (h : f.Spells start (d.keyword :: (d.rest ++ after))) (ht : f.tokens[start]? = some t)
  (hkind : t.kind = .kwFunction)

include h ht hkind

/-- The parameters of a function are in the brackets that its keyword owns. -/
theorem parens_signature (hname : ∀ n ∈ d.name, n.lexeme.kind = .word) :
    ∃ o c, t.parens = some ⟨o, c⟩ ∧ f.Spells (c + 1) (d.rear ++ after) := by
  have hsplit : d.rest ++ after = d.title ++ (inRound d.parameters ++ (d.rear ++ after)) := by
    simp [WrittenSignature.rest]
  have hround : inRound d.parameters ++ (d.rear ++ after) =
      ⟨.openRound, ['(']⟩ :: (d.parameters ++ ⟨.closeRound, [')']⟩ :: (d.rear ++ after)) := by
    simp [inRound]
  rw [hsplit] at h
  have hlist := Spells.right h.tail
  have hrear := Spells.right hlist
  rw [hround] at h
  have howns : Ownership.parens.Owns (Token.kinds f.tokens.toList) start (start + (d.title.length + 1)) :=
    h.owns (by decide) (by rw [d.isFunction]; rfl) (d.isQuiet_title hname) rfl
  have hmatches := hlist.matching_pair .round hround d.balanced_parameters rfl rfl
  obtain ⟨c, hc, hparens⟩ := (hpaired.parens_owner start t (Array.getElem?_toList.trans ht)
    (by rw [hkind]; rfl)).1 _ howns
  have hclose := congrArg Range.closer (hc.closer_unique hmatches (by dsimp only; omega))
  dsimp only at hclose
  have hlength : (inRound d.parameters).length = d.parameters.length + 1 + 1 := by simp [inRound]
  refine ⟨_, c, hparens, ?_⟩
  rwa [hclose, Nat.add_assoc, ← hlength]

/-- A function has a body if its keyword owns the brackets of one. -/
theorem isSome_scope : t.scope.isSome = d.ownsBody := by
  obtain ⟨s, hs⟩ : ∃ s, (d.rest.find? fun l => l.kind.settlesBody) = some s := by
    refine Option.isSome_iff_exists.1 (List.find?_isSome.2 ⟨d.ending, ?_, d.settlesBody_ending⟩)
    rw [d.rest_eq]
    exact List.mem_append_right _ (List.mem_singleton_self _)
  obtain ⟨hsettles, xs, ys, hsplit, hxs⟩ := List.find?_eq_some_iff_append.1 hs
  rw [hsplit, List.append_assoc, List.cons_append] at h
  have hquiet (k : Kind) : Ownership.scopes.isQuiet k = !k.settlesBody := by cases k <;> rfl
  have howns : (∃ b, Ownership.scopes.Owns (Token.kinds f.tokens.toList) start b) ↔
      Ownership.scopes.bracket s.kind = true :=
    h.exists_owns_iff (by decide) (by rw [d.isFunction]; rfl)
      (fun x hx => by rw [hquiet]; simpa using hxs x hx) (by rw [hquiet, hsettles]; rfl)
  have hbracket : Ownership.scopes.bracket s.kind = (s.kind == .openCurly) := by cases s.kind <;> rfl
  obtain ⟨hsome, hnone⟩ := hpaired.scope_owner start t (Array.getElem?_toList.trans ht)
    (by rw [hkind]; rfl)
  rw [WrittenSignature.ownsBody, hs, Option.any_some, ← hbracket, Bool.eq_iff_iff, ← howns]
  constructor
  · intro hscope
    by_contra hno
    rw [hnone (not_exists.1 hno)] at hscope
    cases hscope
  · rintro ⟨b, hb⟩
    obtain ⟨c, -, hscope⟩ := hsome b hb
    rw [hscope]
    rfl

end Keyword

end Paired

end Spells

/-! ### Functions -/

variable {path : String} {source : Text} {pieces : List Piece} {i : ℕ}

/-- **Signatures are read as they are written.** Behind what is no modifier, a function has the modifiers
and the name that stand there, public where no visibility is stated, and the type without blanks and
comments. It has a body where the first mark or keyword that can tell shows one, which is where a body is
written if no class-like keyword or function is part of the type or of the variables taken over. -/
theorem signature_of_written (h : parse path source = .ok f)
    (hpieces : Piece.cutAll Context.start source = .ok pieces)
    (hsource : pieces.flatMap Piece.lexemes = before ++ (d.lexemes ++ after))
    (hbefore : ∀ k ∈ lastSignificant none before, k.isMethodModifier = false)
    (hi : i = before.length + d.front.length) :
    f.signature i = d.signature ∧ (d.IsPlain → (f.signature i).hasBody = d.hasBody) ∧
      (f.signature i).isNullable = d.isMarked ∧
      f.declarationName? i = d.name.map fun n => n.lexeme.text := by
  subst hi
  have hname : ∀ n ∈ d.name, n.lexeme.kind = .word := fun n hn => d.kind_name hpieces hsource hn
  have hspells : f.Spells 0 ((before ++ d.front) ++ d.keyword :: (d.rest ++ after)) := by
    have hall := Spells.of_parse h hpieces
    rw [hsource] at hall
    simpa [WrittenSignature.lexemes] using hall
  have hkeyword : f.Spells (before.length + d.front.length) (d.keyword :: (d.rest ++ after)) := by
    have hright := Spells.right hspells
    rwa [Nat.zero_add, List.length_append] at hright
  have hpaired := wellPaired_of_parse h
  obtain ⟨t, ht, hkind⟩ := hkeyword.exists_keyword
  obtain ⟨o, c, hparens, hrear⟩ := hkeyword.parens_signature hpaired ht hkind hname
  have hmodifiers := (Spells.left hspells).modifiers_eq hbefore
  rw [List.length_append] at hmodifiers
  have hsignature : f.signature (before.length + d.front.length) = d.signature := by
    rw [signature, ht]
    dsimp only
    rw [hmodifiers, hrear.returnType_eq hpaired hparens, hkeyword.isSome_scope hpaired ht hkind,
      WrittenKeyword.last?_reverse]
    simp only [List.contains_reverse, List.contains_map]
    rfl
  have htexts : ∀ ls ∈ d.returns, ∀ l ∈ ls, l.text ≠ [] := by
    intro ls hls l hl
    have hmem : l ∈ pieces.flatMap Piece.lexemes := by
      simp [hsource, WrittenSignature.lexemes, WrittenSignature.rest, WrittenSignature.rear,
        WrittenSignature.close, Option.mem_def.1 hls, hl]
    obtain ⟨p, hp, hl⟩ := List.mem_flatMap.1 hmem
    exact (forall_cutAll (fun _ _ _ _ hp => mem_lexemes_nextPiece hp) hpieces p hp l hl).1
  rw [hsignature]
  exact ⟨rfl, fun hplain => d.ownsBody_eq hplain hname, d.isNullable_signature htexts,
    hkeyword.declarationName?_eq hname⟩

/-- A method `final /* m */ protected static function &default(B $a = g(1)): ? array` with a body. -/
def defaultMethod : WrittenSignature where
  modifiers :=
    [⟨⟨.kwFinal, "final".toList⟩, ⟨[⟨.blank, [' ']⟩, ⟨.comment, "/* m */".toList⟩, ⟨.blank, [' ']⟩],
      by decide⟩, rfl⟩, ⟨⟨.kwProtected, "protected".toList⟩, oneBlank, rfl⟩,
      ⟨⟨.kwStatic, "static".toList⟩, oneBlank, rfl⟩]
  keyword := ⟨.kwFunction, "function".toList⟩
  afterKeyword := oneBlank
  reference := some noBlank
  name := some ⟨⟨.word, "default".toList⟩, noBlank, rfl, rfl⟩
  parameters := [⟨.word, ['B']⟩, ⟨.blank, [' ']⟩, ⟨.variable, "$a".toList⟩, ⟨.blank, [' ']⟩,
    ⟨.equals, ['=']⟩, ⟨.blank, [' ']⟩, ⟨.word, ['g']⟩, ⟨.openRound, ['(']⟩, ⟨.number, ['1']⟩,
    ⟨.closeRound, [')']⟩]
  afterParameters := noBlank
  uses := none
  returns := some [⟨.blank, [' ']⟩, ⟨.ternary, ['?']⟩, ⟨.blank, [' ']⟩, ⟨.kwArray, "array".toList⟩,
    ⟨.blank, [' ']⟩]
  hasBody := true
  isFunction := rfl
  balanced_parameters :=
    have hinner : Nested true [.number] := .of_forall (by decide)
    have hcall : Nested true [.openRound, .number, .closeRound] := .pair rfl hinner .nil
    have hhead : Nested true [.word, .blank, .variable, .blank, .equals, .blank, .word] :=
      .of_forall (by decide)
    (hhead.append hcall).balanced .round
  settlesBody_parameters := by decide
  returns_plain := by
    rintro ls ⟨⟩
    decide

/-- A file with this method. -/
def defaultMethodText : Text :=
  ("<?php class A \x7b final /* m */ protected static function &default(B $a = g(1)): ? array " ++
    "\x7b\x7d \x7d").toList

/-- A method with modifiers and a type, whose name spells a keyword. -/
theorem signature_of_written_default : ∃ f pieces, ∃ before after : List Lexeme,
    parse "a.php" defaultMethodText = .ok f ∧
    Piece.cutAll Context.start defaultMethodText = .ok pieces ∧
    pieces.flatMap Piece.lexemes = before ++ (defaultMethod.lexemes ++ after) ∧
    (∀ k ∈ lastSignificant none before, k.isMethodModifier = false) ∧
    16 = before.length + defaultMethod.front.length ∧
    f.signature 16 = ⟨.isProtected, true, "?array".toList, false, true, true, true⟩ ∧
    defaultMethod.IsPlain ∧ (f.signature 16).hasBody = true ∧ (f.signature 16).isNullable = true ∧
    f.declarationName? 16 = some "default".toList := by
  have heval : (Piece.cutAll Context.start defaultMethodText).toOption.any (fun pieces =>
      pieces.flatMap Piece.lexemes = (pieces.flatMap Piece.lexemes).take 8 ++ (defaultMethod.lexemes ++
        (pieces.flatMap Piece.lexemes).drop 39) ∧
      lastSignificant none ((pieces.flatMap Piece.lexemes).take 8) = some .openCurly ∧
      16 = ((pieces.flatMap Piece.lexemes).take 8).length + defaultMethod.front.length) = true := by
    decide +kernel
  obtain ⟨pieces, hpieces, hsource, hlast, hi⟩ := exists_ok_of_any heval
  obtain ⟨f, hparse, -⟩ : ∃ f, parse "a.php" defaultMethodText = .ok f ∧ True :=
    exists_ok_of_any (by decide +kernel)
  have hbefore : ∀ k ∈ lastSignificant none ((pieces.flatMap Piece.lexemes).take 8),
      k.isMethodModifier = false := by
    rw [hlast]
    rintro k ⟨⟩
    rfl
  have hplain : defaultMethod.IsPlain := by
    refine ⟨nofun, ?_⟩
    rintro ls ⟨⟩
    decide
  obtain ⟨hsignature, hbody, hmark, hname⟩ := signature_of_written hparse hpieces hsource hbefore hi
  exact ⟨f, pieces, _, _, hparse, hpieces, hsource, hbefore, hi, hsignature.trans (by decide +kernel),
    hplain, hbody hplain, hmark, hname⟩

-- a closure has no name, and what it takes over is passed by
example : (parse "a.php" "<?php static function($a) use (&$b): ?\\C /* c */ \x7b\x7d;".toList).toOption.any
    (fun f => f.signature 4 = ⟨.isPublic, false, "?\\C".toList, false, false, true, true⟩ ∧
      f.declarationName? 4 = none) = true := by
  decide +kernel

/-- A function whose type is a class-like keyword. -/
def classTypeFunction : WrittenSignature where
  modifiers := []
  keyword := ⟨.kwFunction, "function".toList⟩
  afterKeyword := oneBlank
  reference := none
  name := some ⟨⟨.word, ['f']⟩, noBlank, rfl, rfl⟩
  parameters := []
  afterParameters := noBlank
  uses := none
  returns := some [⟨.blank, [' ']⟩, ⟨.kwClass, "class".toList⟩, ⟨.blank, [' ']⟩]
  hasBody := true
  isFunction := rfl
  balanced_parameters := (Nested.nil : Nested true []).balanced .round
  settlesBody_parameters := nofun
  returns_plain := by
    rintro ls ⟨⟩
    decide

/-- A keyword in the type takes the body away from its function. -/
theorem exists_body_not_seen : ∃ f pieces, ∃ before after : List Lexeme,
    parse "a.php" "<?php function f(): class \x7b\x7d".toList = .ok f ∧
    Piece.cutAll Context.start "<?php function f(): class \x7b\x7d".toList = .ok pieces ∧
    pieces.flatMap Piece.lexemes = before ++ (classTypeFunction.lexemes ++ after) ∧
    (∀ k ∈ lastSignificant none before, k.isMethodModifier = false) ∧
    2 = before.length + classTypeFunction.front.length ∧
    classTypeFunction.hasBody = true ∧ (f.signature 2).hasBody = false := by
  have heval : (Piece.cutAll Context.start "<?php function f(): class \x7b\x7d".toList).toOption.any
      (fun pieces => pieces.flatMap Piece.lexemes = [⟨.openTag, "<?php".toList⟩, ⟨.blank, [' ']⟩] ++
        (classTypeFunction.lexemes ++ [⟨.closeCurly, ['\x7d']⟩])) = true := by
    decide +kernel
  have hfile : (parse "a.php" "<?php function f(): class \x7b\x7d".toList).toOption.any
      (fun f => (f.signature 2).hasBody = false) = true := by
    decide +kernel
  obtain ⟨pieces, hpieces, hsource⟩ := exists_ok_of_any heval
  obtain ⟨f, hparse, hbody⟩ := exists_ok_of_any hfile
  refine ⟨f, pieces, _, _, hparse, hpieces, hsource, ?_, rfl, rfl, hbody⟩
  rintro k ⟨⟩
  rfl

end SourceFile

end EntityLint
