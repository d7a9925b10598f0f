import EntityLint.Proofs.Source.Spelled
import EntityLint.Proofs.Source.WrittenParameter
import EntityLint.Proofs.Token.CodeText

/-!
# Functions as they are written

A function has modifiers in front of its keyword, and behind it a reference mark, a name, its parameters,
the variables that a closure takes over, and the type that it returns, each of them if it is there, with
blanks and comments anywhere between them. At the end there is a body or a semicolon.

* `WrittenKeyword`, `WrittenName`, `WrittenUses`, `WrittenSignature`: a function and its lexemes;
* `WrittenSignature.signature`: what is written in it;
* `WrittenSignature.ownsBody_eq`: where a body is seen;
* `exists_context_of_cutAll`: each significant lexeme is cut behind the ones in front of it.

The main statement is `WrittenSignature.kind_name`: behind `function` any name is a name.
-/

namespace EntityLint

open Lexeme Pairing

/-! ### Parts of a function -/

/-- A keyword of a given sort, and what follows it. -/
structure WrittenKeyword (q : Kind → Bool) where
  keyword : Lexeme
  gap : Gap
  isOfSort : q keyword.kind = true

/-- The lexemes of a keyword. -/
def WrittenKeyword.lexemes {q : Kind → Bool} (m : WrittenKeyword q) : List Lexeme :=
  m.keyword :: m.gap.lexemes

/-- A name, which may spell what is a keyword elsewhere, and what follows it. -/
structure WrittenName where
  lexeme : Lexeme
  gap : Gap
  isSignificant : lexeme.kind.isTrivia = false
  isWord : lexeme.text.head?.any isWordStart = true

/-- The lexemes of a name. -/
def WrittenName.lexemes (n : WrittenName) : List Lexeme := n.lexeme :: n.gap.lexemes

/-- The list of variables that a closure takes over, and what follows it. -/
structure WrittenUses where
  keyword : Lexeme
  before : Gap
  content : List Lexeme
  gap : Gap
  isUse : keyword.kind = .kwUse
  balanced_content : Family.round.Balanced (content.map Lexeme.kind)

/-- The lexemes of a list in round brackets. -/
def Lexeme.inRound (ls : List Lexeme) : List Lexeme :=
  ⟨.openRound, ['(']⟩ :: (ls ++ [⟨.closeRound, [')']⟩])

/-- The lexemes of a list of variables. -/
def WrittenUses.lexemes (u : WrittenUses) : List Lexeme :=
  u.keyword :: (u.before.lexemes ++ (inRound u.content ++ u.gap.lexemes))

/-- Kinds that settle whether a function has a body. -/
def Kind.settlesBody (k : Kind) : Bool := k.isScopeOwner || k == openCurly || k == semicolon

/-- The visibilities that some keywords state. -/
def WrittenKeyword.visibilities {q : Kind → Bool} (ms : List (WrittenKeyword q)) : List Visibility :=
  ms.filterMap fun m => Visibility.ofKind? m.keyword.kind

/-- Whether a kind is among those of some keywords. -/
def WrittenKeyword.states {q : Kind → Bool} (ms : List (WrittenKeyword q)) (k : Kind) : Bool :=
  ms.any fun m => k == m.keyword.kind

/-! ### Keywords -/

theorem Gap.filter_lexemes (g : Gap) : (g.lexemes.filter fun l => !l.kind.isTrivia) = [] :=
  List.filter_eq_nil_iff.2 fun l hl => by simp [g.isTrivia_of_mem l hl]

namespace WrittenKeyword

/-- What is true of the keywords and of blanks and comments. -/
theorem forall_mem_lexemes {q : Kind → Bool} {P : Kind → Prop} (hq : ∀ k, q k = true → P k)
    (htrivia : ∀ k : Kind, k.isTrivia = true → P k) (ms : List (WrittenKeyword q)) :
    ∀ l ∈ ms.flatMap lexemes, P l.kind := by
  intro l hl
  obtain ⟨m, -, hl⟩ := List.mem_flatMap.1 hl
  rcases List.mem_cons.1 hl with rfl | hl
  · exact hq _ m.isOfSort
  · exact htrivia _ (m.gap.isTrivia_of_mem l hl)

/-- The first visibility is the last one from the right. -/
theorem last?_reverse {q : Kind → Bool} (ms : List (WrittenKeyword q)) :
    Visibility.last? (ms.map fun m => m.keyword.kind).reverse = (visibilities ms).head? := by
  rw [Visibility.last?, List.filterMap_reverse, List.getLast?_reverse, List.filterMap_map]
  rfl

variable {q : Kind → Bool} (hq : ∀ k, q k = true → k.isTrivia = false)

include hq

/-- Only the keywords among some keywords with blanks and comments are significant. -/
theorem filter_lexemes (ms : List (WrittenKeyword q)) :
    ((ms.flatMap lexemes).filter fun l => !l.kind.isTrivia) = ms.map keyword := by
  induction ms with
  | nil => rfl
  | cons m ms ih =>
    rw [List.flatMap_cons, List.filter_append, ih, lexemes, List.filter_cons, m.gap.filter_lexemes,
      hq _ m.isOfSort]
    rfl

theorem exists_lastSignificant {ms : List (WrittenKeyword q)} (hms : ms ≠ []) (before : Option Kind) :
    ∃ m : WrittenKeyword q, lastSignificant before (ms.flatMap lexemes) = some m.keyword.kind :=
  exists_lastSignificant_flatMap hms
    (fun m _ => lastSignificant_cons_trivia (hq _ m.isOfSort) m.gap.isTrivia_of_mem) before

end WrittenKeyword

/-! ### Functions -/

/-- A function without its body, or without its semicolon. -/
structure WrittenSignature where
  modifiers : List (WrittenKeyword Kind.isMethodModifier)
  keyword : Lexeme
  afterKeyword : Gap
  reference : Option Gap
  name : Option WrittenName
  parameters : List Lexeme
  afterParameters : Gap
  uses : Option WrittenUses
  /-- What stands behind the colon. -/
  returns : Option (List Lexeme)
  hasBody : Bool
  isFunction : keyword.kind = .kwFunction
  balanced_parameters : Family.round.Balanced (parameters.map Lexeme.kind)
  settlesBody_parameters : ∀ l ∈ parameters, l.kind.settlesBody = false
  returns_plain : ∀ ls ∈ returns, ∀ l ∈ ls, l.kind ∉ [.openCurly, .semicolon, .doubleArrow]

namespace WrittenSignature

variable (d : WrittenSignature)

/-- What stands in front of the keyword. -/
def front : List Lexeme := d.modifiers.flatMap WrittenKeyword.lexemes

/-- What stands between the keyword and the parameters. -/
def title : List Lexeme :=
  d.afterKeyword.lexemes ++
    (Gap.behind ⟨.ampersand, ['&']⟩ d.reference ++ d.name.elim [] WrittenName.lexemes)

/-- The mark that begins the body or stands in its place. -/
def ending : Lexeme := if d.hasBody then ⟨.openCurly, ['\x7b']⟩ else ⟨.semicolon, [';']⟩

/-- The type with its colon, and the mark behind it. -/
def close : List Lexeme := d.returns.elim [] (⟨.colon, [':']⟩ :: ·) ++ [d.ending]

/-- What stands behind the parameters. -/
def rear : List Lexeme :=
  d.afterParameters.lexemes ++ (d.uses.elim [] WrittenUses.lexemes ++ d.close)

/-- What stands behind the keyword. -/
def rest : List Lexeme := d.title ++ (inRound d.parameters ++ d.rear)

/-- The lexemes of a function up to the beginning of its body. -/
def lexemes : List Lexeme := d.front ++ d.keyword :: d.rest

/-- The type without blanks and comments. -/
def returnType : Text :=
  d.returns.elim [] fun ls => (ls.filter fun l => !l.kind.isTrivia).flatMap Lexeme.text

/-- Whether the first mark or keyword that settles the question shows a body. -/
def ownsBody : Bool := (d.rest.find? fun l => l.kind.settlesBody).any fun l => l.kind == .openCurly

/-- What is written in a function. The first visibility counts. -/
def signature : Signature where
  visibility := (WrittenKeyword.visibilities d.modifiers).head?.getD .isPublic
  isExplicit := (WrittenKeyword.visibilities d.modifiers).head?.isSome
  returnType := d.returnType
  isAbstract := WrittenKeyword.states d.modifiers .kwAbstract
  isFinal := WrittenKeyword.states d.modifiers .kwFinal
  isStatic := WrittenKeyword.states d.modifiers .kwStatic
  hasBody := d.ownsBody

/-- Neither the variables that a closure takes over nor the type settle whether there is a body. -/
def IsPlain : Prop :=
  (∀ u ∈ d.uses, ∀ l ∈ u.content, l.kind.settlesBody = false) ∧
    ∀ ls ∈ d.returns, ∀ l ∈ ls, l.kind.settlesBody = false

/-- Whether the type begins with a question mark. -/
def isMarked : Bool :=
  d.returns.any fun ls => (ls.find? fun l => !l.kind.isTrivia).any fun l => l.text.head? == some '?'

/-! ### Brackets -/

/-- Blanks and comments, an ampersand and a name stand in front of the parameters. -/
theorem forall_mem_title {q : Kind → Bool} {b : Bool} (htrivia : ∀ k : Kind, k.isTrivia = true → q k = b)
    (hmark : q .ampersand = b) (hword : q .word = b) (hname : ∀ n ∈ d.name, n.lexeme.kind = .word) :
    ∀ l ∈ d.title, q l.kind = b := by
  have hgap (g : Gap) : ∀ l ∈ g.lexemes, q l.kind = b := fun l hl => htrivia _ (g.isTrivia_of_mem l hl)
  simp only [title, List.forall_mem_append]
  refine ⟨hgap _, ?_, ?_⟩
  · cases d.reference with
    | none => nofun
    | some g => exact List.forall_mem_cons.2 ⟨hmark, hgap g⟩
  · cases hn : d.name with
    | none => nofun
    | some n => exact List.forall_mem_cons.2 ⟨by rwa [hname n hn], hgap n.gap⟩

/-- The keyword of a function waits for its parameters while its name goes by. -/
theorem isQuiet_title (hname : ∀ n ∈ d.name, n.lexeme.kind = .word) :
    ∀ l ∈ d.title, Ownership.parens.isQuiet l.kind = true :=
  d.forall_mem_title (fun k => by cases k <;> decide) rfl rfl hname

theorem settlesBody_eq_false_of_isTrivia {k : Kind} (h : k.isTrivia = true) : k.settlesBody = false := by
  revert h
  cases k <;> decide

theorem settlesBody_ending : d.ending.kind.settlesBody = true := by
  rw [ending]
  split <;> rfl

/-- What stands between the keyword and the mark at the end. -/
theorem rest_eq : d.rest = (d.title ++ (inRound d.parameters ++ (d.afterParameters.lexemes ++
    (d.uses.elim [] WrittenUses.lexemes ++ d.returns.elim [] (⟨.colon, [':']⟩ :: ·))))) ++ [d.ending] := by
  simp [rest, rear, close]

/-- A body is seen if nothing in front of it settles that there is none. -/
theorem ownsBody_eq (h : d.IsPlain) (hname : ∀ n ∈ d.name, n.lexeme.kind = .word) :
    d.ownsBody = d.hasBody := by
  have hgap (g : Gap) : ∀ l ∈ g.lexemes, l.kind.settlesBody = false := fun l hl =>
    settlesBody_eq_false_of_isTrivia (g.isTrivia_of_mem l hl)
  have hround {ls : List Lexeme} (hls : ∀ l ∈ ls, l.kind.settlesBody = false) :
      ∀ l ∈ inRound ls, l.kind.settlesBody = false :=
    List.forall_mem_cons.2 ⟨rfl, List.forall_mem_append.2 ⟨hls, List.forall_mem_singleton.2 rfl⟩⟩
  have hquiet : ∀ l ∈ d.title ++ (inRound d.parameters ++ (d.afterParameters.lexemes ++
      (d.uses.elim [] WrittenUses.lexemes ++ d.returns.elim [] (⟨.colon, [':']⟩ :: ·)))),
      l.kind.settlesBody = false := by
    simp only [List.forall_mem_append]
    refine ⟨d.forall_mem_title (fun _ => settlesBody_eq_false_of_isTrivia) rfl rfl hname,
      hround d.settlesBody_parameters, hgap _, ?_, ?_⟩
    · cases hu : d.uses with
      | none => nofun
      | some u =>
        refine List.forall_mem_cons.2 ⟨by rw [u.isUse]; rfl, List.forall_mem_append.2 ⟨hgap _, ?_⟩⟩
        exact List.forall_mem_append.2 ⟨hround (h.1 u hu), hgap _⟩
    · cases hls : d.returns with
      | none => nofun
      | some ls => exact List.forall_mem_cons.2 ⟨rfl, h.2 ls hls⟩
  have hnone := List.find?_eq_none.2 fun l hl => Bool.eq_false_iff.1 (hquiet l hl)
  rw [ownsBody, rest_eq, List.find?_append, hnone, Option.none_or, List.find?_singleton,
    if_pos d.settlesBody_ending, Option.any_some, ending]
  cases d.hasBody <;> rfl

/-! ### Types with a question mark -/

/-- The type that is written begins with a question mark exactly if its first significant lexeme does. -/
theorem isNullable_signature (h : ∀ ls ∈ d.returns, ∀ l ∈ ls, l.text ≠ []) :
    d.signature.isNullable = d.isMarked := by
  rw [Signature.isNullable, signature, returnType, isMarked]
  cases hreturns : d.returns with
  | none => rfl
  | some ls =>
    rw [Option.elim_some, Option.any_some, ← List.head?_filter]
    cases hfilter : ls.filter fun l => !l.kind.isTrivia with
    | nil => rfl
    | cons l rest =>
      have hl : l ∈ ls.filter fun l => !l.kind.isTrivia := hfilter ▸ List.mem_cons_self
      rw [List.flatMap_cons, List.head?_append_of_ne_nil _ (h ls hreturns l (List.mem_of_mem_filter hl))]
      rfl

end WrittenSignature

/-! ### Names behind a keyword -/

/-- Each significant lexeme is cut in the context of all lexemes in front of it. -/
theorem exists_context_of_cutAll {ctx : Context} {t : Text} {pieces : List Piece}
    {before after : List Lexeme} {l : Lexeme} (h : Piece.cutAll ctx t = .ok pieces)
    (hsplit : pieces.flatMap Piece.lexemes = before ++ l :: after) (hl : l.kind.isTrivia = false) :
    ∃ c u, nextPiece (before.foldl Context.after ctx) c u = .ok (.single l) := by
  obtain ⟨ps, qs, rfl, hlength⟩ :=
    exists_split_of_getElem? (i := before.length) h (by rw [hsplit]; simp) hl
  have hbefore : ps.flatMap Piece.lexemes = before := by
    rw [List.flatMap_append] at hsplit
    exact (List.append_inj hsplit hlength).1
  obtain ⟨c, u, hcut, -⟩ := exists_nextPiece_of_split h
  exact ⟨c, u, hbefore ▸ hcut⟩

/-- Where a name must stand, a word is a name whatever it spells. -/
theorem kind_eq_word_of_nextPiece {ctx : Context} {c : Char} {t : Text} {l : Lexeme}
    (h : nextPiece ctx c t = .ok (.single l)) (hcode : ctx.inCode = true)
    (hname : ctx.expectsName = true) (hword : l.text.head?.any isWordStart = true) :
    l.kind = .word := by
  obtain ⟨hne, hprefix⟩ := text_nextPiece h
  rw [Piece.text_single] at hne hprefix
  obtain ⟨d, u, hl⟩ := List.exists_cons_of_ne_nil hne
  rw [hl] at hprefix hword
  obtain rfl : d = c := (List.cons_prefix_cons.1 hprefix).1
  rw [nextPiece_of_inCode hcode, codePiece_eq_ok (.word hword)] at h
  cases h
  rw [Context.wordKind, hname]
  rfl

/-- Behind the keyword of a function, and a reference mark, a name must stand. -/
theorem expectsName_of_title {ctx : Context} {keyword : Lexeme} (hkeyword : keyword.kind = .kwFunction)
    (hcode : ctx.inCode = true) (gap : Gap) (reference : Option Gap) :
    let ctx' :=
      (keyword :: (gap.lexemes ++ Gap.behind ⟨.ampersand, ['&']⟩ reference)).foldl Context.after ctx
    ctx'.inCode = true ∧ ctx'.expectsName = true := by
  intro ctx'
  have hfirst : (ctx.after keyword).inCode = true ∧ (ctx.after keyword).last = some .kwFunction := by
    simp [Context.after, hkeyword, hcode, Kind.isTrivia]
  obtain ⟨hcode', hlast, -⟩ := Context.foldl_after_of_isTrivia gap.isTrivia_of_mem (ctx.after keyword)
  have hctx : ctx' = (Gap.behind ⟨.ampersand, ['&']⟩ reference).foldl Context.after
      (gap.lexemes.foldl Context.after (ctx.after keyword)) := by
    rw [← List.foldl_append]
    rfl
  rw [hfirst.1] at hcode'
  rw [hfirst.2] at hlast
  cases reference with
  | none =>
    rw [hctx]
    exact ⟨hcode', by simp [Gap.behind, Context.expectsName, hlast]⟩
  | some g =>
    generalize gap.lexemes.foldl Context.after (ctx.after keyword) = ctx₀ at *
    obtain ⟨hcode₁, hlast₁, hearlier₁⟩ :=
      Context.foldl_after_of_isTrivia g.isTrivia_of_mem (ctx₀.after ⟨.ampersand, ['&']⟩)
    have hg : ctx' = g.lexemes.foldl Context.after (ctx₀.after ⟨.ampersand, ['&']⟩) := hctx
    rw [hg, Context.expectsName, hcode₁, hlast₁, hearlier₁]
    exact ⟨hcode', by simp [Context.after, Kind.isTrivia, hlast]⟩

/-- **Behind `function` any name is a name**, also one that spells a keyword. -/
theorem WrittenSignature.kind_name {source : Text} {pieces : List Piece} {before after : List Lexeme}
    {d : WrittenSignature} (hpieces : Piece.cutAll Context.start source = .ok pieces)
    (hsource : pieces.flatMap Piece.lexemes = before ++ (d.lexemes ++ after)) {n : WrittenName}
    (hn : d.name = some n) : n.lexeme.kind = .word := by
  have hkeyword : pieces.flatMap Piece.lexemes = (before ++ d.front) ++ d.keyword :: (d.rest ++ after) := by
    simp [hsource, lexemes]
  have hname : pieces.flatMap Piece.lexemes = ((before ++ d.front) ++
      d.keyword :: (d.afterKeyword.lexemes ++ Gap.behind ⟨.ampersand, ['&']⟩ d.reference)) ++
        n.lexeme :: (n.gap.lexemes ++ (inRound d.parameters ++ d.rear) ++ after) := by
    simp [hsource, lexemes, rest, title, hn, WrittenName.lexemes]
  obtain ⟨_, _, hcut⟩ := exists_context_of_cutAll hpieces hkeyword (by rw [d.isFunction]; rfl)
  obtain ⟨_, _, hcut'⟩ := exists_context_of_cutAll hpieces hname n.isSignificant
  obtain ⟨hcode, hexpects⟩ := expectsName_of_title d.isFunction (inCode_of_nextPiece hcut (by rw [d.isFunction]; decide))
    d.afterKeyword d.reference
  rw [List.foldl_append] at hcut'
  exact kind_eq_word_of_nextPiece hcut' hcode hexpects n.isWord

end EntityLint
