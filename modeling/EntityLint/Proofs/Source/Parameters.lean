import EntityLint.Proofs.Source.ParameterHead
import EntityLint.Proofs.Source.Spelled

/-!
# Parameters that a file reads

The parameters of a function are read as they are written, one for each that has a variable, if the
question marks of their types are seen.

* `Spells.default_eq`, `Spells.parameter?_eq`: a parameter as it is written;
* `Spells.parameters_eq`: a list of parameters, comma by comma;
* `Spells.owns_parens`, `Spells.parens_eq`: the brackets of a function;
* `head?_of_isTypePart`: parts of types begin with no question mark.

The main statement is `SourceFile.parameters_of_written`.
-/

namespace EntityLint

open Lexeme Pairing

namespace SourceFile

variable {f : SourceFile} {stop start : ℕ} {ls : List Lexeme}

/-! ### A parameter -/

namespace Spells

variable {p : WrittenParameter}

/-- The default of a parameter, by the first equals sign behind its variable. -/
theorem default_eq (h : f.Spells start p.rear) :
    (f.nextOfKind? [.equals] start (some (start + p.rear.length)) false).map
      (fun i => Text.trim (f.textBetween (i + 1) (start + p.rear.length))) =
        p.default.map fun ls => Text.trim (ls.flatMap Lexeme.text) := by
  have hsettled (l : Lexeme) (hl : l ∈ p.after.lexemes) : l.kind.IsSettled ∧ l.kind ≠ .equals := by
    have htrivia := p.after.isTrivia_of_mem l hl
    revert htrivia
    cases l.kind <;> decide
  cases hdefault : p.default with
  | none =>
    have hrear : p.rear = p.after.lexemes := by
      rw [WrittenParameter.rear, hdefault, Option.elim_none, List.append_nil]
    rw [hrear] at h ⊢
    rw [(h.passage fun l hl => (hsettled l hl).1).nextOfKind?_eq_none fun l hl => by
      simpa using (hsettled l hl).2]
    rfl
  | some ls =>
    have hrear : p.rear = p.after.lexemes ++ ⟨.equals, ['=']⟩ :: ls := by
      rw [WrittenParameter.rear, hdefault, Option.elim_some]
    have hlength : p.rear.length = p.after.lexemes.length + (ls.length + 1) := by
      rw [hrear, List.length_append, List.length_cons]
    rw [hrear] at h
    have hfind := findIdx?_gap (q := fun k => [Kind.equals].contains k != false) p.after.lexemes
      ⟨.equals, ['=']⟩ (fun l hl => by simpa using (hsettled l hl).2) rfl
    have hnext := (passage_gap h p.after.isTrivia_of_mem (by decide)).nextOfKind? (a := 0) hfind
      (show ∀ s ∈ some (start + p.rear.length), _ < s by simp [hlength])
    have hbegin : start + p.after.lexemes.length + 1 + ls.length = start + p.rear.length := by omega
    have htext := (Spells.tail (Spells.right h)).textBetween
    rw [hbegin] at htext
    rw [Nat.add_zero] at hnext
    rw [hnext, Option.map_some, Option.map_some, htext]

section Paired

variable (hpaired : Token.WellPaired f.tokens.toList)

include hpaired

/-- The head of a parameter ends with its variable. -/
theorem parameterHead?_eq (h : f.Spells start (p.lexemes .nullable))
    (hclear : f.ClearFor start (p.lexemes .nullable)) (hstop : start + p.width < stop) :
    ∃ is, f.parameterHead? stop start = some (is, start + p.width) ∧
      f.headFacts stop is = p.headFacts := by
  rw [← p.length_head .nullable] at hstop ⊢
  obtain ⟨is, hhead, hfacts⟩ := headPart_head hpaired h hclear hstop
  obtain ⟨t, ht, hread⟩ := (Spells.right h).head
  have hkind : t.kind = .variable := hread.kind_eq ⟨Kind.noConfusion, Kind.noConfusion⟩
  have hvariable : f.parameterHead? stop (start + (p.head .nullable).length) =
      some ([], start + (p.head .nullable).length) := by
    rw [parameterHead?, dif_pos hstop]
    simp only [ht, hkind, if_true]
  refine ⟨is, ?_, hfacts⟩
  rw [hhead, hvariable, Option.map_some]
  exact congrArg (fun is => some (is, _)) (List.append_nil is)

/-- **A parameter is read as it is written.** -/
theorem parameter?_eq (h : f.Spells start (p.lexemes .nullable))
    (hclear : f.ClearFor start (p.lexemes .nullable)) :
    f.parameter? start (start + (p.lexemes .nullable).length) = some (p.parameter start) := by
  have hlength : (p.lexemes .nullable).length = p.width + (p.rear.length + 1) := by
    rw [WrittenParameter.lexemes, List.length_append, List.length_cons, p.length_head]
  have hvariable : f.Spells (start + p.width) (⟨.variable, p.name⟩ :: p.rear) := by
    rw [← p.length_head .nullable]
    exact Spells.right h
  have hname : f.textAt (start + p.width) = p.name := hvariable.textAt (a := 0) rfl
  have hcontent : f.textBetween start (start + (p.lexemes .nullable).length) = p.text := by
    rw [h.textBetween, List.flatMap_def, p.texts_lexemes, ← List.flatMap_def, WrittenParameter.text]
  have hdefault := default_eq hvariable.tail
  rw [show start + p.width + 1 + p.rear.length = start + (p.lexemes .nullable).length by omega]
    at hdefault
  generalize hstop : start + (p.lexemes .nullable).length = stop at hcontent hdefault ⊢
  obtain ⟨is, hhead, hfacts⟩ := parameterHead?_eq hpaired h hclear (by omega : _ < stop)
  obtain ⟨htype, hreference, hellipsis, hvisibility⟩ := HeadFacts.ext_iff.1 hfacts
  dsimp only [headFacts, WrittenParameter.headFacts] at htype hreference hellipsis hvisibility
  rw [parameter?, hhead]
  simp only [Option.bind_eq_bind, Option.bind_some, hdefault, hname, hcontent, htype, hreference,
    hellipsis, Visibility.last?, hvisibility, WrittenParameter.parameter, List.filterMap_map]
  rfl

/-! ### Lists of parameters -/

omit hpaired in
/-- Blanks and comments are no parameter. -/
theorem parameter?_gap {g : Gap} (h : f.Spells start g.lexemes) :
    f.parameter? start (start + g.lexemes.length) = none := by
  obtain ⟨is, hhead, -⟩ := headPart_gap h le_rfl
  have hend : f.parameterHead? (start + g.lexemes.length) (start + g.lexemes.length) = none := by
    rw [parameterHead?, dif_neg (Nat.lt_irrefl _)]
  rw [hend, Option.map_none] at hhead
  rw [parameter?, hhead]
  rfl

/-- The last part of a list. -/
theorem partBounds_last (h : f.Spells start ls) (hls : Nested false (ls.map Lexeme.kind))
    (hclear : f.ClearFor start ls) :
    f.partBounds parameterGroups (start + ls.length) start start = [(start, start + ls.length)] := by
  rw [h.partBounds_eq hpaired hls hclear le_rfl, partBounds, dif_neg (Nat.lt_irrefl _)]

/-- **The parameters of a list are read one after the other.** -/
theorem parameters_eq {ps : ParameterList} (h : f.Spells start (ps.lexemes .nullable))
    (hclear : f.ClearFor start (ps.lexemes .nullable)) :
    (f.partBounds parameterGroups (start + (ps.lexemes .nullable).length) start start).filterMap
      (fun (s, e) => f.parameter? s e) = WrittenParameter.parametersFrom start ps.parameters := by
  obtain ⟨leading, last⟩ := ps
  induction leading generalizing start with
  | nil =>
    cases last with
    | inl g =>
      have hg : ParameterList.lexemes .nullable ⟨[], .inl g⟩ = g.lexemes := rfl
      rw [hg] at h hclear ⊢
      rw [partBounds_last hpaired h g.nested hclear]
      simp only [List.filterMap_cons, parameter?_gap h, List.filterMap_nil]
      rfl
    | inr p =>
      have hp : ParameterList.lexemes .nullable ⟨[], .inr p⟩ = p.lexemes .nullable := rfl
      rw [hp] at h hclear ⊢
      rw [partBounds_last hpaired h p.nested hclear]
      simp only [List.filterMap_cons, parameter?_eq hpaired h hclear, List.filterMap_nil]
      rfl
  | cons p leading ih =>
    have hsplit : ParameterList.lexemes .nullable ⟨p :: leading, last⟩ =
        p.lexemes .nullable ++ (⟨.comma, [',']⟩ :: ParameterList.lexemes .nullable ⟨leading, last⟩) := by
      simp [ParameterList.lexemes]
    rw [hsplit] at h hclear ⊢
    have hp := Spells.left h
    have hrest := Spells.right h
    have hcomma : f.kindAt (start + (p.lexemes .nullable).length) = some .comma :=
      hrest.kindAt (a := 0) rfl (by decide)
    have hclearComma : f.ClearFor _ ([⟨.comma, [',']⟩] ++ ParameterList.lexemes .nullable ⟨leading, last⟩) :=
      hclear.right hp (p.nested.balanced .square)
    have hclearRest := hclearComma.right (Spells.left hrest) ⟨0, rfl⟩
    have hlater := ih hrest.tail hclearRest
    rw [hp.partBounds_eq hpaired p.nested hclear.left (by rw [List.length_append]; omega),
      partBounds_of_comma (by rw [List.length_append, List.length_cons]; omega) hcomma]
    have hend : start + (p.lexemes .nullable ++
          ⟨.comma, [',']⟩ :: ParameterList.lexemes .nullable ⟨leading, last⟩).length =
        start + (p.lexemes .nullable).length + 1 +
          (ParameterList.lexemes .nullable ⟨leading, last⟩).length := by
      rw [List.length_append, List.length_cons]
      omega
    simp only [List.filterMap_cons, parameter?_eq hpaired hp hclear.left]
    rw [hend]
    refine (congrArg _ hlater).trans ?_
    rw [p.length_lexemes]
    rfl

/-! ### Functions -/

omit hpaired in
/-- The keyword of a function owns the bracket in front of its parameters. -/
theorem owns_parens {fn : WrittenFunction} (h : f.Spells start fn.front) :
    Ownership.parens.Owns (Token.kinds f.tokens.toList) start (start + (fn.name.length + 1)) := by
  have hquiet : ∀ l ∈ fn.name, Ownership.parens.isQuiet l.kind = true := by
    intro l hl
    have hplain := fn.name_plain l hl
    revert hplain
    cases l.kind <;> decide
  exact h.owns (by decide) (by rcases fn.isFunction with hk | hk <;> rw [hk] <;> rfl) hquiet rfl

/-- The brackets of a function. -/
theorem parens_eq {fn : WrittenFunction} (h : f.Spells start (fn.lexemes .nullable)) {t : Token}
    (ht : f.tokens[start]? = some t) : t.parens = some ⟨start + (fn.name.length + 1),
      start + fn.front.length + (fn.list.lexemes .nullable).length⟩ := by
  have howns := owns_parens (Spells.left h)
  obtain ⟨k, hk, hkeyword⟩ := howns.waits.keyword
  obtain ⟨u, hu, rfl⟩ := Token.exists_token_of_kinds hk (by rintro rfl; cases hkeyword)
  cases ht.symm.trans (Array.getElem?_toList.symm.trans hu)
  obtain ⟨c, hmatches, hparens⟩ := (hpaired.parens_owner _ t hu hkeyword).1 _ howns
  have hsplit : fn.lexemes .nullable = (fn.keyword :: fn.name) ++ (⟨.openRound, ['(']⟩ ::
      (fn.list.lexemes .nullable ++ [⟨.closeRound, [')']⟩])) := by
    simp [WrittenFunction.lexemes, WrittenFunction.front]
  rw [hsplit] at h
  have hround := (Spells.right h).matching_pair .round rfl (fn.list.nested.balanced .round) rfl rfl
  rw [hparens, hmatches.closer_unique hround (by rw [List.length_cons])]
  simp only [WrittenFunction.front, List.length_cons, List.length_append, List.length_nil]
  congr 2
  omega

/-- **The parameters of a function are read as they are written.** -/
theorem parameters_function {fn : WrittenFunction} (h : f.Spells start (fn.lexemes .nullable))
    (hclear : f.ClearFor (start + fn.front.length) (fn.list.lexemes .nullable)) :
    f.parameters start = fn.parametersAt start := by
  obtain ⟨t, ht, -⟩ := Spells.head h
  have hfirst : start + (fn.name.length + 1) + 1 = start + fn.front.length := by
    simp [WrittenFunction.front]
    omega
  rw [SourceFile.parameters, ht, Option.bind_some, parens_eq hpaired h ht]
  dsimp only
  rw [hfirst]
  exact parameters_eq hpaired (Spells.left (Spells.right h)) hclear

end Paired

end Spells

end SourceFile

/-! ### Types with a question mark -/

theorem Lexeme.not_isTypePart_of_questionMark (t : Text) :
    (symbolAt '?' t).1.isTypePart = false := by
  have htable : ∀ x ∈ Kind.operatorTable, x.2.isTypePart = false := by decide
  unfold symbolAt
  split
  · next h => exact htable _ (List.mem_of_find?_eq_some h)
  · rfl

/-- A part of a type, as it is cut, begins with no question mark. -/
theorem head?_of_isTypePart {ctx : Context} {t : Text} {pieces : List Piece}
    (h : Piece.cutAll ctx t = .ok pieces) {l : Lexeme} (hl : l ∈ pieces.flatMap Piece.lexemes)
    (hk : l.kind.isTypePart = true) : l.text.head? ≠ some '?' := by
  obtain ⟨p, hp, hl⟩ := List.mem_flatMap.1 hl
  refine forall_cutAll (P := fun p => ∀ l ∈ p.lexemes, l.kind.isTypePart = true →
    l.text.head? ≠ some '?') (fun ctx c t p hp l hl hk => ?_) h p hp l hl hk
  unfold nextPiece at hp
  split at hp
  · have hcut {kind : Kind} {n : ℕ} (hl : l ∈ (Piece.cut kind c t n).lexemes) :
        l = ⟨kind, c :: t.take (n - 1)⟩ := List.mem_singleton.1 hl
    cases codePiece_of_ok hp with
    | docComment body rest hdoc h =>
      have hkind := (mem_lexemes_docComment hl).2
      refine absurd hk ?_
      revert hkind
      cases l.kind <;> decide
    | word hc =>
      obtain rfl := hcut hl
      rintro hmark
      cases hmark
      cases hc
    | symbol h =>
      obtain rfl := hcut hl
      rintro hmark
      cases hmark
      rw [not_isTypePart_of_questionMark] at hk
      cases hk
    | _ =>
      obtain rfl := hcut hl
      cases hk
  · split at hp <;> cases hp <;> cases List.mem_singleton.1 hl <;> cases hk

/-! ### The parameters of a function -/

namespace SourceFile

variable {path : String} {source : Text} {f : SourceFile} {pieces : List Piece}
  {before after : List Lexeme} {fn : WrittenFunction}

/-- **Written parameters are read as they are written.** A function has one parameter for each variable
of its list, in their order: the place and the name of the variable, the type without blanks and comments
but with its question mark, the default without blanks around it, and the marks and keywords in front. -/
theorem parameters_of_written (h : parse path source = .ok f)
    (hpieces : Piece.cutAll Context.start source = .ok pieces)
    (hsource : pieces.flatMap Piece.lexemes = before ++ (fn.lexemes .ternary ++ after))
    (hmarks : ∀ p ∈ fn.list.parameters, p.MarkIsSeen)
    (hclear : (∃ l ∈ fn.list.lexemes .ternary, l.kind = .attributeOpen) →
      f.tokens[before.length]?.bind Token.attrGroup = none) :
    f.parameters before.length = fn.parametersAt before.length ∧
      (f.parameters before.length).map Parameter.isNullable =
        fn.list.parameters.map WrittenParameter.isMarked := by
  have hspells := spells_of_parse h hpieces hsource fun k => fn.resolvedAs k hmarks
  have hread : f.parameters before.length = fn.parametersAt before.length := by
    refine Spells.parameters_function (wellPaired_of_parse h) hspells fun hopen => ?_
    obtain ⟨t, ht, -⟩ := Spells.head hspells
    obtain ⟨l, hl, hkind⟩ := hopen
    have hmem := List.mem_map_of_mem (f := fun l => decide (l.kind = .attributeOpen)) hl
    rw [fn.list.map_lexemes (by decide)] at hmem
    obtain ⟨m, hm, hmkind⟩ := List.mem_map.1 hmem
    have hnone := hclear ⟨m, hm, by simpa [hkind] using hmkind⟩
    rw [ht, Option.bind_some] at hnone
    refine clear_of_token h ht hnone (Nat.le_add_right ..) fun j hj hlt hgroup => ?_
    -- no attribute group opens between the keyword and the parameters
    obtain ⟨a, rfl⟩ := Nat.exists_eq_add_of_le hj
    have ha : a < fn.front.length := by omega
    obtain ⟨hsettled, hopener⟩ := fn.isSettled_front _ (List.getElem_mem ha)
    have hkind := (Spells.left hspells).kindAt (List.getElem?_eq_getElem ha) hsettled
    exact hopener (Option.some_inj.1 (hkind.symm.trans hgroup))
  refine ⟨hread, ?_⟩
  rw [hread]
  refine WrittenParameter.map_isNullable_parametersFrom fun p hp l hl hk =>
    head?_of_isTypePart hpieces ?_ hk
  have hlist := ParameterList.mem_lexemes hp hl
  rw [hsource]
  simp [WrittenFunction.lexemes, hlist]

/-- No blank. -/
def noBlank : Gap := ⟨[], nofun⟩

/-- One blank. -/
def oneBlank : Gap := ⟨[⟨.blank, [' ']⟩], by decide⟩

/-- The parameter `#[X] private readonly ?B $a = [1, 2]`. -/
def promotedParameter : WrittenParameter where
  before := ⟨[], nofun⟩
  groups := [⟨[⟨.word, ['X']⟩], oneBlank, .of_forall (by decide)⟩]
  modifiers := [⟨⟨.kwPrivate, "private".toList⟩, oneBlank, rfl⟩,
    ⟨⟨.kwReadonly, "readonly".toList⟩, oneBlank, rfl⟩]
  hint := some
    { nullable := some ⟨[], nofun⟩
      type := ⟨[⟨.word, ['B']⟩], by decide, .of_forall (by decide), _, rfl, by decide⟩
      gap := oneBlank }
  reference := none
  ellipsis := none
  name := "$a".toList
  after := oneBlank
  default := some [⟨.blank, [' ']⟩, ⟨.openSquare, ['[']⟩, ⟨.number, ['1']⟩, ⟨.comma, [',']⟩,
    ⟨.blank, [' ']⟩, ⟨.number, ['2']⟩, ⟨.closeSquare, [']']⟩]
  nested_default := by
    rintro ls ⟨⟩
    have hinner : Nested true [.number, .comma, .blank, .number] :=
      .cons rfl nofun (.cons rfl (fun _ => rfl) (.of_forall (by decide)))
    exact .cons rfl nofun (.pair rfl hinner .nil)

/-- The parameter `C|(D & E) &/* by */ ... $b` after a blank. -/
def variadicParameter : WrittenParameter where
  before := oneBlank
  groups := []
  modifiers := []
  hint := some
    { nullable := none
      type :=
        { lexemes := [⟨.word, ['C']⟩, ⟨.pipe, ['|']⟩, ⟨.openRound, ['(']⟩, ⟨.word, ['D']⟩,
            ⟨.blank, [' ']⟩, ⟨.ampersand, ['&']⟩, ⟨.blank, [' ']⟩, ⟨.word, ['E']⟩, ⟨.closeRound, [')']⟩]
          isTypePart_of_mem := by decide
          nested :=
            have hinner : Nested true [.word, .blank, .ampersand, .blank, .word] := .of_forall (by decide)
            .cons rfl nofun (.cons rfl nofun (.pair rfl hinner .nil))
          last := ⟨_, rfl, by decide⟩ }
      gap := oneBlank }
  reference := some ⟨[⟨.comment, "/* by */".toList⟩, ⟨.blank, [' ']⟩], by decide⟩
  ellipsis := some oneBlank
  name := "$b".toList
  after := ⟨[], nofun⟩
  default := none
  nested_default := nofun

/-- A function `f` with these two parameters. -/
def promotedAndVariadic : WrittenFunction where
  keyword := ⟨.kwFunction, "function".toList⟩
  name := [⟨.blank, [' ']⟩, ⟨.word, ['f']⟩]
  list := ⟨[promotedParameter], .inr variadicParameter⟩
  isFunction := .inl rfl
  name_plain := by decide

/-- A file with this function. -/
def promotedAndVariadicText : Text :=
  ("<?php function f(#[X] private readonly ?B $a = [1, 2], C|(D & E) &/* by */ ... $b) " ++
    "\x7b\x7d").toList

/-- Two parameters with an attribute, modifiers, a default, a reference mark and an ellipsis. -/
theorem parameters_of_written_two : ∃ f pieces, ∃ after : List Lexeme,
    parse "a.php" promotedAndVariadicText = .ok f ∧
    Piece.cutAll Context.start promotedAndVariadicText = .ok pieces ∧
    pieces.flatMap Piece.lexemes = [⟨.openTag, "<?php".toList⟩, ⟨.blank, [' ']⟩] ++
      (promotedAndVariadic.lexemes .ternary ++ after) ∧
    (∀ p ∈ promotedAndVariadic.list.parameters, p.MarkIsSeen) ∧
    f.tokens[2]?.bind Token.attrGroup = none ∧
    f.parameters 2 = [
      ⟨17, "$a".toList, "#[X] private readonly ?B $a = [1, 2]".toList, "?B".toList,
        some "[1, 2]".toList, false, false, some .isPrivate⟩,
      ⟨44, "$b".toList, "C|(D & E) &/* by */ ... $b".toList, "C|(D&E)".toList, none, true, true, none⟩] ∧
    (f.parameters 2).map Parameter.isNullable = [true, false] := by
  have hfile : (parse "a.php" promotedAndVariadicText).toOption.any
      (fun f => f.tokens[2]?.bind Token.attrGroup = none) = true := by
    decide +kernel
  have hcut : (Piece.cutAll Context.start promotedAndVariadicText).toOption.any
      (fun pieces => pieces.flatMap Piece.lexemes = [⟨.openTag, "<?php".toList⟩, ⟨.blank, [' ']⟩] ++
        (promotedAndVariadic.lexemes .ternary ++
          [⟨.blank, [' ']⟩, ⟨.openCurly, ['\x7b']⟩, ⟨.closeCurly, ['\x7d']⟩])) = true := by
    decide +kernel
  obtain ⟨f, hf, hnone⟩ := (Option.any_eq_true _ _).1 hfile
  obtain ⟨pieces, hpieces, hlexemes⟩ := (Option.any_eq_true _ _).1 hcut
  have hparse : parse "a.php" promotedAndVariadicText = .ok f := by
    cases hr : parse "a.php" promotedAndVariadicText <;> rw [hr] at hf <;> cases hf
    rfl
  have hcutAll : Piece.cutAll Context.start promotedAndVariadicText = .ok pieces := by
    cases hr : Piece.cutAll Context.start promotedAndVariadicText <;> rw [hr] at hpieces <;>
      cases hpieces
    rfl
  have hmarks : ∀ p ∈ promotedAndVariadic.list.parameters, p.MarkIsSeen := by
    refine List.forall_mem_cons.2 ⟨?_, List.forall_mem_singleton.2 ?_⟩
    · rintro t ⟨⟩ -
      exact ⟨.inr (List.cons_ne_nil _ _), rfl⟩
    · rintro t ⟨⟩ ⟨⟩
  have hresult := parameters_of_written hparse hcutAll (of_decide_eq_true hlexemes) hmarks
    fun _ => of_decide_eq_true hnone
  refine ⟨f, pieces, _, hparse, hcutAll, of_decide_eq_true hlexemes, hmarks, of_decide_eq_true hnone,
    hresult.1.trans ?_, hresult.2⟩
  decide +kernel

-- directly behind an attribute group the question mark of a type is taken for one of a condition
example : (parse "a.php" "<?php function f(#[A] ?int $x, #[A] private ?int $y) \x7b\x7d".toList).toOption.any
    (fun f => (f.parameters 2).map Parameter.typeText = ["int".toList, "?int".toList]) = true := by
  decide +kernel

end SourceFile

end EntityLint
