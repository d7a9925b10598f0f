import EntityLint.Proofs.Mapping.PlainAnnotation
import EntityLint.Proofs.Source.Beside
import EntityLint.Proofs.Source.Groups
import EntityLint.Proofs.Source.Shape
import EntityLint.Proofs.Token.CodeText

/-!
# Attribute groups from their text

An annotation that stands alone in an attribute group is cut into the lexemes of its name and of its
arguments, whatever stands around the group. The arguments have no brackets outside of strings, so that
the annotation is read with all of them.

* `Kind.isInner`, `Kind.isNamePart`: the kinds among plain arguments and in a name;
* `PlainValue.cutsInto_written`, `PlainAttribute.cutsInto_argumentText`: the lexemes of arguments;
* `PlainAnnotation.IsCut`, `PlainAnnotation.cutsInto_nativeText`: the lexemes of a group;
* `SourceFile.exists_spells_of_cutsInto`: what is cut in code stands in a file as it is cut.

The main statement is `SourceFile.groupTags_of_nativeText`.
-/

namespace EntityLint

open Lexeme Text Pairing

/-! ### Kinds -/

/-- Whether a kind may stand in plain arguments. -/
def Kind.isInner (k : Kind) : Bool := !k.isBracket && k != ternary

/-- Whether a kind may stand in the name of an annotation. -/
def Kind.isNamePart (k : Kind) : Bool := k.isInner && !k.isTrivia && k != comma

theorem Kind.of_isInner {k : Kind} (h : k.isInner = true) :
    k.isBracket = false ∧ k.IsSettled ∧ k ≠ .attributeClose ∧ k ≠ .openRound := by
  revert h
  cases k <;> decide

theorem Kind.of_isNamePart {k : Kind} (h : k.isNamePart = true) :
    k.isInner = true ∧ k.isTrivia = false ∧ k ≠ .comma ∧
      [Kind.openRound, .openSquare].contains k = false := by
  revert h
  cases k <;> decide

/-! ### Values and attributes -/

/-- What may follow a value or a list of arguments. -/
def EndsValue (rest : Text) : Prop := rest.head?.any (fun c => c == ',' || c == ')') = true

theorem EndsValue.head_eq_false {rest : Text} (h : EndsValue rest) {q : Char → Bool}
    (hcomma : q ',' = false) (hclose : q ')' = false) : rest.head?.any q = false := by
  obtain ⟨c, hc, hends⟩ := (Option.any_eq_true _ _).1 h
  rw [hc, Option.any_some]
  rcases Bool.or_eq_true_iff.1 hends with heq | heq
  · rwa [beq_iff_eq.1 heq]
  · rwa [beq_iff_eq.1 heq]

namespace PlainValue

theorem cutsInto_integer (n : ℤ) {rest : Text} (hrest : EndsValue rest) :
    CutsInto (toString n).toList rest (Writes (·.isInner = true) (toString n).toList) := by
  have hdigits (m : ℕ) : CutsInto (Nat.toDigits 10 m) rest
      (Writes (·.isInner = true) (Nat.toDigits 10 m)) :=
    (cutsInto_digits Nat.toDigits_ne_nil
      (fun c hc => Nat.isDigit_of_mem_toDigits (by omega) (by omega) hc)
      (hrest.head_eq_false (by decide) (by decide))).writes rfl
  cases n with
  | ofNat n =>
    rw [Numeral.toList_toString_ofNat]
    exact hdigits n
  | negSucc n =>
    rw [Numeral.toList_toString_negSucc]
    obtain ⟨c, t, ht⟩ := List.exists_cons_of_ne_nil (Nat.toDigits_ne_nil (b := 10) (n := n + 1))
    have hc : c.isDigit = true :=
      Nat.isDigit_of_mem_toDigits (by omega) (by omega) (ht ▸ List.mem_cons_self)
    have hsymbol : symbolAt '-' (Nat.toDigits 10 (n + 1) ++ rest) = (.operator, 1) := by
      refine symbolAt_eq_single fun x hx hhead d hd => ?_
      have htable : ∀ x ∈ Kind.operatorTable, x.1.head? = some '-' →
          x.1[1]?.any Char.isDigit = false := by decide
      rintro heq
      rw [ht, List.cons_append, List.head?_cons, Option.mem_some_iff] at hd
      have hdigit := htable x hx hhead
      rw [heq, ← hd, Option.any_some, hc] at hdigit
      cases hdigit
    have hminus := cutsInto_symbol (IsSymbol.of_char (by decide) rfl rfl rfl rfl _) hsymbol (by decide)
    exact (hminus.writes (P := (·.isInner = true)) rfl).writes_append (hdigits (n + 1))

theorem isName_boolean {value : Bool} {spelling : Text}
    (h : asciiLower spelling = if value then "true".toList else "false".toList) : IsName spelling := by
  have halpha := WrittenValue.isAlpha_of_mem_boolean h
  obtain ⟨c, t, rfl⟩ : ∃ c t, spelling = c :: t := by
    cases spelling with
    | nil => cases value <;> simp [asciiLower] at h
    | cons c t => exact ⟨c, t, rfl⟩
  refine ⟨?_, fun c hc => ?_⟩
  · simp [isWordStart, halpha c List.mem_cons_self]
  · simp [isWordChar, Char.isAlphanum, halpha c hc]

/-- A value does not begin with a blank. -/
theorem head_written (v : PlainValue) (rest : Text) :
    ((v.written .native).text ++ rest).head?.any isCodeBlank = false := by
  cases v with
  | integer n h =>
    obtain ⟨hne, hdigits⟩ := WrittenValue.digits_of_integer n
    obtain ⟨c, t, ht⟩ := List.exists_cons_of_ne_nil hne
    have hc := hdigits c (ht ▸ List.mem_cons_self)
    show ((toString n).toList ++ rest).head?.any isCodeBlank = false
    rw [ht, List.cons_append, List.head?_cons, Option.any_some, Bool.eq_false_iff]
    intro hblank
    have hchars : c = ' ' ∨ c = '\t' ∨ c = '\r' ∨ c = '\n' := by
      simpa [isCodeBlank, or_assoc] using hblank
    rcases hchars with rfl | rfl | rfl | rfl <;> revert hc <;> decide
  | boolean value spelling h => exact isCodeBlank_head_of_isName (isName_boolean h) rest
  | quoted text h => rfl

theorem cutsInto_written (v : PlainValue) {rest : Text} (hrest : EndsValue rest) :
    CutsInto (v.written .native).text rest (Writes (·.isInner = true) (v.written .native).text) := by
  cases v with
  | integer n h => exact cutsInto_integer n hrest
  | boolean value spelling h =>
    refine (cutsInto_name (P := (·.isInner = true)) rfl (by decide) (isName_boolean h)
      (hrest.head_eq_false rfl rfl)).mono ?_
    rintro _ ⟨k, hk, rfl⟩
    exact .singleton hk spelling
  | quoted text h => exact (cutsInto_quoted rfl (h.not_quote .native) h.last).writes rfl

end PlainValue

namespace PlainAttribute

theorem cutsInto_text (a : PlainAttribute) {rest : Text} (hrest : EndsValue rest) :
    CutsInto (a.text .native) rest (Writes (·.isInner = true) (a.text .native)) := by
  have hname : CutsInto a.name (':' :: ' ' :: ((a.value.written .native).text ++ rest))
      (Writes (·.isInner = true) a.name) := by
    refine (cutsInto_name (P := (·.isInner = true)) rfl (by decide) a.isName rfl).mono ?_
    rintro _ ⟨k, hk, rfl⟩
    exact .singleton hk a.name
  have hcolon : CutsInto [':'] (' ' :: ((a.value.written .native).text ++ rest))
      (Writes (·.isInner = true) [':']) :=
    (cutsInto_symbol (IsSymbol.of_char (by decide) rfl rfl rfl rfl _) rfl (by decide)).writes rfl
  have hspace : CutsInto [' '] ((a.value.written .native).text ++ rest)
      (Writes (·.isInner = true) [' ']) := (cutsInto_space (a.value.head_written rest)).writes rfl
  have hvalue := a.value.cutsInto_written hrest
  exact hname.writes_append (hcolon.writes_append (hspace.writes_append hvalue))

theorem cutsInto_argumentText (as : List PlainAttribute) {rest : Text} (hrest : EndsValue rest) :
    CutsInto (argumentText .native as) rest (Writes (·.isInner = true) (argumentText .native as)) := by
  induction as with
  | nil => exact .nil ⟨rfl, List.forall_mem_nil _⟩
  | cons a as ih =>
    cases as with
    | nil =>
      rw [argumentText_singleton]
      exact a.cutsInto_text hrest
    | cons b as =>
      rw [argumentText_cons_cons]
      have hcomma : CutsInto [','] (' ' :: (argumentText .native (b :: as) ++ rest))
          (Writes (·.isInner = true) [',']) := (cutsInto_mark (by decide) _).writes rfl
      have hspace : CutsInto [' '] (argumentText .native (b :: as) ++ rest)
          (Writes (·.isInner = true) [' ']) := by
        obtain ⟨t, ht⟩ := exists_argumentText_cons (d := .native) b as
        refine (cutsInto_space ?_).writes rfl
        rw [ht, text, List.append_assoc, List.append_assoc]
        exact isCodeBlank_head_of_isName b.isName _
      have hothers := hcomma.writes_append (hspace.writes_append ih)
      exact (a.cutsInto_text (show EndsValue (',' :: _) from rfl)).writes_append hothers

end PlainAttribute

namespace PlainAnnotation

variable (a : PlainAnnotation)

theorem cutsInto_fullName {rest : Text} (hrest : rest.head?.any isWordChar = false) :
    CutsInto a.fullName rest (Writes (·.isNamePart = true) a.fullName) := by
  have hword {w rest : Text} (hw : IsName w) (hrest : rest.head?.any isWordChar = false) :
      CutsInto w rest (Writes (·.isNamePart = true) w) := by
    refine (cutsInto_name (P := (·.isNamePart = true)) rfl (by decide) hw hrest).mono ?_
    rintro _ ⟨k, hk, rfl⟩
    exact .singleton hk w
  have hspace : CutsInto "ORM".toList (['\\'] ++ a.name ++ rest)
      (Writes (·.isNamePart = true) "ORM".toList) := hword ⟨rfl, by simp [isWordChar]⟩ rfl
  have hslash : CutsInto ['\\'] (a.name ++ rest) (Writes (·.isNamePart = true) ['\\']) :=
    (cutsInto_mark (by decide) _).writes rfl
  exact hspace.writes_append (hslash.writes_append (hword a.isName hrest))

/-- The lexemes of an annotation as an attribute group. -/
def IsCut (ls : List Lexeme) : Prop :=
  ∃ name args, ls = ⟨.attributeOpen, "#[".toList⟩ :: (name ++ ⟨.openRound, ['(']⟩ ::
      (args ++ [⟨.closeRound, [')']⟩, ⟨.closeSquare, [']']⟩])) ∧
    Writes (·.isNamePart = true) a.fullName name ∧
    Writes (·.isInner = true) (PlainAttribute.argumentText .native a.attributes) args

theorem cutsInto_nativeText (rest : Text) : CutsInto a.nativeText rest a.IsCut := by
  have hend : CutsInto ")]".toList rest (· = [⟨.closeRound, [')']⟩, ⟨.closeSquare, [']']⟩]) := by
    refine ((cutsInto_mark (by decide) _).append (cutsInto_mark (by decide) _)).mono ?_
    rintro _ ⟨_, _, rfl, rfl, rfl⟩
    rfl
  have hargs : CutsInto (PlainAttribute.argumentText .native a.attributes) (")]".toList ++ rest) _ :=
    PlainAttribute.cutsInto_argumentText a.attributes rfl
  have hopen : CutsInto ['('] (PlainAttribute.argumentText .native a.attributes ++ ")]".toList ++ rest)
      (· = [⟨.openRound, ['(']⟩]) := cutsInto_mark (by decide) _
  have hname : CutsInto a.fullName
      (['('] ++ (PlainAttribute.argumentText .native a.attributes ++ ")]".toList) ++ rest) _ :=
    a.cutsInto_fullName rfl
  have hcontent := hname.append (hopen.append (hargs.append hend))
  refine ((cutsInto_attributeOpen _).append hcontent).mono ?_
  rintro _ ⟨_, _, rfl, rfl, name, _, rfl, hname, _, _, rfl, rfl, args, _, rfl, hargs, rfl⟩
  exact ⟨name, args, by simp, hname, hargs⟩

end PlainAnnotation

/-! ### Groups of a file -/

namespace SourceFile

variable {path : String} {source : Text} {f : SourceFile} {p : ℕ} {r : Range}

/-- What begins with the opening of a group is cut as in code, whatever stands around it. -/
theorem exists_spells_of_cutsInto (h : parse path source = .ok f) {i stop : ℕ}
    (hk : f.kindAt i = some .attributeOpen) (hlt : i < stop) (hstop : stop ≤ f.tokens.size)
    {R : List Lexeme → Prop} (hcuts : ∀ rest, CutsInto (f.textBetween i stop) rest R) :
    ∃ ls, R ls ∧ f.Spells i ls ∧ stop = i + ls.length := by
  obtain ⟨t, ht, hopen⟩ := Option.map_eq_some_iff.1 hk
  obtain ⟨pieces, l, hpieces, hl, hlk, hlast⟩ : ∃ pieces l,
      Piece.cutAll Context.start source = .ok pieces ∧ (pieces.flatMap Piece.lexemes)[i]? = some l ∧
        l.kind = .attributeOpen ∧ stop ≤ (pieces.flatMap Piece.lexemes).length := by
    obtain ⟨tokens, htokens, rfl⟩ := exists_tokens_of_parse h
    obtain ⟨pieces, _, hpieces, -⟩ := exists_pieces_of_tokenize htokens
    rw [List.getElem?_toArray] at ht
    rw [List.size_toArray] at hstop
    obtain ⟨l, hl, -, hlk, -⟩ := exists_lexeme_of_tokenize htokens hpieces ht
    have hlast : tokens[stop - 1]? = some _ := List.getElem?_eq_getElem (by omega)
    obtain ⟨l', hl', -⟩ := exists_lexeme_of_tokenize htokens hpieces hlast
    have hlength := (List.getElem?_eq_some_iff.1 hl').1
    exact ⟨pieces, l, hpieces, hl, (hlk (by rw [hopen]; decide)).trans hopen, by omega⟩
  obtain ⟨ps, qs, rfl, hlength⟩ := exists_split_of_getElem? hpieces hl (by rw [hlk]; rfl)
  have hspells := Spells.of_parse h hpieces
  rw [List.flatMap_append] at hspells hlast
  rw [List.length_append, hlength] at hlast
  have hbehind := Spells.right hspells
  rw [hlength, Nat.zero_add] at hbehind
  -- the text of the pieces from there on begins with the text in question
  have htext : Piece.join (.single l :: qs) = f.textBetween i stop ++
      f.textBetween stop (i + ((Piece.single l :: qs).flatMap Piece.lexemes).length) := by
    rw [← textBetween_append stop hlt.le hlast, hbehind.textBetween, Piece.join, List.flatMap_assoc]
    rfl
  obtain ⟨_, _, hnext, -⟩ := exists_nextPiece_of_split hpieces
  have hcode := inCode_of_nextPiece hnext (by rw [hlk]; decide)
  have hrest := cutAll_behind hpieces
  rw [htext] at hrest
  obtain ⟨ls, ps', _, heq, hls, -, hps⟩ := hcuts _ _ _ hcode hrest
  have hsingle : ls.flatMap (fun l => (Piece.single l).lexemes) = ls := List.flatMap_singleton' ls
  rw [heq, List.flatMap_append, List.flatMap_map, hsingle] at hbehind
  have hspelled := Spells.left hbehind
  have htexts : f.textBetween i (i + ls.length) = f.textBetween i stop := by
    have hjoin : ls.flatMap Lexeme.text ++ Piece.join ps' = Piece.join (ls.map .single ++ ps') := by
      rw [Piece.join_append, Piece.join, Piece.join, List.flatMap_map]
      exact congrArg (· ++ _) (List.flatMap_congr fun l _ => (Piece.text_single l).symm)
    have hps' : Piece.join ps' = _ := text_cutAll hps
    rw [← heq, htext, hps'] at hjoin
    rw [hspelled.textBetween, List.append_cancel_right hjoin]
  exact ⟨ls, hls, hspelled, (eq_of_textBetween_eq h (Nat.le_add_right ..) hlt.le
    ⟨hspelled.le_size (hlt.le.trans hstop), hstop⟩ htexts).symm⟩

/-- A group that is read for a declaration opens as one. -/
theorem opens_of_mem_attributeGroups (h : parse path source = .ok f) (hr : r ∈ f.attributeGroups p) :
    f.kindAt r.opener = some .attributeOpen ∧ f.textAt r.opener = "#[".toList ∧
      r.opener < r.closer ∧ r.closer < f.tokens.size := by
  have hbefore : ∀ start, r ∈ f.attributeGroupsBefore p start →
      (∃ g, f.IsGroup g ∧ r.opener = g.opener) ∧ r.closer < f.tokens.size := by
    intro start hr
    fun_induction f.attributeGroupsBefore p start with
    | case4 start hstart close hclose group hgroup howner ih =>
      rcases List.mem_cons.1 hr with rfl | hr
      · obtain ⟨t, ht, hgroup⟩ := Option.bind_eq_some_iff.1 hgroup
        exact ⟨⟨group, (isGroup_of_attrGroup h ht hgroup).1, rfl⟩, (Array.getElem?_eq_some_iff.1 ht).1⟩
      · exact ih hr
    | _ => cases hr
  obtain ⟨⟨g, hg, hopener⟩, hsize⟩ := hbefore p (List.mem_reverse.1 hr)
  obtain ⟨hlt, -⟩ := closer_of_mem_attributeGroupsBefore h (List.mem_reverse.1 hr)
  obtain ⟨t, ht, hk⟩ := Token.exists_token_of_kinds hg.opens (by decide)
  rw [Array.getElem?_toList] at ht
  exact ⟨by rw [hopener, kindAt_eq_of_getElem? ht, hk], hopener ▸ (hg.text h).1, hlt, hsize⟩

/-- The lexemes of an annotation that stands alone in a group. -/
theorem exists_passage_of_nativeText (h : parse path source = .ok f) (hr : r ∈ f.attributeGroups p)
    {a : PlainAnnotation} (htext : f.textBetween r.opener (r.closer + 1) = a.nativeText) :
    ∃ name args, Writes (·.isNamePart = true) a.fullName name ∧
      Writes (·.isInner = true) (PlainAttribute.argumentText .native a.attributes) args ∧
      f.Passage (r.opener + 1) (name ++ ⟨.openRound, ['(']⟩ :: (args ++ ⟨.closeRound, [')']⟩ :: [])) ∧
      r.closer = r.opener + 1 + (name.length + (args.length + 2)) := by
  obtain ⟨hk, -, hlt, hsize⟩ := opens_of_mem_attributeGroups h hr
  obtain ⟨ls, ⟨name, args, rfl, hname, hargs⟩, hspells, hstop⟩ := exists_spells_of_cutsInto h hk
    (Nat.lt_succ_of_lt hlt) hsize fun rest => htext ▸ a.cutsInto_nativeText rest
  simp only [List.length_cons, List.length_append, List.length_nil] at hstop
  refine ⟨name, args, hname, hargs, ?_, by omega⟩
  have hinner : f.Spells (r.opener + 1)
      ((name ++ ⟨.openRound, ['(']⟩ :: (args ++ [⟨.closeRound, [')']⟩])) ++
        [⟨.closeSquare, [']']⟩]) := by
    simpa using hspells.tail
  refine (Spells.left hinner).passage (List.forall_mem_append.2 ⟨fun l hl => ?_, ?_⟩)
  · exact (Kind.of_isInner (Kind.of_isNamePart (hname.kinds l hl)).1).2.1
  · exact List.forall_mem_cons.2 ⟨by decide, List.forall_mem_append.2
      ⟨fun l hl => (Kind.of_isInner (hargs.kinds l hl)).2.1, List.forall_mem_singleton.2 (by decide)⟩⟩

/-- **An annotation that stands alone in a group is the only one that is read of it**, with all of its
arguments. -/
theorem groupTags_of_nativeText (h : parse path source = .ok f) (hr : r ∈ f.attributeGroups p)
    {a : PlainAnnotation} (htext : f.textBetween r.opener (r.closer + 1) = a.nativeText) :
    f.groupTags r = [.ofArguments a.fullName r.opener (r.opener + 1) r.closer .native
      (PlainAttribute.argumentText .native a.attributes)] := by
  obtain ⟨name, args, hname, hargs, hpassage, hcloser⟩ := exists_passage_of_nativeText h hr htext
  have hinner {l : Lexeme} (hl : l ∈ args) := Kind.of_isInner (hargs.kinds l hl)
  have hpart {l : Lexeme} (hl : l ∈ name) := Kind.of_isNamePart (hname.kinds l hl)
  have hpaired := wellPaired_of_parse h
  have hclose : ∀ l ∈ args, l.kind ≠ .attributeClose := fun l hl => (hinner hl).2.2.1
  have hbalanced : Family.round.Balanced (args.map Lexeme.kind) :=
    .of_forall (List.forall_mem_map.2 fun l hl => Kind.step?_of_isBracket (hinner hl).1 _)
  have hbounds : f.partBounds [.openRound, .openSquare] r.closer (r.opener + 1) (r.opener + 1) =
      [(r.opener + 1, r.closer)] := by
    rw [hpassage.partBounds_called hpaired hclose hbalanced
      (fun l hl => (hpart (by simpa using hl)).2.2) (by rw [List.length_nil]; omega)]
    exact partBounds_of_forall fun j hj hlt => absurd hlt (by rw [List.length_nil] at hj; omega)
  have htag : f.nativeTag? r.opener (r.opener + 1) r.closer = some (.ofArguments a.fullName r.opener
      (r.opener + 1) r.closer .native (PlainAttribute.argumentText .native a.attributes)) := by
    have hnameText : (name.filter fun l => !l.kind.isTrivia).flatMap Lexeme.text = a.fullName := by
      rw [List.filter_eq_self.2 fun l hl => by rw [(hpart hl).2.1]; rfl, hname.text]
    rw [hpassage.nativeTag?_called hpaired hclose hbalanced
      (fun l hl => (Kind.of_isInner (hpart hl).1).2.2.2) _ (by omega), hnameText, hargs.text, ← hcloser]
    exact if_pos a.isMapping_fullName
  rw [groupTags, hbounds, List.filterMap_cons]
  dsimp only
  rw [htag, List.filterMap_nil]

end SourceFile

end EntityLint
