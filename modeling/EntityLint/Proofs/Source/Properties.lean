import EntityLint.Proofs.Source.Beside
import EntityLint.Proofs.Source.Parameters
import EntityLint.Proofs.Source.WrittenProperty

/-!
# Properties that a file reads

A property is read backward from its variable. What stands in front of the first variable of a declaration
is read as it is written; in front of a further one stands a comma, and nothing is read.

* `Property.ofTokens_modifiers`, `Property.ofTokens_typeParts`, `Property.ofTokens_stop`: modifiers, types,
  and where a declaration begins;
* `WrittenProperty.ofTokens_hint`, `WrittenProperty.ofTokens_typed`: what is written in front of a variable;
* `Spells.property?_front`, `Spells.property?_item`: the first variable and the further ones;
* `Spells.mem_propertyTokens`: variables in the body of a class.

The main statement is `SourceFile.properties_of_written`.
-/

namespace EntityLint

open Lexeme

/-- Kinds behind which a member of a class begins. -/
def Kind.precedesMember : Kind → Bool
  | openCurly | closeCurly | semicolon | closeSquare | attributeClose => true
  | _ => false

/-! ### Reading backward -/

namespace Property

variable {p : Property} {t : Token} {ts rest : List Token}

/-- The facts with what some modifiers state, the nearest first. -/
def withModifiers (p : Property) (ks : List Kind) : Property where
  visibility := (Visibility.last? ks).getD p.visibility
  isExplicit := p.isExplicit || (Visibility.last? ks).isSome
  isStatic := p.isStatic || ks.contains .kwStatic
  isReadonly := p.isReadonly || ks.contains .kwReadonly
  typeText := p.typeText

/-- The facts with some more text in front of the type. -/
def withType (p : Property) (text : Text) : Property :=
  { p with typeText := some (text ++ p.typeText.getD []) }

theorem withModifiers_nil : p.withModifiers [] = p := by
  simp [withModifiers, Visibility.last?]

theorem withModifiers_cons (k : Kind) (ks : List Kind) :
    (p.withModifiers [k]).withModifiers ks = p.withModifiers (k :: ks) := by
  have hlast : Visibility.last? (k :: ks) = (Visibility.last? ks).or (Visibility.last? [k]) := by
    simp only [Visibility.last?, List.filterMap_cons, List.filterMap_nil]
    cases Visibility.ofKind? k with
    | none => simp
    | some v => simp [List.getLast?_cons, Option.or_some]
  have hcontains (m : Kind) : (k :: ks).contains m = ([k].contains m || ks.contains m) := by
    simp
  simp only [withModifiers, hlast, hcontains, Bool.or_assoc, Option.isSome_or]
  cases Visibility.last? ks <;> simp [Bool.or_comm]

theorem takeIn_of_isPropertyModifier (h : t.kind.isPropertyModifier = true) :
    p.takeIn t = some (p.withModifiers [t.kind]) := by
  rw [takeIn]
  revert h
  cases t.kind <;> simp [Kind.isPropertyModifier, withModifiers, Visibility.last?, Visibility.ofKind?]

theorem takeIn_of_isTypePart (h : t.kind.isTypePart = true) (hstatic : t.kind ≠ .kwStatic)
    (hp : p.isExplicit = false) : p.takeIn t = some (p.withType t.text) := by
  rw [takeIn]
  revert h hstatic
  cases t.kind <;> simp [Kind.isTypePart, withType, Visibility.ofKind?, hp]

/-- Modifiers are taken in one after the other. -/
theorem ofTokens_modifiers (h : ∀ t ∈ ts, t.kind.isPropertyModifier = true) :
    p.ofTokens (ts ++ rest) = (p.withModifiers (ts.map Token.kind)).ofTokens rest := by
  induction ts generalizing p with
  | nil => rw [List.nil_append, List.map_nil, withModifiers_nil]
  | cons t ts ih =>
    obtain ⟨ht, hts⟩ := List.forall_mem_cons.1 h
    rw [List.cons_append, ofTokens, takeIn_of_isPropertyModifier ht]
    dsimp only
    rw [ih hts, withModifiers_cons, List.map_cons]

/-- The parts of a type are taken in one in front of the other, while no visibility is stated. -/
theorem ofTokens_typeParts (hne : ts ≠ [])
    (h : ∀ t ∈ ts, t.kind.isTypePart = true ∧ t.kind ≠ .kwStatic) (hp : p.isExplicit = false) :
    p.ofTokens (ts ++ rest) = (p.withType (ts.reverse.flatMap Token.text)).ofTokens rest := by
  induction ts generalizing p with
  | nil => exact absurd rfl hne
  | cons t ts ih =>
    obtain ⟨⟨htype, hstatic⟩, hts⟩ := List.forall_mem_cons.1 h
    rw [List.cons_append, ofTokens, takeIn_of_isTypePart htype hstatic hp]
    dsimp only
    cases ts with
    | nil => simp
    | cons u us =>
      rw [ih (List.cons_ne_nil _ _) hts (by exact hp)]
      congr 1
      simp [withType]

/-- A declaration does not go on in front of a comma, nor of what a member begins behind. -/
theorem ofTokens_stop (h : t.kind = .comma ∨ t.kind.precedesMember = true) :
    p.ofTokens (t :: rest) = p := by
  have hnone : p.takeIn t = none := by
    rw [takeIn]
    revert h
    cases t.kind <;> simp [Kind.precedesMember, Kind.isTypePart, Visibility.ofKind?]
  rw [ofTokens, hnone]

end Property

/-- Tokens that are made of lexemes of settled kinds. -/
theorem Lexeme.map_lexeme_of_forall₂ {ls : List Lexeme} {ts : List Token}
    (h : List.Forall₂ ReadAs ls ts) (hls : ∀ l ∈ ls, l.kind.IsSettled) : ts.map Token.lexeme = ls := by
  induction h with
  | nil => rfl
  | cons hread _ ih =>
    obtain ⟨hl, hls⟩ := List.forall_mem_cons.1 hls
    rw [List.map_cons, ih hls, Token.lexeme, hread.kind_eq hl, hread.text]

namespace WrittenProperty

variable (d : WrittenProperty) {ts rest : List Token}

/-- What is known in front of the type. -/
def typed : Property := ⟨.isPublic, false, false, false, d.property.typeText⟩

theorem ofTokens_hint (hts : ts.map Token.lexeme =
    ((d.hint.elim [] (WrittenHint.lexemes .nullable)).filter fun l => !l.kind.isTrivia).reverse) :
    Property.bare.ofTokens (ts ++ rest) = d.typed.ofTokens rest := by
  cases hhint : d.hint with
  | none =>
    rw [hhint] at hts
    obtain rfl : ts = [] := List.map_eq_nil_iff.1 hts
    rw [typed, property, hhint]
    rfl
  | some t =>
    rw [hhint, Option.elim_some] at hts
    have hne : ts ≠ [] := by
      rintro rfl
      exact t.filter_lexemes_ne_nil (List.reverse_eq_nil_iff.1 hts.symm)
    have htext : ts.reverse.flatMap Token.text = t.text := by
      rw [← t.flatMap_text_filter, ← List.reverse_reverse (List.filter _ _), ← hts, ← List.map_reverse,
        List.flatMap_map]
      rfl
    have hparts : ∀ v ∈ ts, v.kind.isTypePart = true ∧ v.kind ≠ .kwStatic := by
      intro v hv
      have hmem := List.mem_map_of_mem (f := Token.lexeme) hv
      rw [hts, List.mem_reverse] at hmem
      exact ⟨t.isTypePart_of_mem_filter _ hmem, d.ne_static_of_mem_filter (Option.mem_def.2 hhint) _ hmem⟩
    rw [Property.ofTokens_typeParts hne hparts rfl, htext, typed, property, hhint, Property.withType]
    simp [Property.bare]

/-- The modifiers of a declaration, the nearest first. -/
theorem ofTokens_typed (hts : ts.map Token.lexeme = (d.modifiers.map WrittenKeyword.keyword).reverse) :
    d.typed.ofTokens (ts ++ rest) = d.property.ofTokens rest := by
  have hkinds : ts.map Token.kind = (d.modifiers.map fun m => m.keyword.kind).reverse := by
    have hmap := congrArg (List.map Lexeme.kind) hts
    rwa [List.map_map, List.map_reverse, List.map_map] at hmap
  have hsort : ∀ t ∈ ts, t.kind.isPropertyModifier = true := by
    intro t ht
    have hmem := List.mem_map_of_mem (f := Token.kind) ht
    rw [hkinds, List.mem_reverse] at hmem
    obtain ⟨m, -, hm⟩ := List.mem_map.1 hmem
    rw [← hm]
    exact m.isOfSort
  have hproperty : d.typed.withModifiers (ts.map Token.kind) = d.property := by
    rw [hkinds, Property.withModifiers, WrittenKeyword.last?_reverse]
    simp only [List.contains_reverse, List.contains_map, typed, Bool.false_or]
    rfl
  rw [Property.ofTokens_modifiers hsort, hproperty]

/-- What stands in front of the first variable is settled before brackets are paired. -/
theorem isSettled_front : ∀ l ∈ (d.front .nullable).filter fun l => !l.kind.isTrivia,
    l.kind.IsSettled := by
  rw [d.filter_front]
  refine List.forall_mem_append.2 ⟨?_, fun l hl => ?_⟩
  · exact List.forall_mem_map.2 fun m _ => (Kind.of_isPropertyModifier m.isOfSort).2.1
  · cases hhint : d.hint with
    | none =>
      rw [hhint] at hl
      cases hl
    | some t =>
      rw [hhint] at hl
      exact (Kind.isInFront_of_isTypePart (t.isTypePart_of_mem_filter l hl)).1.1

end WrittenProperty

/-- Tokens directly in the body of a class, in no round brackets and in no attribute. -/
structure Token.IsInClass (t : Token) : Prop where
  conditions : (t.conditions.getLast?.any fun x => x.2.isClassLike) = true
  depth : t.parenDepth = 0
  group : t.attrGroup = none

namespace SourceFile

variable {f : SourceFile} {start : ℕ} {d : WrittenProperty} {before after : List Lexeme}

namespace Spells

/-- What a declaration stands behind. -/
theorem exists_precedesMember (h : f.Spells 0 before)
    (hbefore : ∃ k ∈ lastSignificant none before, k.precedesMember = true) :
    ∃ u rest, f.significantBefore before.length = u :: rest ∧ u.kind.precedesMember = true := by
  obtain ⟨k, hk, hprecedes⟩ := hbefore
  have hread := h.forall₂_significantBefore
  rw [lastSignificant_eq_head?] at hk
  cases hls : before.reverse.filter fun l => !l.kind.isTrivia with
  | nil =>
    rw [hls] at hk
    cases hk
  | cons l ls =>
    rw [hls] at hk hread
    cases hk
    obtain ⟨u, rest, hl, -, hts⟩ := List.forall₂_cons_left_iff.1 hread
    exact ⟨u, rest, hts, by rwa [hl.apply_kind (q := Kind.precedesMember) (by decide)]⟩

/-- **The first variable of a declaration has the facts that are written.** -/
theorem property?_front (h : f.Spells start (d.front .nullable)) {u : Token} {rest : List Token}
    (hstart : f.significantBefore start = u :: rest) (hu : u.kind.precedesMember = true)
    (hsize : start + (d.front .nullable).length ≤ f.tokens.size) :
    f.property? (start + (d.front .nullable).length) = some d.property := by
  obtain ⟨ts, hts, hread⟩ := h.exists_significantBefore
  have hlexemes := map_lexeme_of_forall₂ hread fun l hl =>
    d.isSettled_front l (by rwa [List.filter_reverse, List.mem_reverse] at hl)
  rw [List.filter_reverse, d.filter_front, List.reverse_append] at hlexemes
  obtain ⟨types, modifiers, rfl, htypes, hmodifiers⟩ := List.map_eq_append_iff.1 hlexemes
  rw [property?, if_pos hsize, hts, hstart, List.append_assoc, d.ofTokens_hint htypes,
    d.ofTokens_typed hmodifiers, Property.ofTokens_stop (.inr hu)]

/-- A further variable of a declaration has none of them. -/
theorem property?_item {g : Gap} (h : f.Spells start (⟨.comma, [',']⟩ :: g.lexemes))
    (hsize : start + (1 + g.lexemes.length) ≤ f.tokens.size) :
    f.property? (start + (1 + g.lexemes.length)) = some .bare := by
  obtain ⟨ts, hts, hread⟩ := h.exists_significantBefore
  rw [List.filter_reverse, List.filter_cons, g.filter_lexemes] at hread
  obtain ⟨u, _, hu, hnil, rfl⟩ := List.forall₂_cons_left_iff.1 hread
  cases hnil
  have hcomma : u.kind = .comma := hu.kind_eq (by decide)
  rw [List.length_cons, Nat.add_comm g.lexemes.length] at hts
  rw [property?, if_pos hsize, hts, List.singleton_append, Property.ofTokens_stop (.inl hcomma)]

/-- A declaration begins with a modifier, which is no bracket. -/
theorem isBracket_front (h : f.Spells start (d.lexemes .nullable)) {t : Token}
    (ht : f.tokens[start]? = some t) : t.kind.isBracket = false := by
  obtain ⟨m, ms, hms⟩ := List.exists_cons_of_ne_nil d.modifiers_ne_nil
  obtain ⟨u, hu, hread⟩ := h 0 m.keyword (by simp [WrittenProperty.lexemes, WrittenProperty.front, hms,
    WrittenKeyword.lexemes])
  cases hu.symm.trans ht
  obtain ⟨-, hsettled, -, hbracket, -⟩ := Kind.of_isPropertyModifier m.isOfSort
  rwa [hread.kind_eq hsettled]

/-- A variable that is written directly in the body of a class is listed, with its name. -/
theorem mem_propertyTokens {path : String} {source : Text} {ls rest : List Lexeme} {v : WrittenVariable}
    {commas : Bool} {t : Token} (hparse : parse path source = .ok f)
    (h : f.Spells start (ls ++ (v.lexemes ++ rest))) (hls : Nested commas (ls.map Lexeme.kind))
    (ht : f.tokens[start]? = some t) (htk : t.kind.isBracket = false) (hclass : t.IsInClass) :
    start + ls.length ∈ f.propertyTokens ∧ f.textAt (start + ls.length) = v.name := by
  have hvariable := Spells.right h
  obtain ⟨u, hu, hread⟩ := Spells.head hvariable
  have hkind : u.kind = .variable := hread.kind_eq ⟨Kind.noConfusion, Kind.noConfusion⟩
  have huk : u.kind.isBracket = false := by rw [hkind]; rfl
  refine ⟨mem_propertyTokens_iff.2 ⟨u, hu, ?_⟩, hvariable.textAt (a := 0) rfl⟩
  have hleft := Spells.left h
  have hin : u.IsInClass := by
    refine ⟨?_, ?_, hleft.attrGroup_eq_none hparse hls ht hu htk huk hclass.group⟩
    · rw [hleft.conditions_eq hparse hls ht hu htk huk]
      exact hclass.conditions
    · rw [hleft.parenDepth_eq hparse hls ht hu htk huk]
      exact hclass.depth
  simp [isPropertyToken, hkind, hin.depth, hin.group, hin.conditions]

end Spells

/-! ### Declarations -/

variable {path : String} {source : Text} {pieces : List Piece} {t : Token} {i : ℕ}

/-- **Properties are read as they are written, up to the first comma.** A declaration stands directly in
the body of a class, behind what a member begins behind. All of its variables are listed. The first one
has the visibility, the modifiers and the type that are written, and its type is marked if it begins with
a question mark. The further ones have none of these. -/
theorem properties_of_written (h : parse path source = .ok f)
    (hpieces : Piece.cutAll Context.start source = .ok pieces)
    (hsource : pieces.flatMap Piece.lexemes = before ++ (d.lexemes .ternary ++ after))
    (hbefore : ∃ k ∈ lastSignificant none before, k.precedesMember = true) (hmark : d.MarkIsSeen)
    (ht : f.tokens[before.length]? = some t) (hclass : t.IsInClass)
    (hi : i = before.length + (d.front .ternary).length) :
    (∀ x ∈ (i, d.first) :: d.furtherFrom before.length,
      x.1 ∈ f.propertyTokens ∧ f.textAt x.1 = x.2.name) ∧
    f.property? i = some d.property ∧ d.property.isNullable = d.isMarked ∧
    ∀ x ∈ d.furtherFrom before.length, f.property? x.1 = some .bare := by
  have hspells := spells_of_parse h hpieces hsource fun k => d.resolvedAs k hmark
  have hstart : f.Spells 0 before := by
    have hall := Spells.of_parse h hpieces
    rw [hsource] at hall
    exact Spells.left hall
  rw [← d.length_front] at hi
  have htk : t.kind.isBracket = false := hspells.isBracket_front ht
  have hlist {ls rest : List Lexeme} {v : WrittenVariable}
      (hsplit : d.lexemes .nullable = ls ++ (v.lexemes ++ rest)) (hls : Nested true (ls.map Lexeme.kind)) :=
    Spells.mem_propertyTokens h (hsplit ▸ hspells) hls ht htk hclass
  have hfirst := hlist (v := d.first) rfl d.nested_front
  have hfurther : ∀ x ∈ d.furtherFrom before.length,
      (x.1 ∈ f.propertyTokens ∧ f.textAt x.1 = x.2.name) ∧ f.property? x.1 = some .bare := by
    rintro ⟨j, v⟩ hx
    obtain ⟨ls, g, rest, hls, hnested, rfl⟩ := WrittenProperty.exists_of_mem_furtherFrom hx
    have hlisted := hlist (by rw [hls, List.append_assoc]) hnested
    rw [List.length_append, List.length_cons, Nat.add_comm g.lexemes.length, ← Nat.add_assoc] at hlisted
    rw [hls] at hspells
    have hsize := (lt_size_of_mem_propertyTokens hlisted.1).le
    exact ⟨hlisted, (Spells.left (Spells.right hspells)).property?_item hsize⟩
  obtain ⟨u, tokens, hu, hprecedes⟩ := hstart.exists_precedesMember hbefore
  subst hi
  refine ⟨List.forall_mem_cons.2 ⟨hfirst, fun x hx => (hfurther x hx).1⟩,
    (Spells.left hspells).property?_front hu hprecedes (lt_size_of_mem_propertyTokens hfirst.1).le, ?_,
    fun x hx => (hfurther x hx).2⟩
  refine d.isNullable_property fun l hl hk => head?_of_isTypePart hpieces ?_ hk
  rw [hsource]
  exact List.mem_append_right _ (List.mem_append_left _ hl)

/-- The declaration `private /* by */ static ?int $a = 1, $b = [2, 3];`. -/
def privateNumbers : WrittenProperty where
  modifiers :=
    [⟨⟨.kwPrivate, "private".toList⟩, ⟨[⟨.blank, [' ']⟩, ⟨.comment, "/* by */".toList⟩, ⟨.blank, [' ']⟩],
      by decide⟩, rfl⟩, ⟨⟨.kwStatic, "static".toList⟩, oneBlank, rfl⟩]
  hint := some
    { nullable := some noBlank
      type := ⟨[⟨.word, "int".toList⟩], by decide, .of_forall (by decide), _, rfl, by decide⟩
      gap := oneBlank }
  first := ⟨"$a".toList, oneBlank, some [⟨.blank, [' ']⟩, ⟨.number, ['1']⟩], by
    rintro ls ⟨⟩
    exact .of_forall (by decide)⟩
  further := [(oneBlank, ⟨"$b".toList, oneBlank, some [⟨.blank, [' ']⟩, ⟨.openSquare, ['[']⟩,
    ⟨.number, ['2']⟩, ⟨.comma, [',']⟩, ⟨.blank, [' ']⟩, ⟨.number, ['3']⟩, ⟨.closeSquare, [']']⟩], by
      rintro ls ⟨⟩
      have hinner : Nested true [.number, .comma, .blank, .number] :=
        .cons rfl nofun (.cons rfl (fun _ => rfl) (.of_forall (by decide)))
      exact .cons rfl nofun (.pair rfl hinner .nil)⟩)]
  modifiers_ne_nil := List.cons_ne_nil _ _
  not_static := by
    rintro h ⟨⟩
    decide

/-- A file with this declaration. -/
def privateNumbersText : Text :=
  "<?php class A \x7b private /* by */ static ?int $a = 1, $b = [2, 3]; \x7d".toList

/-- Two properties with a type, of which only the first is seen to have it. -/
theorem properties_of_written_two : ∃ f pieces, ∃ (before after : List Lexeme) (t : Token),
    parse "a.php" privateNumbersText = .ok f ∧
    Piece.cutAll Context.start privateNumbersText = .ok pieces ∧
    pieces.flatMap Piece.lexemes = before ++ (privateNumbers.lexemes .ternary ++ after) ∧
    (∃ k ∈ lastSignificant none before, k.precedesMember = true) ∧ privateNumbers.MarkIsSeen ∧
    f.tokens[before.length]? = some t ∧ t.IsInClass ∧
    17 = before.length + (privateNumbers.front .ternary).length ∧
    (17 ∈ f.propertyTokens ∧ f.textAt 17 = "$a".toList) ∧
    (24 ∈ f.propertyTokens ∧ f.textAt 24 = "$b".toList) ∧
    f.property? 17 = some ⟨.isPrivate, true, true, false, some "?int".toList⟩ ∧
    privateNumbers.property.isNullable = true ∧ f.property? 24 = some .bare := by
  have heval : (Piece.cutAll Context.start privateNumbersText).toOption.any (fun pieces =>
      pieces.flatMap Piece.lexemes = (pieces.flatMap Piece.lexemes).take 8 ++
        (privateNumbers.lexemes .ternary ++ (pieces.flatMap Piece.lexemes).drop 35) ∧
      lastSignificant none ((pieces.flatMap Piece.lexemes).take 8) = some .openCurly ∧
      ((pieces.flatMap Piece.lexemes).take 8).length = 8) = true := by
    decide +kernel
  obtain ⟨pieces, hpieces, hsource, hlast, hlength⟩ := exists_ok_of_any heval
  have hfile : (parse "a.php" privateNumbersText).toOption.any (fun f : SourceFile =>
      (f.tokens[8]?.any fun t : Token => t.parenDepth = 0 ∧ t.attrGroup = none ∧
        (t.conditions.getLast?.any fun x => x.2.isClassLike) = true) = true) = true := by
    decide +kernel
  obtain ⟨f, hparse, htoken⟩ := exists_ok_of_any hfile
  obtain ⟨t, ht, hin⟩ := Option.any_eq_true _ _ |>.1 htoken
  obtain ⟨hdepth, hgroup, hconditions⟩ := of_decide_eq_true hin
  have hclass : t.IsInClass := ⟨hconditions, hdepth, hgroup⟩
  have hbefore : ∃ k ∈ lastSignificant none ((pieces.flatMap Piece.lexemes).take 8),
      k.precedesMember = true := ⟨.openCurly, hlast, rfl⟩
  have hmark : privateNumbers.MarkIsSeen := by
    rintro h ⟨⟩ -
    rfl
  rw [← hlength] at ht
  have hi : 17 = ((pieces.flatMap Piece.lexemes).take 8).length +
      (privateNumbers.front .ternary).length := by
    rw [hlength]
    rfl
  obtain ⟨hlisted, hproperty, hnullable, hfurther⟩ :=
    properties_of_written hparse hpieces hsource hbefore hmark ht hclass hi
  have hplaces : privateNumbers.furtherFrom ((pieces.flatMap Piece.lexemes).take 8).length =
      privateNumbers.further.map fun x => (24, x.2) := by
    rw [hlength]
    rfl
  rw [hplaces] at hlisted hfurther
  exact ⟨f, pieces, _, _, t, hparse, hpieces, hsource, hbefore, hmark, ht, hclass, hi,
    hlisted _ (.head _), hlisted (24, _) (.tail _ (.head _)), hproperty.trans (by decide +kernel),
    hnullable.trans (by decide +kernel), hfurther (24, _) (.head _)⟩

end SourceFile

end EntityLint
