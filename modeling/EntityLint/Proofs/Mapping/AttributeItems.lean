import EntityLint.Mapping.Tag
import EntityLint.Proofs.Source.Passage

/-!
# The attributes of a group

An attribute group lists attributes that are parted by commas. An attribute has a name, and it may
have arguments in round brackets. As long as the brackets among the arguments are balanced, commas
and further brackets there do not matter: the attribute is read with the text between its own
brackets.

* `Kind.isQuiet`, `Kind.isPlain`: what may stand among arguments and what elsewhere;
* `Passage.partBounds_called`, `Passage.nativeTag?_called`: a name with arguments in round brackets;
* `AttributeItem`, `AttributeItem.lexemes`, `AttributeItem.tag?`: an attribute and what is read of it;
* `AttributeItem.nativeTag?_eq`: this is what is read of it;
* `AttributeGroup`, `AttributeGroup.lexemes`, `AttributeGroup.tags`: a group and what is read of it;
* `AttributeGroup.matches_bounds`: the marks of a group match;
* `AttributeGroup.groupTags_eq`: the attributes of a group are read one by one.
-/

namespace EntityLint

open Pairing SourceFile

/-! ### Kinds -/

namespace Kind

/-- Whether a kind neither declares anything nor marks an attribute group. -/
def isQuiet (k : Kind) : Bool :=
  !(declarationKinds ++ [attributeOpen, attributeClose]).contains k

/-- Whether a kind is, besides, neither a comma nor a round or square bracket. -/
def isPlain (k : Kind) : Bool :=
  k.isQuiet && !([comma, openRound, closeRound, openSquare, closeSquare].contains k)

variable {k : Kind}

theorem not_mem_of_isQuiet (h : k.isQuiet = true) :
    k ∉ declarationKinds ∧ k ≠ .attributeOpen ∧ k ≠ .attributeClose := by
  simpa [isQuiet, not_or] using h

theorem isQuiet_of_isPlain (h : k.isPlain = true) : k.isQuiet = true :=
  (Bool.and_eq_true_iff.1 h).1

theorem ne_of_isPlain (h : k.isPlain = true) : k ≠ comma ∧ k ≠ openRound ∧ k ≠ openSquare := by
  refine ⟨?_, ?_, ?_⟩ <;> rintro rfl <;> cases h

theorem step?_of_isPlain (h : k.isPlain = true) {family : Family} (hfamily : family ≠ .curly) :
    family.step? k = none := by
  cases family with
  | curly => exact absurd rfl hfamily
  | _ => cases k <;> first | rfl | cases h

end Kind

theorem map_unpaired_of_isQuiet {ls : List Lexeme} (h : ∀ l ∈ ls, l.kind.isQuiet = true) :
    (ls.map fun l => l.kind.unpaired) = ls.map Lexeme.kind :=
  List.map_congr_left fun l hl => Kind.unpaired_of_ne (Kind.not_mem_of_isQuiet (h l hl)).2.2

/-! ### A name with arguments -/

namespace SourceFile

section Called

variable {f : SourceFile} {start : ℕ} {name args rest : List Lexeme}
  (hpaired : Token.WellPaired f.tokens.toList)
  (h : f.Passage start (name ++ ⟨.openRound, ['(']⟩ :: (args ++ ⟨.closeRound, [')']⟩ :: rest)))
  (hargs : ∀ l ∈ args, l.kind ≠ .attributeClose)
  (hbalanced : Family.round.Balanced (args.map Lexeme.kind))

include hpaired h hargs hbalanced

/-- The opening bracket of some arguments carries the pair around them. -/
theorem Passage.exists_parens : ∃ t, f.tokens[start + name.length]? = some t ∧ t.kind = .openRound ∧
    t.parens = some ⟨start + name.length, start + (name.length + (args.length + 1))⟩ := by
  have hbracket := Passage.right h
  obtain ⟨t, ht, hk, -⟩ := hbracket.exists_token (a := 0) rfl
  have hinner : f.Passage (start + name.length)
      ((⟨.openRound, ['(']⟩ :: (args ++ [⟨.closeRound, [')']⟩])) ++ rest) := by simpa using hbracket
  have hmatches := Family.Matches.of_append [] [] (o := .openRound) (c := .closeRound)
    (show Family.round.opens .openRound = true from rfl) rfl hbalanced
  have hkinds : (⟨.openRound, ['(']⟩ :: (args ++ [⟨.closeRound, [')']⟩]) : List Lexeme).map
      (fun l => l.kind.unpaired) = [] ++ .openRound :: (args.map Lexeme.kind ++ .closeRound :: []) := by
    rw [← List.map_congr_left fun l hl => Kind.unpaired_of_ne (hargs l hl), List.map_cons,
      List.map_append]
    rfl
  rw [← hkinds] at hmatches
  have hcarry := hpaired.round _ _ t ((Passage.left hinner).matching_unpaired hmatches) (.inl rfl)
    (Array.getElem?_toList.trans ht)
  refine ⟨t, ht, hk, hcarry.trans (congrArg some ?_)⟩
  simp [Nat.add_assoc]

/-- A name with arguments is a part of a list, if no part ends in the name or behind the arguments. -/
theorem Passage.partBounds_called
    (hplain : ∀ l ∈ name ++ rest,
      l.kind ≠ .comma ∧ [Kind.openRound, .openSquare].contains l.kind = false)
    {stop first : ℕ} (hstop : start + (name.length + (args.length + 1) + 1 + rest.length) ≤ stop) :
    f.partBounds [.openRound, .openSquare] stop first start =
      f.partBounds [.openRound, .openSquare] stop first
        (start + (name.length + (args.length + 1) + 1 + rest.length)) := by
  obtain ⟨hname, hrest⟩ := List.forall_mem_append.1 hplain
  obtain ⟨t, ht, hk, hparens⟩ := h.exists_parens hpaired hargs hbalanced
  have hbehind : f.Passage (start + (name.length + (args.length + 1) + 1)) rest := by
    have htail := (Passage.right (Passage.right h).tail).tail
    rwa [show start + name.length + 1 + args.length + 1 =
      start + (name.length + (args.length + 1) + 1) by omega] at htail
  rw [(Passage.left h).partBounds_eq (by omega) hname,
    partBounds_of_parens (by omega) ht hk rfl (by omega) hparens, Nat.add_assoc start,
    hbehind.partBounds_eq (by omega) hrest, Nat.add_assoc start]

/-- A name with arguments is read with the text between its brackets. -/
theorem Passage.nativeTag?_called (hname : ∀ l ∈ name, l.kind ≠ .openRound) (opener : ℕ) {stop : ℕ}
    (hstop : start + (name.length + (args.length + 1)) < stop) :
    f.nativeTag? opener start stop =
      let text := (name.filter fun l => !l.kind.isTrivia).flatMap Lexeme.text
      if MappingTag.isMapping text then
        some (.ofArguments text opener start (start + (name.length + (args.length + 2))) .native
          (args.flatMap Lexeme.text))
      else none := by
  obtain ⟨t, ht, hk, hparens⟩ := h.exists_parens hpaired hargs hbalanced
  have hcode : f.codeBetween start (start + name.length) =
      (name.filter fun l => !l.kind.isTrivia).flatMap Lexeme.text := by
    have hcode := (Passage.left h).codeBetween (a := 0) le_rfl
    rwa [List.take_length, List.drop_zero] at hcode
  have hnext : f.nextOfKind? [.openRound] start (some stop) false = some (start + name.length) := by
    refine h.nextOfKind? (a := 0) ?_ fun s hs => ?_
    · rw [List.drop_zero, List.map_append, List.findIdx?_append,
        List.findIdx?_eq_none_iff.2 (List.forall_mem_map.2 fun l hl => by simpa using hname l hl)]
      simp [List.findIdx?_cons]
    · cases hs
      omega
  have htext : f.textBetween (start + name.length + 1) (start + (name.length + (args.length + 1))) =
      args.flatMap Lexeme.text := by
    have htext := (Passage.right h).tail.textBetween (a := 0) (b := args.length) (by simp)
    rw [List.take_left, List.drop_zero, Nat.add_zero] at htext
    rwa [show start + (name.length + (args.length + 1)) =
      start + name.length + 1 + args.length by omega]
  simp only [nativeTag?, hnext, Option.getD_some, Option.bind_some, ht, hparens, Option.map_some, hcode,
    htext]
  rfl

end Called

end SourceFile

/-! ### Attributes -/

/-- An attribute in a group: its name, the arguments in round brackets where it has any, and what
comes after the brackets. -/
structure AttributeItem where
  name : List Lexeme
  arguments : Option (List Lexeme)
  rest : List Lexeme
  name_plain : ∀ l ∈ name, l.kind.isPlain = true
  arguments_quiet : ∀ ls ∈ arguments, ∀ l ∈ ls, l.kind.isQuiet = true
  /-- Round and square brackets are balanced, each on their own. -/
  arguments_balanced : ∀ ls ∈ arguments, ∀ family ≠ Family.curly,
    family.Balanced (ls.map Lexeme.kind)
  rest_plain : ∀ l ∈ rest, l.kind.isPlain = true

namespace AttributeItem

/-- The lexemes of an attribute. -/
def lexemes (a : AttributeItem) : List Lexeme :=
  a.name ++ a.arguments.elim [] fun ls =>
    ⟨.openRound, ['(']⟩ :: (ls ++ ⟨.closeRound, [')']⟩ :: a.rest)

/-- The name without blanks and comments. -/
def nameText (a : AttributeItem) : Text :=
  (a.name.filter fun l => !l.kind.isTrivia).flatMap Lexeme.text

/-- The text between the brackets, empty without brackets. -/
def argumentText (a : AttributeItem) : Text :=
  a.arguments.elim [] fun ls => ls.flatMap Lexeme.text

/-- The number of tokens of the name and of the arguments with their brackets. -/
def width (a : AttributeItem) : ℕ := a.name.length + a.arguments.elim 0 fun ls => ls.length + 2

/-- What is read of an attribute whose first token is at `start`, in a group that opens at
`opener`. -/
def tag? (a : AttributeItem) (opener start : ℕ) : Option MappingTag :=
  if MappingTag.isMapping a.nameText then
    some (.ofArguments a.nameText opener start (start + a.width) .native a.argumentText)
  else none

variable (a : AttributeItem)

theorem isQuiet_of_mem {l : Lexeme} (hl : l ∈ a.lexemes) : l.kind.isQuiet = true := by
  rw [lexemes, List.mem_append] at hl
  rcases hl with hl | hl
  · exact Kind.isQuiet_of_isPlain (a.name_plain l hl)
  · cases harguments : a.arguments with
    | none =>
      rw [harguments] at hl
      cases hl
    | some ls =>
      rw [harguments, Option.elim_some, List.mem_cons, List.mem_append, List.mem_cons] at hl
      obtain rfl | hl | rfl | hl := hl
      · rfl
      · exact a.arguments_quiet ls harguments l hl
      · rfl
      · exact Kind.isQuiet_of_isPlain (a.rest_plain l hl)

theorem kinds_of_arguments {ls : List Lexeme} (ha : a.arguments = some ls) :
    a.lexemes.map Lexeme.kind = a.name.map Lexeme.kind ++
      .openRound :: (ls.map Lexeme.kind ++ .closeRound :: a.rest.map Lexeme.kind) := by
  simp [lexemes, ha]

theorem lexemes_of_arguments {ls : List Lexeme} (ha : a.arguments = some ls) :
    a.lexemes = a.name ++ ⟨.openRound, ['(']⟩ :: (ls ++ ⟨.closeRound, [')']⟩ :: a.rest) := by
  simp [lexemes, ha]

theorem ne_attributeClose {ls : List Lexeme} (ha : a.arguments = some ls) :
    ∀ l ∈ ls, l.kind ≠ .attributeClose := fun l hl =>
  (Kind.not_mem_of_isQuiet (a.arguments_quiet ls ha l hl)).2.2

theorem square_balanced : Family.square.Balanced (a.lexemes.map Lexeme.kind) := by
  have hplain : ∀ ls : List Lexeme, (∀ l ∈ ls, l.kind.isPlain = true) →
      Family.square.Balanced (ls.map Lexeme.kind) := fun ls hls =>
    .of_forall (List.forall_mem_map.2 fun l hl => Kind.step?_of_isPlain (hls l hl) nofun)
  cases ha : a.arguments with
  | none => simpa [lexemes, ha] using hplain _ a.name_plain
  | some ls =>
    rw [a.kinds_of_arguments ha]
    exact (hplain _ a.name_plain).append
      (((a.arguments_balanced ls ha .square nofun).append ((hplain _ a.rest_plain).cons rfl)).cons rfl)

/-- Some attributes with commas between them. -/
def listed (first : AttributeItem) (others : List AttributeItem) : List Lexeme :=
  first.lexemes ++ others.flatMap fun a => ⟨.comma, [',']⟩ :: a.lexemes

/-- What is read of some attributes, the first of which begins at `start`. -/
def tagsFrom (opener start : ℕ) : List AttributeItem → List MappingTag
  | [] => []
  | a :: as => (a.tag? opener start).toList ++ tagsFrom opener (start + a.lexemes.length + 1) as

theorem listed_cons (first a : AttributeItem) (others : List AttributeItem) :
    listed first (a :: others) = first.lexemes ++ ⟨.comma, [',']⟩ :: listed a others := by
  simp [listed]

theorem isQuiet_of_mem_listed {first : AttributeItem} {others : List AttributeItem} {l : Lexeme}
    (hl : l ∈ listed first others) : l.kind.isQuiet = true := by
  rcases List.mem_append.1 hl with hl | hl
  · exact first.isQuiet_of_mem hl
  · obtain ⟨a, -, hl⟩ := List.mem_flatMap.1 hl
    rcases List.mem_cons.1 hl with rfl | hl
    · rfl
    · exact a.isQuiet_of_mem hl

theorem square_balanced_listed (first : AttributeItem) (others : List AttributeItem) :
    Family.square.Balanced ((listed first others).map Lexeme.kind) := by
  rw [listed, List.map_append, List.map_flatMap]
  exact first.square_balanced.append (.flatMap fun a _ => a.square_balanced.cons rfl)

end AttributeItem

/-! ### Groups -/

/-- An attribute group: its attributes, and what comes after it and before the next group or
declaration. -/
structure AttributeGroup where
  first : AttributeItem
  others : List AttributeItem
  gap : List Lexeme
  gap_quiet : ∀ l ∈ gap, l.kind.isQuiet = true

namespace AttributeGroup

variable (g : AttributeGroup)

/-- The lexemes between the marks of a group. -/
def content : List Lexeme := AttributeItem.listed g.first g.others

/-- The lexemes of a group and of what comes after it. -/
def lexemes : List Lexeme :=
  ⟨.attributeOpen, ['#', '[']⟩ :: (g.content ++ ⟨.attributeClose, [']']⟩ :: g.gap)

/-- The marks of a group that begins at `start`. -/
def bounds (start : ℕ) : Range := ⟨start, start + (g.content.length + 1)⟩

/-- What is read of a group that begins at `start`. -/
def tags (start : ℕ) : List MappingTag :=
  AttributeItem.tagsFrom start (start + 1) (g.first :: g.others)

theorem bounds_closer_lt (start : ℕ) : (g.bounds start).closer < start + g.lexemes.length := by
  simp only [bounds, lexemes, List.length_cons, List.length_append]
  omega

end AttributeGroup

section Reading

variable {f : SourceFile} {start : ℕ} {a : AttributeItem}

namespace AttributeItem

/-- An attribute is a part of its group: no part ends in it. -/
theorem partBounds_eq (hpaired : Token.WellPaired f.tokens.toList) (h : f.Passage start a.lexemes)
    {stop first : ℕ} (hstop : start + a.lexemes.length ≤ stop) :
    f.partBounds [.openRound, .openSquare] stop first start =
      f.partBounds [.openRound, .openSquare] stop first (start + a.lexemes.length) := by
  have hplain : ∀ k : Kind, k.isPlain = true →
      k ≠ .comma ∧ [Kind.openRound, .openSquare].contains k = false := by
    intro k hk
    obtain ⟨hcomma, hround, hsquare⟩ := Kind.ne_of_isPlain hk
    exact ⟨hcomma, by simp [hround, hsquare]⟩
  cases ha : a.arguments with
  | none =>
    have hlexemes : a.lexemes = a.name := by simp [lexemes, ha]
    rw [hlexemes] at h hstop ⊢
    exact h.partBounds_eq hstop fun l hl => hplain _ (a.name_plain l hl)
  | some ls =>
    have hlength : a.lexemes.length = a.name.length + (ls.length + 1) + 1 + a.rest.length := by
      simp only [lexemes, ha, Option.elim_some, List.length_append, List.length_cons]
      omega
    rw [hlength] at hstop ⊢
    rw [a.lexemes_of_arguments ha] at h
    exact h.partBounds_called hpaired (a.ne_attributeClose ha)
      (a.arguments_balanced ls ha .round nofun)
      (List.forall_mem_append.2 ⟨fun l hl => hplain _ (a.name_plain l hl), fun l hl =>
        hplain _ (a.rest_plain l hl)⟩) hstop

/-- **An attribute is read with its name and the text between its brackets.** -/
theorem nativeTag?_eq (hpaired : Token.WellPaired f.tokens.toList) (h : f.Passage start a.lexemes)
    (opener : ℕ) :
    f.nativeTag? opener start (start + a.lexemes.length) = a.tag? opener start := by
  have hround : ∀ l ∈ a.name, l.kind ≠ .openRound := fun l hl =>
    (Kind.ne_of_isPlain (a.name_plain l hl)).2.1
  cases ha : a.arguments with
  | none =>
    have hlexemes : a.lexemes = a.name := by simp [lexemes, ha]
    rw [hlexemes] at h
    have hname : f.codeBetween start (start + a.name.length) = a.nameText := by
      have hcode := h.codeBetween (a := 0) le_rfl
      rwa [List.take_length, List.drop_zero] at hcode
    have hnone : f.nextOfKind? [.openRound] start (some (start + a.name.length)) false = none :=
      h.nextOfKind?_eq_none fun l hl => List.mem_singleton.not.2 (hround l hl)
    simp only [nativeTag?, hnone, tag?, width, argumentText, ha, Option.getD_none, Option.bind_none,
      Option.elim_none, hlexemes, hname, Nat.add_zero]
  | some ls =>
    have hlength : a.name.length + (ls.length + 1) < a.lexemes.length := by
      simp only [lexemes, ha, Option.elim_some, List.length_append, List.length_cons]
      omega
    rw [a.lexemes_of_arguments ha] at h
    rw [h.nativeTag?_called hpaired (a.ne_attributeClose ha) (a.arguments_balanced ls ha .round nofun)
      hround opener (Nat.add_lt_add_left hlength start)]
    simp only [tag?, width, argumentText, nameText, ha, Option.elim_some]

/-- Attributes in a list are read one by one. -/
theorem tagsFrom_eq (hpaired : Token.WellPaired f.tokens.toList) (opener : ℕ)
    {others : List AttributeItem} (h : f.Passage start (listed a others)) :
    (f.partBounds [.openRound, .openSquare] (start + (listed a others).length) start
      start).filterMap (fun part => f.nativeTag? opener part.1 part.2) =
        tagsFrom opener start (a :: others) := by
  induction others generalizing a start with
  | nil =>
    have hlisted : listed a [] = a.lexemes := by simp [listed]
    rw [hlisted] at h ⊢
    have hend : f.partBounds [.openRound, .openSquare] (start + a.lexemes.length) start
        (start + a.lexemes.length) = [(start, start + a.lexemes.length)] :=
      partBounds_of_forall fun j hj hlt => absurd hlt hj.not_gt
    rw [partBounds_eq hpaired h le_rfl, hend, List.filterMap_cons]
    dsimp only
    rw [nativeTag?_eq hpaired h]
    cases htag : a.tag? opener start <;> simp [tagsFrom, htag]
  | cons b others ih =>
    rw [listed_cons] at h ⊢
    have hitem := Passage.left h
    have hrest := Passage.right h
    have hcomma : f.kindAt (start + a.lexemes.length) = some .comma := hrest.kindAt (a := 0) rfl
    have hlength : start + (a.lexemes ++ ⟨.comma, [',']⟩ :: listed b others).length =
        start + a.lexemes.length + 1 + (listed b others).length := by
      rw [List.length_append, List.length_cons]
      omega
    have htail := ih hrest.tail
    rw [hlength, partBounds_eq hpaired hitem (by omega), partBounds_of_comma (by omega) hcomma,
      List.filterMap_cons]
    dsimp only
    rw [nativeTag?_eq hpaired hitem, htail]
    cases htag : a.tag? opener start <;> simp [tagsFrom, htag]

end AttributeItem

namespace AttributeGroup

variable {g : AttributeGroup}

/-- The marks of a group match. -/
theorem matches_bounds (h : f.Passage start g.lexemes) :
    Family.square.Matches (Token.kinds f.tokens.toList) (g.bounds start) ∧
      (Token.kinds f.tokens.toList)[start]? = some .attributeOpen := by
  have hcontent : (g.content.map fun l => l.kind.unpaired) = g.content.map Lexeme.kind :=
    map_unpaired_of_isQuiet fun _ => AttributeItem.isQuiet_of_mem_listed
  have hmatches : Family.square.Matches (g.lexemes.map fun l => l.kind.unpaired)
      ⟨0, g.content.length + 1⟩ := by
    rw [lexemes, List.map_cons, List.map_append, List.map_cons, hcontent, content]
    simpa [Kind.unpaired] using Family.Matches.of_append [] (g.gap.map fun l => l.kind.unpaired)
      (o := .attributeOpen) (c := .closeSquare) rfl rfl
      (AttributeItem.square_balanced_listed g.first g.others)
  refine ⟨by simpa [bounds] using h.matching_unpaired hmatches, ?_⟩
  exact h.getElem?_unpaired (a := 0) (by simp [lexemes])

/-- **The attributes of a group are read one by one, each with the text between its brackets.** -/
theorem groupTags_eq (hpaired : Token.WellPaired f.tokens.toList) (h : f.Passage start g.lexemes) :
    f.groupTags (g.bounds start) = g.tags start := by
  have hinner : f.Passage (start + 1) (AttributeItem.listed g.first g.others) :=
    Passage.left (Passage.tail h)
  have hcloser : (g.bounds start).closer =
      start + 1 + (AttributeItem.listed g.first g.others).length := by
    dsimp only [bounds, content]
    omega
  rw [groupTags, hcloser]
  exact AttributeItem.tagsFrom_eq hpaired start hinner

end AttributeGroup

end Reading

end EntityLint
