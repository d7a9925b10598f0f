import EntityLint.Proofs.Source.Nested
import EntityLint.Proofs.Token.Nullable

/-!
# Parameters as they are written

A parameter may have attribute groups, modifiers, a type, a reference mark and an ellipsis in front of
its variable, and a default behind it, with blanks and comments anywhere between them. Question marks
are cut like those of conditional expressions; what stands around the one of a type shows what it is.

* `Gap`, `WrittenGroup`, `WrittenModifier`, `WrittenType`, `WrittenHint`: the parts of a parameter;
* `WrittenParameter`, `ParameterList`, `WrittenFunction`: a parameter, a list and a function, with their
  lexemes;
* `ParameterList.map_lexemes`: the kind of question marks matters to nothing but them;
* `WrittenParameter.isNullable_parameter`: which types begin with a question mark;
* `WrittenParameter.nested`, `ParameterList.nested`: their brackets are properly nested;
* `WrittenParameter.MarkIsSeen`: question marks whose surroundings show a type.

The main statement is `WrittenFunction.resolvedAs`: these question marks count as parts of types.
-/

namespace EntityLint

open Lexeme

/-! ### Parts of a parameter -/

/-- Blanks and comments. -/
structure Gap where
  lexemes : List Lexeme
  isTrivia_of_mem : ∀ l ∈ lexemes, l.kind.isTrivia = true

/-- A lexeme with blanks and comments behind it, if it is there. -/
def Gap.behind (l : Lexeme) (gap : Option Gap) : List Lexeme := gap.elim [] fun gap => l :: gap.lexemes

/-- An attribute group and what follows it. -/
structure WrittenGroup where
  content : List Lexeme
  gap : Gap
  nested_content : Nested true (content.map Lexeme.kind)

/-- The lexemes of a group. Its end is cut as a square bracket. -/
def WrittenGroup.lexemes (g : WrittenGroup) : List Lexeme :=
  ⟨.attributeOpen, ['#', '[']⟩ :: (g.content ++ ⟨.closeSquare, [']']⟩ :: g.gap.lexemes)

/-- Keywords by which a parameter declares a property. -/
def Kind.isPromotion : Kind → Bool
  | kwPublic | kwProtected | kwPrivate | kwReadonly => true
  | _ => false

/-- A keyword in front of a type, and what follows it. -/
structure WrittenModifier where
  keyword : Lexeme
  gap : Gap
  isPromotion : keyword.kind.isPromotion = true

/-- The lexemes of a modifier. -/
def WrittenModifier.lexemes (m : WrittenModifier) : List Lexeme := m.keyword :: m.gap.lexemes

/-- A type without a question mark: a name, or names that are joined and grouped. -/
structure WrittenType where
  lexemes : List Lexeme
  isTypePart_of_mem : ∀ l ∈ lexemes,
    l.kind.isTrivia = true ∨ l.kind.isTypePart = true ∧ l.kind ≠ .nullable
  nested : Nested false (lexemes.map Lexeme.kind)
  /-- A type ends with a name or a bracket. -/
  last : ∃ l ∈ lexemes.getLast?, l.kind.isTrivia = false ∧ l.kind ≠ .ampersand

/-- The text of a type without blanks and comments. -/
def WrittenType.text (t : WrittenType) : Text :=
  (t.lexemes.filter fun l => !l.kind.isTrivia).flatMap Lexeme.text

/-- A type with or without a question mark in front of it, and what follows it. -/
structure WrittenHint where
  nullable : Option Gap
  type : WrittenType
  gap : Gap

namespace WrittenHint

/-- The lexemes of a type, with a given kind of question mark. -/
def lexemes (mark : Kind) (h : WrittenHint) : List Lexeme :=
  Gap.behind ⟨mark, ['?']⟩ h.nullable ++ (h.type.lexemes ++ h.gap.lexemes)

/-- The text of a type with its question mark. -/
def text (h : WrittenHint) : Text := h.nullable.elim [] (fun _ => ['?']) ++ h.type.text

end WrittenHint

/-! ### Parameters and functions -/

/-- A parameter as it is written. -/
structure WrittenParameter where
  before : Gap
  groups : List WrittenGroup
  modifiers : List WrittenModifier
  hint : Option WrittenHint
  reference : Option Gap
  ellipsis : Option Gap
  name : Text
  after : Gap
  default : Option (List Lexeme)
  nested_default : ∀ ls ∈ default, Nested false (ls.map Lexeme.kind)

namespace WrittenParameter

/-- What stands in front of the type of a parameter. -/
def front (p : WrittenParameter) : List Lexeme :=
  p.before.lexemes ++ (p.groups.flatMap WrittenGroup.lexemes ++ p.modifiers.flatMap WrittenModifier.lexemes)

/-- The reference mark and the ellipsis of a parameter. -/
def marks (p : WrittenParameter) : List Lexeme :=
  Gap.behind ⟨.ampersand, ['&']⟩ p.reference ++ Gap.behind ⟨.ellipsis, ['.', '.', '.']⟩ p.ellipsis

/-- What stands behind the variable of a parameter. -/
def rear (p : WrittenParameter) : List Lexeme :=
  p.after.lexemes ++ p.default.elim [] fun ls => ⟨.equals, ['=']⟩ :: ls

/-- What stands in front of the variable of a parameter. -/
def head (mark : Kind) (p : WrittenParameter) : List Lexeme :=
  p.front ++ (p.hint.elim [] (WrittenHint.lexemes mark) ++ p.marks)

/-- The lexemes of a parameter, with a given kind of question mark in front of its type. -/
def lexemes (mark : Kind) (p : WrittenParameter) : List Lexeme :=
  p.head mark ++ ⟨.variable, p.name⟩ :: p.rear

/-- The text of a parameter. -/
def text (p : WrittenParameter) : Text := (p.lexemes .ternary).flatMap Lexeme.text

/-- The number of lexemes in front of the variable of a parameter. -/
def width (p : WrittenParameter) : ℕ := (p.head .ternary).length

/-- What is written in a parameter whose first token is at `start`. -/
def parameter (p : WrittenParameter) (start : ℕ) : Parameter where
  token := start + p.width
  name := p.name
  content := Text.trim p.text
  typeText := p.hint.elim [] WrittenHint.text
  default := p.default.map fun ls => Text.trim (ls.flatMap Lexeme.text)
  byReference := p.reference.isSome
  isVariadic := p.ellipsis.isSome
  visibility := Visibility.last? (p.modifiers.map fun m => m.keyword.kind)

/-- What is written in some parameters with commas between them, the first of which begins at `start`. -/
def parametersFrom (start : ℕ) : List WrittenParameter → List Parameter
  | [] => []
  | p :: ps => p.parameter start :: parametersFrom (start + (p.lexemes .ternary).length + 1) ps

end WrittenParameter

/-- The parameters between the brackets of a function: some with a comma behind them, and a last one or
only blanks and comments. -/
structure ParameterList where
  leading : List WrittenParameter
  last : Gap ⊕ WrittenParameter

namespace ParameterList

/-- The lexemes of a list, with a given kind of question marks. -/
def lexemes (mark : Kind) (ps : ParameterList) : List Lexeme :=
  ps.leading.flatMap (fun p => p.lexemes mark ++ [⟨.comma, [',']⟩]) ++
    ps.last.elim Gap.lexemes (WrittenParameter.lexemes mark)

/-- The parameters of a list. -/
def parameters (ps : ParameterList) : List WrittenParameter :=
  ps.leading ++ ps.last.elim (fun _ => []) fun p => [p]

end ParameterList

/-- A function from its keyword to the end of its parameters. -/
structure WrittenFunction where
  keyword : Lexeme
  /-- The name, if there is one, and a reference mark. -/
  name : List Lexeme
  list : ParameterList
  isFunction : keyword.kind = .kwFunction ∨ keyword.kind = .kwFn
  name_plain : ∀ l ∈ name, l.kind.isTrivia = true ∨ l.kind = .word ∨ l.kind = .ampersand

namespace WrittenFunction

/-- What stands in front of the parameters of a function. -/
def front (fn : WrittenFunction) : List Lexeme := fn.keyword :: (fn.name ++ [⟨.openRound, ['(']⟩])

/-- The lexemes of a function, with a given kind of question marks. -/
def lexemes (mark : Kind) (fn : WrittenFunction) : List Lexeme :=
  fn.front ++ (fn.list.lexemes mark ++ [⟨.closeRound, [')']⟩])

/-- What is written in the parameters of a function whose keyword is at `start`. -/
def parametersAt (fn : WrittenFunction) (start : ℕ) : List Parameter :=
  WrittenParameter.parametersFrom (start + fn.front.length) fn.list.parameters

end WrittenFunction

/-! ### Question marks of two kinds -/

section Marks

variable {α : Type} {g : Lexeme → α} {mark : Kind} (hg : g ⟨mark, ['?']⟩ = g ⟨.ternary, ['?']⟩)

include hg

/-- The kind of question marks matters to nothing but them. -/
theorem WrittenParameter.map_head (p : WrittenParameter) :
    (p.head mark).map g = (p.head .ternary).map g := by
  cases hhint : p.hint with
  | none => simp [head, hhint]
  | some t => cases hmark : t.nullable <;> simp [head, hhint, WrittenHint.lexemes, hmark, Gap.behind, hg]

theorem WrittenParameter.map_lexemes (p : WrittenParameter) :
    (p.lexemes mark).map g = (p.lexemes .ternary).map g := by
  rw [lexemes, lexemes, List.map_append, List.map_append, p.map_head hg]

theorem ParameterList.map_lexemes (ps : ParameterList) :
    (ps.lexemes mark).map g = (ps.lexemes .ternary).map g := by
  have hleading : (fun p : WrittenParameter => List.map g (p.lexemes mark ++ [⟨.comma, [',']⟩])) =
      fun p => List.map g (p.lexemes .ternary ++ [⟨.comma, [',']⟩]) := by
    funext p
    rw [List.map_append, List.map_append, p.map_lexemes hg]
  rw [lexemes, lexemes, List.map_append, List.map_append, List.map_flatMap, List.map_flatMap, hleading]
  cases ps.last with
  | inl g => rfl
  | inr p => exact congrArg _ (p.map_lexemes hg)

end Marks

namespace WrittenParameter

variable (mark : Kind) (p : WrittenParameter)

theorem texts_lexemes : (p.lexemes mark).map Lexeme.text = (p.lexemes .ternary).map Lexeme.text :=
  p.map_lexemes (by rfl)

theorem length_lexemes : (p.lexemes mark).length = (p.lexemes .ternary).length := by
  simpa using congrArg List.length (p.texts_lexemes mark)

theorem length_head : (p.head mark).length = p.width := by
  have htexts : (p.head mark).map Lexeme.text = (p.head .ternary).map Lexeme.text :=
    p.map_head (by rfl)
  simpa [width] using congrArg List.length htexts

end WrittenParameter

/-! ### Types with question marks -/

/-- The text of a type begins with a question mark exactly if one is written there. -/
theorem WrittenHint.head?_text (h : WrittenHint) (htype : ∀ l ∈ h.type.lexemes,
    l.kind.isTypePart = true → l.text.head? ≠ some '?') : (h.text.head? == some '?') = h.nullable.isSome := by
  cases hnullable : h.nullable with
  | some g => simp [text, hnullable]
  | none =>
    have hhead : h.type.text.head? ≠ some '?' := by
      rw [WrittenType.text, List.head?_flatMap]
      intro hmark
      obtain ⟨l, hl, hlmark⟩ := List.exists_of_findSome?_eq_some hmark
      obtain ⟨hl, hsignificant⟩ := List.mem_filter.1 hl
      have hpart := (h.type.isTypePart_of_mem l hl).resolve_left (by simpa using hsignificant)
      exact htype l hl hpart.1 hlmark
    simpa [text, hnullable] using hhead

namespace WrittenParameter

variable (p : WrittenParameter)

/-- Whether a question mark is written in front of the type of a parameter. -/
def isMarked : Bool := p.hint.any fun h => h.nullable.isSome

/-- The type of a parameter begins with a question mark exactly if one is written there. -/
theorem isNullable_parameter {start : ℕ} (h : ∀ l ∈ p.lexemes .ternary, l.kind.isTypePart = true →
    l.text.head? ≠ some '?') : (p.parameter start).isNullable = p.isMarked := by
  cases hhint : p.hint with
  | none => simp [Parameter.isNullable, parameter, isMarked, hhint]
  | some t =>
    have hmem : ∀ l ∈ t.type.lexemes, l ∈ p.lexemes .ternary := fun l hl => by
      simp [lexemes, head, hhint, WrittenHint.lexemes, hl]
    simpa [Parameter.isNullable, parameter, isMarked, hhint] using
      t.head?_text fun l hl => h l (hmem l hl)

theorem map_isNullable_parametersFrom {start : ℕ} {ps : List WrittenParameter}
    (h : ∀ p ∈ ps, ∀ l ∈ p.lexemes .ternary, l.kind.isTypePart = true → l.text.head? ≠ some '?') :
    (parametersFrom start ps).map Parameter.isNullable = ps.map isMarked := by
  induction ps generalizing start with
  | nil => rfl
  | cons p ps ih =>
    obtain ⟨hp, hps⟩ := List.forall_mem_cons.1 h
    rw [parametersFrom, List.map_cons, List.map_cons, p.isNullable_parameter hp, ih hps]

end WrittenParameter

theorem ParameterList.mem_lexemes {ps : ParameterList} {p : WrittenParameter} {l : Lexeme} {mark : Kind}
    (hp : p ∈ ps.parameters) (hl : l ∈ p.lexemes mark) : l ∈ ps.lexemes mark := by
  rcases List.mem_append.1 hp with hp | hp
  · exact List.mem_append_left _ (List.mem_flatMap.2 ⟨p, hp, List.mem_append_left _ hl⟩)
  · cases hlast : ps.last with
    | inl g =>
      rw [hlast] at hp
      cases hp
    | inr q =>
      rw [hlast] at hp
      obtain rfl := List.mem_singleton.1 hp
      rw [lexemes, hlast]
      exact List.mem_append_right _ hl

theorem WrittenFunction.isSettled_front (fn : WrittenFunction) :
    ∀ l ∈ fn.front, l.kind.IsSettled ∧ l.kind ≠ .attributeOpen := by
  intro l hl
  rw [front, List.mem_cons, List.mem_append, List.mem_singleton] at hl
  rcases hl with rfl | hl | rfl
  · rcases fn.isFunction with hkind | hkind <;> rw [hkind] <;> decide
  · have hname := fn.name_plain l hl
    revert hname
    cases l.kind <;> decide
  · decide

/-! ### Nested brackets -/

namespace Kind

variable {k : Kind}

theorem not_isBracket_of_isTrivia (h : k.isTrivia = true) : k.isBracket = false ∧ k ≠ .comma := by
  revert h
  cases k <;> decide

theorem not_isBracket_of_isPromotion (h : k.isPromotion = true) : k.isBracket = false ∧ k ≠ .comma := by
  revert h
  cases k <;> decide

end Kind

section Nesting

variable {commas : Bool}

theorem Gap.nested (g : Gap) : Nested commas (g.lexemes.map Lexeme.kind) :=
  .of_forall (List.forall_mem_map.2 fun l hl => Kind.not_isBracket_of_isTrivia (g.isTrivia_of_mem l hl))

theorem Gap.nested_behind {l : Lexeme} (hl : l.kind.isBracket = false ∧ l.kind ≠ .comma)
    (g : Option Gap) : Nested commas ((Gap.behind l g).map Lexeme.kind) := by
  cases g with
  | none => exact .nil
  | some g => exact .cons hl.1 (fun hcomma => absurd hcomma hl.2) g.nested

theorem WrittenGroup.nested (g : WrittenGroup) : Nested commas (g.lexemes.map Lexeme.kind) := by
  rw [lexemes, List.map_cons, List.map_append, List.map_cons]
  exact .pair rfl g.nested_content g.gap.nested

theorem WrittenModifier.nested (m : WrittenModifier) : Nested commas (m.lexemes.map Lexeme.kind) :=
  have hkeyword := Kind.not_isBracket_of_isPromotion m.isPromotion
  .cons hkeyword.1 (fun hcomma => absurd hcomma hkeyword.2) m.gap.nested

namespace WrittenParameter

variable (p : WrittenParameter)

theorem nested_head : Nested false ((p.head .nullable).map Lexeme.kind) := by
  have hgroups : Nested false ((p.groups.flatMap WrittenGroup.lexemes).map Lexeme.kind) := by
    rw [List.map_flatMap]
    exact .flatMap fun g _ => g.nested
  have hmodifiers : Nested false ((p.modifiers.flatMap WrittenModifier.lexemes).map Lexeme.kind) := by
    rw [List.map_flatMap]
    exact .flatMap fun m _ => m.nested
  have hhint : Nested false ((p.hint.elim [] (WrittenHint.lexemes .nullable)).map Lexeme.kind) := by
    cases p.hint with
    | none => exact .nil
    | some h =>
      rw [Option.elim_some, WrittenHint.lexemes, List.map_append, List.map_append]
      exact (Gap.nested_behind (by decide) _).append (h.type.nested.append h.gap.nested)
  simp only [head, front, marks, List.map_append]
  exact (p.before.nested.append (hgroups.append hmodifiers)).append
    (hhint.append ((Gap.nested_behind (by decide) _).append (Gap.nested_behind (by decide) _)))

theorem nested_rear : Nested false (p.rear.map Lexeme.kind) := by
  rw [rear, List.map_append]
  refine p.after.nested.append ?_
  cases hdefault : p.default with
  | none => exact .nil
  | some ls => exact .cons rfl nofun (p.nested_default ls hdefault)

theorem nested : Nested false ((p.lexemes .nullable).map Lexeme.kind) := by
  rw [lexemes, List.map_append]
  exact p.nested_head.append (.cons rfl nofun p.nested_rear)

end WrittenParameter

theorem ParameterList.nested (ps : ParameterList) :
    Nested true ((ps.lexemes .nullable).map Lexeme.kind) := by
  rw [lexemes, List.map_append, List.map_flatMap]
  refine .append (.flatMap fun p _ => ?_) ?_
  · rw [List.map_append]
    exact p.nested.mono.append (.cons rfl (fun _ => rfl) .nil)
  · cases ps.last with
    | inl g => exact g.nested
    | inr p => exact p.nested.mono

end Nesting

/-! ### Question marks -/

/-- The question mark of a type, if there is one, is seen to be one: no attribute group ends directly in
front of it, and the type begins with one of the kinds that are looked for. -/
def WrittenParameter.MarkIsSeen (p : WrittenParameter) : Prop :=
  ∀ h ∈ p.hint, h.nullable.isSome = true → (p.groups = [] ∨ p.modifiers ≠ []) ∧
    (firstSignificant? h.type.lexemes).any Kind.beginsType = true

theorem WrittenModifier.ne_ternary (m : WrittenModifier) : ∀ l ∈ m.lexemes, l.kind ≠ .ternary := by
  refine List.forall_mem_cons.2 ⟨fun hk => ?_, fun l hl hk => ?_⟩
  · have hkeyword := m.isPromotion
    rw [hk] at hkeyword
    cases hkeyword
  · have htrivia := m.gap.isTrivia_of_mem l hl
    rw [hk] at htrivia
    cases htrivia

theorem Kind.precedesType_of_isPromotion {k : Kind} (h : k.isPromotion = true) :
    k.isTrivia = false ∧ k.precedesType = true := by
  revert h
  cases k <;> decide

/-- A type may follow a modifier. -/
theorem precedesType_modifiers {ms : List WrittenModifier} (hms : ms ≠ []) (before : Option Kind) :
    (lastSignificant before (ms.flatMap WrittenModifier.lexemes)).any Kind.precedesType = true := by
  have hkeyword (m : WrittenModifier) := Kind.precedesType_of_isPromotion m.isPromotion
  obtain ⟨m, hlast⟩ : ∃ m : WrittenModifier,
      lastSignificant before (ms.flatMap WrittenModifier.lexemes) = some m.keyword.kind :=
    exists_lastSignificant_flatMap hms
      (fun m _ => lastSignificant_cons_trivia (hkeyword m).1 m.gap.isTrivia_of_mem) before
  rw [hlast]
  exact (hkeyword m).2

/-- The question mark of a type is seen behind what a type may follow. -/
theorem WrittenHint.resolvedAs {h : WrittenHint} {before : Option Kind} (hmark : h.nullable.isSome = true →
    before.any Kind.precedesType = true ∧ (firstSignificant? h.type.lexemes).any Kind.beginsType = true)
    (rest : List Lexeme) :
    ResolvedAs before (h.lexemes .ternary ++ rest) (h.lexemes .nullable ++ rest) := by
  cases hnullable : h.nullable with
  | none =>
    rw [lexemes, lexemes, hnullable]
    exact .refl before _
  | some g =>
    obtain ⟨hbefore, hbegins⟩ := hmark (by rw [hnullable]; rfl)
    obtain ⟨k, hk, hkbegins⟩ := Option.any_eq_true _ _ |>.1 hbegins
    have hsplit (mark : Kind) : h.lexemes mark ++ rest =
        ⟨mark, ['?']⟩ :: (g.lexemes ++ (h.type.lexemes ++ (h.gap.lexemes ++ rest))) := by
      simp [lexemes, hnullable, Gap.behind]
    rw [hsplit, hsplit]
    refine .mark hbefore ?_ hkbegins ['?']
    rw [firstSignificant?_of_trivia g.isTrivia_of_mem]
    exact firstSignificant?_append hk _

namespace WrittenParameter

variable {p : WrittenParameter} {before : Option Kind}

theorem resolvedAs (hbefore : before.any Kind.precedesType = true) (hmark : p.MarkIsSeen) :
    ResolvedAs before (p.lexemes .ternary) (p.lexemes .nullable) := by
  have hsplit (mark : Kind) : p.lexemes mark =
      (p.before.lexemes ++ p.groups.flatMap WrittenGroup.lexemes) ++
        (p.modifiers.flatMap WrittenModifier.lexemes ++ (p.hint.elim [] (WrittenHint.lexemes mark) ++
          (p.marks ++ ⟨.variable, p.name⟩ :: p.rear))) := by
    simp [lexemes, head, front]
  have hmodifiers : ∀ l ∈ p.modifiers.flatMap WrittenModifier.lexemes, l.kind ≠ .ternary := by
    intro l hl
    obtain ⟨m, -, hl⟩ := List.mem_flatMap.1 hl
    exact m.ne_ternary l hl
  rw [hsplit, hsplit]
  refine (ResolvedAs.refl before _).append fun ms' hms' => .append_left hmodifiers ?_
  cases hhint : p.hint with
  | none => exact .refl _ _
  | some h =>
    refine WrittenHint.resolvedAs (fun hnullable => ?_) _
    obtain ⟨hfront, hbegins⟩ := hmark h hhint hnullable
    refine ⟨?_, hbegins⟩
    -- the last significant lexeme in front of the mark is a modifier or what stands before it all
    by_cases hnone : p.modifiers = []
    · rw [hfront.resolve_right (not_not.2 hnone), List.flatMap_nil, List.append_nil] at hms'
      have hgap := eq_of_forall_resolves hms' fun l hl hk => by
        have htrivia := p.before.isTrivia_of_mem l hl
        rw [hk] at htrivia
        cases htrivia
      rw [hgap, hnone, List.flatMap_nil, lastSignificant_of_trivia p.before.isTrivia_of_mem]
      exact hbefore
    · exact precedesType_modifiers hnone _

end WrittenParameter

theorem ParameterList.resolvedAs {before : Option Kind} {ps : ParameterList}
    (hbefore : before.any Kind.precedesType = true) (hmarks : ∀ p ∈ ps.parameters, p.MarkIsSeen) :
    ResolvedAs before (ps.lexemes .ternary) (ps.lexemes .nullable) := by
  obtain ⟨leading, last⟩ := ps
  induction leading generalizing before with
  | nil =>
    cases last with
    | inl g => exact .refl before _
    | inr p => exact WrittenParameter.resolvedAs hbefore (hmarks p (by simp [parameters]))
  | cons p leading ih =>
    have hp := WrittenParameter.resolvedAs hbefore (hmarks p (by simp [parameters]))
    have hsplit (mark : Kind) : lexemes mark ⟨p :: leading, last⟩ =
        p.lexemes mark ++ ([⟨.comma, [',']⟩] ++ lexemes mark ⟨leading, last⟩) := by
      simp [lexemes]
    rw [hsplit, hsplit]
    exact hp.append fun _ _ => .append_left (by simp)
      (ih rfl fun q hq => hmarks q (List.mem_cons_of_mem p hq))

/-- **Question marks of types are seen in the parameters of a function**, whatever stands around it. -/
theorem WrittenFunction.resolvedAs {fn : WrittenFunction} (before : Option Kind)
    (hmarks : ∀ p ∈ fn.list.parameters, p.MarkIsSeen) :
    ResolvedAs before (fn.lexemes .ternary) (fn.lexemes .nullable) := by
  have hfront : ∀ l ∈ fn.front, l.kind ≠ .ternary := by
    intro l hl hk
    rw [front, List.mem_cons, List.mem_append, List.mem_singleton] at hl
    rcases hl with rfl | hl | rfl
    · rcases fn.isFunction with hkind | hkind <;> cases hk.symm.trans hkind
    · have hname := fn.name_plain l hl
      rw [hk] at hname
      revert hname
      decide
    · cases hk
  have hopen : lastSignificant before fn.front = some .openRound := by
    rw [front, ← List.cons_append, lastSignificant_append]
    rfl
  refine .append_left hfront (.append (ParameterList.resolvedAs ?_ hmarks) fun _ _ => .refl _ _)
  rw [hopen]
  rfl

end EntityLint
