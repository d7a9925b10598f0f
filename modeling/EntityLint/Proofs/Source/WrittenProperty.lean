import EntityLint.Proofs.Source.WrittenSignature

/-!
# Property declarations as they are written

A declaration has modifiers, and a type if there is one, in front of its variables. Each variable may have
a default, and blanks and comments may stand anywhere between them.

* `WrittenVariable`, `WrittenProperty`: a declaration and its lexemes;
* `WrittenProperty.property`, `WrittenProperty.placesFrom`: what is written in it, and where;
* `WrittenHint.filter_lexemes`, `WrittenHint.head?_text`: the significant lexemes of a type;
* `WrittenProperty.nested_front`, `exists_of_mem_furtherFrom`: what stands in front of its variables.

The main statement is `WrittenProperty.resolvedAs`: its question mark counts as part of the type.
-/

namespace EntityLint

open Lexeme

/-! ### Declarations -/

/-- Keywords that may stand in front of a property. -/
def Kind.isPropertyModifier : Kind → Bool
  | kwPublic | kwProtected | kwPrivate | kwStatic | kwReadonly | kwVar => true
  | _ => false

/-- A variable, and its default if there is one. -/
structure WrittenVariable where
  name : Text
  gap : Gap
  default : Option (List Lexeme)
  nested_default : ∀ ls ∈ default, Nested false (ls.map Lexeme.kind)

/-- The lexemes of a variable. -/
def WrittenVariable.lexemes (v : WrittenVariable) : List Lexeme :=
  ⟨.variable, v.name⟩ :: (v.gap.lexemes ++ v.default.elim [] (⟨.equals, ['=']⟩ :: ·))

/-- A declaration of some properties, the further ones with what stands between their comma and their
variable. -/
structure WrittenProperty where
  modifiers : List (WrittenKeyword Kind.isPropertyModifier)
  hint : Option WrittenHint
  first : WrittenVariable
  further : List (Gap × WrittenVariable)
  modifiers_ne_nil : modifiers ≠ []
  /-- No property has the type `static`. -/
  not_static : ∀ h ∈ hint, ∀ l ∈ h.type.lexemes, l.kind ≠ .kwStatic

namespace WrittenProperty

/-- What stands in front of the first variable, with a given kind of question mark. -/
def front (mark : Kind) (d : WrittenProperty) : List Lexeme :=
  d.modifiers.flatMap WrittenKeyword.lexemes ++ d.hint.elim [] (WrittenHint.lexemes mark)

/-- A comma with the variable that follows it. -/
def item (x : Gap × WrittenVariable) : List Lexeme :=
  ⟨.comma, [',']⟩ :: (x.1.lexemes ++ x.2.lexemes)

/-- The lexemes of a declaration, with a given kind of question mark. -/
def lexemes (mark : Kind) (d : WrittenProperty) : List Lexeme :=
  d.front mark ++ (d.first.lexemes ++ (d.further.flatMap item ++ [⟨.semicolon, [';']⟩]))

/-- What is written in front of the variables. The first visibility counts. -/
def property (d : WrittenProperty) : Property where
  visibility := (WrittenKeyword.visibilities d.modifiers).head?.getD .isPublic
  isExplicit := (WrittenKeyword.visibilities d.modifiers).head?.isSome
  isStatic := WrittenKeyword.states d.modifiers .kwStatic
  isReadonly := WrittenKeyword.states d.modifiers .kwReadonly
  typeText := d.hint.map WrittenHint.text

/-- Whether the type begins with a question mark. -/
def isMarked (d : WrittenProperty) : Bool := d.hint.any fun h => h.nullable.isSome

/-- Some variables with their indices, where the first comma is at `start`. -/
def placesFrom (start : ℕ) : List (Gap × WrittenVariable) → List (ℕ × WrittenVariable)
  | [] => []
  | x :: xs => (start + 1 + x.1.lexemes.length, x.2) :: placesFrom (start + (item x).length) xs

/-- The further variables of a declaration that begins at `start`, with their indices. -/
def furtherFrom (start : ℕ) (d : WrittenProperty) : List (ℕ × WrittenVariable) :=
  placesFrom (start + (d.front .ternary).length + d.first.lexemes.length) d.further

/-- The question mark of the type, if there is one, is seen to be one: the type begins with one of the
kinds that are looked for. -/
def MarkIsSeen (d : WrittenProperty) : Prop :=
  ∀ h ∈ d.hint, h.nullable.isSome = true →
    (firstSignificant? h.type.lexemes).any Kind.beginsType = true

end WrittenProperty

/-! ### Significant lexemes -/

theorem Kind.of_isPropertyModifier {k : Kind} (h : k.isPropertyModifier = true) :
    k.isTrivia = false ∧ k.IsSettled ∧ k.precedesType = true ∧ k.isBracket = false ∧ k ≠ .comma := by
  revert h
  cases k <;> decide

namespace WrittenHint

variable (h : WrittenHint)

theorem filter_lexemes : ((h.lexemes .nullable).filter fun l => !l.kind.isTrivia) =
    h.nullable.elim [] (fun _ => [⟨.nullable, ['?']⟩]) ++
      (h.type.lexemes.filter fun l => !l.kind.isTrivia) := by
  rw [lexemes, List.filter_append, List.filter_append, h.gap.filter_lexemes, List.append_nil]
  cases h.nullable with
  | none => rfl
  | some g =>
    rw [Gap.behind, Option.elim_some, List.filter_cons, g.filter_lexemes]
    rfl

/-- The text of a type is that of its significant lexemes. -/
theorem flatMap_text_filter :
    ((h.lexemes .nullable).filter fun l => !l.kind.isTrivia).flatMap Lexeme.text = h.text := by
  rw [filter_lexemes, List.flatMap_append, text, WrittenType.text]
  cases h.nullable <;> rfl

theorem isTypePart_of_mem_filter :
    ∀ l ∈ (h.lexemes .nullable).filter fun l => !l.kind.isTrivia, l.kind.isTypePart = true := by
  rw [filter_lexemes]
  refine List.forall_mem_append.2 ⟨?_, fun l hl => ?_⟩
  · cases h.nullable with
    | none => nofun
    | some g => exact List.forall_mem_singleton.2 rfl
  · obtain ⟨hl, hsignificant⟩ := List.mem_filter.1 hl
    exact ((h.type.isTypePart_of_mem l hl).resolve_left (by simpa using hsignificant)).1

theorem filter_lexemes_ne_nil : ((h.lexemes .nullable).filter fun l => !l.kind.isTrivia) ≠ [] := by
  obtain ⟨l, hl, hsignificant, -⟩ := h.type.last
  rw [filter_lexemes]
  refine List.append_ne_nil_of_right_ne_nil _ (List.ne_nil_of_mem (a := l) ?_)
  exact List.mem_filter.2 ⟨List.mem_of_getLast? hl, by rw [hsignificant]; rfl⟩

end WrittenHint

namespace WrittenProperty

variable (d : WrittenProperty)

theorem length_front : (d.front .nullable).length = (d.front .ternary).length := by
  rw [front, front, List.length_append, List.length_append]
  cases d.hint with
  | none => rfl
  | some h => cases hn : h.nullable <;> simp [WrittenHint.lexemes, Gap.behind, hn]

theorem filter_front : ((d.front .nullable).filter fun l => !l.kind.isTrivia) =
    d.modifiers.map WrittenKeyword.keyword ++
      (d.hint.elim [] (WrittenHint.lexemes .nullable)).filter fun l => !l.kind.isTrivia := by
  rw [front, List.filter_append,
    WrittenKeyword.filter_lexemes fun k hk => (Kind.of_isPropertyModifier hk).1]

theorem ne_static_of_mem_filter {h : WrittenHint} (hh : h ∈ d.hint) :
    ∀ l ∈ (h.lexemes .nullable).filter fun l => !l.kind.isTrivia, l.kind ≠ .kwStatic := by
  rw [h.filter_lexemes]
  refine List.forall_mem_append.2 ⟨?_, fun l hl => d.not_static h hh l (List.mem_of_mem_filter hl)⟩
  cases h.nullable with
  | none => nofun
  | some g => exact List.forall_mem_singleton.2 nofun

/-- The type of a property begins with a question mark exactly if one is written there. -/
theorem isNullable_property (h : ∀ l ∈ d.lexemes .ternary, l.kind.isTypePart = true →
    l.text.head? ≠ some '?') : d.property.isNullable = d.isMarked := by
  cases hhint : d.hint with
  | none => simp [Property.isNullable, property, isMarked, hhint]
  | some t =>
    have hmem : ∀ l ∈ t.type.lexemes, l ∈ d.lexemes .ternary := fun l hl => by
      simp [lexemes, front, hhint, WrittenHint.lexemes, hl]
    simpa [Property.isNullable, property, isMarked, hhint] using
      t.head?_text fun l hl => h l (hmem l hl)

/-! ### Nested brackets -/

theorem nested_front : Nested true ((d.front .nullable).map Lexeme.kind) := by
  rw [front, List.map_append, List.map_flatMap]
  refine .append (.flatMap fun m _ => ?_) ?_
  · obtain ⟨-, -, -, hbracket, hcomma⟩ := Kind.of_isPropertyModifier m.isOfSort
    exact .cons hbracket (fun hk => absurd hk hcomma) m.gap.nested
  · cases d.hint with
    | none => exact .nil
    | some h =>
      rw [Option.elim_some, WrittenHint.lexemes, List.map_append, List.map_append]
      exact (Gap.nested_behind (by decide) _).append (h.type.nested.mono.append h.gap.nested)

end WrittenProperty

theorem WrittenVariable.nested (v : WrittenVariable) : Nested true (v.lexemes.map Lexeme.kind) := by
  rw [lexemes, List.map_cons, List.map_append]
  refine .cons rfl nofun (v.gap.nested.append ?_)
  cases hdefault : v.default with
  | none => exact .nil
  | some ls => exact .cons rfl nofun (v.nested_default ls hdefault).mono

namespace WrittenProperty

theorem nested_item (x : Gap × WrittenVariable) : Nested true ((item x).map Lexeme.kind) := by
  rw [item, List.map_cons, List.map_append]
  exact .cons rfl (fun _ => rfl) (x.1.nested.append x.2.nested)

/-- A further variable stands behind its comma. -/
theorem exists_of_mem_placesFrom {start i : ℕ} {v : WrittenVariable} {xs : List (Gap × WrittenVariable)}
    (h : (i, v) ∈ placesFrom start xs) : ∃ ys g zs, xs = ys ++ (g, v) :: zs ∧
      i = start + (ys.flatMap item).length + (1 + g.lexemes.length) := by
  induction xs generalizing start with
  | nil => cases h
  | cons x xs ih =>
    rcases List.mem_cons.1 h with hx | h
    · cases hx
      exact ⟨[], x.1, xs, rfl, by simp [Nat.add_assoc]⟩
    · obtain ⟨ys, g, zs, rfl, hi⟩ := ih h
      refine ⟨x :: ys, g, zs, rfl, ?_⟩
      rw [hi, List.flatMap_cons, List.length_append]
      omega

/-- What stands in front of a further variable: other variables, a comma, blanks and comments. -/
theorem exists_of_mem_furtherFrom {d : WrittenProperty} {start i : ℕ} {v : WrittenVariable}
    (h : (i, v) ∈ d.furtherFrom start) : ∃ (ls : List Lexeme) (g : Gap) (rest : List Lexeme),
      d.lexemes .nullable = ls ++ ((⟨.comma, [',']⟩ :: g.lexemes) ++ (v.lexemes ++ rest)) ∧
      Nested true ((ls ++ (⟨.comma, [',']⟩ :: g.lexemes)).map Lexeme.kind) ∧
      i = start + ls.length + (1 + g.lexemes.length) := by
  obtain ⟨ys, g, zs, hfurther, rfl⟩ := exists_of_mem_placesFrom h
  have hnested : Nested true
      ((d.front .nullable ++ (d.first.lexemes ++ ys.flatMap item)).map Lexeme.kind) := by
    rw [List.map_append, List.map_append, List.map_flatMap]
    exact d.nested_front.append (d.first.nested.append (.flatMap fun y _ => nested_item y))
  have hcomma : Nested true ((⟨.comma, [',']⟩ :: g.lexemes).map Lexeme.kind) :=
    .cons rfl (fun _ => rfl) g.nested
  refine ⟨d.front .nullable ++ (d.first.lexemes ++ ys.flatMap item), g,
    zs.flatMap item ++ [⟨.semicolon, [';']⟩], ?_, ?_, ?_⟩
  · simp [lexemes, hfurther, item]
  · rw [List.map_append]
    exact hnested.append hcomma
  · rw [List.length_append, List.length_append, d.length_front]
    omega

/-! ### Question marks -/

variable {d : WrittenProperty}

/-- **The question mark of a property is seen**, whatever stands around the declaration. -/
theorem resolvedAs (before : Option Kind) (hmark : d.MarkIsSeen) :
    ResolvedAs before (d.lexemes .ternary) (d.lexemes .nullable) := by
  have hsplit (mark : Kind) : d.lexemes mark = d.modifiers.flatMap WrittenKeyword.lexemes ++
      (d.hint.elim [] (WrittenHint.lexemes mark) ++
        (d.first.lexemes ++ (d.further.flatMap item ++ [⟨.semicolon, [';']⟩]))) := by
    simp [lexemes, front]
  have hmodifiers : ∀ l ∈ d.modifiers.flatMap WrittenKeyword.lexemes, l.kind ≠ .ternary :=
    WrittenKeyword.forall_mem_lexemes (P := (· ≠ .ternary)) (fun k => by cases k <;> decide)
      (fun k => by cases k <;> decide) d.modifiers
  rw [hsplit, hsplit]
  refine .append_left hmodifiers ?_
  cases hhint : d.hint with
  | none => exact .refl _ _
  | some h =>
    refine WrittenHint.resolvedAs (fun hnullable => ⟨?_, hmark h hhint hnullable⟩) _
    obtain ⟨m, hlast⟩ := WrittenKeyword.exists_lastSignificant
      (fun k hk => (Kind.of_isPropertyModifier hk).1) d.modifiers_ne_nil before
    rw [hlast]
    exact (Kind.of_isPropertyModifier m.isOfSort).2.2.1

end WrittenProperty

end EntityLint
