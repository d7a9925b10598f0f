import EntityLint.Proofs.Mapping.EntityText

/-!
# The file of an entity

The text of an entity makes a file. Its variables, functions and doc comments are those of its
members.

* `kindsOf`, `ColumnProperty.declarationKinds`, `getterKinds`, `setterKinds`: the kinds of a member;
* `Entity.exists_parse`: the file;
* `Entity.variable_cases`, `function_cases`, `docClose_cases`: the members that tokens belong to.
-/

namespace EntityLint

open Naming Pairing Piece SourceFile

/-! ### Kinds -/

/-- The kinds of the lexemes of some pieces. -/
def kindsOf (ps : List Piece) : List Kind := (ps.flatMap Piece.lexemes).map Lexeme.kind

theorem kindsOf_append (ps qs : List Piece) : kindsOf (ps ++ qs) = kindsOf ps ++ kindsOf qs := by
  rw [kindsOf, List.flatMap_append, List.map_append]
  rfl

theorem kindsOf_flatten (blocks : List (List Piece)) :
    kindsOf blocks.flatten = blocks.flatMap kindsOf := by
  induction blocks with
  | nil => rfl
  | cons b blocks ih => rw [List.flatten_cons, kindsOf_append, ih, List.flatMap_cons]

namespace ColumnProperty

/-- The kinds of a declaration whose type is of a given kind. -/
def declarationKinds (k : Kind) : List Kind :=
  [.docOpen, .docBlank, .docTag, .docText, .docBlank, .docClose, .blank, .kwPrivate, .blank, k,
    .blank, .variable, .semicolon]

/-- The kinds of a getter whose type is of a given kind. -/
def getterKinds (k : Kind) : List Kind :=
  [.kwPublic, .blank, .kwFunction, .blank, .word, .openRound, .closeRound, .colon, .blank, k, .blank,
    .openCurly, .blank, .kwReturn, .blank, .variable, .arrow, .word, .semicolon, .blank, .closeCurly]

/-- The kinds of a setter whose type is of a given kind. -/
def setterKinds (k : Kind) : List Kind :=
  [.kwPublic, .blank, .kwFunction, .blank, .word, .openRound, k, .blank, .variable, .closeRound,
    .colon, .blank, .kwSelf, .blank, .openCurly, .blank, .variable, .arrow, .word, .blank, .equals,
    .blank, .variable, .semicolon, .blank, .kwReturn, .blank, .variable, .semicolon, .blank,
    .closeCurly]

variable (c : ColumnProperty)

theorem kindsOf_declarationPieces : kindsOf c.declarationPieces = declarationKinds c.nativeKind := rfl

theorem kindsOf_getterPieces : kindsOf c.getterPieces = getterKinds c.nativeKind := rfl

theorem kindsOf_setterPieces : kindsOf c.setterPieces = setterKinds c.nativeKind := rfl

/-- The pieces of the members that a property has. -/
def members : List (List Piece) := [c.declarationPieces, c.getterPieces, c.setterPieces]

theorem mem_members {m : List Piece} :
    m ∈ c.members ↔ m = c.declarationPieces ∨ m = c.getterPieces ∨ m = c.setterPieces := by
  simp [members]

theorem balanced_members (family : Family) {m : List Piece} (hm : m ∈ c.members) :
    family.Balanced (kindsOf m) := by
  rcases c.mem_members.1 hm with rfl | rfl | rfl
  · rw [kindsOf_declarationPieces]
    rcases c.nativeKind_mem with hk | hk <;> rw [hk] <;> cases family <;>
      exact balanced_iff_pairsFrom.2 ⟨_, rfl⟩
  · rw [kindsOf_getterPieces]
    rcases c.nativeKind_mem with hk | hk <;> rw [hk] <;> cases family <;>
      exact balanced_iff_pairsFrom.2 ⟨_, rfl⟩
  · rw [kindsOf_setterPieces]
    rcases c.nativeKind_mem with hk | hk <;> rw [hk] <;> cases family <;>
      exact balanced_iff_pairsFrom.2 ⟨_, rfl⟩

/-- The kinds of the lexemes of a member. -/
theorem mem_kindsOf_members {m : List Piece} (hm : m ∈ c.members) :
    ∀ k ∈ kindsOf m, k ∉ [.ternary, .attributeOpen, .attributeClose] := by
  rcases c.mem_members.1 hm with rfl | rfl | rfl
  · rw [kindsOf_declarationPieces]
    rcases c.nativeKind_mem with hk | hk <;> rw [hk] <;> decide
  · rw [kindsOf_getterPieces]
    rcases c.nativeKind_mem with hk | hk <;> rw [hk] <;> decide
  · rw [kindsOf_setterPieces]
    rcases c.nativeKind_mem with hk | hk <;> rw [hk] <;> decide

end ColumnProperty

namespace Entity

variable {e : Entity}

theorem kind_of_mem_blanks {k : Kind} (hk : k ∈ kindsOf e.blanks) : k = .blank := by
  obtain ⟨l, hl, rfl⟩ := List.mem_map.1 hk
  obtain ⟨p, hp, hl⟩ := List.mem_flatMap.1 hl
  obtain ⟨u, rfl⟩ := kind_ofBlanks hp
  rw [List.mem_singleton.1 hl]

theorem kindsOf_heading : kindsOf e.heading = [.kwClass, .blank, .word] := rfl

/-- The kinds of the parts of the class that are no members of it. -/
def frameKinds : List Kind := [.openTag, .blank, .kwClass, .word, .openCurly, .closeCurly]

theorem mem_frameKinds_of_blanks : ∀ k ∈ kindsOf e.blanks, k ∈ frameKinds := by
  intro k hk
  rw [kind_of_mem_blanks hk]
  decide

/-- A part of the class is a member of it or of its frame. -/
theorem mem_blocks {b : List Piece} (hb : b ∈ e.blocks) :
    (∃ c ∈ e.columns, b ∈ c.members) ∨ ∀ k ∈ kindsOf b, k ∈ frameKinds := by
  have hblanks := e.mem_frameKinds_of_blanks
  simp only [blocks, head, ending, declarations, accessors, List.mem_cons, List.mem_append,
    List.mem_flatMap, List.not_mem_nil, or_false] at hb
  rcases hb with rfl | (rfl | rfl | rfl) | rfl | rfl | ⟨c, hc, rfl | rfl⟩ |
    ⟨c, hc, rfl | rfl | rfl | rfl⟩ | rfl | rfl
  · exact .inr (by decide)
  · exact .inr hblanks
  · exact .inr (by rw [kindsOf_heading]; decide)
  · exact .inr hblanks
  · exact .inr (by decide)
  · exact .inr hblanks
  · exact .inl ⟨c, hc, c.mem_members.2 (.inl rfl)⟩
  · exact .inr hblanks
  · exact .inl ⟨c, hc, c.mem_members.2 (.inr (.inl rfl))⟩
  · exact .inr hblanks
  · exact .inl ⟨c, hc, c.mem_members.2 (.inr (.inr rfl))⟩
  · exact .inr hblanks
  · exact .inr (by decide)
  · exact .inr hblanks

theorem exists_stands {c : ColumnProperty} (hc : c ∈ e.columns) {m : List Piece}
    (hm : m ∈ c.members) : ∃ start, Stands e.blocks.flatten start m := by
  refine exists_stands_of_mem ?_
  simp only [blocks, head, ending, declarations, accessors, List.mem_cons, List.mem_append,
    List.mem_flatMap, List.not_mem_nil, or_false]
  rcases c.mem_members.1 hm with rfl | rfl | rfl
  · exact .inr (.inr (.inr (.inr (.inl ⟨c, hc, .inl rfl⟩))))
  · exact .inr (.inr (.inr (.inr (.inr (.inl ⟨c, hc, .inl rfl⟩)))))
  · exact .inr (.inr (.inr (.inr (.inr (.inl ⟨c, hc, .inr (.inr (.inl rfl))⟩)))))

theorem balanced_blocks (family : Family) : family.Balanced (kindsOf e.blocks.flatten) := by
  have hplain : ∀ k ∈ [Kind.openTag, .blank, .kwClass, .word], family.step? k = none := by
    cases family <;> decide
  have hblanks : family.Balanced (kindsOf e.blanks) :=
    .of_forall fun k hk => hplain k (by rw [kind_of_mem_blanks hk]; decide)
  have hfront : family.Balanced (kindsOf ([.single ⟨.openTag, "<?php".toList⟩] :: e.head).flatten) := by
    rw [kindsOf_flatten]
    refine .flatMap fun b hb => ?_
    simp only [head, List.mem_cons, List.not_mem_nil, or_false] at hb
    rcases hb with rfl | rfl | rfl | rfl
    · exact .of_forall fun k hk => hplain k (by rw [List.mem_singleton.1 hk]; decide)
    · exact hblanks
    · refine .of_forall fun k hk => hplain k ?_
      rw [kindsOf_heading] at hk
      revert k
      decide
    · exact hblanks
  have hmembers : family.Balanced
      (kindsOf (e.blanks :: (e.declarations ++ e.accessors)).flatten) := by
    rw [kindsOf_flatten]
    refine .flatMap fun b hb => ?_
    simp only [declarations, accessors, List.mem_cons, List.mem_append, List.mem_flatMap,
      List.not_mem_nil, or_false] at hb
    rcases hb with rfl | ⟨c, hc, rfl | rfl⟩ | ⟨c, hc, rfl | rfl | rfl | rfl⟩
    · exact hblanks
    · exact c.balanced_members family (c.mem_members.2 (.inl rfl))
    · exact hblanks
    · exact c.balanced_members family (c.mem_members.2 (.inr (.inl rfl)))
    · exact hblanks
    · exact c.balanced_members family (c.mem_members.2 (.inr (.inr rfl)))
    · exact hblanks
  have hsplit : kindsOf e.blocks.flatten =
      kindsOf ([.single ⟨.openTag, "<?php".toList⟩] :: e.head).flatten ++
        ((.openCurly :: (kindsOf (e.blanks :: (e.declarations ++ e.accessors)).flatten ++
          [.closeCurly])) ++ kindsOf e.blanks) := by
    simp only [blocks, ending, kindsOf_flatten, List.flatMap_cons, List.flatMap_append,
      List.flatMap_nil, List.append_assoc, List.append_nil, List.cons_append]
    rfl
  rw [hsplit]
  exact hfront.append ((hmembers.pair rfl).append hblanks)

/-- The text of a class makes a file of its pieces. -/
theorem exists_parse (e : Entity) (path : String) :
    ∃ f, parse path e.source = .ok f ∧ f.Composed e.blocks.flatten := by
  refine exists_parse_composed e.cutAll_source (fun l hl => ?_) balanced_blocks
  have hk : l.kind ∈ kindsOf e.blocks.flatten := List.mem_map_of_mem hl
  rw [kindsOf_flatten, List.mem_flatMap] at hk
  obtain ⟨b, hb, hk⟩ := hk
  rcases mem_blocks hb with ⟨c, -, hm⟩ | hframe
  · exact c.mem_kindsOf_members hm _ hk
  · have hdecide : ∀ k ∈ frameKinds, k ∉ [.ternary, .attributeOpen, .attributeClose] := by decide
    exact hdecide _ (hframe _ hk)

/-! ### The members that tokens belong to -/

section Members

variable {f : SourceFile} (hf : f.Composed e.blocks.flatten) {i : ℕ} {k : Kind}

include hf

/-- A token that is not part of the frame of the class belongs to a member. -/
theorem exists_member (hk : f.kindAt i = some k) (hframe : k ∉ frameKinds) :
    ∃ c ∈ e.columns, ∃ m ∈ c.members, ∃ start a, Stands e.blocks.flatten start m ∧ i = start + a ∧
      (kindsOf m)[a]? = some k := by
  rw [kindAt_eq, hf.lexemes] at hk
  obtain ⟨l, hl, rfl⟩ := Option.map_eq_some_iff.1 hk
  obtain ⟨b, hb, start, a, hstands, hi, hl⟩ := exists_block_of_getElem? hl
  have hkind : (kindsOf b)[a]? = some l.kind := by
    rw [kindsOf, List.getElem?_map, hl]
    rfl
  rcases mem_blocks hb with ⟨c, hc, hm⟩ | hblock
  · exact ⟨c, hc, b, hm, start, a, hstands, hi, hkind⟩
  · exact absurd (hblock _ (List.mem_of_getElem? hkind)) hframe

theorem variable_cases (hk : f.kindAt i = some .variable) : ∃ c ∈ e.columns, ∃ start a,
    i = start + a ∧ ((Stands e.blocks.flatten start c.declarationPieces ∧ a = 11) ∨
      (Stands e.blocks.flatten start c.getterPieces ∧ a = 15) ∨
      (Stands e.blocks.flatten start c.setterPieces ∧ a ∈ [8, 16, 22, 27])) := by
  obtain ⟨c, hc, m, hm, start, a, hstands, hi, hget⟩ := exists_member hf hk (by decide)
  refine ⟨c, hc, start, a, hi, ?_⟩
  have hlt := (List.getElem?_eq_some_iff.1 hget).1
  rcases c.mem_members.1 hm with rfl | rfl | rfl
  · have hplace : ∀ k ∈ [Kind.word, .kwArray], ∀ a < 13,
        (ColumnProperty.declarationKinds k)[a]? = some .variable → a = 11 := by decide
    exact .inl ⟨hstands, hplace _ (by simpa using c.nativeKind_mem) a hlt hget⟩
  · have hplace : ∀ k ∈ [Kind.word, .kwArray], ∀ a < 21,
        (ColumnProperty.getterKinds k)[a]? = some .variable → a = 15 := by decide
    exact .inr (.inl ⟨hstands, hplace _ (by simpa using c.nativeKind_mem) a hlt hget⟩)
  · have hplace : ∀ k ∈ [Kind.word, .kwArray], ∀ a < 31,
        (ColumnProperty.setterKinds k)[a]? = some .variable → a ∈ [8, 16, 22, 27] := by decide
    exact .inr (.inr ⟨hstands, hplace _ (by simpa using c.nativeKind_mem) a hlt hget⟩)

theorem function_cases (hk : f.kindAt i = some .kwFunction) : ∃ c ∈ e.columns, ∃ start,
    i = start + 2 ∧ (Stands e.blocks.flatten start c.getterPieces ∨
      Stands e.blocks.flatten start c.setterPieces) := by
  obtain ⟨c, hc, m, hm, start, a, hstands, rfl, hget⟩ := exists_member hf hk (by decide)
  have hlt := (List.getElem?_eq_some_iff.1 hget).1
  have hnative : c.nativeKind ∈ [Kind.word, .kwArray] := by simpa using c.nativeKind_mem
  rcases c.mem_members.1 hm with rfl | rfl | rfl
  · have hplace : ∀ k ∈ [Kind.word, .kwArray], ∀ a < 13,
        (ColumnProperty.declarationKinds k)[a]? ≠ some .kwFunction := by decide
    exact absurd hget (hplace _ hnative a hlt)
  · have hplace : ∀ k ∈ [Kind.word, .kwArray], ∀ a < 21,
        (ColumnProperty.getterKinds k)[a]? = some .kwFunction → a = 2 := by decide
    obtain rfl := hplace _ hnative a hlt hget
    exact ⟨c, hc, start, rfl, .inl hstands⟩
  · have hplace : ∀ k ∈ [Kind.word, .kwArray], ∀ a < 31,
        (ColumnProperty.setterKinds k)[a]? = some .kwFunction → a = 2 := by decide
    obtain rfl := hplace _ hnative a hlt hget
    exact ⟨c, hc, start, rfl, .inr hstands⟩

theorem docClose_cases (hk : f.kindAt i = some .docClose) : ∃ c ∈ e.columns, ∃ start,
    i = start + 5 ∧ Stands e.blocks.flatten start c.declarationPieces := by
  obtain ⟨c, hc, m, hm, start, a, hstands, rfl, hget⟩ := exists_member hf hk (by decide)
  have hlt := (List.getElem?_eq_some_iff.1 hget).1
  have hnative : c.nativeKind ∈ [Kind.word, .kwArray] := by simpa using c.nativeKind_mem
  rcases c.mem_members.1 hm with rfl | rfl | rfl
  · have hplace : ∀ k ∈ [Kind.word, .kwArray], ∀ a < 13,
        (ColumnProperty.declarationKinds k)[a]? = some .docClose → a = 5 := by decide
    obtain rfl := hplace _ hnative a hlt hget
    exact ⟨c, hc, start, rfl, hstands⟩
  · have hplace : ∀ k ∈ [Kind.word, .kwArray], ∀ a < 21,
        (ColumnProperty.getterKinds k)[a]? ≠ some .docClose := by decide
    exact absurd hget (hplace _ hnative a hlt)
  · have hplace : ∀ k ∈ [Kind.word, .kwArray], ∀ a < 31,
        (ColumnProperty.setterKinds k)[a]? ≠ some .docClose := by decide
    exact absurd hget (hplace _ hnative a hlt)

end Members

end Entity

end EntityLint
