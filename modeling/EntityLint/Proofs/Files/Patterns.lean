import EntityLint.Proofs.Files.Places

/-!
# What the pattern of an extension leads to

A pattern is made of a directory, `**` and the end of a name. A directory whose path holds no signs of
patterns is followed as it is, and so the pattern leads to what is inside it and has that end.

* `Glob.IsLiteral`, `Glob.tokens?_append`: texts that stand for themselves;
* `Glob.accepts_anyText`: what a star in front of such a text stands for;
* `FileTree.matching_names`: components that are followed as they are.

The main statement is `Search.glob?_patternFor`.
-/

namespace EntityLint

/-! ### Texts that stand for themselves -/

namespace Glob

/-- A text without characters that begin a sign of patterns. -/
def IsLiteral (t : Text) : Prop := ∀ c ∈ t, c ≠ '*' ∧ c ≠ '?' ∧ c ≠ '['

instance (t : Text) : Decidable (IsLiteral t) :=
  List.decidableBAll _ t

variable {t u : Text} {begins : Bool}

theorem tokens?_nil (begins : Bool) : tokens? begins [] = some [] := by
  rw [tokens?]
  rfl

/-- Token by token. -/
theorem tokens?_eq {c : Char} {k : Token} {rest : Text}
    (h : token? begins (c :: t) = some (k, rest)) (hrest : rest.length ≤ t.length) :
    tokens? begins (c :: t) = (tokens? (beginsAfter k) rest).map (k :: ·) := by
  rw [tokens?, h]
  exact dif_pos (Nat.lt_succ_of_le hrest)

theorem tokens?_cons {c : Char} (hc : c ≠ '*' ∧ c ≠ '?' ∧ c ≠ '[') (begins : Bool) (t : Text) :
    tokens? begins (c :: t) = (tokens? (c == '/') t).map (Token.char c :: ·) := by
  obtain ⟨hstar, hany, hbracket⟩ := hc
  refine tokens?_eq (k := .char c) ?_ le_rfl
  unfold token?
  split
  · next h => cases h
  · next h => exact absurd (List.cons.inj h).1 hany
  · next h => exact absurd (List.cons.inj h).1 hbracket
  · next h => exact absurd (List.cons.inj h).1 hstar
  · next h => cases h; rfl

/-- Behind a text that stands for itself and a slash a component begins. -/
theorem tokens?_append (hu : IsLiteral u) (begins : Bool) (t : Text) :
    tokens? begins (u ++ '/' :: t) =
      (tokens? true t).map (u.map Token.char ++ Token.char '/' :: ·) := by
  induction u generalizing begins with
  | nil => exact tokens?_cons (by decide) begins t
  | cons c u ih =>
    obtain ⟨hc, hu⟩ := List.forall_mem_cons.1 hu
    rw [List.cons_append, tokens?_cons hc, ih hu, Option.map_map]
    rfl

theorem tokens?_of_literal (hu : IsLiteral u) (begins : Bool) :
    tokens? begins u = some (u.map Token.char) := by
  induction u generalizing begins with
  | nil => exact tokens?_nil begins
  | cons c u ih =>
    obtain ⟨hc, hu⟩ := List.forall_mem_cons.1 hu
    rw [tokens?_cons hc, ih hu]
    rfl

/-- Two stars where a component begins, and the slash behind them. -/
theorem tokens?_anyDirectories (t : Text) :
    tokens? true ('*' :: '*' :: '/' :: t) = (tokens? true t).map (Token.anyDirectories :: ·) :=
  tokens?_eq (k := .anyDirectories) rfl (by rw [List.length_cons, List.length_cons]; omega)

/-- A star in front of a text that stands for itself. -/
theorem tokens?_anyText {c : Char} (hu : IsLiteral (c :: u)) (begins : Bool) :
    tokens? begins ('*' :: c :: u) = some (Token.anyText :: (c :: u).map Token.char) := by
  have hc : ¬(c == '*') = true := fun h => (hu c List.mem_cons_self).1 (beq_iff_eq.1 h)
  have htoken : token? begins ('*' :: c :: u) = some (.anyText, c :: u) := by
    show stars? begins (((c :: u).takeWhile (· == '*')).length + 1) ((c :: u).dropWhile (· == '*')) = _
    rw [List.takeWhile_cons_of_neg (p := (· == '*')) hc,
      List.dropWhile_cons_of_neg (p := (· == '*')) hc]
    rfl
  rw [tokens?_eq htoken le_rfl, tokens?_of_literal hu]
  rfl

/-! ### What they stand for -/

theorem mem_ends : u ∈ ends t ↔ u <:+ t := by
  induction t with
  | nil => rw [ends, List.mem_singleton, List.suffix_nil]
  | cons c t ih => rw [ends, List.mem_cons, ih, List.suffix_cons_iff]

theorem accepts_char : accepts (u.map Token.char) t = true ↔ t = u := by
  induction u generalizing t with
  | nil => exact List.isEmpty_iff
  | cons c u ih =>
    cases t with
    | nil =>
      have hnone : accepts ((c :: u).map Token.char) [] = false := by cases u <;> rfl
      exact iff_of_false (Bool.eq_false_iff.1 hnone) (List.cons_ne_nil c u).symm
    | cons d t =>
      have hstep : accepts ((c :: u).map Token.char) (d :: t) =
          (d == c && accepts (u.map Token.char) t) := by
        cases u <;> rfl
      rw [hstep, Bool.and_eq_true, beq_iff_eq, ih, List.cons.injEq]

/-- A star in front of a text stands for what has that end. -/
theorem accepts_anyText : accepts (Token.anyText :: u.map Token.char) t = true ↔ u <:+ t := by
  have hstep : accepts (Token.anyText :: u.map Token.char) t =
      (ends t).any (accepts (u.map Token.char)) := by
    cases u <;> rfl
  rw [hstep, List.any_eq_true]
  simp only [accepts_char, mem_ends, exists_eq_right]

end Glob

open Glob

/-! ### Components -/

theorem mapM_eq_some_map {α β : Type} {g : α → Option β} {k : α → β} {l : List α}
    (h : ∀ a ∈ l, g a = some (k a)) : l.mapM g = some (l.map k) := by
  induction l with
  | nil => rfl
  | cons a l ih =>
    obtain ⟨ha, hl⟩ := List.forall_mem_cons.1 h
    rw [List.mapM_cons, ha, ih hl]
    rfl

namespace Segment

theorem ofText?_of_literal {t : Text} (ht : IsLiteral t) : ofText? t = some (.name t) := by
  rw [ofText?, parse?, tokens?_of_literal ht, Option.map_some, if_neg, if_pos]
  · simp [isPlain]
  · cases t <;> simp

theorem ofText?_anyDirectories : ofText? ['*', '*'] = some .anyDirectories := by
  have htokens : parse? ['*', '*'] = some [.anyDirectories] := by
    rw [parse?, tokens?_eq (k := .anyDirectories) rfl (Nat.zero_le _), tokens?_nil]
    rfl
  rw [ofText?, htokens]
  rfl

theorem ofText?_anyText {c : Char} {u : Text} (hu : IsLiteral (c :: u)) :
    ofText? ('*' :: c :: u) = some (.pattern (.anyText :: (c :: u).map Glob.Token.char)) := by
  rw [ofText?, parse?, tokens?_anyText hu, Option.map_some, if_neg (by simp), if_neg]
  simp [isPlain]

end Segment

namespace FileTree

variable {t : FileTree}

/-- Names are followed one after the other. -/
theorem matching_names (parts : List Text) (rest : List Segment) (p : Place) :
    t.matching (parts.map .name ++ rest) p =
      (parts.foldlM t.enter? p).elim [] (t.matching rest) := by
  induction parts generalizing p with
  | nil => rfl
  | cons part parts ih =>
    rw [List.map_cons, List.cons_append, matching, List.foldlM_cons]
    cases t.enter? p part with
    | none => rfl
    | some q => exact ih q

theorem nameOf_within {p : Place} {names : Address} (hnames : names ≠ []) :
    nameOf (p.within names) = names.getLastD [] := by
  rw [nameOf, Place.within, List.getLastD_eq_getLast?, List.getLastD_eq_getLast?,
    List.getLast?_append_of_ne_nil _ hnames]

/-- What is inside a directory, at any depth, and has the end of a name. -/
theorem matching_ending (ending : Text) (p : Place) :
    t.matching [.anyDirectories, .pattern (.anyText :: ending.map Glob.Token.char)] p =
      ((t.below p.address).filter fun names => ending.isSuffixOf (names.getLastD [])).map p.within := by
  have hfits : ∀ names ∈ t.below p.address,
      (Segment.pattern (.anyText :: ending.map Glob.Token.char)).fits (nameOf (p.within names)) =
        ending.isSuffixOf (names.getLastD []) := by
    intro names hnames
    rw [nameOf_within (mem_below_iff.1 hnames).1, Bool.eq_iff_iff, List.isSuffixOf_iff_suffix]
    exact accepts_anyText
  rw [matching, placesBelow, List.filter_map]
  · exact (List.flatMap_singleton' _).trans (congrArg _ (List.filter_congr hfits))
  · exact fun h => nomatch h

end FileTree

namespace Search

variable {s : Search} {t : FileTree}

theorem patternFor_eq (s : Search) (extension : Text) : s.patternFor extension =
    s.root ++ '/' :: '*' :: '*' :: '/' :: '*' :: '.' :: extension := by
  rw [patternFor, List.append_assoc]
  rfl

/-- The components of the pattern of an extension: those of the directory, and two more. -/
theorem ofPattern?_patternFor {u extension : Text} (hroot : s.root = '/' :: u)
    (hliteral : IsLiteral s.root) (hextension : IsLiteral extension) (hslash : '/' ∉ extension) :
    Segment.ofPattern? (s.patternFor extension) = some ((Text.pieces '/' u).map .name ++
      [.anyDirectories, .pattern (.anyText :: ('.' :: extension).map Glob.Token.char)]) := by
  have hending : IsLiteral ('.' :: extension) := List.forall_mem_cons.2 ⟨by decide, hextension⟩
  have hwhole : ∃ tokens, parse? (s.patternFor extension) = some tokens := by
    rw [patternFor_eq, parse?, tokens?_append hliteral, tokens?_anyDirectories, tokens?_anyText hending]
    exact ⟨_, rfl⟩
  have hparts : Segment.parts ((s.patternFor extension).drop 1) =
      Text.pieces '/' u ++ [['*', '*'], '*' :: '.' :: extension] := by
    have hpieces : Text.pieces '/' ((s.patternFor extension).drop 1) =
        Text.pieces '/' u ++ [['*', '*'], '*' :: '.' :: extension] := by
      rw [patternFor_eq, hroot, List.cons_append, List.drop_one, List.tail_cons, Text.pieces_append_sep]
      refine congrArg _ ((Text.pieces_append_cons (u := ['*', '*']) (by decide) _).trans ?_)
      rw [Text.pieces_of_not_mem (by simpa using hslash)]
    rw [Segment.parts, hpieces]
    exact if_neg (by simp)
  have hnames : ∀ part ∈ Text.pieces '/' u, Segment.ofText? part = some (.name part) := by
    intro part hpart
    have hwithin := (Text.of_mem_pieces hpart).2.subset
    refine Segment.ofText?_of_literal fun c hc => hliteral c ?_
    exact hroot ▸ List.mem_cons_of_mem _ (hwithin hc)
  obtain ⟨tokens, htokens⟩ := hwhole
  rw [Segment.ofPattern?, htokens, hparts]
  show (Text.pieces '/' u ++ [['*', '*'], '*' :: '.' :: extension]).mapM Segment.ofText? = _
  rw [List.mapM_append, mapM_eq_some_map hnames]
  simp [Segment.ofText?_anyDirectories, Segment.ofText?_anyText hending]

/-- **The pattern of an extension leads to what is inside the directory and has that end.** It is well
formed if the path of the directory stands for itself. -/
theorem glob?_patternFor (habsolute : Path.isAbsolute s.root = true) (hliteral : IsLiteral s.root)
    {extension : Text} (hextension : IsLiteral extension) (hslash : '/' ∉ extension) :
    t.glob? (s.patternFor extension) = some ((t.place? s.root).elim [] fun p =>
      ((t.below p.address).filter fun names => ('.' :: extension).isSuffixOf (names.getLastD [])).map
        fun names => (p.within names).path) := by
  obtain ⟨u, hroot⟩ : ∃ u, s.root = '/' :: u := by
    rw [Path.isAbsolute, beq_iff_eq] at habsolute
    exact List.head?_eq_some_iff.1 habsolute
  have hfile : Text.endsWith (s.patternFor extension) ['/'] = false := by
    rw [← Bool.not_eq_true, Text.endsWith_iff]
    intro hend
    have hname : '.' :: extension <:+ s.patternFor extension :=
      ⟨s.root ++ ['/', '*', '*', '/', '*'], by rw [patternFor_eq, List.append_assoc]; rfl⟩
    have hshort := List.suffix_of_suffix_length_le hend hname (Nat.le_add_left 1 _)
    have hmem : '/' ∈ '.' :: extension := hshort.subset (List.mem_singleton_self _)
    exact hslash ((List.mem_cons.1 hmem).resolve_left (by decide))
  have hplace : t.place? s.root = (Text.pieces '/' u).foldlM t.enter? Place.root := by
    rw [FileTree.place?, hroot]
    refine congrArg (List.foldlM t.enter? Place.root) (Text.pieces_append_cons List.not_mem_nil u) |>.trans ?_
    rfl
  rw [FileTree.glob?, ofPattern?_patternFor hroot hliteral hextension hslash, Option.map_some, hfile,
    FileTree.matching_names, hplace]
  cases (Text.pieces '/' u).foldlM t.enter? Place.root with
  | none => rfl
  | some p =>
    show some (((t.matching _ p)).map Place.path) = _
    rw [FileTree.matching_ending, List.map_map]
    rfl

end Search

end EntityLint
