import EntityLint.Text.Basic
import Mathlib.Data.List.TakeWhile
import Mathlib.Tactic

/-!
# Cutting texts that are put together

What a run of characters, a separator or a first occurrence makes of a text does not change with the
text after it.

* `takeWhile_append_of_head`, `takeWhile_append_cons`: runs that end where one text ends, and runs
  that end before a character;
* `endsWith_iff`: ends of texts;
* `pieces_append_cons`, `pieces_cases`: the parts between separators;
* `breakOn_append_of_eq_some`, `breakOn_append_cons`: first occurrences.
-/

namespace EntityLint.Text

variable {t : Text}

theorem utf8Length_pos (h : t ≠ []) : 0 < t.utf8Length := by
  cases t with
  | nil => exact absurd rfl h
  | cons c t => exact Nat.add_pos_left c.utf8Size_pos _

/-! ### Runs of characters -/

theorem takeWhile_append_of_head {p : Char → Bool} {u : Text} (hu : ∀ c ∈ u, p c = true)
    (ht : t.head?.any p = false) : (u ++ t).takeWhile p = u := by
  rw [List.takeWhile_append_of_pos hu]
  cases t with
  | nil => rw [List.takeWhile_nil, List.append_nil]
  | cons c t =>
    have hc : ¬p c = true := Bool.eq_false_iff.1 ht
    rw [List.takeWhile_cons_of_neg hc, List.append_nil]

theorem dropWhile_append_of_head {p : Char → Bool} {u : Text} (hu : ∀ c ∈ u, p c = true)
    (ht : t.head?.any p = false) : (u ++ t).dropWhile p = t := by
  rw [List.dropWhile_append_of_pos hu]
  cases t with
  | nil => rfl
  | cons c t => exact List.dropWhile_cons_of_neg (Bool.eq_false_iff.1 ht)

theorem head?_dropWhile (p : Char → Bool) (t : Text) : (t.dropWhile p).head?.any p = false := by
  have hnot := List.head?_dropWhile_not p t
  cases hhead : (t.dropWhile p).head? with
  | none => rfl
  | some c =>
    rw [hhead] at hnot
    exact hnot

theorem takeWhile_append_cons {p : Char → Bool} {c : Char} (hc : p c = false) (u t : Text) :
    (u ++ c :: t).takeWhile p = u.takeWhile p := by
  induction u with
  | nil => exact List.takeWhile_cons_of_neg (Bool.eq_false_iff.1 hc)
  | cons d u ih => rw [List.cons_append, List.takeWhile_cons, List.takeWhile_cons, ih]

theorem dropWhile_append_cons {p : Char → Bool} {c : Char} (hc : p c = false) (u t : Text) :
    (u ++ c :: t).dropWhile p = u.dropWhile p ++ c :: t := by
  induction u with
  | nil => exact List.dropWhile_cons_of_neg (Bool.eq_false_iff.1 hc)
  | cons d u ih =>
    rw [List.cons_append, List.dropWhile_cons, List.dropWhile_cons, ih]
    split <;> rfl

theorem stripLeading?_append_cons {lead : Text} {c : Char} (hc : c ∉ lead) (u t : Text) :
    stripLeading? lead (u ++ c :: t) = (stripLeading? lead u).map (· ++ c :: t) := by
  induction lead generalizing u with
  | nil => rfl
  | cons a lead ih =>
    cases u with
    | nil =>
      have hne : ¬a = c := by rintro rfl; exact hc List.mem_cons_self
      exact if_neg hne
    | cons d u =>
      rw [List.cons_append, stripLeading?, stripLeading?, ih (fun h => hc (List.mem_cons_of_mem a h))]
      split <;> rfl

theorem endsWith_iff {tail : Text} : endsWith t tail = true ↔ tail <:+ t := by
  rw [endsWith, Option.isSome_iff_exists]
  simp only [stripLeading?_eq_some_iff]
  constructor
  · rintro ⟨rest, hrest⟩
    rw [← List.reverse_prefix, hrest]
    exact List.prefix_append _ _
  · rintro h
    obtain ⟨rest, hrest⟩ := List.reverse_prefix.2 h
    exact ⟨rest, hrest.symm⟩

/-! ### Parts -/

theorem pieces_append_cons {sep : Char} {u : Text} (hu : sep ∉ u) (t : Text) :
    pieces sep (u ++ sep :: t) = u :: pieces sep t := by
  have hne : ∀ c ∈ u, (c == sep) = false := by
    refine fun c hc => beq_eq_false_iff_ne.2 ?_
    rintro rfl
    exact hu hc
  exact List.splitOnP_append_cons_of_forall_mem hne sep (beq_self_eq_true sep) t

/-- Separators part a text into the parts before and after each of them. -/
theorem pieces_append_sep (sep : Char) (u t : Text) :
    pieces sep (u ++ sep :: t) = pieces sep u ++ pieces sep t :=
  List.splitOnP_append_cons u t (beq_self_eq_true sep)

theorem pieces_of_not_mem {sep : Char} {t : Text} (ht : sep ∉ t) : pieces sep t = [t] := by
  refine List.splitOnP_eq_singleton fun c hc => beq_eq_false_iff_ne.2 ?_
  rintro rfl
  exact ht hc

/-- The parts of a text: it has one, or begins with one and a separator. -/
theorem pieces_cases (sep : Char) (t : Text) :
    (sep ∉ t ∧ pieces sep t = [t]) ∨
      ∃ u more, sep ∉ u ∧ t = u ++ sep :: more ∧ pieces sep t = u :: pieces sep more := by
  by_cases hmem : sep ∈ t
  · obtain ⟨u, more, rfl, hu⟩ := List.eq_append_cons_of_mem hmem
    exact .inr ⟨u, more, hu, rfl, pieces_append_cons hu more⟩
  · exact .inl ⟨hmem, pieces_of_not_mem hmem⟩

/-- No part of a text holds a separator. -/
theorem of_mem_pieces {sep : Char} {part : Text} (h : part ∈ pieces sep t) : sep ∉ part ∧ part <:+: t := by
  induction hn : t.length using Nat.strong_induction_on generalizing t with
  | _ n ih =>
    subst hn
    rcases pieces_cases sep t with ⟨hmem, hpieces⟩ | ⟨u, more, hu, rfl, hpieces⟩
    · rw [hpieces, List.mem_singleton] at h
      subst h
      exact ⟨hmem, List.infix_refl part⟩
    · rw [hpieces] at h
      rcases List.mem_cons.1 h with rfl | h
      · exact ⟨hu, (List.prefix_append part _).isInfix⟩
      · have hlt : more.length < (u ++ sep :: more).length := by
          rw [List.length_append, List.length_cons]
          omega
        obtain ⟨hpart, hinfix⟩ := ih more.length hlt h rfl
        exact ⟨hpart, hinfix.trans ⟨u ++ [sep], [], by simp⟩⟩

/-- The first part of a text goes on after a beginning without separators. -/
theorem pieces_eq_cons {sep : Char} {u : Text} (hu : sep ∉ u) (t : Text) :
    ∃ v more, pieces sep (u ++ t) = (u ++ v) :: more ∧ v <+: t := by
  rcases pieces_cases sep t with ⟨hmem, -⟩ | ⟨v, more, hv, rfl, -⟩
  · exact ⟨t, [], pieces_of_not_mem fun hc => (List.mem_append.1 hc).elim hu hmem,
      List.prefix_refl t⟩
  · refine ⟨v, pieces sep more, ?_, List.prefix_append v _⟩
    rw [← List.append_assoc, pieces_append_cons]
    exact fun h => (List.mem_append.1 h).elim hu hv

/-- A text up to the first occurrence of another one has that occurrence as its first, whatever
follows. -/
theorem breakOn_append_of_eq_some {needle before after : Text}
    (h : breakOn needle t = some (before, after)) (s : Text) :
    breakOn needle (before ++ needle ++ s) = some (before, s) := by
  have hself : breakOn needle (before ++ needle) = some (before, []) := by
    induction t generalizing before with
    | nil =>
      simp only [breakOn, Option.map_eq_some_iff, Prod.mk.injEq] at h
      obtain ⟨rest, hrest, rfl, rfl⟩ := h
      obtain ⟨rfl, rfl⟩ := List.append_eq_nil_iff.1 (append_of_stripLeading? hrest)
      rfl
    | cons c t ih =>
      rw [breakOn] at h
      split at h
      · cases h
        rw [List.nil_append]
        cases needle with
        | nil => rfl
        | cons a needle => rw [breakOn, stripLeading?_eq_some_iff.2 (List.append_nil _).symm]
      · next hnone =>
        obtain ⟨⟨b, a⟩, hba, heq⟩ := Option.map_eq_some_iff.1 h
        cases heq
        have hb := ih hba
        rw [List.cons_append, breakOn, hb]
        have hshort : stripLeading? needle (c :: (b ++ needle)) = none := by
          cases hs : stripLeading? needle (c :: (b ++ needle)) with
          | none => rfl
          | some rest =>
            -- such an occurrence would also be one in the whole text
            have hmore : stripLeading? needle (c :: t) = some (rest ++ after) := by
              rw [stripLeading?_eq_some_iff, ← List.append_assoc, append_of_stripLeading? hs,
                ← append_of_breakOn hba]
              rfl
            rw [hmore] at hnone
            cases hnone
        rw [hshort]
        rfl
  have happend := breakOn_append hself s
  rwa [List.nil_append] at happend

/-- Text in front of a character that a needle does not have holds no part of it. -/
theorem breakOn_append_cons {needle u : Text} {c : Char} (hne : needle ≠ []) (hc : c ∉ needle)
    (h : breakOn needle u = none) (t : Text) : breakOn needle (u ++ c :: t) =
      (breakOn needle t).map fun (before, after) => (u ++ c :: before, after) := by
  induction u with
  | nil =>
    have hnone := stripLeading?_append_cons hc [] t
    obtain ⟨a, needle, rfl⟩ := List.exists_cons_of_ne_nil hne
    rw [List.nil_append] at hnone ⊢
    rw [breakOn, hnone]
    rfl
  | cons d u ih =>
    rw [breakOn] at h
    split at h
    · cases h
    · next hnone =>
      have hnone' := stripLeading?_append_cons hc (d :: u) t
      rw [hnone, List.cons_append] at hnone'
      rw [List.cons_append, breakOn, hnone', Option.map_none]
      dsimp only
      rw [ih (Option.map_eq_none_iff.1 h), Option.map_map]
      rfl

end EntityLint.Text
