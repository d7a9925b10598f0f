import EntityLint.Mapping.Contract
import EntityLint.Mapping.FileCache
import EntityLint.Proofs.Source.Reading
import EntityLint.Proofs.Token.Surroundings

/-!
# What a cache answers after other questions

A cache is filled by whichever question comes first. The named functions and the assignments of the
constructor do not depend on that question. The class name does: it is looked up for the first token
that it is asked for, and kept.

* `FileCache.Holds`: what a cache holds after some questions;
* `Holds.run_ask`, `holds_after`: what one question does, and what all of them do;
* `memo_classNameAt`, `Holds.memo_lacksConstructor`: the memory that answers depend on;
* `SourceFile.Outermost`, `outerClassName_cases`: which class name is looked up.

The main statement is `answers_after`.
-/

namespace EntityLint

open Token

/-! ### The outermost owner -/

namespace SourceFile

/-- Whether the scope of the owner at `w` lies around the token at `i` and around all other scopes
there. -/
def Outermost (f : SourceFile) (i w : ℕ) (k : Kind) : Prop :=
  ∃ r, ScopeAround f.tokens.toList i w k r ∧ ∀ v k' s, ScopeAround f.tokens.toList i v k' s →
    v = w ∨ r.opener < s.opener ∧ s.closer < r.closer

/-- The name that a declaration of a class, an interface or a trait gives, and else the empty
name. -/
def classNameOf (f : SourceFile) (w : ℕ) (k : Kind) : Text :=
  if k.hasClassName then (f.declarationName? w).getD [] else []

variable {path : String} {source : Text} {f : SourceFile} {i j w : ℕ} {k : Kind}

theorem outerClassName_eq {t : Token} (ht : f.tokens[i]? = some t) :
    f.outerClassName i = t.conditions.head?.elim [] fun x => f.classNameOf x.1 x.2 := by
  unfold outerClassName
  simp only [ht, Option.bind_eq_bind, Option.bind_some]
  cases t.conditions.head? with
  | none => rfl
  | some x =>
    simp only [Option.bind_some, Option.elim_some, classNameOf]
    by_cases hk : x.2.hasClassName = true <;> simp [hk, guard, failure]

theorem Outermost.unique {v : ℕ} {k' : Kind} (hw : f.Outermost i w k) (hv : f.Outermost i v k') :
    w = v ∧ k = k' := by
  obtain ⟨r, hr, hw⟩ := hw
  obtain ⟨s, hs, hv⟩ := hv
  have hwv : w = v := by
    rcases hw v k' s hs with h | h
    · exact h.symm
    · rcases hv w k r hr with h' | h'
      · exact h'
      · omega
  subst hwv
  obtain ⟨⟨t, ht, htk, -⟩, -⟩ := hr
  obtain ⟨⟨u, hu, huk, -⟩, -⟩ := hs
  cases ht.symm.trans hu
  exact ⟨rfl, htk.symm.trans huk⟩

/-- Scopes lie around tokens only. -/
theorem exists_token_of_scopeAround (h : parse path source = .ok f) {r : Range}
    (hr : ScopeAround f.tokens.toList i w k r) : ∃ t, f.tokens[i]? = some t := by
  obtain ⟨-, -, hmatches, -, hlt⟩ := (scopeAround_iff (wellPaired_of_parse h)).1 hr
  have hcloser := Pairing.lt_length_of_closesAt hmatches.closes
  rw [kinds, List.length_map] at hcloser
  rw [← Array.getElem?_toList]
  exact ⟨_, List.getElem?_eq_getElem (hlt.trans hcloser)⟩

/-- The class name that is looked up for a token: that of the outermost owner around it, and the
empty one where there is no owner. -/
theorem outerClassName_cases (h : parse path source = .ok f) (i : ℕ) :
    (∃ w k, f.Outermost i w k ∧ f.outerClassName i = f.classNameOf w k) ∨
      (∀ w k r, ¬ScopeAround f.tokens.toList i w k r) ∧ f.outerClassName i = [] := by
  cases ht : f.tokens[i]? with
  | none =>
    refine .inr ⟨fun w k r hr => ?_, by simp [outerClassName, ht]⟩
    obtain ⟨t, ht'⟩ := exists_token_of_scopeAround h hr
    cases ht.symm.trans ht'
  | some t =>
    rw [outerClassName_eq ht, conditions_of_parse h ht]
    have hsorted : (ownersAround f.tokens.toList i).Pairwise _ := sorted_ownersAround
    cases howners : ownersAround f.tokens.toList i with
    | nil =>
      refine .inr ⟨fun w k r hr => ?_, rfl⟩
      have hmem := mem_ownersAround.2 ⟨r, hr⟩
      rw [howners] at hmem
      cases hmem
    | cons x xs =>
      obtain ⟨w, k⟩ := x
      obtain ⟨r, hr⟩ := mem_ownersAround.1 (howners ▸ List.mem_cons_self : (w, k) ∈ _)
      refine .inl ⟨w, k, ⟨r, hr, fun v k' s hs => ?_⟩, rfl⟩
      have hmem := mem_ownersAround.2 ⟨s, hs⟩
      rw [howners] at hmem hsorted
      rcases List.mem_cons.1 hmem with heq | hlater
      · exact .inl (congrArg Prod.fst heq)
      · have hlt := (List.pairwise_cons.1 hsorted).1 _ hlater
        exact .inr (hr.inside_of_lt (wellPaired_of_parse h) hs hlt)

theorem outerClassName_of_outermost (h : parse path source = .ok f) (hw : f.Outermost i w k) :
    f.outerClassName i = f.classNameOf w k := by
  rcases outerClassName_cases h i with ⟨v, k', hv, heq⟩ | ⟨hno, -⟩
  · obtain ⟨rfl, rfl⟩ := hv.unique hw
    exact heq
  · obtain ⟨r, hr, -⟩ := hw
    exact absurd hr (hno w k r)

end SourceFile

/-! ### One question and all questions -/

namespace FileCache

variable {f : SourceFile} {c : FileCache} {asked : List ℕ}

/-- What a cache holds after the class name has been asked for some tokens, in order. -/
structure Holds (f : SourceFile) (asked : List ℕ) (c : FileCache) : Prop where
  known_methods : ∀ known, c.knownMethods = some known → known = f.methods
  known_class : c.knownClass = asked.head?.map f.outerClassName
  known_assignments : ∀ known, c.knownAssignments = some known → known = f.constructorAssignments

theorem holds_empty (f : SourceFile) : Holds f [] empty := ⟨nofun, rfl, nofun⟩

/-- The token that the class name is looked up for, if it is asked for one more token. -/
def pointer (asked : List ℕ) (i : ℕ) : ℕ := asked.head?.getD i

theorem Holds.run_methods (h : Holds f asked c) :
    ((methods f).run c).1 = f.methods ∧ Holds f asked ((methods f).run c).2 := by
  obtain ⟨methods, name, members⟩ := c
  cases methods with
  | none => exact ⟨rfl, fun _ hk => (Option.some.inj hk).symm, h.known_class, h.known_assignments⟩
  | some known => exact ⟨h.known_methods known rfl, h⟩

theorem Holds.run_method? (h : Holds f asked c) (name : Text) :
    ((method? f name).run c).1 = f.method? name ∧ Holds f asked ((method? f name).run c).2 := by
  obtain ⟨hmethods, hholds⟩ := h.run_methods
  refine ⟨?_, hholds⟩
  show (((methods f).run c).1.find? _).map _ = _
  rw [hmethods]
  rfl

theorem Holds.run_classNameAt (h : Holds f asked c) (i : ℕ) :
    ((classNameAt f i).run c).1 = f.outerClassName (pointer asked i) ∧
      Holds f (asked ++ [i]) ((classNameAt f i).run c).2 := by
  obtain ⟨methods, name, members⟩ := c
  obtain ⟨hmethods, hname, hmembers⟩ := h
  cases asked with
  | nil =>
    obtain rfl : name = none := hname
    exact ⟨rfl, hmethods, rfl, hmembers⟩
  | cons j asked =>
    obtain rfl : name = some (f.outerClassName j) := hname
    exact ⟨rfl, hmethods, rfl, hmembers⟩

theorem Holds.run_assignments (h : Holds f asked c) :
    ((assignments f).run c).1 = (f.constructorAssignments,
        c.knownAssignments.isNone && (f.method? SourceFile.constructorName).isNone) ∧
      Holds f asked ((assignments f).run c).2 := by
  obtain ⟨hmethod, hholds⟩ := h.run_method? SourceFile.constructorName
  obtain ⟨methods, name, members⟩ := c
  cases members with
  | some known => exact ⟨Prod.ext (h.known_assignments known rfl) rfl, h⟩
  | none =>
    have hmembers : assignmentsOf f ((method? f SourceFile.constructorName).run
        ⟨methods, name, none⟩).1 = f.constructorAssignments := by
      rw [hmethod]
      rfl
    refine ⟨Prod.ext hmembers ?_, hholds.known_methods, hholds.known_class, fun known hk => ?_⟩
    · show ((method? f SourceFile.constructorName).run ⟨methods, name, none⟩).1.isNone = _
      rw [hmethod]
      rfl
    · exact (Option.some.inj hk).symm.trans hmembers

/-- What one question adds to a cache. -/
theorem Holds.run_ask (h : Holds f asked c) (q : FileQuery) :
    Holds f (asked ++ q.pointer?.toList) ((ask f q).run c).2 := by
  have hnone : ∀ {c' : FileCache}, Holds f asked c' → Holds f (asked ++ []) c' := by
    intro c' h
    rwa [List.append_nil]
  cases q with
  | methods => exact hnone h.run_methods.2
  | method name => exact hnone (h.run_method? name).2
  | className i => exact (h.run_classNameAt i).2
  | assignments => exact hnone h.run_assignments.2

/-- What some questions add to a cache. -/
theorem Holds.run_askAll (h : Holds f asked c) (queries : List FileQuery) :
    Holds f (asked ++ queries.filterMap FileQuery.pointer?) ((askAll f queries).run c).2 := by
  induction queries generalizing asked c with
  | nil =>
    rw [List.filterMap_nil, List.append_nil]
    exact h
  | cons q queries ih =>
    have hrest := ih (h.run_ask q)
    have hpointers : (q :: queries).filterMap FileQuery.pointer? =
        q.pointer?.toList ++ queries.filterMap FileQuery.pointer? := by
      rw [List.filterMap_cons]
      cases q.pointer? <;> rfl
    rw [hpointers, ← List.append_assoc]
    have hrun : ((askAll f (q :: queries)).run c).2 =
        ((askAll f queries).run ((ask f q).run c).2).2 := by
      unfold askAll
      rw [List.mapM_cons]
      rfl
    rw [hrun]
    exact hrest

/-- What a new cache holds after some questions. -/
theorem holds_after (f : SourceFile) (queries : List FileQuery) :
    Holds f (queries.filterMap FileQuery.pointer?) (after f queries) :=
  (holds_empty f).run_askAll queries

/-! ### The memory of a cache -/

/-- The memory answers for the class name as its cache does. -/
theorem memo_classNameAt (f : SourceFile) (i : ℕ) (c : FileCache) :
    (FileMemo.classNameAt f i).run c.memo =
      (((classNameAt f i).run c).1, ((classNameAt f i).run c).2.memo) := by
  obtain ⟨methods, name, members⟩ := c
  cases name <;> rfl

/-- The memory tells of a constructor that is missing as its cache does. -/
theorem Holds.memo_lacksConstructor (h : Holds f asked c) :
    (FileMemo.lacksConstructor f).run c.memo =
      (((assignments f).run c).1.2, ((assignments f).run c).2.memo) := by
  rw [h.run_assignments.1]
  obtain ⟨methods, name, members⟩ := c
  cases members with
  | some known => rfl
  | none => cases methods <;> rfl

/-! ### Answers after other questions -/

/-- The answer of a new cache. -/
def fresh (f : SourceFile) (q : FileQuery) : FileAnswer := ((ask f q).run empty).1

/-- The first token that the class name is asked for, by some questions and then for one more
token. -/
def firstPointer (before : List FileQuery) (i : ℕ) : ℕ :=
  pointer (before.filterMap FileQuery.pointer?) i

variable {path : String} {source : Text}

theorem fresh_className (f : SourceFile) (i : ℕ) :
    fresh f (.className i) = .className (f.outerClassName i) := rfl

/-- **Of all answers of a cache only the class name depends on the questions before.** It is that of
the first token asked for: the name of the outermost owner around this token. So it is right for all
tokens with the same outermost owner. A fluent method is expected to return this class. -/
theorem answers_after (h : SourceFile.parse path source = .ok f) (before : List FileQuery) :
    ((ask f .methods).run (after f before)).1 = fresh f .methods ∧
    (∀ name, ((ask f (.method name)).run (after f before)).1 = fresh f (.method name)) ∧
    (∀ i, ((ask f (.className i)).run (after f before)).1 =
      fresh f (.className (firstPointer before i))) ∧
    (∀ i,
      (∃ w k, f.Outermost i w k ∧ fresh f (.className i) = .className (f.classNameOf w k)) ∨
        (∀ w k r, ¬ScopeAround f.tokens.toList i w k r) ∧ fresh f (.className i) = .className []) ∧
    (∀ i w k, f.Outermost i w k → f.Outermost (firstPointer before i) w k →
      ((ask f (.className i)).run (after f before)).1 = fresh f (.className i)) ∧
    ∀ setter, ∃ name, fresh f (.className (firstPointer before setter)) = .className name ∧
      ((Contract.expectedReturn f setter .fluent).run (after f before).memo).1 =
        name ++ "|self|static".toList := by
  have hholds := holds_after f before
  have hclass : ∀ i, ((ask f (.className i)).run (after f before)).1 =
      fresh f (.className (firstPointer before i)) := fun i =>
    congrArg FileAnswer.className (hholds.run_classNameAt i).1
  refine ⟨?_, fun name => ?_, hclass, fun i => ?_, fun i w k hi hfirst => ?_, fun setter => ?_⟩
  · exact congrArg FileAnswer.methods hholds.run_methods.1
  · exact congrArg FileAnswer.method (hholds.run_method? name).1
  · rcases SourceFile.outerClassName_cases h i with ⟨w, k, hw, heq⟩ | ⟨hno, heq⟩
    · exact .inl ⟨w, k, hw, congrArg FileAnswer.className heq⟩
    · exact .inr ⟨hno, congrArg FileAnswer.className heq⟩
  · rw [hclass, fresh_className, fresh_className, SourceFile.outerClassName_of_outermost h hi,
      SourceFile.outerClassName_of_outermost h hfirst]
  · refine ⟨_, fresh_className f _, ?_⟩
    have hmemo := congrArg Prod.fst (memo_classNameAt f setter (after f before))
    rw [(hholds.run_classNameAt setter).1] at hmemo
    show ((FileMemo.classNameAt f setter).run (after f before).memo).1 ++ "|self|static".toList = _
    rw [hmemo]
    rfl

/-- A method whose class name was first asked for another method of the class. -/
theorem answers_after_getter : ∃ f, SourceFile.parse "a.php"
      "<?php class A\x7bfunction a()\x7b\x7d function b()\x7b\x7d\x7d".toList = .ok f ∧
    f.textAt 6 = "function".toList ∧ f.textAt 14 = "function".toList ∧
    ((ask f (.className 14)).run (after f [.methods, .className 6])).1 = .className "A".toList := by
  have heval : (SourceFile.parse "a.php"
      "<?php class A\x7bfunction a()\x7b\x7d function b()\x7b\x7d\x7d".toList).toOption.any
        (fun f => f.textAt 6 = "function".toList ∧ f.textAt 14 = "function".toList ∧
          fresh f (.className 6) = .className "A".toList) = true := by
    decide +kernel
  obtain ⟨f, hf, hp⟩ := (Option.any_eq_true _ _).1 heval
  obtain ⟨hfirst, hsecond, hname⟩ := of_decide_eq_true hp
  have hparse : SourceFile.parse "a.php"
      "<?php class A\x7bfunction a()\x7b\x7d function b()\x7b\x7d\x7d".toList = .ok f := by
    cases hr : SourceFile.parse "a.php" _ <;> rw [hr] at hf <;> cases hf
    rfl
  obtain ⟨-, -, hclass, -⟩ := answers_after hparse [.methods, .className 6]
  exact ⟨f, hparse, hfirst, hsecond, (hclass 14).trans hname⟩

/-- The class name of a second class, after it was asked for in the first one. -/
theorem exists_stale_className : ∃ f, SourceFile.parse "a.php" ("<?php class A\x7bfunction a()\x7b\x7d\x7d".toList ++
      "class B\x7bfunction b()\x7b\x7d\x7d".toList) = .ok f ∧
    ((ask f (.className 18)).run (after f [.className 6])).1 = .className "A".toList ∧
    fresh f (.className 18) = .className "B".toList ∧
    ((Contract.expectedReturn f 18 .fluent).run (after f [.className 6]).memo).1 =
      "A|self|static".toList := by
  have heval : (SourceFile.parse "a.php" ("<?php class A\x7bfunction a()\x7b\x7d\x7d".toList ++
      "class B\x7bfunction b()\x7b\x7d\x7d".toList)).toOption.any
        (fun f => ((ask f (.className 18)).run (after f [.className 6])).1 = .className "A".toList ∧
          fresh f (.className 18) = .className "B".toList ∧
          ((Contract.expectedReturn f 18 .fluent).run (after f [.className 6]).memo).1 =
            "A|self|static".toList) = true := by
    decide +kernel
  obtain ⟨f, hf, hp⟩ := (Option.any_eq_true _ _).1 heval
  refine ⟨f, ?_, of_decide_eq_true hp⟩
  cases hr : SourceFile.parse "a.php" _ <;> rw [hr] at hf <;> cases hf
  rfl

end FileCache

end EntityLint
