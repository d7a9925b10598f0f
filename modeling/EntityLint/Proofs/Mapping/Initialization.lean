import EntityLint.Proofs.Mapping.FileCache
import EntityLint.Proofs.Source.Reading

/-!
# What a constructor initializes

For each `$this` in its body, a constructor is taken to assign the value behind the first `=` to the name
behind the first arrow, as far as these stand before the next semicolon. So `$this->name = value;` is read
as it is meant. But each of the parts is looked for on its own, and whatever stands between them is passed
over.

* `SourceFile.IsFirst`, `IsNext`: tokens that come first, and tokens that follow each other;
* `SourceFile.ReadsAs`, `Assigns`: what a `$this` reads as, and what is assigned there;
* `SourceFile.readsAs_of_access`, `Assigns.readsAs`: members that are read as assigned;
* `SourceFile.mem_assignmentsIn`, `lookup_assignmentsIn`: what is read in a body;
* `SourceFile.IsLast`: the last value of a member.

The main statement is `FileCache.assigned_members_are_initialized`.
-/

namespace EntityLint

namespace SourceFile

variable {f : SourceFile} {start stop i j t : ℕ} {n v : Text}

/-! ### First tokens -/

/-- The first token from `start` on and before `stop` whose kind satisfies `p`. -/
def IsFirst (f : SourceFile) (p : Kind → Prop) (start stop i : ℕ) : Prop :=
  start ≤ i ∧ i < stop ∧ (∃ k ∈ f.kindAt i, p k) ∧ ∀ j, start ≤ j → j < i → ∀ k ∈ f.kindAt j, ¬p k

/-- The token at `j` is of the kind `k`, and between `i` and it there is only trivia. -/
def IsNext (f : SourceFile) (k : Kind) (i j : ℕ) : Prop :=
  i < j ∧ f.kindAt j = some k ∧ ∀ m, i < m → m < j → ∀ k' ∈ f.kindAt m, k'.isTrivia = true

/-- A `$this` that stands strictly between two tokens. -/
def IsThis (f : SourceFile) (start stop i : ℕ) : Prop :=
  start < i ∧ i < stop ∧ f.kindAt i = some .variable ∧ f.textAt i = "$this".toList

instance {p : Kind → Prop} [DecidablePred p] : Decidable (f.IsFirst p start stop i) :=
  inferInstanceAs (Decidable (_ ∧ _ ∧ _ ∧ ∀ j, start ≤ j → j < i → ∀ k ∈ f.kindAt j, ¬p k))

instance {k : Kind} : Decidable (f.IsNext k i j) :=
  inferInstanceAs (Decidable
    (_ ∧ _ ∧ ∀ m, i + 1 ≤ m → m < j → ∀ k' ∈ f.kindAt m, k'.isTrivia = true))

instance : Decidable (f.IsThis start stop i) := inferInstanceAs (Decidable (_ ∧ _ ∧ _ ∧ _))

theorem lt_size_of_holdsAt {p : Token → Bool} (h : f.holdsAt p i = true) : i < f.tokens.size := by
  obtain ⟨t, ht, -⟩ := (Option.any_eq_true _ _).1 h
  exact (Array.getElem?_eq_some_iff.1 ht).1

theorem next?_eq_some_iff {p : Token → Bool} : f.next? p start (some stop) = some i ↔
    start ≤ i ∧ i < stop ∧ f.holdsAt p i = true ∧
      ∀ j, start ≤ j → j < i → f.holdsAt p j = false := by
  rw [next?, findUp_eq_some_iff, Option.getD_some]
  constructor
  · rintro ⟨hle, hlt, hp, hfirst⟩
    exact ⟨hle, by omega, hp, hfirst⟩
  · rintro ⟨hle, hlt, hp, hfirst⟩
    have hsize := lt_size_of_holdsAt hp
    exact ⟨hle, by omega, hp, hfirst⟩

theorem next?_eq_none {p : Token → Bool} (h : f.next? p start (some stop) = none) :
    ∀ i, start ≤ i → i < stop → f.holdsAt p i = false := by
  intro i hle hlt
  by_contra hp
  rw [Bool.not_eq_false] at hp
  have hsize := lt_size_of_holdsAt hp
  rw [findUp_eq_none h i hle (by rw [Option.getD_some]; omega)] at hp
  cases hp

section Kinds

variable {kinds : List Kind} {exclude : Bool} {p : Kind → Prop}

theorem holdsAt_search_iff (hp : ∀ k, (kinds.contains k != exclude) = true ↔ p k) :
    f.holdsAt (fun t => kinds.contains t.kind != exclude) i = true ↔ ∃ k ∈ f.kindAt i, p k := by
  rw [holdsAt, kindAt]
  cases f.tokens[i]? with
  | none => simp
  | some t => simpa using hp t.kind

/-- A search for kinds finds the first token of such a kind. -/
theorem nextOfKind?_eq_some_iff_isFirst (hp : ∀ k, (kinds.contains k != exclude) = true ↔ p k) :
    f.nextOfKind? kinds start (some stop) exclude = some i ↔ f.IsFirst p start stop i := by
  rw [nextOfKind?, next?_eq_some_iff, holdsAt_search_iff hp, IsFirst]
  simp only [← Bool.not_eq_true, holdsAt_search_iff hp, not_exists, not_and]

theorem nextOfKind?_eq_none (hp : ∀ k, (kinds.contains k != exclude) = true ↔ p k)
    (h : f.nextOfKind? kinds start (some stop) exclude = none) (hle : start ≤ i) (hlt : i < stop) :
    ¬∃ k ∈ f.kindAt i, p k := by
  rw [← holdsAt_search_iff hp, next?_eq_none h i hle hlt]
  exact Bool.false_ne_true

end Kinds

theorem contains_singleton_iff (k k' : Kind) : ([k].contains k' != false) = true ↔ k' = k := by
  simp

theorem contains_blank_iff (k : Kind) : ([Kind.blank].contains k != true) = true ↔ k ≠ .blank := by
  simp

theorem holdsAt_this_iff :
    f.holdsAt (fun t => [Kind.variable].contains t.kind && t.text == "$this".toList) i = true ↔
      f.kindAt i = some .variable ∧ f.textAt i = "$this".toList := by
  rw [holdsAt, kindAt, textAt]
  cases f.tokens[i]? with
  | none => simp
  | some t => simp

/-- The search for a `$this` finds the first one. The others come behind it. -/
theorem isThis_iff_of_nextWithText?
    (h : f.nextWithText? [.variable] (start + 1) (some stop) "$this".toList = some t) :
    f.IsThis start stop i ↔ i = t ∨ f.IsThis t stop i := by
  obtain ⟨hle, hlt, hthis, hfirst⟩ := next?_eq_some_iff.1 h
  constructor
  · rintro ⟨hstart, hstop, hi⟩
    rcases Nat.lt_trichotomy i t with hbefore | heq | hbehind
    · have hfalse := hfirst i hstart hbefore
      rw [holdsAt_this_iff.2 hi] at hfalse
      cases hfalse
    · exact .inl heq
    · exact .inr ⟨hbehind, hstop, hi⟩
  · rintro (rfl | ⟨hbehind, hstop, hi⟩)
    · exact ⟨hle, hlt, holdsAt_this_iff.1 hthis⟩
    · exact ⟨by omega, hstop, hi⟩

theorem not_isThis_of_nextWithText?
    (h : f.nextWithText? [.variable] (start + 1) (some stop) "$this".toList = none) :
    ¬f.IsThis start stop i := by
  rintro ⟨hstart, hstop, hi⟩
  have hfalse := next?_eq_none h i hstart hstop
  rw [holdsAt_this_iff.2 hi] at hfalse
  cases hfalse

/-! ### One assignment -/

/-- What a `$this` reads as: the assignment of a value to a name, with an arrow, the name, `=` and the
value each the first behind the part before and in front of the first semicolon. -/
def ReadsAs (f : SourceFile) (t : ℕ) (n v : Text) : Prop :=
  ∃ stop arrow name equals value, f.IsFirst (· = .semicolon) (t + 1) f.tokens.size stop ∧
    f.IsFirst (· = .arrow) (t + 1) stop arrow ∧ f.IsFirst (· = .word) (arrow + 1) stop name ∧
    f.IsFirst (· = .equals) (name + 1) stop equals ∧ f.IsFirst (· ≠ .blank) (equals + 1) stop value ∧
    f.textAt name = n ∧ f.textBetween value stop = v

/-- What is assigned to a member at a `$this`: an arrow, the name of the member and `=` follow, and the
value reaches up to the first semicolon. -/
def Assigns (f : SourceFile) (t : ℕ) (n v : Text) : Prop :=
  ∃ stop arrow name equals value, f.IsNext .arrow t arrow ∧ f.IsNext .word arrow name ∧
    f.IsNext .equals name equals ∧ f.IsFirst (· = .semicolon) (equals + 1) f.tokens.size stop ∧
    f.IsFirst (· ≠ .blank) (equals + 1) stop value ∧ f.textAt name = n ∧ f.textBetween value stop = v

theorem IsFirst.unique {p : Kind → Prop} (hi : f.IsFirst p start stop i)
    (hj : f.IsFirst p start stop j) : i = j := by
  obtain ⟨hile, -, ⟨k, hk, hpk⟩, hifirst⟩ := hi
  obtain ⟨hjle, -, ⟨k', hk', hpk'⟩, hjfirst⟩ := hj
  rcases Nat.lt_trichotomy i j with hlt | heq | hlt
  · exact absurd hpk (hjfirst i hile hlt k hk)
  · exact heq
  · exact absurd hpk' (hifirst j hjle hlt k' hk')

/-- What stands next is the first of its kind. -/
theorem IsNext.isFirst {k : Kind} (h : f.IsNext k i j) (hk : k.isTrivia = false) (hlt : j < stop) :
    f.IsFirst (· = k) (i + 1) stop j := by
  obtain ⟨hij, hkind, htrivia⟩ := h
  refine ⟨hij, hlt, ⟨k, hkind, rfl⟩, ?_⟩
  rintro m him hmj k' hk' rfl
  rw [htrivia m him hmj k' hk'] at hk
  cases hk

/-- The way to what stands next has no semicolon. -/
theorem IsNext.isFirst_semicolon {k : Kind} (h : f.IsNext k i j) (hk : k ≠ .semicolon) {bound : ℕ}
    (hstop : f.IsFirst (· = .semicolon) (j + 1) bound stop) :
    f.IsFirst (· = .semicolon) (i + 1) bound stop := by
  obtain ⟨hij, hkind, htrivia⟩ := h
  obtain ⟨hle, hlt, hsemicolon, hfirst⟩ := hstop
  refine ⟨by omega, hlt, hsemicolon, ?_⟩
  rintro m him hm k' hk' rfl
  rcases Nat.lt_trichotomy m j with hmj | rfl | hjm
  · cases htrivia m him hmj _ hk'
  · exact hk (Option.some.inj (hkind.symm.trans hk'))
  · exact hfirst m hjm hm _ hk' rfl

/-- A member is read as assigned whatever stands between its name and the first `=`. -/
theorem readsAs_of_access {arrow name equals value : ℕ} (harrow : f.IsNext .arrow t arrow)
    (hname : f.IsNext .word arrow name)
    (hstop : f.IsFirst (· = .semicolon) (name + 1) f.tokens.size stop)
    (hequals : f.IsFirst (· = .equals) (name + 1) stop equals)
    (hvalue : f.IsFirst (· ≠ .blank) (equals + 1) stop value) :
    f.ReadsAs t (f.textAt name) (f.textBetween value stop) := by
  have hstop' := hname.isFirst_semicolon nofun hstop
  have hname' : name < stop := hstop.1
  have harrow' : arrow < stop := hstop'.1
  exact ⟨stop, arrow, name, equals, value, harrow.isFirst_semicolon nofun hstop',
    harrow.isFirst rfl harrow', hname.isFirst rfl hname', hequals, hvalue, rfl, rfl⟩

/-- What is assigned to a member is read as such. -/
theorem Assigns.readsAs (h : f.Assigns t n v) : f.ReadsAs t n v := by
  obtain ⟨stop, arrow, name, equals, value, harrow, hname, hequals, hstop, hvalue, rfl, rfl⟩ := h
  exact readsAs_of_access harrow hname (hequals.isFirst_semicolon nofun hstop)
    (hequals.isFirst rfl hstop.1) hvalue

/-! ### All `$this` of a body -/

theorem assignmentAt?_eq_some_iff : f.assignmentAt? t stop = some (n, v) ↔
    ∃ arrow name equals value, f.IsFirst (· = .arrow) (t + 1) stop arrow ∧
      f.IsFirst (· = .word) (arrow + 1) stop name ∧ f.IsFirst (· = .equals) (name + 1) stop equals ∧
      f.IsFirst (· ≠ .blank) (equals + 1) stop value ∧
      f.textAt name = n ∧ f.textBetween value stop = v := by
  simp only [assignmentAt?, Option.bind_eq_bind, Option.bind_eq_some_iff, Option.pure_def,
    Option.some_inj, Prod.mk.injEq, nextOfKind?_eq_some_iff_isFirst (contains_singleton_iff _),
    nextOfKind?_eq_some_iff_isFirst contains_blank_iff]
  simp only [exists_and_left]

theorem nextSemicolon?_eq_some_iff : f.nextOfKind? [.semicolon] start none false = some stop ↔
    f.IsFirst (· = .semicolon) start f.tokens.size stop := by
  show f.nextOfKind? [.semicolon] start (some f.tokens.size) false = some stop ↔ _
  exact nextOfKind?_eq_some_iff_isFirst (contains_singleton_iff _)

/-- What a `$this` in front of a semicolon reads as. -/
theorem readsAs_iff (hstop : f.nextOfKind? [.semicolon] (t + 1) none false = some stop) :
    f.ReadsAs t n v ↔ f.assignmentAt? t stop = some (n, v) := by
  rw [nextSemicolon?_eq_some_iff] at hstop
  rw [assignmentAt?_eq_some_iff]
  constructor
  · rintro ⟨stop', arrow, name, equals, value, hstop', hparts⟩
    obtain rfl := hstop.unique hstop'
    exact ⟨arrow, name, equals, value, hparts⟩
  · rintro ⟨arrow, name, equals, value, hparts⟩
    exact ⟨stop, arrow, name, equals, value, hstop, hparts⟩

/-- Where no semicolon follows the first `$this`, nothing is read. -/
theorem not_readsAs
    (htarget : f.nextWithText? [.variable] (start + 1) (some stop) "$this".toList = some t)
    (hnone : f.nextOfKind? [.semicolon] (t + 1) none false = none) (hthis : f.IsThis start stop i) :
    ¬f.ReadsAs i n v := by
  have hle : t ≤ i := by
    rcases (isThis_iff_of_nextWithText? htarget).1 hthis with rfl | hbehind
    · exact le_rfl
    · exact hbehind.1.le
  rintro ⟨s, -, -, -, -, ⟨hi, hsize, hsemicolon, -⟩, -⟩
  exact nextOfKind?_eq_none (contains_singleton_iff _) hnone (by omega) hsize hsemicolon

theorem ReadsAs.unique {n' v' : Text} (h : f.ReadsAs t n v) (h' : f.ReadsAs t n' v') :
    n = n' ∧ v = v' := by
  have hsemicolon : ∃ stop, f.nextOfKind? [.semicolon] (t + 1) none false = some stop := by
    obtain ⟨stop, -, -, -, -, hstop, -⟩ := h
    exact ⟨stop, nextSemicolon?_eq_some_iff.2 hstop⟩
  obtain ⟨stop, hstop⟩ := hsemicolon
  have heq := ((readsAs_iff hstop).1 h).symm.trans ((readsAs_iff hstop).1 h')
  exact Prod.mk.inj (Option.some.inj heq)

/-- What is read in a body: what each `$this` there reads as. -/
theorem mem_assignmentsIn : (n, v) ∈ f.assignmentsIn stop start ↔
    ∃ t, f.IsThis start stop t ∧ f.ReadsAs t n v := by
  fun_induction assignmentsIn f stop start with
  | case1 start hnone =>
    refine iff_of_false List.not_mem_nil ?_
    rintro ⟨t, hthis, -⟩
    exact not_isThis_of_nextWithText? hnone hthis
  | case2 start target htarget hnone =>
    refine iff_of_false List.not_mem_nil ?_
    rintro ⟨t, hthis, hreads⟩
    exact not_readsAs htarget hnone hthis hreads
  | case3 start target htarget semicolon hsemicolon ih =>
    rw [List.mem_append, Option.mem_toList, ← readsAs_iff hsemicolon, ih]
    constructor
    · rintro (hreads | ⟨t, hthis, hreads⟩)
      · exact ⟨target, (isThis_iff_of_nextWithText? htarget).2 (.inl rfl), hreads⟩
      · exact ⟨t, (isThis_iff_of_nextWithText? htarget).2 (.inr hthis), hreads⟩
    · rintro ⟨t, hthis, hreads⟩
      rcases (isThis_iff_of_nextWithText? htarget).1 hthis with rfl | hbehind
      · exact .inl hreads
      · exact .inr ⟨t, hbehind, hreads⟩

/-- The last `$this` of a body at which a value is given to a member, with `R` saying what is given. -/
def IsLast (f : SourceFile) (R : ℕ → Text → Text → Prop) (start stop : ℕ) (n v : Text) : Prop :=
  ∃ t, f.IsThis start stop t ∧ R t n v ∧ ∀ t' v', t < t' → f.IsThis start stop t' → ¬R t' n v'

/-- The last value in a body: that of the first `$this` unless one behind it gives another. -/
theorem isLast_readsAs_iff
    (h : f.nextWithText? [.variable] (start + 1) (some stop) "$this".toList = some t) :
    f.IsLast f.ReadsAs start stop n v ↔ f.IsLast f.ReadsAs t stop n v ∨
      f.ReadsAs t n v ∧ ∀ t' v', f.IsThis t stop t' → ¬f.ReadsAs t' n v' := by
  constructor
  · rintro ⟨u, hthis, hreads, hlast⟩
    rcases (isThis_iff_of_nextWithText? h).1 hthis with rfl | hbehind
    · exact .inr ⟨hreads, fun t' v' hthis' =>
        hlast t' v' hthis'.1 ((isThis_iff_of_nextWithText? h).2 (.inr hthis'))⟩
    · exact .inl ⟨u, hbehind, hreads, fun t' v' hlt hthis' =>
        hlast t' v' hlt ((isThis_iff_of_nextWithText? h).2 (.inr hthis'))⟩
  · rintro (⟨u, hthis, hreads, hlast⟩ | ⟨hreads, hlast⟩)
    · refine ⟨u, (isThis_iff_of_nextWithText? h).2 (.inr hthis), hreads, fun t' v' hlt hthis' => ?_⟩
      exact hlast t' v' hlt ⟨hthis.1.trans hlt, hthis'.2⟩
    · refine ⟨t, (isThis_iff_of_nextWithText? h).2 (.inl rfl), hreads, fun t' v' hlt hthis' => ?_⟩
      exact hlast t' v' ⟨hlt, hthis'.2⟩

/-- A member without a value in a body. -/
theorem lookup_assignmentsIn_eq_none : (f.assignmentsIn stop start).reverse.lookup n = none ↔
    ∀ t v, f.IsThis start stop t → ¬f.ReadsAs t n v := by
  rw [List.lookup_eq_none_iff]
  constructor
  · intro h t v hthis hreads
    simpa using h (n, v) (List.mem_reverse.2 (mem_assignmentsIn.2 ⟨t, hthis, hreads⟩))
  · rintro h ⟨m, v⟩ hmem
    obtain ⟨t, hthis, hreads⟩ := mem_assignmentsIn.1 (List.mem_reverse.1 hmem)
    rw [bne_iff_ne]
    rintro rfl
    exact h t v hthis hreads

/-- The last value in a body is that of the last `$this` that reads as an assignment to the member. -/
theorem lookup_assignmentsIn : (f.assignmentsIn stop start).reverse.lookup n = some v ↔
    f.IsLast f.ReadsAs start stop n v := by
  fun_induction assignmentsIn f stop start with
  | case1 start hnone =>
    refine iff_of_false nofun ?_
    rintro ⟨t, hthis, -⟩
    exact not_isThis_of_nextWithText? hnone hthis
  | case2 start target htarget hnone =>
    refine iff_of_false nofun ?_
    rintro ⟨t, hthis, hreads, -⟩
    exact not_readsAs htarget hnone hthis hreads
  | case3 start target htarget semicolon hsemicolon ih =>
    have hone : (f.assignmentAt? target semicolon).toList.reverse.lookup n = some v ↔
        f.ReadsAs target n v := by
      rw [readsAs_iff hsemicolon]
      cases f.assignmentAt? target semicolon with
      | none => simp
      | some x =>
        obtain ⟨m, w⟩ := x
        by_cases hm : n = m
        · subst hm
          simp
        · simp [beq_false_of_ne hm, Ne.symm hm]
    rw [isLast_readsAs_iff htarget, ← ih, ← lookup_assignmentsIn_eq_none, ← hone,
      List.reverse_append, List.lookup_append, Option.or_eq_some_iff]
    exact or_congr_right and_comm

/-- The body of the constructor. -/
def constructorBody? (f : SourceFile) : Option Range :=
  (f.method? constructorName).bind fun i => f.tokens[i]?.bind Token.scope

end SourceFile

/-! ### The members that a cache knows -/

namespace FileCache

open SourceFile

variable {f : SourceFile} {body : Range}

/-- The value that a cache has for a member after some questions. -/
def initialValueAfter? (f : SourceFile) (queries : List FileQuery) (n : Text) : Option Text :=
  ((assignments f).run (after f queries)).1.1.reverse.lookup n

theorem initialValueAfter?_eq (hbody : f.constructorBody? = some body) (queries : List FileQuery)
    (n : Text) : initialValueAfter? f queries n =
      (f.assignmentsIn body.closer body.opener).reverse.lookup n := by
  rw [constructorBody?] at hbody
  rw [initialValueAfter?, (holds_after f queries).run_assignments.1, constructorAssignments, hbody]

/-- **A member that the constructor assigns is initialized**, whatever the cache has been asked before. It
has the last value that some `$this` of the body reads as assigned to it. If only assignments to the
member read as such, that is the value last assigned, and a member that is not assigned has none. -/
theorem assigned_members_are_initialized (hbody : f.constructorBody? = some body)
    (queries : List FileQuery) :
    (∀ n v, initialValueAfter? f queries n = some v ↔
      f.IsLast f.ReadsAs body.opener body.closer n v) ∧
    (∀ t n v, f.IsThis body.opener body.closer t → f.Assigns t n v →
      f.ReadsAs t n v ∧ (initialValueAfter? f queries n).isSome = true) ∧
    ∀ n, (∀ t v, f.IsThis body.opener body.closer t → f.ReadsAs t n v → f.Assigns t n v) →
      ∀ v, initialValueAfter? f queries n = some v ↔
        f.IsLast f.Assigns body.opener body.closer n v := by
  simp only [initialValueAfter?_eq hbody queries]
  refine ⟨fun n v => lookup_assignmentsIn, fun t n v hthis hassigns => ⟨hassigns.readsAs, ?_⟩,
    fun n hreads v => ?_⟩
  · rw [Option.isSome_iff_ne_none]
    intro hnone
    exact lookup_assignmentsIn_eq_none.1 hnone t v hthis hassigns.readsAs
  · rw [lookup_assignmentsIn]
    constructor
    · rintro ⟨t, hthis, hread, hrest⟩
      exact ⟨t, hthis, hreads t v hthis hread, fun t' v' hlt hthis' hassigns =>
        hrest t' v' hlt hthis' hassigns.readsAs⟩
    · rintro ⟨t, hthis, hassigns, hrest⟩
      exact ⟨t, hthis, hassigns.readsAs, fun t' v' hlt hthis' hread =>
        hrest t' v' hlt hthis' (hreads t' v' hthis' hread)⟩

/-- A constructor with an assignment and a chained access: `a` has the value assigned, and `b` has a value
although it is not assigned. -/
theorem assigned_members_are_initialized_chain : ∃ f, SourceFile.parse "a.php"
      ("<?php class A\x7bfunction __construct()\x7b$this->a = [];".toList ++
        "$this->b->c = 2;\x7d\x7d".toList) = .ok f ∧
    f.constructorBody? = some ⟨11, 31⟩ ∧
    f.IsLast f.Assigns 11 31 "a".toList "[]".toList ∧
    initialValueAfter? f [.methods, .assignments] "a".toList = some "[]".toList ∧
    f.IsLast f.ReadsAs 11 31 "b".toList "2".toList ∧
    initialValueAfter? f [.methods, .assignments] "b".toList = some "2".toList := by
  have heval : (SourceFile.parse "a.php"
      ("<?php class A\x7bfunction __construct()\x7b$this->a = [];".toList ++
        "$this->b->c = 2;\x7d\x7d".toList)).toOption.any (fun f =>
    f.constructorBody? = some ⟨11, 31⟩ ∧ f.IsThis 11 31 12 ∧ f.IsThis 11 31 21 ∧
    (∀ t, 12 ≤ t → t < 31 → f.IsThis 11 31 t → t = 12 ∨ t = 21) ∧
    (f.IsNext .arrow 12 13 ∧ f.IsNext .word 13 14 ∧ f.IsNext .equals 14 16 ∧
      f.IsFirst (· = .semicolon) 17 f.tokens.size 20 ∧ f.IsFirst (· ≠ .blank) 17 20 18 ∧
      f.textAt 14 = "a".toList ∧ f.textBetween 18 20 = "[]".toList) ∧
    f.IsNext .arrow 21 22 ∧ f.IsNext .word 22 23 ∧
      f.IsFirst (· = .semicolon) 24 f.tokens.size 30 ∧ f.IsFirst (· = .equals) 24 30 27 ∧
      f.IsFirst (· ≠ .blank) 28 30 29 ∧ f.textAt 23 = "b".toList ∧ f.textBetween 29 30 = "2".toList) =
      true := by
    decide +kernel
  obtain ⟨f, hparse, hbody, hfirst, hsecond, hthis, ha, harrow, hname, hstop, hequals, hvalue, hb,
    htext⟩ := exists_ok_of_any heval
  have hassigns : f.Assigns 12 "a".toList "[]".toList := ⟨20, 13, 14, 16, 18, ha⟩
  have hreads : f.ReadsAs 21 "b".toList "2".toList :=
    hb ▸ htext ▸ readsAs_of_access harrow hname hstop hequals hvalue
  have hother : ∀ v, ¬f.ReadsAs 21 "a".toList v := fun v hv =>
    absurd (hv.unique hreads).1 (by decide)
  have hlasta : f.IsLast f.Assigns 11 31 "a".toList "[]".toList := by
    refine ⟨12, hfirst, hassigns, fun t v hlt ht hv => ?_⟩
    rcases hthis t ht.1 ht.2.1 ht with rfl | rfl
    · exact lt_irrefl _ hlt
    · exact hother v hv.readsAs
  have hlastb : f.IsLast f.ReadsAs 11 31 "b".toList "2".toList := by
    refine ⟨21, hsecond, hreads, fun t v hlt ht hv => ?_⟩
    rcases hthis t ht.1 ht.2.1 ht with rfl | rfl <;> omega
  obtain ⟨hread, -, hassigned⟩ := assigned_members_are_initialized hbody [.methods, .assignments]
  refine ⟨f, hparse, hbody, hlasta, (hassigned _ (fun t v ht hv => ?_) _).2 hlasta, hlastb,
    (hread _ _).2 hlastb⟩
  -- the only `$this` that reads as an assignment to `a` is the first one
  rcases hthis t ht.1 ht.2.1 ht with rfl | rfl
  · rwa [(hv.unique hassigns.readsAs).2]
  · exact absurd hv (hother v)

end FileCache

end EntityLint
