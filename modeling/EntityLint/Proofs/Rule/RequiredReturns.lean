import EntityLint.Proofs.Mapping.Accessors
import EntityLint.Proofs.Rule.Faults

/-!
# Returns that accessors need

An accessor that has to return something and declares no type needs a return statement. Whether it has one
is asked of all tokens of its body, so a return of a function inside the body counts as well.

* `Token.ScopeAround.around_owner`: a scope around a token is around the owners of the inner scopes;
* `SourceFile.InFunction`, `innermostFunction?`: the functions around a token, and the innermost of them;
* `SourceFile.hasReturn_iff`: the search for a return;
* `Contract.AsksForReturn`, `asksForReturn_of_mem_findings`: when a return is asked for.

The main statement is `missing_returns_are_sought_at_any_depth`.
-/

namespace EntityLint

open Text

/-! ### Functions around a token -/

section Scopes

variable {path : String} {source : Text} {f : SourceFile} {i w v : ℕ} {k k' : Kind} {r s : Range}

/-- A scope around a token is around the owners of the inner scopes there. -/
theorem Token.ScopeAround.around_owner {tokens : List Token} (hpaired : Token.WellPaired tokens)
    (hr : Token.ScopeAround tokens i w k r) (hs : Token.ScopeAround tokens i v k' s) (h : w < v) :
    Token.ScopeAround tokens v w k r := by
  obtain ⟨hopener, hcloser⟩ := hr.inside_of_lt hpaired hs h
  obtain ⟨hk, hw, hmatches, -, -⟩ := (Token.scopeAround_iff hpaired).1 hr
  obtain ⟨-, hv, -, hsi, his⟩ := (Token.scopeAround_iff hpaired).1 hs
  have hlt := hv.waits.lt
  exact (Token.scopeAround_iff hpaired).2 ⟨hk, hw, hmatches, hw.lt_of_lt hv hopener, by omega⟩

namespace SourceFile

/-- A token is in the body of a function, or in that of a function inside of it. -/
def InFunction (f : SourceFile) (g i : ℕ) : Prop :=
  ∃ r, Token.ScopeAround f.tokens.toList i g .kwFunction r

/-- The innermost function whose body a token is in. -/
def innermostFunction? (f : SourceFile) (i : ℕ) : Option ℕ :=
  (f.tokens[i]?.bind fun t => t.conditions.reverse.find? fun x => x.2 == .kwFunction).map Prod.fst

theorem inFunction_iff_mem_conditions (h : parse path source = .ok f) {t : Token}
    (ht : f.tokens[i]? = some t) : f.InFunction w i ↔ (w, .kwFunction) ∈ t.conditions := by
  rw [conditions_of_parse h ht, Token.mem_ownersAround]
  rfl

theorem innermostFunction?_eq {t : Token} (ht : f.tokens[i]? = some t) : f.innermostFunction? i =
    (t.conditions.reverse.find? fun x => x.2 == .kwFunction).map Prod.fst := by
  rw [innermostFunction?, ht, Option.bind_some]

/-- The innermost function around a token is in the bodies of all others. -/
theorem inFunction_of_innermostFunction? (h : parse path source = .ok f)
    (hw : f.innermostFunction? i = some w) :
    f.InFunction w i ∧ ∀ v, f.InFunction v i → v = w ∨ f.InFunction v w := by
  have hpaired := wellPaired_of_parse h
  obtain ⟨t, ht⟩ : ∃ t, f.tokens[i]? = some t := by
    cases ht : f.tokens[i]? with
    | some t => exact ⟨t, rfl⟩
    | none => rw [innermostFunction?, ht] at hw; cases hw
  rw [innermostFunction?_eq ht] at hw
  obtain ⟨⟨w, k⟩, hfind, rfl⟩ := Option.map_eq_some_iff.1 hw
  have hk := List.find?_some hfind
  obtain rfl : k = .kwFunction := beq_iff_eq.1 hk
  obtain ⟨r, hr⟩ : f.InFunction w i := (inFunction_iff_mem_conditions h ht).2
    (List.mem_reverse.1 (List.mem_of_find?_eq_some hfind))
  refine ⟨⟨r, hr⟩, fun v ⟨s, hs⟩ => ?_⟩
  have hv : (v, Kind.kwFunction) ∈ t.conditions.reverse :=
    List.mem_reverse.2 ((inFunction_iff_mem_conditions h ht).1 ⟨s, hs⟩)
  have hsorted : t.conditions.Pairwise fun x y => x.1 < y.1 :=
    conditions_of_parse h ht ▸ Token.sorted_ownersAround
  -- the search begins with the inner owners
  rcases eq_or_rel_of_find? (List.pairwise_reverse.2 hsorted) hfind hv rfl with heq | hlt
  · exact .inl (congrArg Prod.fst heq)
  · exact .inr ⟨s, hs.around_owner hpaired hr hlt⟩

theorem exists_innermostFunction? (h : parse path source = .ok f) {t : Token}
    (ht : f.tokens[i]? = some t) (hw : f.InFunction w i) : ∃ v, f.innermostFunction? i = some v := by
  have hmem := List.mem_reverse.2 ((inFunction_iff_mem_conditions h ht).1 hw)
  rw [innermostFunction?_eq ht]
  cases hfind : t.conditions.reverse.find? fun x => x.2 == .kwFunction with
  | none => exact absurd rfl (List.find?_eq_none.1 hfind _ hmem)
  | some x => exact ⟨x.1, rfl⟩

/-! ### The search for a return -/

/-- The search for a return in the body of a function goes through all functions inside of it. -/
theorem hasReturn_iff (h : parse path source = .ok f) (hw : f.kindAt w = some .kwFunction) :
    f.hasReturn w = true ↔ ∃ i, f.kindAt i = some .kwReturn ∧ f.InFunction w i := by
  obtain ⟨t, ht, hk⟩ := Option.map_eq_some_iff.1 hw
  have ht' : f.tokens.toList[w]? = some t := Array.getElem?_toList.trans ht
  have howner : t.kind.isScopeOwner = true := by rw [hk]; rfl
  unfold hasReturn
  rw [ht, Option.bind_some]
  cases hscope : t.scope with
  | none =>
    refine iff_of_false Bool.false_ne_true ?_
    rintro ⟨i, -, r, hr⟩
    obtain ⟨u, hu, -, hur⟩ := hr.token
    cases ht'.symm.trans hu
    cases hscope.symm.trans hur
  | some r =>
    have hmatches := ((wellPaired_of_parse h).owns_scope ht' howner hscope).2
    -- the brackets of the body are no returns
    have hends : ∀ i, f.kindAt i = some .kwReturn → i ≠ r.opener ∧ i ≠ r.closer := by
      intro i hi
      obtain ⟨u, hu, hreturn⟩ := Option.map_eq_some_iff.1 hi
      have hkinds := Token.getElem?_kinds (Array.getElem?_toList.trans hu) (by rw [hreturn]; nofun)
      rw [hreturn] at hkinds
      constructor
      · rintro rfl
        obtain ⟨k, hk, hopens⟩ := hmatches.opens
        cases hkinds.symm.trans hk
        cases hopens
      · rintro rfl
        obtain ⟨k, hk, hcloses⟩ := hmatches.closes
        cases hkinds.symm.trans hk
        cases hcloses
    dsimp only
    rw [isSome_previousOfKind?_iff]
    refine exists_congr fun i => ?_
    constructor
    · rintro ⟨hi, hlow, hhigh⟩
      obtain ⟨hopener, hcloser⟩ := hends i hi
      exact ⟨hi, r, ⟨t, ht', hk, hscope⟩, rfl, by omega, by omega⟩
    · rintro ⟨hi, s, ⟨u, hu, -, hus⟩, -, hlow, hhigh⟩
      cases ht'.symm.trans hu
      cases hscope.symm.trans hus
      exact ⟨hi, hlow.le, hhigh.le⟩

theorem hasReturn_eq_false_iff (h : parse path source = .ok f) (hw : f.kindAt w = some .kwFunction) :
    f.hasReturn w = false ↔ ∀ i, f.kindAt i = some .kwReturn → ¬f.InFunction w i := by
  rw [← Bool.not_eq_true, hasReturn_iff h hw]
  simp only [not_exists, not_and]

end SourceFile

end Scopes

/-! ### Findings of a contract -/

namespace Contract

variable {path : String} {source : Text} {f : SourceFile} {c : Contract} {bases : BaseTypes}
  {memo : FileMemo} {method tagToken : ℕ} {name : Text} {x : Finding}

/-- How the codes of all other findings for a method end. -/
def otherEndings : List String := "ReturnDocType" :: "ReturnType" :: argumentEndings

/-- A contract asks for a return in a method. -/
def AsksForReturn (c : Contract) (f : SourceFile) (method : ℕ) : Prop :=
  c.returns.isSome = true ∧ withoutMark (f.signature method).returnType = [] ∧
    (f.signature method).hasBody = true ∧ f.hasReturn method = false

/-- A finding asks for a return. -/
def IsReturnFault (x : Finding) : Prop := "ReturnRequired".toList <:+ x.code.toList

theorem isReturnFault_fault (c : Contract) (token : ℕ) (message : String) :
    IsReturnFault (c.fault token "ReturnRequired" message) := by
  rw [IsReturnFault, fault, toList_code]
  exact List.suffix_append _ _

theorem not_isReturnFault_fault {token : ℕ} {ending message : String}
    (hending : ending ∈ otherEndings) : ¬IsReturnFault (c.fault token ending message) := by
  have hother : ∀ ending ∈ otherEndings, ¬"ReturnRequired".toList <:+ ending.toList ∧
      ¬ending.toList <:+ "ReturnRequired".toList := by decide
  obtain ⟨hlong, hshort⟩ := hother ending hending
  rw [IsReturnFault, fault, toList_code]
  intro h
  rcases List.suffix_or_suffix_of_suffix h (List.suffix_append _ _) with h | h
  · exact hlong h
  · exact hshort h

theorem not_isReturnFault_required {token : ℕ} {message : String} :
    ¬IsReturnFault (c.fault token "Required" message) := by
  rw [IsReturnFault, fault, toList_code]
  cases c.kind <;> cases c.role <;> decide

/-- What is wrong with the return of a method: there is none, or it has another type. -/
theorem mem_returnFindings_cases {expected : Text}
    (hx : x ∈ c.returnFindings f method name expected) :
    (withoutMark (f.signature method).returnType = [] ∧ (f.signature method).hasBody = true ∧
      f.hasReturn method = false ∧ ∃ message, x = c.fault method "ReturnRequired" message) ∨
    ∃ ending ∈ otherEndings, ∃ message, x = c.fault method ending message := by
  simp only [returnFindings, List.mem_append, List.mem_ite_nil_right, List.mem_singleton] at hx
  rcases hx with (⟨hsilent, rfl⟩ | ⟨-, rfl⟩) | ⟨-, rfl⟩
  · simp only [Bool.and_eq_true, List.isEmpty_iff, Bool.not_eq_true'] at hsilent
    exact .inl ⟨hsilent.1.1, hsilent.1.2, hsilent.2, _, rfl⟩
  · exact .inr ⟨_, by decide, _, rfl⟩
  · exact .inr ⟨_, by decide, _, rfl⟩

theorem exists_mem_returnFindings {expected : Text}
    (huntyped : withoutMark (f.signature method).returnType = [])
    (hbody : (f.signature method).hasBody = true) (hnone : f.hasReturn method = false) :
    ∃ message, c.fault method "ReturnRequired" message ∈ c.returnFindings f method name expected := by
  refine ⟨_, List.mem_append_left _ (List.mem_append_left _ (List.mem_ite_nil_right.2
    ⟨?_, List.mem_singleton_self _⟩))⟩
  simp [huntyped, hbody, hnone]

/-- Only a method that is asked for a return is reported for the lack of one. -/
theorem asksForReturn_of_mem_findings (hx : x ∈ ((c.findings bases f tagToken).run memo).1)
    (hreturn : IsReturnFault x) : ∃ name, c.find? f = some (x.token, name) ∧
      x.code = c.code "ReturnRequired" ∧ c.AsksForReturn f x.token := by
  cases hfind : c.find? f with
  | none =>
    obtain ⟨message, rfl⟩ := run_findings_of_none hfind hx
    exact absurd hreturn not_isReturnFault_required
  | some found =>
    obtain ⟨method, name⟩ := found
    rw [run_findings hfind, List.mem_append] at hx
    rcases hx with hx | hx
    · cases hreturns : c.returns with
      | none =>
        rw [hreturns] at hx
        cases hx
      | some spec =>
        rw [hreturns] at hx
        rcases mem_returnFindings_cases hx with
          ⟨huntyped, hbody, hnone, message, rfl⟩ | ⟨ending, hending, message, rfl⟩
        · exact ⟨name, rfl, rfl, by rw [hreturns]; rfl, huntyped, hbody, hnone⟩
        · exact absurd hreturn (not_isReturnFault_fault hending)
    · cases hargument : c.argument with
      | none =>
        rw [hargument] at hx
        cases hx
      | some argument =>
        rw [hargument] at hx
        obtain ⟨ending, hending, message, rfl⟩ := exists_of_mem_argumentFindings hx
        have hother : ending ∈ otherEndings := List.mem_cons_of_mem _ (List.mem_cons_of_mem _ hending)
        exact absurd hreturn (not_isReturnFault_fault hother)

/-- A method that is asked for a return is reported. -/
theorem AsksForReturn.exists_mem_findings (hfind : c.find? f = some (method, name))
    (hasks : c.AsksForReturn f method) (bases : BaseTypes) (tagToken : ℕ) (memo : FileMemo) : ∃ message,
      c.fault method "ReturnRequired" message ∈ ((c.findings bases f tagToken).run memo).1 := by
  obtain ⟨hreturns, huntyped, hbody, hnone⟩ := hasks
  obtain ⟨spec, hspec⟩ := Option.isSome_iff_exists.1 hreturns
  rw [run_findings hfind, hspec]
  obtain ⟨message, hmem⟩ := exists_mem_returnFindings huntyped hbody hnone
  exact ⟨message, List.mem_append_left _ hmem⟩

theorem kindAt_of_find? (hfind : c.find? f = some (method, name)) :
    f.kindAt method = some .kwFunction := by
  have hmethod : ∀ {n : Text} {i : ℕ}, f.method? n = some i → f.kindAt i = some .kwFunction := by
    intro n i hi
    obtain ⟨⟨i, n'⟩, hfound, rfl⟩ := Option.map_eq_some_iff.1 hi
    exact (SourceFile.mem_methods.1 (List.mem_of_find?_eq_some hfound)).1
  unfold find? at hfind
  split at hfind
  · next hi =>
    cases hfind
    exact hmethod hi
  · simp only [Option.bind_eq_bind, Option.bind_eq_some_iff] at hfind
    obtain ⟨other, -, i, hi, heq⟩ := hfind
    cases heq
    exact hmethod hi

end Contract

/-! ### The findings of a file -/

/-- Only faults of accessors ask for a return. -/
theorem PropertyCheck.IsFault.exists_accessor {p : PropertyCheck} {tag : MappingTag} {x : Finding}
    (h : p.IsFault tag x) (hreturn : Contract.IsReturnFault x) :
    ∃ c memo, x ∈ ((p.accessorFindings tag c).run memo).1 := by
  cases h with
  | name hx =>
    have hother : ∀ code ∈ namingCodes, ¬"ReturnRequired".toList <:+ code.toList := by decide
    exact absurd hreturn (hother _ (code_mem_namingCodes hx))
  | written message hcode =>
    have hother : ∀ code ∈ annotationCodes, ¬"ReturnRequired".toList <:+ code.toList := by decide
    exact absurd hreturn (hother _ hcode)
  | collection message hkind hcode =>
    have hother : ∀ kind, ∀ code ∈ collectionCodes kind, ¬"ReturnRequired".toList <:+ code.toList := by
      intro kind
      cases kind <;> decide
    exact absurd hreturn (hother _ _ hcode)
  | constructor hkind hnone =>
    have hother : ¬"ReturnRequired".toList <:+ "ConstructorRequired".toList := by decide
    exact absurd hreturn hother
  | accessor c memo hx => exact ⟨c, memo, hx⟩

/-- **A method is reported for the lack of a return exactly if no return stands in its body at all.**
Take a method that has to return something, has a body and declares no type. It is reported exactly if
there is no return of its own and none of a function inside of its body. All such reports of a file are
about such methods, so none of them has a return of its own. -/
theorem missing_returns_are_sought_at_any_depth {path : String} {source : Text} {f : SourceFile}
    (h : SourceFile.parse path source = .ok f) :
    (∀ (c : Contract) (method : ℕ) (name : Text), c.find? f = some (method, name) →
      c.returns.isSome = true → (f.signature method).hasBody = true →
      withoutMark (f.signature method).returnType = [] → ∀ bases tagToken memo,
      ((∃ x ∈ ((c.findings bases f tagToken).run memo).1, x.code = c.code "ReturnRequired") ↔
        (¬∃ i, f.kindAt i = some .kwReturn ∧ f.innermostFunction? i = some method) ∧
        ¬∃ i g, f.kindAt i = some .kwReturn ∧ f.innermostFunction? i = some g ∧
          f.InFunction method g ∧ f.InFunction method i)) ∧
    ∀ options, ∀ x ∈ EntityMapping.findings options f, "ReturnRequired".toList <:+ x.code.toList →
      ∃ (c : Contract) (name : Text), c.find? f = some (x.token, name) ∧ x.code = c.code "ReturnRequired" ∧
        c.returns.isSome = true ∧ (f.signature x.token).hasBody = true ∧
        withoutMark (f.signature x.token).returnType = [] ∧
        ∀ i, f.kindAt i = some .kwReturn → f.innermostFunction? i ≠ some x.token := by
  have hinnermost : ∀ {i g : ℕ}, f.innermostFunction? i = some g → f.InFunction g i :=
    fun hg => (SourceFile.inFunction_of_innermostFunction? h hg).1
  constructor
  · intro c method name hfind hreturns hbody huntyped bases tagToken memo
    have hkind := Contract.kindAt_of_find? hfind
    constructor
    · rintro ⟨x, hx, hcode⟩
      have hreturn : Contract.IsReturnFault x := by
        rw [Contract.IsReturnFault, hcode]
        exact c.isReturnFault_fault method ""
      obtain ⟨name', hfind', -, -, -, -, hnone⟩ := Contract.asksForReturn_of_mem_findings hx hreturn
      cases hfind.symm.trans hfind'
      have hout := (SourceFile.hasReturn_eq_false_iff h hkind).1 hnone
      constructor
      · rintro ⟨i, hi, hown⟩
        exact hout i hi (hinnermost hown)
      · rintro ⟨i, g, hi, -, -, hin⟩
        exact hout i hi hin
    · rintro ⟨hown, hnested⟩
      have hnone : f.hasReturn method = false := by
        refine (SourceFile.hasReturn_eq_false_iff h hkind).2 fun i hi hin => ?_
        obtain ⟨t, ht, -⟩ := Option.map_eq_some_iff.1 hi
        obtain ⟨g, hg⟩ := SourceFile.exists_innermostFunction? h ht hin
        rcases (SourceFile.inFunction_of_innermostFunction? h hg).2 method hin with rfl | hinside
        · exact hown ⟨i, hi, hg⟩
        · exact hnested ⟨i, g, hi, hg, hinside, hin⟩
      have hasks : c.AsksForReturn f method := ⟨hreturns, huntyped, hbody, hnone⟩
      obtain ⟨message, hmem⟩ := hasks.exists_mem_findings hfind bases tagToken memo
      exact ⟨_, hmem, rfl⟩
  · intro options x hx hreturn
    obtain ⟨_, -, tag, -, hfault⟩ := EntityMapping.exists_isFault hx
    obtain ⟨c, memo, hx⟩ := hfault.exists_accessor hreturn
    obtain ⟨name, hfind, hcode, hreturns, huntyped, hbody, hnone⟩ :=
      Contract.asksForReturn_of_mem_findings hx hreturn
    have hout := (SourceFile.hasReturn_eq_false_iff h (Contract.kindAt_of_find? hfind)).1 hnone
    exact ⟨c, name, hfind, hcode, hreturns, hbody, huntyped,
      fun i hi hown => hout i hi (hinnermost hown)⟩

/-- An accessor of a column that returns its class. -/
def fluentAccessor (role : AccessorRole) (name : Text) : Contract :=
  ⟨.column, role, name, true, some .fluent, none⟩

/-- Two methods without returns of their own: the one with a return in a closure is not reported, the other
one is. -/
theorem missing_returns_are_sought_at_any_depth_closure : ∃ f,
    SourceFile.parse "a.php" ("<?php class A\x7bfunction getX()\x7b$f=function()\x7breturn 1;\x7d;\x7d".toList
      ++ "function setX($x)\x7b\x7d\x7d".toList) = .ok f ∧
    f.kindAt 18 = some .kwReturn ∧ f.innermostFunction? 18 = some 14 ∧
    (fluentAccessor .getter "getX".toList).find? f = some (6, "getX".toList) ∧
    (fluentAccessor .setter "setX".toList).find? f = some (25, "setX".toList) ∧
    ∀ memo,
      (¬∃ x ∈ (((fluentAccessor .getter "getX".toList).findings [] f 3).run memo).1,
        x.code = "ColumnGetterReturnRequired") ∧
      ∃ x ∈ (((fluentAccessor .setter "setX".toList).findings [] f 3).run memo).1,
        x.code = "ColumnSetterReturnRequired" := by
  have heval : (SourceFile.parse "a.php"
      ("<?php class A\x7bfunction getX()\x7b$f=function()\x7breturn 1;\x7d;\x7d".toList
      ++ "function setX($x)\x7b\x7d\x7d".toList)).toOption.any (fun f =>
    f.kindAt 18 = some .kwReturn ∧ f.innermostFunction? 18 = some 14 ∧
    (fluentAccessor .getter "getX".toList).find? f = some (6, "getX".toList) ∧
    (fluentAccessor .setter "setX".toList).find? f = some (25, "setX".toList) ∧
    ((f.signature 6).hasBody = true ∧ withoutMark (f.signature 6).returnType = []) ∧
    ((f.signature 25).hasBody = true ∧ withoutMark (f.signature 25).returnType = []) ∧
    (6, Kind.kwFunction) ∈ Token.ownersAround f.tokens.toList 14 ∧
    (6, Kind.kwFunction) ∈ Token.ownersAround f.tokens.toList 18 ∧
    ∀ i < f.tokens.size, f.kindAt i = some .kwReturn →
      (25, Kind.kwFunction) ∉ Token.ownersAround f.tokens.toList i) = true := by
    decide +kernel
  obtain ⟨f, hparse, hreturn, hinner, hgetter, hsetter, ⟨hbody, huntyped⟩, ⟨hbody', huntyped'⟩, hclosure,
    hin, hout⟩ := exists_ok_of_any heval
  obtain ⟨hmethods, -⟩ := missing_returns_are_sought_at_any_depth hparse
  have hnone : ∀ i, f.kindAt i = some .kwReturn → ¬f.InFunction 25 i := fun i hi hin =>
    hout i (SourceFile.lt_size_of_kindAt hi) hi (Token.mem_ownersAround.2 hin)
  refine ⟨f, hparse, hreturn, hinner, hgetter, hsetter, fun memo => ⟨fun hreported => ?_, ?_⟩⟩
  · exact ((hmethods _ 6 _ hgetter rfl hbody huntyped [] 3 memo).1 hreported).2
      ⟨18, 14, hreturn, hinner, Token.mem_ownersAround.1 hclosure, Token.mem_ownersAround.1 hin⟩
  · refine (hmethods _ 25 _ hsetter rfl hbody' huntyped' [] 3 memo).2 ⟨?_, ?_⟩
    · rintro ⟨i, hi, hown⟩
      exact hnone i hi (SourceFile.inFunction_of_innermostFunction? hparse hown).1
    · rintro ⟨i, -, hi, -, -, hin⟩
      exact hnone i hi hin

end EntityLint
