import EntityLint.Mapping.PropertyCheck
import EntityLint.Proofs.Mapping.EntityFile

/-!
# The accessors of an entity

Each property of an entity has a getter and a setter that the contracts of its column ask for. They
are found by their names, return what they have to, and the setter takes the type of the property.

* `SourceFile.mem_methods`, `exists_method?`, `method?_eq_none_iff`: functions by name;
* `ColumnProperty.getterLinks`, `setterLinks`: the brackets of the accessors;
* `Entity.method?_getterName`, `method?_setterName`: each accessor is found by its name;
* `Entity.docCommentOf?_function`: no doc comment is read for an accessor;
* `Entity.returnType_getter`, `returnType_setter`, `parameters_setter`: what the accessors declare;
* `Entity.findings_getter`, `findings_setter`: the contracts are kept.
-/

namespace EntityLint

open Naming Pairing SourceFile

/-! ### Functions by name -/

namespace SourceFile

variable {f : SourceFile} {i : ℕ} {name : Text}

theorem mem_methods : (i, name) ∈ f.methods ↔
    f.kindAt i = some .kwFunction ∧ f.declarationName? i = some name := by
  simp only [methods, List.mem_filterMap, List.mem_filter, Prod.exists, Option.map_eq_some_iff,
    Prod.mk.injEq, List.mem_zipIdx_iff_getElem?, Array.getElem?_toList, beq_iff_eq, kindAt]
  constructor
  · rintro ⟨t, j, ⟨ht, hk⟩, n, hn, rfl, rfl⟩
    exact ⟨⟨t, ht, hk⟩, hn⟩
  · rintro ⟨⟨t, ht, hk⟩, hn⟩
    exact ⟨t, i, ⟨ht, hk⟩, name, hn, rfl, rfl⟩

/-- A function is found by its name, if there is one of this name. -/
theorem exists_method? (h : (i, name) ∈ f.methods) :
    ∃ j, f.method? name = some j ∧ (j, name) ∈ f.methods := by
  unfold method?
  cases hfind : f.methods.find? fun x => x.2 == name with
  | none => exact absurd (beq_self_eq_true name) (List.find?_eq_none.1 hfind _ h)
  | some x =>
    obtain rfl : x.2 = name := beq_iff_eq.1 (List.find?_some (p := fun x : ℕ × Text => x.2 == name) hfind)
    exact ⟨x.1, rfl, List.mem_of_find?_eq_some hfind⟩

/-- A name that is not found is that of no function. -/
theorem method?_eq_none_iff : f.method? name = none ↔
    ∀ j, f.kindAt j = some .kwFunction → f.declarationName? j ≠ some name := by
  constructor
  · intro hnone j hkind hname
    obtain ⟨k, hk, -⟩ := exists_method? (mem_methods.2 ⟨hkind, hname⟩)
    cases hnone.symm.trans hk
  · intro h
    rw [method?, Option.map_eq_none_iff, List.find?_eq_none]
    rintro ⟨j, name'⟩ hmem heq
    obtain ⟨hkind, hname⟩ := mem_methods.1 hmem
    exact h j hkind (by rw [hname, beq_iff_eq.1 heq])

end SourceFile

/-! ### Parameters -/

namespace SourceFile

variable {f : SourceFile} {stop start i v : ℕ}

/-- The first variable of a parameter, and what is before it. -/
theorem parameterHead?_of_variable (hiv : i ≤ v) (hstop : v < stop)
    (hv : f.kindAt v = some .variable) (h : ∀ j, i ≤ j → j < v →
      ∃ k, f.kindAt j = some k ∧ k ≠ .variable ∧ k ≠ .attributeOpen) :
    f.parameterHead? stop i = some (List.range' i (v - i), v) := by
  induction hn : v - i generalizing i with
  | zero =>
    obtain rfl : i = v := by omega
    obtain ⟨t, ht, hk⟩ := Option.map_eq_some_iff.1 hv
    rw [parameterHead?, dif_pos hstop]
    simp [ht, hk]
  | succ n ih =>
    obtain ⟨k, hk, hvariable, hattribute⟩ := h i le_rfl (by omega)
    obtain ⟨t, ht, rfl⟩ := Option.map_eq_some_iff.1 hk
    have hrest := ih (by omega : i + 1 ≤ v) (fun j hj => h j (by omega)) (by omega)
    rw [parameterHead?, dif_pos (by omega)]
    simp only [ht, hvariable, hattribute, if_false, hrest]
    rfl

end SourceFile

/-! ### Brackets -/

/-- The brackets of a function at index 2 of a member: its parameters and its body. No further scope
is opened behind it. -/
structure FunctionLinks (kinds : List Kind) (o p b q : ℕ) : Prop where
  keyword : kinds[2]? = some .kwFunction
  quiet : ∀ k ∈ kinds.drop 3, k.isScopeOwner = false
  ownsParens : Ownership.parens.Owns kinds 2 o
  parens : Family.round.Matches kinds ⟨o, p⟩
  ownsScope : Ownership.scopes.Owns kinds 2 b
  scope : Family.curly.Matches kinds ⟨b, q⟩

namespace ColumnProperty

variable (c : ColumnProperty)

theorem getterLinks : FunctionLinks (kindsOf c.getterPieces) 5 6 11 20 := by
  rw [kindsOf_getterPieces]
  rcases c.nativeKind_mem with hk | hk <;> rw [hk]
  all_goals
    constructor
    case keyword => rfl
    case quiet => decide
    case ownsParens => exact mem_parenOwners_iff.1 (by decide)
    case parens => exact ⟨by decide, ⟨_, rfl, rfl⟩, ⟨_, rfl, rfl⟩, .of_forall (by decide)⟩
    case ownsScope => exact mem_scopeOwners_iff.1 (by decide)
    case scope => exact ⟨by decide, ⟨_, rfl, rfl⟩, ⟨_, rfl, rfl⟩, .of_forall (by decide)⟩

theorem setterLinks : FunctionLinks (kindsOf c.setterPieces) 5 9 14 30 := by
  rw [kindsOf_setterPieces]
  rcases c.nativeKind_mem with hk | hk <;> rw [hk]
  all_goals
    constructor
    case keyword => rfl
    case quiet => decide
    case ownsParens => exact mem_parenOwners_iff.1 (by decide)
    case parens => exact ⟨by decide, ⟨_, rfl, rfl⟩, ⟨_, rfl, rfl⟩, .of_forall (by decide)⟩
    case ownsScope => exact mem_scopeOwners_iff.1 (by decide)
    case scope => exact ⟨by decide, ⟨_, rfl, rfl⟩, ⟨_, rfl, rfl⟩, .of_forall (by decide)⟩

theorem findIdx?_getter {a d : ℕ} {q : Kind → Bool}
    (h : ∀ k ∈ [Kind.word, .kwArray], ((getterKinds k).drop a).findIdx? q = some d) :
    ((kindsOf c.getterPieces).drop a).findIdx? q = some d := by
  rw [kindsOf_getterPieces]
  exact h _ (by simpa using c.nativeKind_mem)

theorem findIdx?_setter {a d : ℕ} {q : Kind → Bool}
    (h : ∀ k ∈ [Kind.word, .kwArray], ((setterKinds k).drop a).findIdx? q = some d) :
    ((kindsOf c.setterPieces).drop a).findIdx? q = some d := by
  rw [kindsOf_setterPieces]
  exact h _ (by simpa using c.nativeKind_mem)

end ColumnProperty

/-! ### Types that suit -/

/-- A method that returns its class may say so with `self`. -/
theorem TypeName.isSame_self (className : Text) :
    isSame (className ++ "|self|static".toList) "self".toList = true := by
  have hsuffix : "|self|static".toList = '|' :: "self|static".toList := rfl
  obtain ⟨u, hu⟩ : ∃ u, withoutLead (className ++ "|self|static".toList) =
      u ++ '|' :: "self|static".toList := by
    rw [withoutLead, hsuffix, List.dropWhile_append]
    split
    · exact ⟨[], rfl⟩
    · exact ⟨_, rfl⟩
  have hne : ¬u ++ '|' :: "self|static".toList = "DateTime".toList := by
    intro h
    have hmem : '|' ∈ "DateTime".toList := h ▸ by simp
    exact absurd hmem (by decide)
  have hself : "self".toList ∈ accepted (u ++ '|' :: "self|static".toList) := by
    have hpieces : Text.pieces '|' (u ++ '|' :: "self|static".toList) =
        Text.pieces '|' u ++ Text.pieces '|' "self|static".toList :=
      List.splitOnP_append_cons _ _ (beq_self_eq_true '|')
    have hmem : "self".toList ∈ Text.pieces '|' "self|static".toList := by decide
    rw [accepted, if_neg hne, members, hpieces, List.map_append, List.mem_append]
    exact .inr (List.mem_map_of_mem (f := longName) hmem)
  have hactual : withoutLead "self".toList = "self".toList := rfl
  have hmembers : members "self".toList = ["self".toList] := by decide
  unfold isSame
  simp only [hu, hactual, hmembers, List.any_cons, List.any_nil, Bool.or_false, Bool.or_eq_true,
    List.contains_iff_mem]
  exact .inr hself

theorem withoutMark_of_isName {t : Text} (ht : Lexeme.IsName t) : withoutMark t = t :=
  dropWhile_of_isName ht rfl

namespace Contract

variable {f : SourceFile} {method : ℕ} {name : Text} (k : Contract)

/-- There is no fault in the return type of a method that has no doc comment and returns what it
has to. -/
theorem returnFindings_eq_nil {expected returned : Text} (hdoc : f.docCommentOf? method = none)
    (hreturned : (f.signature method).returnType = returned) (hname : Lexeme.IsName returned)
    (hsame : TypeName.isSame expected returned = true) :
    k.returnFindings f method name expected = [] := by
  have hcomment : f.docCommentText? method = none := by rw [docCommentText?, hdoc]; rfl
  have hne : returned.isEmpty = false := by
    obtain ⟨d, u, rfl, -⟩ := hname.exists_cons
    rfl
  simp [returnFindings, hreturned, withoutMark_of_isName hname, hcomment, hne, hsame]

/-- There is no fault in a parameter of the right name and type of a method without doc comment,
where neither the parameter nor the argument may be `null`. -/
theorem parameterFindings_eq_nil {bases : BaseTypes} {argument : ArgumentSpec} {p : Parameter}
    {expected : Text} (hdoc : f.docCommentOf? method = none)
    (hname : p.name.dropWhile (· == '$') = argument.name) (htype : argument.type = some expected)
    (hisName : Lexeme.IsName p.typeText) (hsame : TypeName.isSame expected p.typeText = true)
    (hnull : admitsNull p = false) (hnullable : argument.nullable = false) :
    k.parameterFindings bases f method name argument p = [] := by
  have hcomment : f.docCommentText? method = none := by rw [docCommentText?, hdoc]; rfl
  simp [parameterFindings, hname, htype, withoutMark_of_isName hisName, hsame, hcomment, hnull,
    hnullable, Option.filter]

end Contract

/-! ### Finding the accessors -/

namespace Entity

variable {e : Entity} {f : SourceFile} (hf : f.Composed e.blocks.flatten) {c : ColumnProperty}
  {start i : ℕ}

include hf

theorem declarationName?_getter (hs : Stands e.blocks.flatten start c.getterPieces) :
    f.declarationName? (start + 2) = some c.getterName :=
  (hf.passage hs).declarationName? c.getterLinks.keyword
    (c.findIdx?_getter (d := 1) (by decide)) rfl

theorem declarationName?_setter (hs : Stands e.blocks.flatten start c.setterPieces) :
    f.declarationName? (start + 2) = some c.setterName :=
  (hf.passage hs).declarationName? c.setterLinks.keyword
    (c.findIdx?_setter (d := 1) (by decide)) rfl

/-- The getter of a property is found by its name. -/
theorem method?_getterName (hc : c ∈ e.columns) : ∃ start,
    Stands e.blocks.flatten start c.getterPieces ∧ f.method? c.getterName = some (start + 2) := by
  obtain ⟨start, hs⟩ := exists_stands hc (c.mem_members.2 (.inr (.inl rfl)))
  have hmem : (start + 2, c.getterName) ∈ f.methods :=
    mem_methods.2 ⟨(hf.passage hs).kindAt (a := 2) rfl, declarationName?_getter hf hs⟩
  obtain ⟨j, hj, hmem⟩ := exists_method? hmem
  obtain ⟨hk, hname⟩ := mem_methods.1 hmem
  obtain ⟨c', hc', start', rfl, hs' | hs'⟩ := function_cases hf hk
  · have heq := Option.some.inj ((declarationName?_getter hf hs').symm.trans hname)
    obtain rfl := e.eq_of_upperFirst hc' hc (List.append_cancel_left heq)
    exact ⟨start', hs', hj⟩
  · have heq := Option.some.inj ((declarationName?_setter hf hs').symm.trans hname)
    exact absurd heq.symm (c.getterName_ne_setterName c')

/-- The setter of a property is found by its name. -/
theorem method?_setterName (hc : c ∈ e.columns) : ∃ start,
    Stands e.blocks.flatten start c.setterPieces ∧ f.method? c.setterName = some (start + 2) := by
  obtain ⟨start, hs⟩ := exists_stands hc (c.mem_members.2 (.inr (.inr rfl)))
  have hmem : (start + 2, c.setterName) ∈ f.methods :=
    mem_methods.2 ⟨(hf.passage hs).kindAt (a := 2) rfl, declarationName?_setter hf hs⟩
  obtain ⟨j, hj, hmem⟩ := exists_method? hmem
  obtain ⟨hk, hname⟩ := mem_methods.1 hmem
  obtain ⟨c', hc', start', rfl, hs' | hs'⟩ := function_cases hf hk
  · have heq := Option.some.inj ((declarationName?_getter hf hs').symm.trans hname)
    exact absurd heq (c'.getterName_ne_setterName c)
  · have heq := Option.some.inj ((declarationName?_setter hf hs').symm.trans hname)
    obtain rfl := e.eq_of_upperFirst hc' hc (List.append_cancel_left heq)
    exact ⟨start', hs', hj⟩

/-- A doc comment belongs to the property behind it. -/
theorem ownerOf?_declaration (hs : Stands e.blocks.flatten start c.declarationPieces) :
    f.ownerOf? (start + 5) = some (start + 11) := by
  have hfind : ((kindsOf c.declarationPieces).drop 6).findIdx?
      (fun k => declarationKinds.contains k != false) = some 5 := by
    rw [ColumnProperty.kindsOf_declarationPieces]
    rcases c.nativeKind_mem with hk | hk <;> rw [hk] <;> rfl
  show f.nextOfKind? declarationKinds (start + 6) none false = some (start + 6 + 5)
  exact (hf.passage hs).nextOfKind? hfind nofun

/-- No doc comment is read for a function. -/
theorem docCommentOf?_function (hk : f.kindAt i = some .kwFunction) : f.docCommentOf? i = none := by
  cases hr : f.docCommentOf? i with
  | none => rfl
  | some r =>
    unfold docCommentOf? at hr
    simp only [Option.bind_eq_bind, Option.bind_eq_some_iff] at hr
    obtain ⟨_, _, close, hclose, _, howner, -⟩ := hr
    have howner : f.ownerOf? close = some i := by simpa using howner
    obtain ⟨-, -, hholds⟩ := previous?_eq_some hclose
    have hdoc : f.kindAt close = some .docClose := by
      unfold holdsAt at hholds
      unfold kindAt
      cases ht : f.tokens[close]? <;> simp_all
    obtain ⟨c, -, start, rfl, hs⟩ := docClose_cases hf hdoc
    cases howner.symm.trans (ownerOf?_declaration hf hs)
    cases hk.symm.trans ((hf.passage hs).kindAt (a := 11) rfl)

/-! ### What the accessors declare -/

theorem returnType_getter (hs : Stands e.blocks.flatten start c.getterPieces) :
    (f.signature (start + 2)).returnType = c.native := by
  have hp := hf.passage hs
  obtain ⟨t, ht, -⟩ := hp.exists_token (a := 2) rfl
  have hparens := hp.parens_eq hf.kinds_eq hf.paired c.getterLinks.ownsParens
    c.getterLinks.parens ht
  have htype := hp.returnType hparens (c.findIdx?_getter (d := 0) (by decide)) rfl
    (c.findIdx?_getter (d := 3) (by decide))
  have hslice : ((c.getterPieces.flatMap Piece.lexemes).take 11).drop 8 =
      [⟨.blank, [' ']⟩, ⟨c.nativeKind, c.native⟩, ⟨.blank, [' ']⟩] := rfl
  have hplain : c.nativeKind.isTrivia = false := by
    rcases c.nativeKind_mem with hk | hk <;> rw [hk] <;> rfl
  rw [hslice, List.filter_cons_of_neg (by decide), List.filter_cons_of_pos (by simp [hplain]),
    List.filter_cons_of_neg (by decide)] at htype
  simp only [signature, ht, htype]
  simp

theorem returnType_setter (hs : Stands e.blocks.flatten start c.setterPieces) :
    (f.signature (start + 2)).returnType = "self".toList := by
  have hp := hf.passage hs
  obtain ⟨t, ht, -⟩ := hp.exists_token (a := 2) rfl
  have hparens := hp.parens_eq hf.kinds_eq hf.paired c.setterLinks.ownsParens
    c.setterLinks.parens ht
  have htype := hp.returnType hparens (c.findIdx?_setter (d := 0) (by decide)) rfl
    (c.findIdx?_setter (d := 3) (by decide))
  have hslice : ((c.setterPieces.flatMap Piece.lexemes).take 14).drop 11 =
      [⟨.blank, [' ']⟩, ⟨.kwSelf, "self".toList⟩, ⟨.blank, [' ']⟩] := rfl
  rw [hslice] at htype
  simp only [signature, ht, htype]
  rfl

/-- The parameter of the setter has the name and the type of the property and no default. -/
theorem parameters_setter (hs : Stands e.blocks.flatten start c.setterPieces) :
    ∃ p, f.parameters (start + 2) = [p] ∧ p.name = '$' :: c.name ∧ p.typeText = c.native ∧
      p.default = none := by
  have hp := hf.passage hs
  obtain ⟨t, ht, -⟩ := hp.exists_token (a := 2) rfl
  have hparens := hp.parens_eq hf.kinds_eq hf.paired c.setterLinks.ownsParens
    c.setterLinks.parens ht
  have hbounds : f.partBounds parameterGroups (start + 9) (start + 6) (start + 6) =
      [(start + 6, start + 9)] := by
    refine partBounds_of_forall fun j hj hlt => ?_
    have hcases : j = start + 6 ∨ j = start + 7 ∨ j = start + 8 := by omega
    rcases hcases with rfl | rfl | rfl
    · refine ⟨c.nativeKind, hp.kindAt (a := 6) rfl, ?_⟩
      rcases c.nativeKind_mem with hk | hk <;> rw [hk] <;> decide
    · exact ⟨.blank, hp.kindAt (a := 7) rfl, by decide⟩
    · exact ⟨.variable, hp.kindAt (a := 8) rfl, by decide⟩
  have hhead : f.parameterHead? (start + 9) (start + 6) =
      some ([start + 6, start + 7], start + 8) := by
    have hrange : List.range' (start + 6) (start + 8 - (start + 6)) = [start + 6, start + 7] := by
      rw [show start + 8 - (start + 6) = 2 by omega]
      rfl
    rw [← hrange]
    refine parameterHead?_of_variable (by omega) (by omega) (hp.kindAt (a := 8) rfl) fun j hj hlt => ?_
    have hcases : j = start + 6 ∨ j = start + 7 := by omega
    rcases hcases with rfl | rfl
    · refine ⟨c.nativeKind, hp.kindAt (a := 6) rfl, ?_⟩
      rcases c.nativeKind_mem with hk | hk <;> rw [hk] <;> decide
    · exact ⟨.blank, hp.kindAt (a := 7) rfl, by decide⟩
  have htype : f.typeTextAt (start + 9) (start + 6) = c.native := by
    have hkind : f.kindAt (start + 6) = some c.nativeKind := hp.kindAt (a := 6) rfl
    have htext : f.textAt (start + 6) = c.native := hp.textAt (a := 6) rfl
    rw [typeTextAt, hkind, isReferenceMark, hkind, htext]
    rcases c.nativeKind_mem with hk | hk <;> rw [hk] <;> rfl
  have hblank : f.typeTextAt (start + 9) (start + 7) = [] := by
    have hkind : f.kindAt (start + 7) = some .blank := hp.kindAt (a := 7) rfl
    rw [typeTextAt, hkind]
    rfl
  have hdefault : f.nextOfKind? [.equals] (start + 8 + 1) (some (start + 9)) false = none := by
    have hcount : min (start + 9) f.tokens.size - (start + 8 + 1) = 0 := by omega
    rw [nextOfKind?, next?, Option.getD_some, hcount, findUp]
  have hname : f.textAt (start + 8) = '$' :: c.name := hp.textAt (a := 8) rfl
  have hlist : f.parameters (start + 2) = (f.parameter? (start + 6) (start + 9)).toList := by
    simp only [parameters, ht, Option.bind_some, hparens]
    rw [hbounds]
    cases hparameter : f.parameter? (start + 6) (start + 9) <;>
      simp only [List.filterMap_cons, List.filterMap_nil, hparameter] <;> rfl
  rw [hlist, parameter?, hhead]
  simp only [Option.bind_eq_bind, Option.bind_some, hdefault]
  exact ⟨_, rfl, hname, by simp [htype, hblank], rfl⟩

/-! ### The contracts -/

omit hf in
theorem admitsNull_native {p : Parameter} (htype : p.typeText = c.native) (hdefault : p.default = none) :
    Contract.admitsNull p = false := by
  have hall : TypeName.names.all (fun t => t.head? != some '?' &&
      Text.asciiLower t != "null".toList) = true := by decide
  have hnative := List.all_eq_true.1 hall _ c.native_mem_names
  simp only [Bool.and_eq_true, bne_iff_ne] at hnative
  have hnull : ¬c.native.asciiLower = ['n', 'u', 'l', 'l'] := hnative.2
  have hpieces := Text.pieces_of_not_mem (not_mem_of_isName c.isName_native (c := '|') rfl)
  simp [Contract.admitsNull, Parameter.isNullable, htype, hdefault,
    withoutMark_of_isName c.isName_native, hpieces, hnative.1, hnull]

/-- The getter of a property keeps a contract for its name and the type of the column. -/
theorem findings_getter (hc : c ∈ e.columns) {k : Contract} (hname : k.name = c.getterName)
    (hreturns : k.returns = some (.type c.held)) (hargument : k.argument = none) (bases : BaseTypes)
    (tag : ℕ) (memo : FileMemo) : (k.findings bases f tag memo).1 = [] := by
  obtain ⟨start, hs, hmethod⟩ := method?_getterName hf hc
  have hdoc := docCommentOf?_function hf ((hf.passage hs).kindAt (a := 2) rfl)
  have hfind : k.find? f = some (start + 2, c.getterName) := by
    rw [Contract.find?, hname, hmethod]
  have hnil : k.returnFindings f (start + 2) c.getterName c.held = [] :=
    k.returnFindings_eq_nil hdoc (returnType_getter hf hs) c.isName_native c.isSame
  unfold Contract.findings
  simp only [hfind, hreturns, hargument]
  show k.returnFindings f (start + 2) c.getterName c.held ++ [] = []
  rw [hnil, List.append_nil]

/-- The setter of a property keeps a contract for its name and the type of the column. -/
theorem findings_setter (hc : c ∈ e.columns) {k : Contract} (hname : k.name = c.setterName)
    (hreturns : k.returns = some .fluent)
    (hargument : k.argument = some ⟨c.name, some c.held, false⟩) (bases : BaseTypes) (tag : ℕ)
    (memo : FileMemo) : (k.findings bases f tag memo).1 = [] := by
  obtain ⟨start, hs, hmethod⟩ := method?_setterName hf hc
  have hdoc := docCommentOf?_function hf ((hf.passage hs).kindAt (a := 2) rfl)
  have hfind : k.find? f = some (start + 2, c.setterName) := by
    rw [Contract.find?, hname, hmethod]
  have hnil : ∀ className, k.returnFindings f (start + 2) c.setterName
      (className ++ "|self|static".toList) = [] := fun className =>
    k.returnFindings_eq_nil hdoc (returnType_setter hf hs) (isName_of_all rfl)
      (TypeName.isSame_self className)
  obtain ⟨p, hparameters, hp, htype, hdefault⟩ := parameters_setter hf hs
  have hdollar : p.name.dropWhile (· == '$') = c.name := by
    rw [hp]
    exact dropWhile_of_isName c.isName rfl
  have hpassed : k.argumentFindings bases f (start + 2) c.setterName
      ⟨c.name, some c.held, false⟩ = [] := by
    rw [Contract.argumentFindings, hparameters]
    exact k.parameterFindings_eq_nil hdoc hdollar rfl (htype ▸ c.isName_native) (htype ▸ c.isSame)
      (admitsNull_native htype hdefault) rfl
  unfold Contract.findings
  simp only [hfind, hreturns, hargument]
  show k.returnFindings f (start + 2) c.setterName
    ((FileMemo.classNameAt f (start + 2) memo).1 ++ "|self|static".toList) ++ _ = []
  rw [hnil, hpassed]
  rfl

end Entity

end EntityLint
