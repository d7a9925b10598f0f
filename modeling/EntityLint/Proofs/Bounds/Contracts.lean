import EntityLint.Mapping.Contract
import EntityLint.Proofs.Bounds.Tags
import EntityLint.Proofs.Mapping.Literal

/-!
# Accessors, with every index checked

The names, doc comments and methods of a class are read once more with checked operations, and so is
what a contract finds wrong with a method.

* `Bytewise.singular?`, `shortClassName`: names;
* `Bytewise.tagBodies`, `docReturnType?`, `docParamType?`: types in doc comments;
* `Guarded.methods`, `constructorAssignments`: facts about a class;
* `Guarded.contractFindings`, with `contractFindings_yields`.

A cache that keeps what has been looked up only saves operations, so that facts about a class are
looked up whenever they are asked for.
-/

namespace EntityLint

open Checked

namespace Bytewise

open Text

/-! ### Names -/

/-- The singular of a plural name. -/
def singular? (plural : Text) : Checked (Option Text) :=
  match stripTrailing? ['s'] plural with
  | none => return none
  | some stem =>
    match stripTrailing? ['i', 'e'] stem with
    | some base => return some (base ++ ['y'])
    | none =>
      if endsWith stem ['s', 'e'] then do return some (← cutTo stem (← minus (utf8Length stem) 1))
      else return some stem

/-- The last part of a name with backslashes, and without `::class`. -/
def shortClassName (name : Text) : Checked Text :=
  let short := (name.reverse.takeWhile (· != '\\')).reverse
  if Naming.isClassReference short then do
    cutTo short (← minus (utf8Length short) (utf8Length Naming.classSuffix))
  else return short

theorem singular?_eq (plural : Text) : singular? plural = .ok (Naming.singular? plural) := by
  rw [singular?, Naming.singular?]
  cases stripTrailing? ['s'] plural with
  | none => rfl
  | some stem =>
    cases hie : stripTrailing? ['i', 'e'] stem with
    | some base => simp [hie]
    | none =>
      by_cases hse : endsWith stem ['s', 'e'] = true
      · obtain ⟨u, rfl⟩ := endsWith_iff.1 hse
        have hlength : utf8Length (u ++ ['s', 'e']) = utf8Length (u ++ ['s']) + 1 := by
          simp only [utf8Length_append, utf8Length_cons, utf8Length_nil]
          rfl
        have hcut : cutTo (u ++ ['s', 'e']) (utf8Length (u ++ ['s', 'e']) - 1) = .ok (u ++ ['s']) :=
          cutTo_eq (v := ['e']) (by simp) (by omega)
        have hdrop : (u ++ ['s', 'e']).dropLast = u ++ ['s'] := by
          rw [show u ++ ['s', 'e'] = (u ++ ['s']) ++ ['e'] by simp, List.dropLast_concat]
        dsimp only
        rw [if_pos hse, minus_eq (by omega), ok_bind, hcut, ok_bind]
        simp [hie, hse, hdrop]
      · simp [hie, hse]

theorem shortClassName_eq (name : Text) :
    shortClassName name = .ok (Naming.shortClassName name) := by
  rw [shortClassName, Naming.shortClassName]
  generalize (name.reverse.takeWhile (· != '\\')).reverse = short
  split
  · next href =>
    obtain ⟨u, rfl⟩ := endsWith_iff.1 (Bool.and_eq_true_iff.1 href).2
    rw [utf8Length_append, minus_eq (Nat.le_add_left _ _), Nat.add_sub_cancel, ok_bind,
      cutTo_eq rfl rfl, List.length_append, Nat.add_sub_cancel, List.take_left]
  · rfl

/-! ### Types in doc comments -/

/-- The byte offsets of the occurrences of a text, for a text that begins at a byte offset. -/
def offsetsOf (needle : Text) (i : Nat) : Text → List Nat
  | [] => []
  | c :: t =>
    if startsWith (c :: t) needle then i :: offsetsOf needle (i + c.utf8Size) t
    else offsetsOf needle (i + c.utf8Size) t

/-- The text after an occurrence of a tag at a byte offset, without the blanks after the tag. There
have to be some. -/
def tagBody? (tag comment : Text) (i : Nat) : Checked (Option Text) := do
  let after ← cutFrom comment (i + utf8Length tag)
  let body := trimStart after
  return if utf8Length body < utf8Length after then some body else none

/-- The texts after the occurrences of a tag that blanks follow, without these blanks. -/
def tagBodies (tag comment : Text) : Checked (List Text) :=
  (offsetsOf tag 0 comment).filterMapM (tagBody? tag comment)

theorem utf8Length_trimStart_lt (t : Text) :
    utf8Length (trimStart t) < utf8Length t ↔ t.head?.any isBlank = true := by
  cases t with
  | nil => simp [trimStart]
  | cons c t =>
    rw [List.head?_cons, Option.any_some, trimStart, List.dropWhile_cons]
    split
    · next hc =>
      have hle : utf8Length (t.dropWhile isBlank) ≤ utf8Length t := by
        obtain ⟨u, hu⟩ := List.dropWhile_suffix (l := t) isBlank
        rw [← hu, utf8Length_append, hu]
        exact Nat.le_add_left _ _
      have hpos := c.utf8Size_pos
      rw [utf8Length_cons]
      exact iff_of_true (by omega) hc
    · next hc => exact iff_of_false (Nat.lt_irrefl _) hc

theorem tagBody?_eq {tag comment before after : Text} (h : comment = before ++ (tag ++ after)) :
    tagBody? tag comment (utf8Length before) =
      .ok (if after.head?.any isBlank then some (trimStart after) else none) := by
  rw [tagBody?, cutFrom_eq (u := before ++ tag) (v := after) (by rw [h, List.append_assoc])
    (by rw [utf8Length_append]), ok_bind]
  simp only [utf8Length_trimStart_lt]
  rfl

/-- Each occurrence begins at the end of the part before it. -/
theorem tagBodies_eq (tag comment : Text) :
    tagBodies tag comment = .ok (EntityLint.tagBodies tag comment) := by
  -- the offsets are those in the whole comment, so that the induction carries what stands before
  suffices h : ∀ before t, comment = before ++ t →
      (offsetsOf tag (utf8Length before) t).filterMapM (tagBody? tag comment) =
        .ok (EntityLint.tagBodies tag t) from h [] comment rfl
  intro before t ht
  induction t generalizing before with
  | nil => rfl
  | cons c t ih =>
    have ih := ih (before ++ [c]) (by rw [ht, List.append_assoc]; rfl)
    rw [utf8Length_append, utf8Length_cons, utf8Length_nil, Nat.add_zero] at ih
    rw [offsetsOf, EntityLint.tagBodies, startsWith]
    cases hafter : stripLeading? tag (c :: t) with
    | none => simpa using ih
    | some after =>
      have hbody := tagBody?_eq (ht.trans (congrArg _ (append_of_stripLeading? hafter).symm))
      rw [Option.isSome_some, if_pos rfl, List.filterMapM_cons, hbody, ok_bind, ih]
      by_cases hblank : after.head?.any isBlank = true
      · simp [hblank]
      · simp [hblank]

/-- The byte offset of the last occurrence of a character. -/
def lastOffsetOf? (c : Char) (t : Text) : Option Nat :=
  let upTo := dropEndWhile (· != c) t
  if upTo.isEmpty then none else some (utf8Length upTo.dropLast)

/-- The part of a text through the last occurrence of a character of one byte. -/
def throughLast (c : Char) (t : Text) : Checked Text :=
  match lastOffsetOf? c t with
  | some i => cutTo t (i + 1)
  | none => return []

/-- The type that begins the text after a tag. -/
def leadingType? (body : Text) : Checked (Option Text) := do
  let stop := (offsetWhere? (fun c => isBlank c || c == '<') body).getD (utf8Length body)
  if stop = 0 then return none
  else
    let type ← cutTo body stop
    let rest ← cutFrom body stop
    if rest.head? = some '<' then
      let line ← cutTo rest ((offsetWhere? (· == '\n') rest).getD (utf8Length rest))
      return some (type ++ (← throughLast '>' line))
    else return some type

/-- The type that the first `@return` tag with a type gives. -/
def docReturnType? (comment : Text) : Checked (Option Text) := do
  (← tagBodies "@return".toList comment).findSomeM? leadingType?

/-- The type that the first `@param` tag with a type gives. -/
def docParamType? (comment : Text) : Checked (Option Text) := do
  return (← tagBodies "@param".toList comment).findSome? fun body => (words body).head?

theorem throughLast_eq {c : Char} (hc : c.utf8Size = 1) (t : Text) :
    throughLast c t = .ok (dropEndWhile (· != c) t) := by
  obtain ⟨u, v, rfl, hu, -, hlast⟩ := dropEndWhile_spec (· != c) t
  rw [throughLast, lastOffsetOf?, hu]
  rcases List.eq_nil_or_concat u with rfl | ⟨w, d, rfl⟩
  · rfl
  · rw [List.concat_eq_append] at *
    obtain rfl : d = c := by simpa using hlast
    rw [List.dropLast_concat]
    have hlength : utf8Length w + 1 = utf8Length (w ++ [d]) := by
      rw [utf8Length_append, utf8Length_cons, hc]
      rfl
    simp only [List.isEmpty_iff, List.append_eq_nil_iff, List.cons_ne_nil, and_false, if_false]
    exact cutTo_eq rfl hlength

theorem utf8Length_eq_zero_iff {t : Text} : utf8Length t = 0 ↔ t = [] :=
  ⟨fun h => by
    by_contra hne
    exact absurd (utf8Length_pos hne) (by omega), fun h => h ▸ rfl⟩

theorem leadingType?_eq (body : Text) : leadingType? body = .ok (EntityLint.leadingType? body) := by
  rw [leadingType?, EntityLint.leadingType?]
  generalize hisEnd : (fun c => isBlank c || c == '<') = isEnd
  have hstop := offsetWhere?_getD isEnd body
  have hbody : body = body.takeWhile (!isEnd ·) ++ body.dropWhile (!isEnd ·) :=
    List.takeWhile_append_dropWhile.symm
  generalize body.takeWhile (!isEnd ·) = type at *
  generalize body.dropWhile (!isEnd ·) = rest at *
  have hline : rest = rest.takeWhile (· != '\n') ++ rest.dropWhile (· != '\n') :=
    List.takeWhile_append_dropWhile.symm
  rw [hstop]
  by_cases hnone : type = []
  · simp [hnone]
  · rw [if_neg (mt utf8Length_eq_zero_iff.1 hnone), cutTo_eq hbody rfl, ok_bind,
      cutFrom_eq hbody rfl, ok_bind, cutTo_eq hline (offsetWhere?_getD _ rest), ok_bind,
      throughLast_eq rfl, ok_bind]
    simp only [List.isEmpty_iff, hnone, if_false]
    split <;> rfl

theorem docReturnType?_eq (comment : Text) :
    docReturnType? comment = .ok (EntityLint.docReturnType? comment) := by
  rw [docReturnType?, tagBodies_eq, ok_bind]
  exact findSomeM?_eq fun body _ => leadingType?_eq body

theorem docParamType?_eq (comment : Text) :
    docParamType? comment = .ok (EntityLint.docParamType? comment) := by
  rw [docParamType?, tagBodies_eq]
  rfl

end Bytewise

namespace Guarded

variable {f : SourceFile}

/-! ### Facts about a class -/

/-- The named functions of a file, with their tokens. -/
def methods (f : SourceFile) : Checked (List (Nat × Text)) :=
  (f.tokens.toList.zipIdx.filter fun (t, _) => t.kind == .kwFunction).filterMapM fun (_, i) => do
    return (← declarationName? f i).map fun name => (i, name)

/-- The first function with a given name. -/
def method? (f : SourceFile) (name : Text) : Checked (Option Nat) := do
  return ((← methods f).find? fun (_, n) => n == name).map Prod.fst

theorem methods_eq (f : SourceFile) : methods f = .ok f.methods :=
  filterMapM_eq fun (_, i) _ => by
    dsimp only
    rw [declarationName?_eq]
    rfl

theorem method?_eq (f : SourceFile) (name : Text) : method? f name = .ok (f.method? name) := by
  rw [method?, methods_eq]
  rfl

theorem lt_size_of_method? {name : Text} {method : ℕ} (h : f.method? name = some method) :
    method < f.tokens.size := by
  obtain ⟨⟨i, n⟩, hfind, rfl⟩ := Option.map_eq_some_iff.1 h
  obtain ⟨⟨t, j⟩, hmem, hname⟩ := List.mem_filterMap.1 (List.mem_of_find?_eq_some hfind)
  obtain ⟨_, -, heq⟩ := Option.map_eq_some_iff.1 hname
  cases heq
  have hlt := (List.mem_zipIdx (List.mem_filter.1 hmem).1).2.1
  simpa using hlt

/-- The name of the outermost declaration around a token, if that is a class, an interface or a
trait, and else the empty name. -/
def outerClassName (f : SourceFile) (i : Nat) : Checked Text := do
  let name? ← andThen (return f.tokens[i]?) fun token =>
    andThen (return token.conditions.head?) fun (owner, kind) =>
      if kind.hasClassName then declarationName? f owner else return none
  return name?.getD []

theorem outerClassName_eq (f : SourceFile) (i : ℕ) :
    outerClassName f i = .ok (f.outerClassName i) := by
  rw [outerClassName]
  refine (congrArg (· >>= _) (andThen_eq rfl fun token _ => andThen_eq rfl fun (owner, kind) _ => ?_)
    ).trans rfl
  dsimp only
  rw [declarationName?_eq]
  by_cases hkind : kind.hasClassName = true <;> simp [hkind]

/-! ### Assignments of a constructor -/

/-- The member name and the value text of the assignment between `$this` at an index and the end of
its statement. -/
def assignmentAt? (f : SourceFile) (target stop : Nat) : Checked (Option (Text × Text)) :=
  andThen (nextOfKind? f [.arrow] (target + 1) (some stop) false) fun arrow =>
  andThen (nextOfKind? f [.word] (arrow + 1) (some stop) false) fun name =>
  andThen (nextOfKind? f [.equals] (name + 1) (some stop) false) fun equals =>
  andThen (nextOfKind? f [.blank] (equals + 1) (some stop) true) fun value => do
    return some (← textAt f name, ← textOf f value (← minus stop value))

theorem assignmentAt?_eq (f : SourceFile) (target stop : ℕ) :
    assignmentAt? f target stop = .ok (f.assignmentAt? target stop) := by
  refine andThen_eq (nextOfKind?_eq ..) fun arrow _ => andThen_eq (nextOfKind?_eq ..) fun name hname =>
    andThen_eq (nextOfKind?_eq ..) fun equals _ => andThen_eq (nextOfKind?_eq ..) fun value hvalue => ?_
  have hlt : value < stop := SourceFile.next?_lt hvalue
  rw [textAt_eq (SourceFile.next?_eq_some hname).2.1, ok_bind, minus_eq hlt.le, ok_bind, textOf_eq,
    SourceFile.textOf, Nat.add_sub_cancel' hlt.le]
  rfl

/-- The assignments to members of `$this` after a token, up to the end of a body. -/
def assignmentsIn (f : SourceFile) (close start : Nat) : Checked (List (Text × Text)) := do
  match ← nextWithText? f [.variable] (start + 1) (some close) "$this".toList with
  | none => return []
  | some target =>
    match ← nextOfKind? f [.semicolon] (target + 1) none false with
    | none => return []
    | some stop =>
      let here ← assignmentAt? f target stop
      if _ : f.tokens.size - target < f.tokens.size - start then
        return here.toList ++ (← assignmentsIn f close target)
      else throw .stuck
termination_by f.tokens.size - start

/-- Each `$this` is behind the one before it. -/
theorem assignmentsIn_eq (f : SourceFile) (close start : ℕ) :
    assignmentsIn f close start = .ok (f.assignmentsIn close start) := by
  fun_induction SourceFile.assignmentsIn f close start with
  | case1 start hnone =>
    rw [assignmentsIn, nextWithText?_eq, hnone]
    rfl
  | case2 start target htarget hnone =>
    rw [assignmentsIn, nextWithText?_eq, htarget, ok_bind]
    dsimp only
    rw [nextOfKind?_eq, hnone]
    rfl
  | case3 start target htarget stop hstop ih =>
    obtain ⟨hlt, hsize, -⟩ := SourceFile.next?_eq_some htarget
    rw [assignmentsIn, nextWithText?_eq, htarget, ok_bind]
    dsimp only
    rw [nextOfKind?_eq, hstop, ok_bind]
    dsimp only
    rw [assignmentAt?_eq, ok_bind, dif_pos (by omega), ih]
    rfl

/-- The assignments in the body of the constructor, in order. -/
def constructorAssignments (f : SourceFile) : Checked (List (Text × Text)) := do
  match ← method? f SourceFile.constructorName with
  | none => return []
  | some method =>
    match (← tokenAt f method).scope with
    | none => return []
    | some body => assignmentsIn f body.closer body.opener

/-- The value text that the constructor last assigns to a member. -/
def initialValue? (f : SourceFile) (name : Text) : Checked (Option Text) := do
  return (← constructorAssignments f).reverse.lookup name

theorem constructorAssignments_eq (f : SourceFile) :
    constructorAssignments f = .ok f.constructorAssignments := by
  rw [constructorAssignments, method?_eq, ok_bind, SourceFile.constructorAssignments]
  cases hmethod : f.method? SourceFile.constructorName with
  | none => rfl
  | some method =>
    obtain ⟨t, ht, htoken⟩ := exists_tokenAt_eq (lt_size_of_method? hmethod)
    dsimp only [Option.bind_some]
    rw [htoken, ok_bind, ht, Option.bind_some]
    cases t.scope with
    | none => rfl
    | some body => exact assignmentsIn_eq f body.closer body.opener

theorem initialValue?_eq (f : SourceFile) (name : Text) :
    initialValue? f name = .ok (f.initialValue? name) := by
  rw [initialValue?, constructorAssignments_eq]
  rfl

/-! ### Memory -/

/-- The class name of a file, as it was found when it was first asked for. -/
def classNameAt (f : SourceFile) (i : Nat) : StateT FileMemo Checked Text := fun memo =>
  match memo.className with
  | some name => return (name, memo)
  | none => do
    let name ← outerClassName f i
    return (name, { memo with className := some name })

/-- Whether the file turns out to have no constructor, which comes up at the first question only. -/
def lacksConstructor (f : SourceFile) : StateT FileMemo Checked Bool := fun memo => do
  let constructor ← method? f SourceFile.constructorName
  return (!memo.soughtConstructor && constructor.isNone, { memo with soughtConstructor := true })

theorem classNameAt_yields (f : SourceFile) (i : ℕ) :
    Yields (classNameAt f i) (FileMemo.classNameAt f i) := by
  rintro ⟨className, sought⟩
  cases className with
  | some name => rfl
  | none =>
    show (do let name ← outerClassName f i; _) = _
    rw [outerClassName_eq]
    rfl

theorem lacksConstructor_yields (f : SourceFile) :
    Yields (lacksConstructor f) (FileMemo.lacksConstructor f) := by
  intro memo
  show (do let constructor ← method? f SourceFile.constructorName; _) = _
  rw [method?_eq]
  rfl

/-! ### Methods -/

/-- The text of the doc comment in front of a declaration, after its opening. -/
def docCommentText? (f : SourceFile) (declaration : Nat) : Checked (Option Text) :=
  andThen (docCommentOf? f declaration) fun r => do
    return some (← textOf f (r.opener + 1) (← minus r.closer r.opener))

/-- Whether there is a return statement in the body of a function. -/
def hasReturn (f : SourceFile) (method : Nat) : Checked Bool := do
  match (← tokenAt f method).scope with
  | some body =>
    return (← previousOfKind? f [.kwReturn] body.closer (some body.opener) false).isSome
  | none => return false

/-- Whether there is a doc comment in front of a method that gives no type that is accepted. -/
def lacksType (f : SourceFile) (method : Nat) (read : Text → Checked (Option Text))
    (accepts : Text → Bool) : Checked Bool := do
  match ← docCommentText? f method with
  | none => return false
  | some comment => return !(← read comment).any accepts

theorem docCommentText?_eq (hf : f.Linked) (declaration : ℕ) :
    docCommentText? f declaration = .ok (f.docCommentText? declaration) := by
  rw [SourceFile.docCommentText?, Option.map_eq_bind]
  refine andThen_eq (docCommentOf?_eq hf declaration) fun r hr => ?_
  obtain ⟨hlt, -⟩ := lt_of_docCommentOf? hf hr
  rw [minus_eq hlt.le, ok_bind, textOf_eq, SourceFile.textOf,
    show r.opener + 1 + (r.closer - r.opener) = r.closer + 1 by omega]
  rfl

theorem hasReturn_eq {method : ℕ} (h : method < f.tokens.size) :
    hasReturn f method = .ok (f.hasReturn method) := by
  obtain ⟨t, ht, htoken⟩ := exists_tokenAt_eq h
  rw [hasReturn, htoken, ok_bind, SourceFile.hasReturn, ht, Option.bind_some]
  cases t.scope with
  | none => rfl
  | some body =>
    dsimp only
    rw [previousOfKind?_eq]
    rfl

theorem lacksType_eq (hf : f.Linked) (method : ℕ) {read : Text → Checked (Option Text)}
    {read' : Text → Option Text} (h : ∀ t, read t = .ok (read' t)) (accepts : Text → Bool) :
    lacksType f method read accepts =
      .ok ((f.docCommentText? method).any fun comment => !(read' comment).any accepts) := by
  rw [lacksType, docCommentText?_eq hf, ok_bind]
  cases f.docCommentText? method with
  | none => rfl
  | some comment =>
    dsimp only
    rw [h]
    rfl

/-! ### Contracts -/

/-- The method that a contract names, and the name it goes by. -/
def find? (c : Contract) (f : SourceFile) : Checked (Option (Nat × Text)) := do
  match ← method? f c.name with
  | some method => return some (method, c.name)
  | none =>
    match booleanGetterName? c.name with
    | none => return none
    | some other => return (← method? f other).map fun method => (method, other)

theorem find?_eq (c : Contract) (f : SourceFile) : find? c f = .ok (c.find? f) := by
  rw [find?, Contract.find?, method?_eq, ok_bind]
  cases f.method? c.name with
  | some method => rfl
  | none =>
    cases booleanGetterName? c.name with
    | none => rfl
    | some other =>
      dsimp only
      rw [method?_eq]
      cases hother : f.method? other <;> simp [hother]

theorem lt_size_of_find? {c : Contract} {x : ℕ × Text} (h : c.find? f = some x) :
    x.1 < f.tokens.size := by
  unfold Contract.find? at h
  split at h
  · next hmethod =>
    cases h
    exact lt_size_of_method? hmethod
  · simp only [Option.bind_eq_bind, Option.bind_eq_some_iff] at h
    obtain ⟨other, -, method, hmethod, heq⟩ := h
    cases heq
    exact lt_size_of_method? hmethod

/-- What is wrong with the return type of a method, for an expected type. -/
def returnFindings (c : Contract) (f : SourceFile) (method : Nat) (name expected : Text) :
    Checked (List Finding) := do
  let signature ← signature f method
  let returns ← hasReturn f method
  let undocumented ← lacksType f method Bytewise.docReturnType? fun t =>
    TypeName.isSame expected (withoutMark t)
  let declared := withoutMark signature.returnType
  let subject := c.subject name
  let type := String.ofList expected
  return (if declared.isEmpty && signature.hasBody && !returns then
      [c.fault method "ReturnRequired"
        s!"{subject} must have return statement which returns {type}"] else [])
    ++ (if undocumented then
      [c.fault method "ReturnDocType"
        s!"{subject} must have return type \"{type}\" in doc-comment"] else [])
    ++ (if !declared.isEmpty && !TypeName.isSame expected declared then
      [c.fault method "ReturnType" s!"{subject} must have return type \"{type}\""] else [])

theorem returnFindings_eq (hf : f.Linked) (c : Contract) {method : ℕ} (h : method < f.tokens.size)
    (name expected : Text) :
    returnFindings c f method name expected = .ok (c.returnFindings f method name expected) := by
  rw [returnFindings, signature_eq, ok_bind, hasReturn_eq h, ok_bind,
    lacksType_eq hf method Bytewise.docReturnType?_eq, ok_bind]
  rfl

/-- The type of an argument that the doc comment of a method does not give it. -/
def undocumentedType? (bases : BaseTypes) (f : SourceFile) (method : Nat) (argument : ArgumentSpec)
    (hint : Text) : Checked (Option Text) :=
  andThen (return argument.type) fun expected => do
    let lacking ← lacksType f method Bytewise.docParamType? fun t =>
      TypeName.isSame expected (withoutMark t) || bases.allow expected hint
    return if lacking then some expected else none

theorem undocumentedType?_eq (hf : f.Linked) (bases : BaseTypes) (method : ℕ)
    (argument : ArgumentSpec) (hint : Text) : undocumentedType? bases f method argument hint =
      .ok (argument.type.filter fun expected => (f.docCommentText? method).any fun comment =>
        !(docParamType? comment).any fun t =>
          TypeName.isSame expected (withoutMark t) || bases.allow expected hint) := by
  rw [undocumentedType?]
  cases argument.type with
  | none => rfl
  | some expected =>
    show (do let lacking ← lacksType f method Bytewise.docParamType? _; _) = _
    rw [lacksType_eq hf method Bytewise.docParamType?_eq]
    rfl

/-- What is wrong with the first parameter of a method. -/
def parameterFindings (c : Contract) (bases : BaseTypes) (f : SourceFile) (method : Nat)
    (name : Text) (argument : ArgumentSpec) (p : Parameter) : Checked (List Finding) := do
  let subject := c.subject name
  let hint := withoutMark p.typeText
  let typed := !p.typeText.isEmpty
  let mistyped := argument.type.filter fun expected =>
    typed && !TypeName.isSame expected hint && !bases.allow expected hint
  let undocumented ← undocumentedType? bases f method argument hint
  let argumentName := String.ofList argument.name
  let hintName := String.ofList hint
  return (if p.name.dropWhile (· == '$') != argument.name then
      [c.fault method "ArgumentName" s!"{subject} argument must have name \"{argumentName}\""]
      else [])
    ++ (mistyped.map fun expected =>
      let type := String.ofList expected
      let wanted := s!"{subject} argument must have typehint \"{type}\""
      c.fault method "ArgumentType" s!"{wanted}, instead of typehint \"{hintName}\"").toList
    ++ (if typed && !Contract.admitsNull p && argument.nullable then
      [c.fault method "ArgumentNullable" s!"{subject} argument must be nullable"] else [])
    ++ (if typed && Contract.admitsNull p && !argument.nullable then
      [c.fault method "ArgumentNotNullable" s!"{subject} argument must be not-nullable"] else [])
    ++ (undocumented.map fun expected =>
      let type := String.ofList expected
      c.fault method "ArgumentDocType"
        s!"{subject} must have param \"{argumentName}\" with type \"{type}\" in doc-comment").toList

/-- What is wrong with the first argument of a method. -/
def argumentFindings (c : Contract) (bases : BaseTypes) (f : SourceFile) (method : Nat)
    (name : Text) (argument : ArgumentSpec) : Checked (List Finding) := do
  match ← parameters f method with
  | [] =>
    return [c.fault method "ArgumentRequired" s!"{c.subject name} must have at least one argument"]
  | p :: _ => parameterFindings c bases f method name argument p

/-- The type that a method has to return. -/
def expectedReturn (f : SourceFile) (method : Nat) : ReturnSpec → StateT FileMemo Checked Text
  | .type type => pure type
  | .fluent => do return (← classNameAt f method) ++ "|self|static".toList

/-- What is wrong with the argument of the method of a contract. -/
def passed (c : Contract) (bases : BaseTypes) (f : SourceFile) (method : Nat) (name : Text) :
    Checked (List Finding) :=
  match c.argument with
  | none => return []
  | some argument => argumentFindings c bases f method name argument

/-- What is wrong with the method that a contract names. -/
def contractFindings (c : Contract) (bases : BaseTypes) (f : SourceFile) (tagToken : Nat) :
    StateT FileMemo Checked (List Finding) := do
  match ← (find? c f : Checked _) with
  | none =>
    let name := String.ofList c.name
    let message := s!"{c.kind.name} must have {c.role.name} method named \"{name}\""
    return if c.required then [c.fault tagToken "Required" message] else []
  | some (method, name) =>
    match c.returns with
    | none => (passed c bases f method name : Checked _)
    | some spec =>
      let expected ← expectedReturn f method spec
      let returned ← (returnFindings c f method name expected : Checked _)
      return returned ++ (← (passed c bases f method name : Checked _))

theorem parameterFindings_eq (hf : f.Linked) (c : Contract) (bases : BaseTypes) (method : ℕ)
    (name : Text) (argument : ArgumentSpec) (p : Parameter) :
    parameterFindings c bases f method name argument p =
      .ok (c.parameterFindings bases f method name argument p) := by
  rw [parameterFindings]
  dsimp only
  rw [undocumentedType?_eq hf]
  rfl

theorem argumentFindings_eq (hf : f.Linked) (c : Contract) (bases : BaseTypes) (method : ℕ)
    (name : Text) (argument : ArgumentSpec) :
    argumentFindings c bases f method name argument =
      .ok (c.argumentFindings bases f method name argument) := by
  rw [argumentFindings, parameters_eq hf, ok_bind, Contract.argumentFindings]
  cases f.parameters method with
  | nil => rfl
  | cons p rest => exact parameterFindings_eq hf c bases method name argument p

theorem expectedReturn_yields (f : SourceFile) (method : ℕ) (spec : ReturnSpec) :
    Yields (expectedReturn f method spec) (Contract.expectedReturn f method spec) := by
  cases spec with
  | type type => exact Yields.pure type
  | fluent => exact (classNameAt_yields f method).bind fun _ => Yields.pure _

theorem passed_eq (hf : f.Linked) (c : Contract) (bases : BaseTypes) (method : ℕ) (name : Text) :
    passed c bases f method name = .ok (match c.argument with
      | none => []
      | some argument => c.argumentFindings bases f method name argument) := by
  unfold passed
  cases c.argument with
  | none => rfl
  | some argument => exact argumentFindings_eq hf c bases method name argument

/-- **What is wrong with the method of a contract.** -/
theorem contractFindings_yields (hf : f.Linked) (c : Contract) (bases : BaseTypes)
    (tagToken : ℕ) : Yields (contractFindings c bases f tagToken) (c.findings bases f tagToken) := by
  refine Yields.check (find?_eq c f) ?_
  unfold Contract.findings
  cases hfind : c.find? f with
  | none => exact Yields.pure _
  | some x =>
    obtain ⟨method, name⟩ := x
    dsimp only
    cases c.returns with
    | none => exact Yields.lift (passed_eq hf c bases method name)
    | some spec =>
      refine (expectedReturn_yields f method spec).bind fun expected => ?_
      refine Yields.check (returnFindings_eq hf c (lt_size_of_find? hfind) name expected) ?_
      exact Yields.check (passed_eq hf c bases method name) (Yields.pure _)

end Guarded

end EntityLint
