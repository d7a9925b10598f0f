import EntityLint.Proofs.Bounds.File

/-!
# Declarations, with every index checked

What is read off the tokens around a declaration, once more, with each index into the stream, each
part of it and each difference checked.

* `Guarded.declarationName?`, `signature`, `property?`: names, functions and properties;
* `Guarded.partBounds`, `parameterHead?`, `parameter?`, `parameters`: lists of parameters, which are
  walked from group to group.

A walk gets on because a group ends behind its beginning. `SourceFile.Linked` says that it does, also
where brackets of different families interleave.
-/

namespace EntityLint.Guarded

open Checked

variable {f : SourceFile} {i : ℕ}

/-! ### Names -/

/-- The text of a token that is a name. -/
def nameAt? (f : SourceFile) (i : Nat) : Checked (Option Text) := do
  let token ← tokenAt f i
  return if token.kind = .word then some token.text else none

/-- The name of a class-like structure or function that a keyword declares. -/
def declarationName? (f : SourceFile) (i : Nat) : Checked (Option Text) :=
  andThen (return f.tokens[i]?) fun token =>
    if token.kind.isScopeOwner then
      andThen (nextSignificant? f (i + 1) none) fun next => do
        if (← kindAt f next) = .ampersand then
          andThen (nextSignificant? f (next + 1) none) (nameAt? f)
        else nameAt? f next
    else return none

theorem nameAt?_eq (h : i < f.tokens.size) :
    nameAt? f i = .ok (do guard (f.kindAt i = some .word); return f.textAt i) := by
  obtain ⟨t, ht, htoken⟩ := exists_tokenAt_eq h
  rw [nameAt?, htoken, SourceFile.kindAt, SourceFile.textAt, ht]
  by_cases hword : t.kind = .word
  · simp [hword]
  · simp [hword]

theorem declarationName?_eq (f : SourceFile) (i : ℕ) :
    declarationName? f i = .ok (f.declarationName? i) := by
  refine andThen_eq rfl fun token _ => ?_
  by_cases howner : token.kind.isScopeOwner = true
  · rw [if_pos howner, howner]
    refine andThen_eq (nextSignificant?_eq ..) fun next hnext => ?_
    obtain ⟨k, hkind, hchecked⟩ := kindAt_of_next? hnext
    rw [hchecked, ok_bind, hkind]
    by_cases hand : k = .ampersand
    · rw [if_pos hand, if_pos (by rw [hand])]
      refine andThen_eq (nextSignificant?_eq ..) fun next' hnext' => ?_
      exact nameAt?_eq (SourceFile.next?_eq_some hnext').2.1
    · rw [if_neg hand, if_neg fun h => hand (Option.some.inj h)]
      exact nameAt?_eq (SourceFile.next?_eq_some hnext).2.1
  · simp [howner]

/-! ### Functions -/

/-- The index of the first significant token after the parameter list of a function and after the
list of variables that a closure uses. -/
def afterParameters? (f : SourceFile) (token : Token) : Checked (Option Nat) :=
  andThen (return token.parens) fun parens =>
  andThen (nextSignificant? f (parens.closer + 1) none) fun next => do
    if (← kindAt f next) = .kwUse then
      andThen (nextOfKind? f [.openRound] next none false) fun opener =>
      andThen (Token.parens <$> tokenAt f opener) fun uses =>
      nextSignificant? f (uses.closer + 1) none
    else return some next

theorem afterParameters?_eq (f : SourceFile) (token : Token) :
    afterParameters? f token = .ok (f.afterParameters? token) := by
  refine andThen_eq rfl fun parens _ => andThen_eq (nextSignificant?_eq ..) fun next hnext => ?_
  obtain ⟨k, hkind, hchecked⟩ := kindAt_of_next? hnext
  rw [hchecked, ok_bind, hkind]
  by_cases huse : k = .kwUse
  · rw [if_pos huse, if_pos (by rw [huse])]
    refine andThen_eq (nextOfKind?_eq ..) fun opener hopener => ?_
    obtain ⟨t, ht, htoken⟩ := tokenAt_of_next? hopener
    rw [htoken, ht]
    exact andThen_eq rfl fun uses _ => nextSignificant?_eq ..
  · rw [if_neg huse, if_neg fun h => huse (Option.some.inj h)]
    rfl

/-- The declared return type of a function. -/
def returnType (f : SourceFile) (token : Token) : Checked Text := do
  match ← afterParameters? f token with
  | none => return []
  | some next =>
    if (← kindAt f next) = .colon then
      let stop ← nextOfKind? f [.openCurly, .semicolon, .doubleArrow] (next + 1) none false
      let tokens ← slice f (next + 1) (stop.getD f.tokens.size)
      return (tokens.filter fun t => !t.kind.isTrivia).flatMap Token.text
    else return []

/-- The first token after some parameters is in the stream. -/
theorem lt_size_of_afterParameters? {token : Token} {next : ℕ}
    (h : f.afterParameters? token = some next) : next < f.tokens.size := by
  simp only [SourceFile.afterParameters?, Option.bind_eq_bind, Option.bind_eq_some_iff] at h
  obtain ⟨parens, -, next', hnext', h⟩ := h
  split at h
  · obtain ⟨opener, -, h⟩ := Option.bind_eq_some_iff.1 h
    obtain ⟨t, -, h⟩ := Option.bind_eq_some_iff.1 h
    obtain ⟨uses, -, h⟩ := Option.bind_eq_some_iff.1 h
    exact (SourceFile.next?_eq_some h).2.1
  · cases h
    exact (SourceFile.next?_eq_some hnext').2.1

theorem returnType_eq (f : SourceFile) (token : Token) :
    returnType f token = .ok (f.returnType token) := by
  rw [returnType, afterParameters?_eq, ok_bind, SourceFile.returnType]
  cases hnext : f.afterParameters? token with
  | none => rfl
  | some next =>
    have hlt := lt_size_of_afterParameters? hnext
    obtain ⟨k, hkind, hchecked⟩ := exists_kindAt_eq hlt
    dsimp only
    rw [hchecked, ok_bind, hkind]
    by_cases hcolon : k = .colon
    · rw [if_pos hcolon, if_pos (by rw [hcolon]), nextOfKind?_eq, ok_bind, slice_eq]
      · rfl
      · cases hstop : f.nextOfKind? [.openCurly, .semicolon, .doubleArrow] (next + 1) none false with
        | none => exact hlt
        | some stop => exact (SourceFile.next?_eq_some hstop).1
      · cases hstop : f.nextOfKind? [.openCurly, .semicolon, .doubleArrow] (next + 1) none false with
        | none => exact Nat.le_refl _
        | some stop => exact Nat.le_of_lt (SourceFile.next?_eq_some hstop).2.1
    · rw [if_neg hcolon, if_neg fun h => hcolon (Option.some.inj h)]
      rfl

/-- The last significant token before an index. -/
def significantBefore? (f : SourceFile) (i : Nat) : Checked (Option Nat) :=
  if i = 0 then return none else previousSignificant? f (i - 1) none

/-- The modifiers in front of a function, the nearest first. -/
def modifiers (f : SourceFile) (i : Nat) : Checked (List Kind) := do
  match ← significantBefore? f i with
  | none => return []
  | some before =>
    let kind ← kindAt f before
    if kind.isMethodModifier then
      if before < i then return kind :: (← modifiers f before) else throw .stuck
    else return []
termination_by i

@[simp] theorem significantBefore?_eq (f : SourceFile) (i : ℕ) :
    significantBefore? f i = .ok (f.significantBefore? i) := by
  rw [significantBefore?, SourceFile.significantBefore?]
  split
  · rfl
  · exact previousSignificant?_eq ..

/-- What satisfies a predicate before an index begins with what a search downward finds. -/
theorem filter_reverse_take {α : Type} (p : α → Bool) (l : List α) (n : ℕ) :
    (l.take n).reverse.filter p = match EntityLint.findDown (fun i => l[i]?.any p) 0 n with
      | none => []
      | some j => l[j]?.toList ++ (l.take j).reverse.filter p := by
  induction n with
  | zero => rfl
  | succ n ih =>
    rw [EntityLint.findDown, if_neg (Nat.not_lt_zero n), List.take_add_one, List.reverse_append,
      List.filter_append, ih]
    cases hn : l[n]? with
    | none => rfl
    | some a =>
      cases ha : p a with
      | true => rw [← ih]; simp [ha, hn]
      | false => simp [ha]

/-- The significant tokens before an index begin with the one that a search finds. -/
theorem significantBefore_eq (f : SourceFile) (i : ℕ) :
    f.significantBefore i = match f.significantBefore? i with
      | none => []
      | some before => f.tokens[before]?.toList ++ f.significantBefore before := by
  rw [SourceFile.significantBefore?]
  by_cases hi : i = 0
  · rw [if_pos hi, hi]
    rfl
  · rw [if_neg hi]
    -- the search begins at the last token, should the index be behind it
    have hmin : min (i - 1 + 1) f.tokens.size = min i f.tokens.size := by omega
    have htake : f.tokens.toList.take i = f.tokens.toList.take (min i f.tokens.size) := by
      rw [← Array.length_toList]
      exact List.take_eq_take_min
    have hholds : f.holdsAt (fun t => !t.kind.isTrivia) =
        fun i => f.tokens.toList[i]?.any fun t => !t.kind.isTrivia := by
      funext i
      rw [SourceFile.holdsAt, Array.getElem?_toList]
    rw [SourceFile.significantBefore, htake, filter_reverse_take, SourceFile.previousSignificant?,
      SourceFile.previous?, hmin, hholds]
    simp only [Array.getElem?_toList, SourceFile.significantBefore]
    rfl

theorem modifiers_eq (f : SourceFile) (i : ℕ) : modifiers f i =
    .ok (((f.significantBefore i).map Token.kind).takeWhile Kind.isMethodModifier) := by
  induction i using Nat.strong_induction_on with
  | _ i ih =>
    rw [modifiers, significantBefore?_eq, ok_bind, significantBefore_eq]
    cases hbefore : f.significantBefore? i with
    | none => rfl
    | some before =>
      rw [SourceFile.significantBefore?] at hbefore
      split at hbefore
      · cases hbefore
      · obtain ⟨hle, hlt, -⟩ := SourceFile.previous?_eq_some hbefore
        obtain ⟨t, ht, htoken⟩ := exists_tokenAt_eq hlt
        have hkind : kindAt f before = .ok t.kind := by rw [kindAt, htoken, map_ok]
        have hon : before < i := by omega
        dsimp only
        rw [hkind, ok_bind, ht, Option.toList_some, List.singleton_append, List.map_cons,
          if_pos hon, ih before hon, ok_bind]
        cases hmodifier : t.kind.isMethodModifier with
        | true => rw [List.takeWhile_cons_of_pos hmodifier]; rfl
        | false => rw [List.takeWhile_cons_of_neg (Bool.eq_false_iff.1 hmodifier)]; rfl

/-- The facts of the function declared by the token at an index. -/
def signature (f : SourceFile) (i : Nat) : Checked Signature :=
  match f.tokens[i]? with
  | none => return .absent
  | some token => do
    let modifiers ← modifiers f i
    return {
      visibility := (Visibility.last? modifiers).getD .isPublic
      isExplicit := (Visibility.last? modifiers).isSome
      returnType := ← returnType f token
      isAbstract := modifiers.contains .kwAbstract
      isFinal := modifiers.contains .kwFinal
      isStatic := modifiers.contains .kwStatic
      hasBody := token.scope.isSome }

theorem signature_eq (f : SourceFile) (i : ℕ) : signature f i = .ok (f.signature i) := by
  rw [signature, SourceFile.signature]
  cases f.tokens[i]? with
  | none => rfl
  | some token =>
    dsimp only
    rw [modifiers_eq, ok_bind, returnType_eq]
    rfl

/-! ### Parameters -/

/-- The index after a pair or group, or else after the token at an index. -/
def after (i : Nat) (range : Option Range) : Nat := range.elim (i + 1) fun r => r.closer + 1

/-- The index after a group that opens at a token with one of the given kinds, or after the token. -/
def afterToken (groups : List Kind) (i : Nat) (token : Token) : Nat :=
  if groups.contains token.kind then after i token.group? else i + 1

/-- The bounds of the parts of a list that ends at `stop`: they are parted by commas outside of the
groups that open with one of the given kinds. The current part begins at `start`. -/
def partBounds (f : SourceFile) (groups : List Kind) (stop start i : Nat) :
    Checked (List (Nat × Nat)) :=
  if i < stop then do
    let token ← tokenAt f i
    if token.kind = .comma then return (start, i) :: (← partBounds f groups stop (i + 1) (i + 1))
    else if stop - afterToken groups i token < stop - i then
      partBounds f groups stop start (afterToken groups i token)
    else throw .stuck
  else return [(start, stop)]
termination_by stop - i

theorem afterGroup_eq (hf : f.Linked) {t : Token} (ht : f.tokens[i]? = some t) :
    SourceFile.afterGroup i t = after i t.group? := by
  have heq : SourceFile.afterGroup i t = max (i + 1) (t.group?.elim 0 fun r => r.closer + 1) := rfl
  rw [heq, after]
  cases hgroup : t.group? with
  | none => exact Nat.max_zero _
  | some r => exact Nat.max_eq_right (Nat.succ_le_succ (Nat.le_of_lt (hf.group ht hgroup)))

/-- **The parts of a list.** A group ends behind its beginning, so that each turn gets on. -/
theorem partBounds_eq (hf : f.Linked) (groups : List Kind) {stop : ℕ} (hstop : stop ≤ f.tokens.size)
    (start i : ℕ) : partBounds f groups stop start i = .ok (f.partBounds groups stop start i) := by
  fun_induction SourceFile.partBounds f groups stop start i with
  | case1 start i hi hnone =>
    -- the list ends in the stream
    have := Array.getElem?_eq_none_iff.1 hnone
    omega
  | case2 start i hi token ht _ hcomma ih =>
    rw [partBounds, if_pos hi, tokenAt_eq ht, ok_bind, if_pos hcomma, ih]
    rfl
  | case3 start i hi token ht hlt hcomma hgroup ih =>
    rw [afterGroup_eq hf ht] at ih hlt ⊢
    rw [partBounds, if_pos hi, tokenAt_eq ht, ok_bind, if_neg hcomma, afterToken, if_pos hgroup,
      if_pos hlt]
    exact ih
  | case4 start i hi token ht _ hcomma hgroup ih =>
    rw [partBounds, if_pos hi, tokenAt_eq ht, ok_bind, if_neg hcomma, afterToken, if_neg hgroup,
      if_pos (by omega)]
    exact ih
  | case5 start i hi =>
    rw [partBounds, if_neg hi]
    rfl

/-- Each part lies in the list. -/
theorem mem_partBounds {groups : List Kind} {stop start i : ℕ} (hi : start ≤ i)
    (hstop : start ≤ stop) {x : ℕ × ℕ} (h : x ∈ f.partBounds groups stop start i) :
    x.1 ≤ x.2 ∧ x.2 ≤ stop := by
  fun_induction SourceFile.partBounds f groups stop start i with
  | case1 => cases List.mem_singleton.1 h; exact ⟨hstop, Nat.le_refl _⟩
  | case2 start i hlt token ht _ hcomma ih =>
    rcases List.mem_cons.1 h with rfl | h
    · exact ⟨hi, Nat.le_of_lt hlt⟩
    · exact ih (Nat.le_refl _) hlt h
  | case3 start i hlt token ht _ hcomma hgroup ih =>
    exact ih (Nat.le_trans hi (Nat.le_of_lt (SourceFile.lt_afterGroup i token))) hstop h
  | case4 start i hlt token ht _ hcomma hgroup ih => exact ih (Nat.le_succ_of_le hi) hstop h
  | case5 => cases List.mem_singleton.1 h; exact ⟨hstop, Nat.le_refl _⟩

/-- The tokens from index `i` on that stand before the first variable, outside of attribute groups,
and the index of that variable. -/
def parameterHead? (f : SourceFile) (stop i : Nat) : Checked (Option (List Nat × Nat)) :=
  if i < stop then do
    let token ← tokenAt f i
    if token.kind = .variable then return some ([], i)
    else if token.kind = .attributeOpen then
      if stop - after i token.attrGroup < stop - i then
        parameterHead? f stop (after i token.attrGroup)
      else throw .stuck
    else return (← parameterHead? f stop (i + 1)).map fun (before, var) => (i :: before, var)
  else return none
termination_by stop - i

theorem parameterHead?_eq (hf : f.Linked) {stop : ℕ} (hstop : stop ≤ f.tokens.size) (i : ℕ) :
    parameterHead? f stop i = .ok (f.parameterHead? stop i) := by
  fun_induction SourceFile.parameterHead? f stop i with
  | case1 i hi hnone =>
    have := Array.getElem?_eq_none_iff.1 hnone
    omega
  | case2 i hi token ht _ hvariable =>
    rw [parameterHead?, if_pos hi, tokenAt_eq ht, ok_bind, if_pos hvariable]
    rfl
  | case3 i hi token ht hlt hvariable hgroup ih =>
    have hattr : token.group? = token.attrGroup := by rw [Token.group?, hgroup]
    rw [afterGroup_eq hf ht, hattr] at ih hlt ⊢
    rw [parameterHead?, if_pos hi, tokenAt_eq ht, ok_bind, if_neg hvariable, if_pos hgroup,
      if_pos hlt]
    exact ih
  | case4 i hi token ht _ hvariable hgroup ih =>
    rw [parameterHead?, if_pos hi, tokenAt_eq ht, ok_bind, if_neg hvariable, if_neg hgroup, ih]
    rfl
  | case5 i hi =>
    rw [parameterHead?, if_neg hi]
    rfl

/-- What stands before a variable, and the variable, is in the list. -/
theorem of_parameterHead? {stop i var : ℕ} {before : List ℕ}
    (h : f.parameterHead? stop i = some (before, var)) :
    i ≤ var ∧ var < stop ∧ ∀ j ∈ before, j < stop := by
  fun_induction SourceFile.parameterHead? f stop i generalizing before with
  | case1 => cases h
  | case2 i hi => cases h; exact ⟨Nat.le_refl _, hi, nofun⟩
  | case3 i hi token ht _ hvariable hgroup ih =>
    obtain ⟨hle, hlt, hall⟩ := ih h
    exact ⟨Nat.le_trans (Nat.le_of_lt (SourceFile.lt_afterGroup i token)) hle, hlt, hall⟩
  | case4 i hi token ht _ hvariable hgroup ih =>
    obtain ⟨⟨before', var'⟩, hrec, heq⟩ := Option.map_eq_some_iff.1 h
    cases heq
    obtain ⟨hle, hlt, hall⟩ := ih hrec
    exact ⟨Nat.le_of_succ_le hle, hlt, List.forall_mem_cons.2 ⟨hi, hall⟩⟩
  | case5 => cases h

/-- An ampersand stands for a reference in front of a variable or an ellipsis. -/
def isReferenceMark (f : SourceFile) (stop i : Nat) : Checked Bool := do
  if (← kindAt f i) = .ampersand then
    match ← nextSignificant? f (i + 1) (some stop) with
    | some next => return match ← kindAt f next with
      | .variable | .ellipsis => true
      | _ => false
    | none => return false
  else return false

theorem isReferenceMark_eq {stop : ℕ} (h : i < f.tokens.size) :
    isReferenceMark f stop i = .ok (f.isReferenceMark stop i) := by
  obtain ⟨k, hkind, hchecked⟩ := exists_kindAt_eq h
  rw [isReferenceMark, hchecked, ok_bind, SourceFile.isReferenceMark, hkind]
  by_cases hand : k = .ampersand
  · rw [if_pos hand, nextSignificant?_eq, ok_bind, hand]
    cases hnext : f.nextSignificant? (i + 1) (some stop) with
    | none => rfl
    | some next =>
      obtain ⟨k', hkind', hchecked'⟩ := kindAt_of_next? hnext
      dsimp only [Option.bind_some]
      rw [hchecked', ok_bind, hkind']
      cases k' <;> rfl
  · rw [if_neg hand, beq_false_of_ne fun h => hand (Option.some.inj h)]
    rfl

/-- The text that a token in front of the variable adds to the type of a parameter. -/
def typeTextAt (f : SourceFile) (stop i : Nat) : Checked Text := do
  let token ← tokenAt f i
  if token.kind.isTypePart then
    return if ← isReferenceMark f stop i then [] else token.text
  else return []

theorem typeTextAt_eq {stop : ℕ} (h : i < f.tokens.size) :
    typeTextAt f stop i = .ok (f.typeTextAt stop i) := by
  obtain ⟨t, ht, htoken⟩ := exists_tokenAt_eq h
  have hkind : f.kindAt i = some t.kind := congrArg (Option.map Token.kind) ht
  have htext : f.textAt i = t.text := by rw [SourceFile.textAt, ht]; rfl
  rw [typeTextAt, htoken, ok_bind, SourceFile.typeTextAt, hkind, htext, isReferenceMark_eq h]
  cases hpart : t.kind.isTypePart <;> cases f.isReferenceMark stop i <;> simp [hpart]

/-- The text of a default value, which is what stands behind the first equals sign. -/
def defaultText? (f : SourceFile) (var stop : Nat) : Checked (Option Text) := do
  match ← findUp (holdsAt f fun t => t.kind == .equals) (var + 1) (stop - (var + 1)) with
  | some i => return some (Text.trim (← textOf f (i + 1) (← minus (← minus stop i) 1)))
  | none => return none

theorem defaultText?_eq {var stop : ℕ} (hstop : stop ≤ f.tokens.size) :
    defaultText? f var stop = .ok ((f.nextOfKind? [.equals] (var + 1) (some stop) false).map fun i =>
      Text.trim (f.textBetween (i + 1) stop)) := by
  have hholds : f.holdsAt (fun t => t.kind == .equals) =
      f.holdsAt fun t => [Kind.equals].contains t.kind != false := by
    funext i
    simp [SourceFile.holdsAt, beq_eq_decide]
  have hfind : findUp (holdsAt f fun t => t.kind == .equals) (var + 1) (stop - (var + 1)) =
      .ok (f.nextOfKind? [.equals] (var + 1) (some stop) false) := by
    rw [SourceFile.nextOfKind?, SourceFile.next?, Option.getD_some, Nat.min_eq_left hstop, ← hholds]
    exact findUp_eq fun i _ hi => holdsAt_eq _ (by omega)
  rw [defaultText?, hfind, ok_bind]
  cases hequals : f.nextOfKind? [.equals] (var + 1) (some stop) false with
  | none => rfl
  | some i =>
    have hlt : i < stop := by
      obtain ⟨hle, hlt, -⟩ := findUp_eq_some hequals
      rw [Option.getD_some] at hlt
      omega
    dsimp only
    rw [minus_eq (Nat.le_of_lt hlt), ok_bind, minus_eq (by omega), ok_bind, textOf_eq,
      SourceFile.textOf, show i + 1 + (stop - i - 1) = stop by omega]
    rfl

/-- The parameter between two bounds, if it has a variable. -/
def parameter? (f : SourceFile) (start stop : Nat) : Checked (Option Parameter) :=
  andThen (parameterHead? f stop start) fun (head, var) => do
    return some {
      token := var
      name := ← textAt f var
      content := Text.trim (← textOf f start (← minus stop start))
      typeText := ← head.flatMapM (typeTextAt f stop)
      default := ← defaultText? f var stop
      byReference := ← head.anyM (isReferenceMark f stop)
      isVariadic := ← head.anyM fun i => return (← kindAt f i) == .ellipsis
      visibility := Visibility.last? (← head.mapM (kindAt f)) }

/-- The parameters of the function declared by the token at an index. -/
def parameters (f : SourceFile) (i : Nat) : Checked (List Parameter) := do
  match f.tokens[i]?.bind Token.parens with
  | none => return []
  | some parens =>
    let start := parens.opener + 1
    let bounds ← partBounds f SourceFile.parameterGroups parens.closer start start
    bounds.filterMapM fun (start, stop) => parameter? f start stop

theorem mapM_kindAt_eq {l : List ℕ} (h : ∀ j ∈ l, j < f.tokens.size) :
    l.mapM (kindAt f) = .ok (l.filterMap f.kindAt) := by
  induction l with
  | nil => rfl
  | cons j l ih =>
    obtain ⟨hj, hl⟩ := List.forall_mem_cons.1 h
    obtain ⟨k, hkind, hchecked⟩ := exists_kindAt_eq hj
    rw [List.mapM_cons, hchecked, ih hl, List.filterMap_cons, hkind]
    rfl

theorem parameter?_eq (hf : f.Linked) {start stop : ℕ} (h : start ≤ stop)
    (hstop : stop ≤ f.tokens.size) : parameter? f start stop = .ok (f.parameter? start stop) := by
  refine andThen_eq (parameterHead?_eq hf hstop start) fun ⟨head, var⟩ hhead => ?_
  obtain ⟨-, hvar, hall⟩ := of_parameterHead? hhead
  have hsize : ∀ j ∈ head, j < f.tokens.size := fun j hj => Nat.lt_of_lt_of_le (hall j hj) hstop
  have htype : head.flatMapM (typeTextAt f stop) = .ok (head.flatMap (f.typeTextAt stop)) :=
    flatMapM_eq fun j hj => typeTextAt_eq (hsize j hj)
  have hreference : head.anyM (isReferenceMark f stop) = .ok (head.any (f.isReferenceMark stop)) :=
    anyM_eq fun j hj => isReferenceMark_eq (hsize j hj)
  have hvariadic : (head.anyM fun i => do return (← kindAt f i) == Kind.ellipsis) =
      .ok (head.any fun i => f.kindAt i == some Kind.ellipsis) := by
    refine anyM_eq fun j hj => ?_
    obtain ⟨k, hkind, hchecked⟩ := exists_kindAt_eq (hsize j hj)
    rw [hchecked, hkind]
    rfl
  have hcontent := textOf_sub (f := f) h
  dsimp only
  rw [textAt_eq (Nat.lt_of_lt_of_le hvar hstop), ok_bind, minus_eq h, ok_bind] at *
  rw [hcontent, ok_bind, htype, ok_bind, defaultText?_eq hstop, ok_bind, hreference, ok_bind,
    hvariadic, ok_bind, mapM_kindAt_eq hsize]
  rfl

theorem parameters_eq (hf : f.Linked) (i : ℕ) : parameters f i = .ok (f.parameters i) := by
  rw [parameters, SourceFile.parameters]
  cases hparens : f.tokens[i]?.bind Token.parens with
  | none => rfl
  | some parens =>
    obtain ⟨t, ht, hr⟩ := Option.bind_eq_some_iff.1 hparens
    obtain ⟨hlt, hsize⟩ := hf.range ht (r := parens) (by rw [hr]; exact List.mem_cons_self)
    dsimp only
    rw [partBounds_eq hf _ (Nat.le_of_lt hsize), ok_bind]
    refine filterMapM_eq fun x hx => ?_
    obtain ⟨hle, hstop⟩ := mem_partBounds (Nat.le_refl _) hlt hx
    exact parameter?_eq hf hle (by omega)

/-! ### Properties -/

/-- The facts of a declaration, from the tokens before an index. -/
def propertyFrom (f : SourceFile) (p : Property) : Nat → Checked Property
  | 0 => return p
  | i + 1 => do
    let token ← tokenAt f i
    if token.kind.isTrivia then propertyFrom f p i
    else match p.takeIn token with
      | some p => propertyFrom f p i
      | none => return p

theorem propertyFrom_eq (p : Property) (h : i ≤ f.tokens.size) :
    propertyFrom f p i = .ok (p.ofTokens (f.significantBefore i)) := by
  induction i generalizing p with
  | zero => rfl
  | succ i ih =>
    obtain ⟨t, ht, htoken⟩ := exists_tokenAt_eq (Nat.lt_of_succ_le h)
    have hbefore : f.significantBefore (i + 1) =
        [t].filter (fun t => !t.kind.isTrivia) ++ f.significantBefore i := by
      rw [SourceFile.significantBefore, List.take_add_one, Array.getElem?_toList, ht,
        Option.toList_some, List.reverse_append, List.filter_append]
      rfl
    rw [propertyFrom, htoken, ok_bind, hbefore]
    cases htrivia : t.kind.isTrivia with
    | true =>
      rw [if_pos rfl, ih p (Nat.le_of_succ_le h), List.filter_cons_of_neg (by simp [htrivia])]
      rfl
    | false =>
      rw [if_neg Bool.false_ne_true, List.filter_cons_of_pos (by simp [htrivia]),
        List.filter_nil, List.singleton_append, Property.ofTokens]
      cases p.takeIn t with
      | none => rfl
      | some p => exact ih p (Nat.le_of_succ_le h)

/-- The facts of the property that is declared by the variable at an index. -/
def property (f : SourceFile) (i : Nat) : Checked Property := propertyFrom f .bare i

theorem property_eq {p : Property} (h : f.property? i = some p) : property f i = .ok p := by
  unfold SourceFile.property? at h
  split at h
  · next hi => rw [property, propertyFrom_eq _ hi, Option.some.inj h]
  · cases h

end EntityLint.Guarded
