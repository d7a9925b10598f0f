import EntityLint.Mapping.Tag
import EntityLint.Proofs.Bounds.Arguments
import EntityLint.Proofs.Bounds.Declaration

/-!
# The annotations of a property, with every index checked

What stands in front of a property is read once more: the suppressed codes and the lists of
arguments in a doc comment by byte offsets, its tags and the attribute groups by token indices.

* `Bytewise.codesIn`, `Bytewise.argumentsFrom`: suppressed codes and lists of arguments;
* `Guarded.docEntries`, `docTags`: the annotations of a doc comment;
* `Guarded.attributeGroups`, `groupTags`: those of attribute groups;
* `Guarded.propertyTags`, with `propertyTags_eq`.
-/

namespace EntityLint

open Checked

namespace Bytewise

open Text

/-! ### Suppressed codes -/

/-- The code that stands after blanks at the beginning of a text, and the rest after it. -/
def codeAfter (t : Text) : Checked (Text × Text) :=
  if t.head?.any isBlank then do
    let body := trimStart t
    let stop := (offsetWhere? (!IgnoreSet.isCodeChar ·) body).getD (utf8Length body)
    return (← cutTo body stop, ← cutFrom body stop)
  else return ([], t)

/-- The codes of the directives in a comment, in order. -/
def codesIn (ruleCode comment : Text) : Checked (List Text) :=
  match offsetOf? IgnoreSet.directive comment with
  | none => return []
  | some i => do
    let (code, rest) ← codeAfter (← cutFrom comment (i + utf8Length IgnoreSet.directive))
    if _ : rest.length < comment.length then
      let codes ← codesIn ruleCode rest
      return if code.isEmpty then codes else IgnoreSet.localCode ruleCode code :: codes
    else throw .stuck
termination_by comment.length

theorem codeAfter_eq (t : Text) : codeAfter t = .ok (IgnoreSet.codeAfter t) := by
  rw [codeAfter, IgnoreSet.codeAfter]
  split
  · dsimp only
    have hbody : trimStart t = (trimStart t).takeWhile IgnoreSet.isCodeChar ++
      (trimStart t).dropWhile IgnoreSet.isCodeChar := List.takeWhile_append_dropWhile.symm
    have hstop : (offsetWhere? (!IgnoreSet.isCodeChar ·) (trimStart t)).getD
        (utf8Length (trimStart t)) = utf8Length ((trimStart t).takeWhile IgnoreSet.isCodeChar) := by
      simp only [offsetWhere?_getD, Bool.not_not]
    rw [cutTo_eq hbody hstop, ok_bind, cutFrom_eq hbody hstop, ok_bind]
    rfl
  · rfl

/-- Each directive is behind the one before it. -/
theorem codesIn_eq (ruleCode comment : Text) :
    codesIn ruleCode comment = .ok (IgnoreSet.codesIn ruleCode comment) := by
  fun_induction IgnoreSet.codesIn ruleCode comment with
  | case1 comment hnone =>
    rw [codesIn, offsetOf?, hnone]
    rfl
  | case2 comment before after hfound hlt codes hempty ih =>
    rw [codesIn, offsetOf?, hfound]
    dsimp only [Option.map_some]
    rw [cutFrom_eq (append_of_breakOn hfound).symm (by rw [utf8Length_append]), ok_bind,
      codeAfter_eq, ok_bind, dif_pos hlt, ih, ok_bind, if_pos hempty]
    rfl
  | case3 comment before after hfound hlt codes hempty ih =>
    rw [codesIn, offsetOf?, hfound]
    dsimp only [Option.map_some]
    rw [cutFrom_eq (append_of_breakOn hfound).symm (by rw [utf8Length_append]), ok_bind,
      codeAfter_eq, ok_bind, dif_pos hlt, ih, ok_bind, if_neg hempty]
    rfl

/-! ### Lists of arguments in a doc comment -/

/-- The text of some tokens of a doc comment through the first closing parenthesis, without the
opening one and joined with a space, after some text before them. -/
def argumentsFrom (before : Text) : List (Token × Nat) → Checked (Option (Text × Nat))
  | [] => return none
  | (token, i) :: rest =>
    if token.kind = .docText ∨ token.kind = .docTag then
      let text := if before.isEmpty then token.text else before ++ ' ' :: token.text
      match offsetOf? [')'] text with
      | some stop => do return some (← cut text 1 stop, i + 1)
      | none => argumentsFrom text rest
    else argumentsFrom before rest

/-- What stands between the first parentheses of a text that begins with one. -/
theorem cut_parenthesis {t inner after : Text} (ht : t.head? = some '(')
    (h : breakOn [')'] t = some (inner, after)) :
    cut t 1 (utf8Length inner) = .ok (inner.drop 1) := by
  have htext := append_of_breakOn h
  cases inner with
  | nil =>
    rw [← htext] at ht
    cases ht
  | cons c inner =>
    have hc : c = '(' := by
      rw [← htext] at ht
      exact Option.some.inj ht
    subst hc
    exact cut_eq (u := ['(']) (w := ')' :: after) (by rw [← htext]; simp) rfl rfl

/-- The opening parenthesis that a list begins with stays the first character of its text. -/
theorem argumentsFrom_eq {before : Text} {tokens : List (Token × Nat)}
    (hbefore : ∀ c ∈ before.head?, c = '(')
    (hfirst : before = [] → ∀ x ∈ tokens.head?, x.1.kind = .docText ∧ x.1.text.head? = some '(') :
    argumentsFrom before tokens = .ok (SourceFile.argumentsFrom before tokens) := by
  induction tokens generalizing before with
  | nil => rfl
  | cons x tokens ih =>
    obtain ⟨token, i⟩ := x
    rw [argumentsFrom, SourceFile.argumentsFrom]
    split
    · have hopens : (if before.isEmpty then token.text else before ++ ' ' :: token.text).head? =
          some '(' := by
        cases before with
        | nil => exact (hfirst rfl _ rfl).2
        | cons c before => rw [hbefore c rfl]; rfl
      generalize (if before.isEmpty then token.text else before ++ ' ' :: token.text) = text at *
      dsimp only
      rw [offsetOf?]
      cases hbreak : breakOn [')'] text with
      | none =>
        refine ih (fun c hc => ?_) fun hnil => ?_
        · rw [hopens] at hc
          exact (Option.some.inj hc).symm
        · rw [hnil] at hopens
          cases hopens
      | some parts =>
        dsimp only [Option.map_some]
        rw [cut_parenthesis hopens hbreak]
        rfl
    · next hkind =>
      refine ih hbefore fun hnil => ?_
      exact absurd (.inl (hfirst hnil _ rfl).1) hkind

end Bytewise

namespace Guarded

variable {f : SourceFile}

/-- The annotation with some arguments. -/
def tagOfArguments (name : Text) (position start stop : Nat) (dialect : Dialect)
    (arguments : Text) : Checked MappingTag := do
  let parsed ← Bytewise.parseAttributes dialect arguments
  return ⟨name, .ofName (MappingTag.bareName name), position, start, stop, dialect,
    parsed.attributes, parsed.issues⟩

theorem tagOfArguments_eq (name : Text) (position start stop : Nat) (dialect : Dialect)
    (arguments : Text) : tagOfArguments name position start stop dialect arguments =
      .ok (.ofArguments name position start stop dialect arguments) := by
  rw [tagOfArguments, Bytewise.parseAttributes_eq]
  rfl

/-- The declaration that a doc comment or attribute group belongs to. -/
def ownerOf? (f : SourceFile) (stop : Nat) : Checked (Option Nat) :=
  nextOfKind? f SourceFile.declarationKinds (stop + 1) none false

theorem ownerOf?_eq (f : SourceFile) (stop : Nat) : ownerOf? f stop = .ok (f.ownerOf? stop) :=
  nextOfKind?_eq ..

/-! ### Doc comments -/

/-- The doc comment in front of a declaration. -/
def docCommentOf? (f : SourceFile) (declaration : Nat) : Checked (Option Range) :=
  if declaration = 0 then return none
  else
    andThen (previousOfKind? f [.docClose] (declaration - 1) none false) fun close => do
      if (← ownerOf? f close) = some declaration then
        return (← tokenAt f close).comment.map fun r => ⟨r.opener, close⟩
      else return none

theorem docCommentOf?_eq (hf : f.Linked) (declaration : Nat) :
    docCommentOf? f declaration = .ok (f.docCommentOf? declaration) := by
  rcases Nat.eq_zero_or_pos declaration with rfl | hpos
  · rfl
  rw [docCommentOf?, if_neg (by omega), SourceFile.docCommentOf?, guard, if_pos hpos]
  refine andThen_eq (previousOfKind?_eq ..) fun close hclose => ?_
  obtain ⟨t, ht, htoken, hkind⟩ := tokenAt_of_previousOfKind? hclose
  rw [ownerOf?_eq, ok_bind]
  by_cases howner : f.ownerOf? close = some declaration
  · rw [if_pos howner, guard, if_pos howner, htoken, ht, ok_bind, pure_eq]
    cases hcomment : t.comment with
    | none => rw [Option.map_none]; exact congrArg _ hcomment.symm
    | some r =>
      obtain rfl := hf.docClose ht hkind hcomment
      exact congrArg _ hcomment.symm
  · rw [if_neg howner, guard, if_neg howner]
    rfl

theorem lt_of_docCommentOf? (hf : f.Linked) {declaration : ℕ} {r : Range}
    (h : f.docCommentOf? declaration = some r) :
    r.opener < r.closer ∧ r.closer < f.tokens.size := by
  simp only [SourceFile.docCommentOf?, Option.bind_eq_bind, Option.bind_eq_some_iff] at h
  obtain ⟨-, -, close, -, -, -, t, ht, hrange⟩ := h
  exact hf.range ht (by simp [hrange])

/-- The arguments of a tag in a doc comment that closes at `close`, and the token after them. -/
def docArguments (f : SourceFile) (close tag : Nat) : Checked (Text × Nat) := do
  let opens := f.holdsAt (fun t => t.kind == .docText && t.text.head? == some '(') (tag + 1)
  let tokens := (f.tokens.toList.zipIdx.drop (tag + 1)).take (close - (tag + 1))
  match ← (if opens then Bytewise.argumentsFrom [] tokens else pure none) with
  | some found => return found
  | none => return ([], tag + 1)

theorem docArguments_eq (f : SourceFile) (close tag : Nat) :
    docArguments f close tag = .ok (f.docArguments close tag) := by
  rw [docArguments, SourceFile.docArguments]
  split
  · next hopens =>
    have hfirst : ∀ x ∈ ((f.tokens.toList.zipIdx.drop (tag + 1)).take (close - (tag + 1))).head?,
        x.1.kind = .docText ∧ x.1.text.head? = some '(' := by
      intro x hx
      rw [List.head?_take] at hx
      split at hx
      · cases hx
      · rw [List.head?_drop, List.getElem?_zipIdx, Array.getElem?_toList] at hx
        obtain ⟨t, ht, rfl⟩ := Option.map_eq_some_iff.1 hx
        simpa [SourceFile.holdsAt, ht] using hopens
    rw [Bytewise.argumentsFrom_eq (by simp) fun _ => hfirst, ok_bind]
    cases SourceFile.argumentsFrom [] _ <;> rfl
  · rfl

/-- The entries among some tags of a doc comment, from a token on. -/
def docEntries (f : SourceFile) (close start : Nat) : List Nat → Checked (List DocEntry)
  | [] => return []
  | tag :: tags =>
    if tag < start then docEntries f close start tags
    else do
      if (← textAt f tag) = "@var".toList then
        return .var tag :: (← docEntries f close start tags)
      else
        let (arguments, stop) ← docArguments f close tag
        return .tag tag arguments stop :: (← docEntries f close stop tags)

theorem docEntries_eq (f : SourceFile) (close start : Nat) {tags : List Nat}
    (h : ∀ tag ∈ tags, tag < f.tokens.size) :
    docEntries f close start tags = .ok (f.docEntries close start tags) := by
  induction tags generalizing start with
  | nil => rfl
  | cons tag tags ih =>
    have ih := fun start => ih start fun tag htag => h tag (List.mem_cons_of_mem _ htag)
    rcases hfound : f.docArguments close tag with ⟨arguments, stop⟩
    rw [docEntries, SourceFile.docEntries, textAt_eq (h tag List.mem_cons_self), ok_bind,
      docArguments_eq, ok_bind, ih, hfound]
    dsimp only
    rw [ih]
    split_ifs <;> rfl

/-- The annotation of an entry, if it is one that counts. -/
def docTag? (f : SourceFile) : DocEntry → Checked (Option MappingTag)
  | .var _ => return none
  | .tag tag arguments stop => do
    let name := (← textAt f tag).dropWhile (· == '@')
    if MappingTag.isMapping name then
      return some (← tagOfArguments name tag tag stop .doc arguments)
    else return none

theorem docTag?_eq {e : DocEntry} (h : ∀ tag arguments stop, e = .tag tag arguments stop →
    tag < f.tokens.size) : docTag? f e = .ok (f.docTag? e) := by
  cases e with
  | var tag => rfl
  | tag tag arguments stop =>
    rw [docTag?, textAt_eq (h tag arguments stop rfl), ok_bind, SourceFile.docTag?]
    dsimp only
    rw [tagOfArguments_eq]
    split <;> rfl

theorem mem_of_mem_docEntries {close start tag stop : ℕ} {arguments : Text} {tags : List ℕ}
    (h : .tag tag arguments stop ∈ f.docEntries close start tags) : tag ∈ tags := by
  fun_induction SourceFile.docEntries f close start tags with
  | case1 => cases h
  | case2 _ _ _ _ ih => exact List.mem_cons_of_mem _ (ih h)
  | case3 _ _ _ _ _ ih =>
    rcases List.mem_cons.1 h with h | h
    · cases h
    · exact List.mem_cons_of_mem _ (ih h)
  | case4 =>
    rename_i ih
    rcases List.mem_cons.1 h with h | h
    · cases h
      exact List.mem_cons_self
    · exact List.mem_cons_of_mem _ (ih h)

/-! ### Attribute groups -/

/-- The attribute groups in front of a declaration that end before `start`, the last one first. -/
def attributeGroupsBefore (f : SourceFile) (declaration start : Nat) : Checked (List Range) :=
  if start = 0 then return []
  else do
    match ← previousOfKind? f [.attributeClose] (start - 1) none false with
    | none => return []
    | some close =>
      if (← ownerOf? f close) = some declaration then
        match (← tokenAt f close).attrGroup with
        | none => return []
        | some group =>
          if _ : group.opener < start then
            return ⟨group.opener, close⟩ :: (← attributeGroupsBefore f declaration group.opener)
          else throw .stuck
      else return []
termination_by start

theorem attributeGroupsBefore_eq (hf : f.Linked) (declaration start : ℕ) :
    attributeGroupsBefore f declaration start = .ok (f.attributeGroupsBefore declaration start) := by
  fun_induction SourceFile.attributeGroupsBefore f declaration start with
  | case1 =>
    rw [attributeGroupsBefore, if_pos rfl]
    rfl
  | case2 start hpos hnone =>
    rw [attributeGroupsBefore, if_neg hpos, previousOfKind?_eq, hnone]
    rfl
  | case3 start hpos close hclose hgroup =>
    obtain ⟨t, ht, htoken, -⟩ := tokenAt_of_previousOfKind? hclose
    rw [ht] at hgroup
    rw [attributeGroupsBefore, if_neg hpos, previousOfKind?_eq, hclose, ok_bind]
    dsimp only
    rw [ownerOf?_eq, ok_bind, htoken, ok_bind, show t.attrGroup = none from hgroup]
    split <;> rfl
  | case4 start hpos close hclose group hgroup howner ih =>
    have hstart := (SourceFile.previous?_eq_some hclose).1
    obtain ⟨t, ht, htoken, hkind⟩ := tokenAt_of_previousOfKind? hclose
    rw [ht] at hgroup
    have hopener : group.opener < close := hf.attributeClose ht hkind hgroup
    -- the search goes on in front of the group, which begins before the token that ends it
    have hmin : Nat.min group.opener close = group.opener := Nat.min_eq_left hopener.le
    rw [attributeGroupsBefore, if_neg hpos, previousOfKind?_eq, hclose, ok_bind]
    dsimp only
    rw [ownerOf?_eq, ok_bind, if_pos howner, htoken, ok_bind,
      show t.attrGroup = some group from hgroup]
    dsimp only
    rw [hmin] at ih ⊢
    rw [dif_pos (by omega), ih]
    rfl
  | case5 start hpos close hclose group hgroup howner =>
    rw [attributeGroupsBefore, if_neg hpos, previousOfKind?_eq, hclose, ok_bind]
    dsimp only
    rw [ownerOf?_eq, ok_bind, if_neg howner]
    rfl

theorem closer_lt_of_mem_attributeGroupsBefore (hf : f.Linked) {declaration start : ℕ} {r : Range}
    (h : r ∈ f.attributeGroupsBefore declaration start) :
    r.opener < r.closer ∧ r.closer < f.tokens.size := by
  fun_induction SourceFile.attributeGroupsBefore f declaration start with
  | case1 => cases h
  | case2 => cases h
  | case3 => cases h
  | case4 start hpos close hclose group hgroup howner ih =>
    rcases List.mem_cons.1 h with rfl | h
    · obtain ⟨t, ht, -, hkind⟩ := tokenAt_of_previousOfKind? hclose
      rw [ht] at hgroup
      exact ⟨hf.attributeClose (r := group) ht hkind hgroup, (Array.getElem?_eq_some_iff.1 ht).1⟩
    · exact ih h
  | case5 => cases h

/-- The parentheses that open at a token of an attribute, if it has any. -/
def listAt? (f : SourceFile) : Option Nat → Checked (Option (Nat × Nat))
  | none => return none
  | some i => do return (← tokenAt f i).parens.map fun r => (i, r.closer)

/-- The text of the significant tokens between two indices. -/
def codeBetween (f : SourceFile) (start stop : Nat) : Checked Text := do
  return ((← slice f start stop).filter fun t => !t.kind.isTrivia).flatMap Token.text

theorem codeBetween_eq {start stop : ℕ} (h : start ≤ stop) (hstop : stop ≤ f.tokens.size) :
    codeBetween f start stop = .ok (f.codeBetween start stop) := by
  rw [codeBetween, slice_eq h hstop]
  rfl

/-- The attribute between two tokens of a group that opens at `opener`, if it is an annotation that
counts. -/
def nativeTag? (f : SourceFile) (opener start stop : Nat) : Checked (Option MappingTag) := do
  let paren ← nextOfKind? f [.openRound] start (some stop) false
  let name ← codeBetween f start (paren.getD stop)
  if MappingTag.isMapping name then
    match ← listAt? f paren with
    | some (i, close) =>
      let arguments ← textOf f (i + 1) (← minus (← minus close i) 1)
      return some (← tagOfArguments name opener start (close + 1) .native arguments)
    | none => return some (← tagOfArguments name opener start stop .native [])
  else return none

theorem nativeTag?_eq (hf : f.Linked) (opener : ℕ) {start stop : ℕ} (h : start ≤ stop)
    (hstop : stop ≤ f.tokens.size) :
    nativeTag? f opener start stop = .ok (f.nativeTag? opener start stop) := by
  rw [nativeTag?, nextOfKind?_eq, ok_bind, SourceFile.nativeTag?]
  cases hparen : f.nextOfKind? [.openRound] start (some stop) false with
  | none =>
    simp only [Option.getD_none, codeBetween_eq h hstop, ok_bind, listAt?, tagOfArguments_eq,
      pure_eq, Option.bind_none]
    split <;> rfl
  | some i =>
    obtain ⟨hi, hsize, -⟩ := SourceFile.next?_eq_some hparen
    obtain ⟨t, ht, htoken, hkind⟩ := tokenAt_of_nextOfKind? hparen
    simp only [Option.getD_some, codeBetween_eq hi hsize.le, ok_bind, listAt?, htoken, pure_eq,
      Option.bind_some, ht]
    cases hparens : t.parens with
    | none =>
      simp only [Option.map_none, tagOfArguments_eq, ok_bind]
      split <;> rfl
    | some r =>
      have hlt : i < r.closer := hf.group ht (by rw [Token.group?, hkind]; exact hparens)
      have htext : f.textOf (i + 1) (r.closer - i - 1) = f.textBetween (i + 1) r.closer := by
        rw [SourceFile.textOf]
        congr 1
        omega
      simp only [Option.map_some, minus_eq hlt.le, ok_bind,
        minus_eq (show 1 ≤ r.closer - i by omega), textOf_eq, htext, tagOfArguments_eq]
      split <;> rfl

/-- The annotations of an attribute group. -/
def groupTags (f : SourceFile) (group : Range) : Checked (List MappingTag) := do
  let start := group.opener + 1
  (← partBounds f [.openRound, .openSquare] group.closer start start).filterMapM
    fun (start, stop) => nativeTag? f group.opener start stop

theorem groupTags_eq (hf : f.Linked) {group : Range} (h : group.opener < group.closer)
    (hstop : group.closer < f.tokens.size) : groupTags f group = .ok (f.groupTags group) := by
  rw [groupTags]
  dsimp only
  rw [partBounds_eq hf _ hstop.le, ok_bind]
  refine filterMapM_eq fun x hx => ?_
  obtain ⟨hle, hlt⟩ := mem_partBounds (Nat.le_refl _) h hx
  exact nativeTag?_eq hf group.opener hle (hlt.trans hstop.le)

/-- The annotations of the attribute groups in front of a declaration. -/
def nativeTags (f : SourceFile) (declaration : Nat) : Checked (List MappingTag) := do
  (← attributeGroupsBefore f declaration declaration).reverse.flatMapM (groupTags f)

theorem nativeTags_eq (hf : f.Linked) (declaration : ℕ) :
    nativeTags f declaration = .ok (f.nativeTags declaration) := by
  rw [nativeTags, attributeGroupsBefore_eq hf, ok_bind]
  refine flatMapM_eq fun r hr => ?_
  obtain ⟨h, hstop⟩ := closer_lt_of_mem_attributeGroupsBefore hf (List.mem_reverse.1 hr)
  exact groupTags_eq hf h hstop

/-! ### Properties -/

/-- What the doc comment between two tokens says of a property. -/
def docPart (f : SourceFile) (comment : Range) (ruleCode : Text) : Checked PropertyTags := do
  let text ← textOf f comment.opener ((← minus comment.closer comment.opener) + 1)
  let codes ← Bytewise.codesIn ruleCode text
  let opener ← tokenAt f comment.opener
  let entries ← docEntries f comment.closer comment.opener opener.docTags
  return {
    tags := ← entries.filterMapM (docTag? f)
    varType := (entries.filterMap fun
      | .var tag => f.varType? comment.closer tag
      | .tag _ _ _ => none).getLast?
    ignored := ⟨codes⟩ }

/-- What is known of the property that is declared by the variable at an index, for a rule with the
given code. -/
def propertyTags (f : SourceFile) (declaration : Nat) (ruleCode : Text) : Checked PropertyTags := do
  match ← docCommentOf? f declaration with
  | none => return ⟨← nativeTags f declaration, none, .empty⟩
  | some comment =>
    let doc ← docPart f comment ruleCode
    return { doc with tags := doc.tags ++ (← nativeTags f declaration) }

theorem docPart_eq (hf : f.Linked) {comment : Range} (ruleCode : Text)
    (h : comment.opener < comment.closer) (hstop : comment.closer < f.tokens.size) :
    docPart f comment ruleCode = .ok {
      tags := f.docTags comment
      varType := f.docVarType? comment
      ignored := .parse (f.textBetween comment.opener (comment.closer + 1)) ruleCode } := by
  obtain ⟨t, ht, htoken⟩ := exists_tokenAt_eq (h.trans hstop)
  have htags : ∀ tag ∈ t.docTags, tag < f.tokens.size := hf.tags ht
  have htext : f.textOf comment.opener (comment.closer - comment.opener + 1) =
      f.textBetween comment.opener (comment.closer + 1) := by
    rw [SourceFile.textOf]
    congr 1
    omega
  have hentries : f.docEntriesOf comment = f.docEntries comment.closer comment.opener t.docTags := by
    rw [SourceFile.docEntriesOf, ht]
    rfl
  have hmapped : (f.docEntriesOf comment).filterMapM (docTag? f) = .ok (f.docTags comment) :=
    filterMapM_eq fun e he => docTag?_eq fun tag arguments stop heq =>
      htags tag (mem_of_mem_docEntries (heq ▸ hentries ▸ he))
  rw [docPart, minus_eq h.le, ok_bind, textOf_eq, ok_bind, htext, Bytewise.codesIn_eq, ok_bind,
    htoken, ok_bind, docEntries_eq f _ _ htags, ok_bind, ← hentries, hmapped]
  rfl

/-- **The annotations of a property.** -/
theorem propertyTags_eq (hf : f.Linked) (declaration : ℕ) (ruleCode : Text) :
    propertyTags f declaration ruleCode = .ok (f.propertyTags declaration ruleCode) := by
  rw [propertyTags, docCommentOf?_eq hf, ok_bind, SourceFile.propertyTags]
  cases hcomment : f.docCommentOf? declaration with
  | none =>
    rw [nativeTags_eq hf]
    rfl
  | some comment =>
    obtain ⟨h, hstop⟩ := lt_of_docCommentOf? hf hcomment
    dsimp only
    rw [docPart_eq hf ruleCode h hstop, ok_bind, nativeTags_eq hf]
    rfl

end Guarded

end EntityLint
