import EntityLint.Proofs.Mapping.ArgumentList
import EntityLint.Proofs.Text.Runs
import EntityLint.Proofs.Token.Surroundings
import EntityLint.Rule.EntityMapping

/-!
# Annotations of files of the same shape

Where two files have the same shape, their annotations differ only in their arguments, provided that the
texts of the one file are close enough to those of the other.

* `SourceFile.argumentsOf`, `SourceFile.reread`: the arguments of an annotation, and the annotation
  that has them in another file;
* `reread_of_docTag?`, `reread_of_nativeTag?`: the arguments of an annotation in its own file;
* `isMapping_flatMap_eq`: names with strings in them;
* `docTags_eq_map`, `nativeTag?_eq_map`: the annotations of the other file.
-/

namespace EntityLint

open Text

namespace SourceFile

/-! ### Arguments -/

/-- The bracket pair of the arguments of an annotation in an attribute group. -/
def argumentRange? (f : SourceFile) (start stop : ℕ) : Option Range :=
  (f.nextOfKind? [.openRound] start (some stop) false).bind fun i =>
    (f.tokens[i]?.bind Token.parens).map fun r => ⟨i, r.closer⟩

/-- The arguments of an annotation, as they are written. -/
def argumentsOf (f : SourceFile) (tag : MappingTag) : Text :=
  match tag.dialect with
  | .doc => (f.docArguments tag.stop tag.start).1
  | .native => (f.argumentRange? tag.start tag.stop).elim [] fun r => f.textBetween (r.opener + 1) r.closer

/-- An annotation with the arguments that stand in a file. -/
def reread (f : SourceFile) (tag : MappingTag) : MappingTag :=
  .ofArguments tag.name tag.position tag.start tag.stop tag.dialect (f.argumentsOf tag)

/-- The annotations of a property. -/
def mappingTags (f : SourceFile) (property : ℕ) : List MappingTag :=
  (f.propertyTags property EntityMapping.code.toList).tags

/-- The annotations of all properties, each with the variable of its property. -/
def mappings (f : SourceFile) : List (ℕ × MappingTag) :=
  f.propertyTokens.flatMap fun i => (f.mappingTags i).map (i, ·)

theorem mem_mappings {f : SourceFile} {m : ℕ × MappingTag} :
    m ∈ f.mappings ↔ m.1 ∈ f.propertyTokens ∧ m.2 ∈ f.mappingTags m.1 := by
  simp only [mappings, List.mem_flatMap, List.mem_map]
  constructor
  · rintro ⟨i, hi, tag, htag, rfl⟩
    exact ⟨hi, htag⟩
  · exact fun ⟨hi, htag⟩ => ⟨m.1, hi, m.2, htag, rfl⟩

theorem mappingTags_eq_append (f : SourceFile) (property : ℕ) : f.mappingTags property =
    (f.docCommentOf? property).elim [] f.docTags ++ f.nativeTags property := by
  rw [mappingTags, propertyTags]
  cases f.docCommentOf? property <;> rfl

section Arguments

variable {f : SourceFile}

theorem argumentsOf_doc {tag : MappingTag} (h : tag.dialect = .doc) :
    f.argumentsOf tag = (f.docArguments tag.stop tag.start).1 := by
  rw [argumentsOf, h]

theorem argumentsOf_native {tag : MappingTag} (h : tag.dialect = .native) : f.argumentsOf tag =
    (f.argumentRange? tag.start tag.stop).elim [] fun r => f.textBetween (r.opener + 1) r.closer := by
  rw [argumentsOf, h]

theorem nextOfKind?_of_lt {kinds : List Kind} {start stop stop' i : ℕ} {exclude : Bool}
    (h : f.nextOfKind? kinds start (some stop) exclude = some i) (hi : i < stop') :
    f.nextOfKind? kinds start (some stop') exclude = some i := by
  obtain ⟨hle, hlt, hp, hfirst⟩ := findUp_eq_some_iff.1 h
  refine findUp_eq_some_iff.2 ⟨hle, ?_, hp, hfirst⟩
  rw [Option.getD_some] at hlt ⊢
  omega

/-- An annotation of an attribute group as it is read, and where it ends. -/
theorem nativeTag?_eq (f : SourceFile) (opener start stop : ℕ) : f.nativeTag? opener start stop =
    let name := f.codeBetween start ((f.nextOfKind? [.openRound] start (some stop) false).getD stop)
    let range := f.argumentRange? start stop
    if MappingTag.isMapping name then
      some (.ofArguments name opener start (range.elim stop fun r => r.closer + 1) .native
        (range.elim [] fun r => f.textBetween (r.opener + 1) r.closer))
    else none := by
  rw [nativeTag?, argumentRange?]
  dsimp only
  split
  · cases f.nextOfKind? [.openRound] start (some stop) false with
    | none => rfl
    | some i =>
      rw [Option.bind_some, Option.bind_some]
      cases f.tokens[i]?.bind Token.parens <;> rfl
  · rfl

/-- The arguments of an annotation in an attribute group stand in round brackets. -/
theorem argumentRange?_eq_some {path : String} {source : Text} (h : parse path source = .ok f)
    {start stop : ℕ} {r : Range} (hr : f.argumentRange? start stop = some r) :
    f.nextOfKind? [.openRound] start (some stop) false = some r.opener ∧ r.opener < r.closer ∧
      f.kindAt r.closer = some .closeRound := by
  obtain ⟨i, hi, hr⟩ := Option.bind_eq_some_iff.1 hr
  obtain ⟨r, hparens, rfl⟩ := Option.map_eq_some_iff.1 hr
  obtain ⟨t, ht, hlink⟩ := Option.bind_eq_some_iff.1 hparens
  have hkind : t.kind = .openRound := by
    have := (next?_eq_some hi).2.2
    rw [holdsAt, ht] at this
    simpa using this
  obtain ⟨tokens, htokens, rfl⟩ := exists_tokens_of_parse h
  obtain ⟨ls, docs, pairs, hls, hpairs, rfl⟩ := exists_lexemes_of_tokenize htokens
  have hpaired := Token.wellPaired_ofLexemes hpairs docs fun l hl => (Lexeme.mem_ofSource hls l hl).2
  rw [List.getElem?_toArray] at ht
  obtain ⟨c, hmatches, hc⟩ := Token.parens_of_openRound hpaired ht hkind
  obtain rfl := Option.some.inj (hlink.symm.trans hc)
  obtain ⟨k, hk, hcloses⟩ := hmatches.closes
  obtain rfl := Pairing.round_closes_iff.1 hcloses
  obtain ⟨t', ht', hkind'⟩ := Token.exists_token_of_kinds hk (by decide)
  refine ⟨hi, hmatches.lt, ?_⟩
  rw [kindAt, List.getElem?_toArray, ht', Option.map_some, hkind']

theorem argumentRange?_of_lt {start stop stop' : ℕ} {r : Range}
    (hr : f.argumentRange? start stop = some r) (hlt : r.opener < stop') :
    f.argumentRange? start stop' = some r := by
  obtain ⟨i, hi, hr'⟩ := Option.bind_eq_some_iff.1 hr
  obtain ⟨r, hparens, rfl⟩ := Option.map_eq_some_iff.1 hr'
  rw [argumentRange?, nextOfKind?_of_lt hi hlt, Option.bind_some, hparens]
  rfl

/-- An annotation of an attribute group has the arguments that are written. -/
theorem reread_of_nativeTag? {path : String} {source : Text} (h : parse path source = .ok f)
    {opener start stop : ℕ} {tag : MappingTag} (htag : f.nativeTag? opener start stop = some tag) :
    f.reread tag = tag ∧ tag.dialect = .native ∧ tag.start = start ∧
      f.argumentRange? tag.start tag.stop = f.argumentRange? start stop ∧
      tag.stop = (f.argumentRange? start stop).elim stop fun r => r.closer + 1 := by
  rw [nativeTag?_eq] at htag
  obtain ⟨-, htag⟩ := Option.ite_none_right_eq_some.1 htag
  have hrange : f.argumentRange? start
      ((f.argumentRange? start stop).elim stop fun r => r.closer + 1) = f.argumentRange? start stop := by
    cases hr : f.argumentRange? start stop with
    | none => exact hr
    | some r =>
      have := (argumentRange?_eq_some h hr).2.1
      exact argumentRange?_of_lt hr (Nat.lt_succ_of_lt this)
  cases htag
  refine ⟨?_, rfl, rfl, hrange, rfl⟩
  rw [reread, argumentsOf_native rfl]
  dsimp only [MappingTag.ofArguments]
  rw [hrange]

end Arguments

section Doc

variable {f f' : SourceFile} {comment : Range}

/-- An annotation of a doc comment has the arguments that are written. -/
theorem reread_of_docTag? {e : DocEntry} (he : e ∈ f.docEntriesOf comment) {tag : MappingTag}
    (htag : f.docTag? e = some tag) : f.reread tag = tag ∧ tag.dialect = .doc ∧
      e.index = tag.start ∧ tag.stop = (f.docArguments comment.closer tag.start).2 := by
  cases e with
  | var i => cases htag
  | tag i arguments stop =>
    have hread := docArguments_of_mem he
    obtain ⟨-, htag⟩ := Option.ite_none_right_eq_some.1 htag
    cases htag
    have hstop := f.docArguments_stop comment.closer i
    rw [hread] at hstop
    refine ⟨?_, rfl, rfl, by dsimp only [MappingTag.ofArguments]; rw [hread]⟩
    rw [reread, argumentsOf_doc rfl]
    dsimp only [MappingTag.ofArguments]
    rw [hstop]

/-- An entry of a doc comment with the arguments that stand in a file. -/
def rereadEntry (f : SourceFile) (close : ℕ) : DocEntry → DocEntry
  | .var i => .var i
  | .tag i _ stop => .tag i (f.docArguments close i).1 stop

theorem docEntries_eq_map (h : f.ListsAlike f') (close start : ℕ) {tags : List ℕ}
    (htags : ∀ i ∈ tags, f'.textAt i = f.textAt i) :
    f'.docEntries close start tags = (f.docEntries close start tags).map (f'.rereadEntry close) := by
  induction tags generalizing start with
  | nil => rfl
  | cons tag tags ih =>
    obtain ⟨htag, htags⟩ := List.forall_mem_cons.1 htags
    rw [docEntries, docEntries, htag]
    dsimp only
    rw [h.docArguments_snd_eq, ih start htags, ih _ htags]
    split
    · rfl
    · split <;> rfl

/-- The annotations of a doc comment in a file whose lists of arguments end alike. -/
theorem docTags_eq_map (h : f.ListsAlike f')
    (htags : ∀ i ∈ (f.tokens[comment.opener]?.map Token.docTags).getD [], f'.textAt i = f.textAt i) :
    f'.docTags comment = (f.docTags comment).map f'.reread := by
  have htokens : f'.tokens[comment.opener]?.map Token.docTags =
      f.tokens[comment.opener]?.map Token.docTags := h.shape.map_getElem? (fun _ _ _ => rfl) _
  have hentries : f'.docEntriesOf comment =
      (f.docEntriesOf comment).map (f'.rereadEntry comment.closer) := by
    rw [docEntriesOf, htokens]
    exact docEntries_eq_map h _ _ htags
  rw [docTags, docTags, hentries, List.filterMap_map, List.map_filterMap]
  refine List.filterMap_congr fun e he => ?_
  cases e with
  | var i => rfl
  | tag i arguments stop =>
    have htext : f'.textAt i = f.textAt i := htags i (index_of_mem he).2
    have hread := docArguments_of_mem he
    have hstop := f'.docArguments_stop comment.closer i
    rw [h.docArguments_snd_eq, hread] at hstop
    simp only [Function.comp_apply, rereadEntry, docTag?, htext]
    split
    · rw [Option.map_some, reread, argumentsOf_doc rfl]
      dsimp only [MappingTag.ofArguments]
      rw [hstop]
    · rfl

end Doc

/-! ### Names of annotations -/

section Names

variable {f f' : SourceFile} {start stop : ℕ}

/-- The code tokens of two files of one shape, place by place. -/
theorem SameShape.forall₂_code (h : f.SameShape f') (start stop : ℕ) :
    List.Forall₂ (fun t t' : Token => t.kind.isTrivia = false ∧ ∃ i, start ≤ i ∧ i < stop ∧
      f.textAt i = t.text ∧ f'.textAt i = t'.text ∧ f.kindAt i = some t.kind)
      ((f.slice start stop).filter fun t => !t.kind.isTrivia)
      ((f'.slice start stop).filter fun t => !t.kind.isTrivia) := by
  refine (List.forall₂_and_left _ _).2 ⟨fun t ht => ?_, ?_⟩
  · simpa using (List.mem_filter.1 ht).2
  · refine (List.rel_filter (fun t t' hkind => ?_) (h.forall₂_slice start stop)).imp fun _ _ => And.right
    dsimp only
    rw [hkind.1]

theorem SameShape.codeBetween_eq (h : f.SameShape f')
    (htext : ∀ i, start ≤ i → i < stop → f'.textAt i = f.textAt i) :
    f'.codeBetween start stop = f.codeBetween start stop := by
  refine flatMap_text_eq ((h.forall₂_code start stop).imp ?_)
  rintro t t' ⟨-, i, hstart, hstop, hi, hi', -⟩
  rw [← hi, ← hi', htext i hstart hstop]

/-- Two texts that begin with quotes. -/
def BothQuoted (t t' : Text) : Prop := t.head?.any isQuote = true ∧ t'.head?.any isQuote = true

theorem isMapping_append_of_quote {t : Text} (ht : t.head?.any isQuote = true) (w s : Text) :
    MappingTag.isMapping (w ++ (t ++ s)) = Text.startsWith w "ORM".toList := by
  cases t with
  | nil => cases ht
  | cons q t =>
    have hq : q ∉ "ORM\\JoinTable".toList ∧ q ∉ "ORM".toList := by
      rcases (by simpa [isQuote, or_assoc] using ht : q = '\'' ∨ q = '"' ∨ q = '\x60') with
        rfl | rfl | rfl <;> decide
    have hne : w ++ (q :: t ++ s) ≠ "ORM\\JoinTable".toList := fun heq => hq.1 (heq ▸ by simp)
    rw [MappingTag.isMapping, bne_iff_ne.2 hne, Bool.and_true, List.cons_append, startsWith,
      stripLeading?_append_cons hq.2, Option.isSome_map]
    rfl

/-- A name with a string in it is no name of an annotation after the string has been exchanged, unless
it is one that begins with the same letters. -/
theorem isMapping_flatMap_eq {l l' : List Token}
    (h : List.Forall₂ (fun t t' : Token => t'.text = t.text ∨ BothQuoted t.text t'.text) l l')
    (w : Text) : MappingTag.isMapping (w ++ l'.flatMap Token.text) =
      MappingTag.isMapping (w ++ l.flatMap Token.text) := by
  induction h generalizing w with
  | nil => rfl
  | cons ht _ ih =>
    rw [List.flatMap_cons, List.flatMap_cons]
    rcases ht with heq | ⟨hq, hq'⟩
    · rw [heq, ← List.append_assoc, ih, List.append_assoc]
    · rw [isMapping_append_of_quote hq, isMapping_append_of_quote hq']

theorem SameShape.isMapping_codeBetween_eq (h : f.SameShape f')
    (htext : ∀ i k, f.kindAt i = some k → k.isTrivia = false →
      f'.textAt i = f.textAt i ∨ BothQuoted (f.textAt i) (f'.textAt i)) :
    MappingTag.isMapping (f'.codeBetween start stop) =
      MappingTag.isMapping (f.codeBetween start stop) := by
  have hcode : List.Forall₂ (fun t t' : Token => t'.text = t.text ∨ BothQuoted t.text t'.text)
      ((f.slice start stop).filter fun t => !t.kind.isTrivia)
      ((f'.slice start stop).filter fun t => !t.kind.isTrivia) := by
    refine (h.forall₂_code start stop).imp ?_
    rintro t t' ⟨htrivia, i, -, -, hi, hi', hkind⟩
    rw [← hi, ← hi']
    exact htext i _ hkind htrivia
  simpa [codeBetween] using isMapping_flatMap_eq hcode []

end Names

section Native

variable {f f' : SourceFile}

theorem SameShape.argumentRange?_eq (h : f.SameShape f') (start stop : ℕ) :
    f'.argumentRange? start stop = f.argumentRange? start stop := by
  rw [argumentRange?, argumentRange?, h.nextOfKind?_eq]
  congr 1
  funext i
  rw [h.bind_getElem? (fun _ _ _ => rfl) i]

/-- The annotation between two tokens in a file with the same name there. -/
theorem nativeTag?_eq_map {path : String} {source : Text} (hparse : parse path source = .ok f)
    (h : f.SameShape f') {opener start stop : ℕ}
    (hname : let paren := (f.nextOfKind? [.openRound] start (some stop) false).getD stop
      MappingTag.isMapping (f'.codeBetween start paren) = MappingTag.isMapping (f.codeBetween start paren) ∧
      (MappingTag.isMapping (f.codeBetween start paren) = true →
        f'.codeBetween start paren = f.codeBetween start paren)) :
    f'.nativeTag? opener start stop = (f.nativeTag? opener start stop).map f'.reread := by
  obtain ⟨hmapping, hname⟩ := hname
  cases htag : f.nativeTag? opener start stop with
  | none =>
    rw [nativeTag?_eq] at htag ⊢
    dsimp only at htag ⊢
    rw [h.nextOfKind?_eq, hmapping]
    split at htag
    · cases htag
    · next hnot => rw [if_neg hnot, Option.map_none]
  | some tag =>
    obtain ⟨-, hdialect, -, hrange, -⟩ := reread_of_nativeTag? hparse htag
    rw [nativeTag?_eq] at htag ⊢
    dsimp only at htag ⊢
    obtain ⟨hname', htag⟩ := Option.ite_none_right_eq_some.1 htag
    rw [h.nextOfKind?_eq, hname hname', if_pos hname', Option.map_some, h.argumentRange?_eq, reread,
      argumentsOf_native hdialect, h.argumentRange?_eq, hrange]
    cases htag
    rfl

end Native

end SourceFile

end EntityLint
