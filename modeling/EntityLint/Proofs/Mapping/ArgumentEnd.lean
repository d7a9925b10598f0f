import EntityLint.Proofs.Bounds.Arguments
import EntityLint.Proofs.Mapping.NamePlace

/-!
# Arguments are used up

The text between the parentheses of an annotation may be anything. Each part that is read leaves a
shorter end of it, so the parts come to an end; and where a string or an array is still open at the end
of the text, this is the end of the arguments too.

* `rest_readStep_suffix`: a part leaves an end of the text;
* `ReachesEnd`: values that are not closed;
* `readStep_shape`, `readStep_issues`: what a part is, and which issues it has;
* `attributeReadings_issues`: which issues the parts have.

The main statement is `arguments_are_used_up`.
-/

namespace EntityLint

open Text

/-! ### A part of the arguments -/

section Part

variable {d : Dialect} {t : Text}

theorem rest_readStep_suffix (d : Dialect) (t : Text) : (readStep d t).rest <:+ t := by
  by_cases hrest : (readStep d t).rest = []
  · rw [hrest]
    exact List.nil_suffix
  · obtain ⟨v, ht, -⟩ := exists_endsFresh_of_readStep hrest
    exact ⟨v, ht.symm⟩

/-- A value that takes all of a text since it is not closed, with the issue that says so. -/
inductive ReachesEnd (t : Text) : AttributeIssue → AttributeValue → Prop
  | string {text : Text} (h : text <:+ t) : ReachesEnd t .unclosedString (.string text)
  | array {text : Text} (h : text <:+ t) : ReachesEnd t .unclosedArray (.raw text)

theorem ReachesEnd.mono {t t' : Text} {issue : AttributeIssue} {value : AttributeValue}
    (h : ReachesEnd t issue value) (ht : t <:+ t') : ReachesEnd t' issue value := by
  cases h with
  | string h => exact .string (h.trans ht)
  | array h => exact .array (h.trans ht)

/-- A value has no issue, or it is not closed and nothing is left. -/
theorem readValue_issue (d : Dialect) (t : Text) : (readValue d t).issue = none ∨
    ∃ issue, (readValue d t).issue = some issue ∧ (readValue d t).rest = [] ∧
      ReachesEnd t issue (readValue d t).value := by
  cases t with
  | nil => exact .inl rfl
  | cons c t =>
    rw [readValue]
    split_ifs
    · split
      · exact .inl rfl
      · exact .inr ⟨.unclosedString, rfl, rfl, .string (List.suffix_cons c t)⟩
    · split
      · exact .inl rfl
      · exact .inr ⟨.unclosedArray, rfl, rfl, .array (List.suffix_refl _)⟩
    · exact .inl rfl

/-- Issues about spaces, none of which says that the text ended too early. -/
def AreSpacing (issues : List AttributeIssue) : Prop := ∀ issue ∈ issues, issue.code ≠ "UnexpectedEnd"

theorem areSpacing_append {is js : List AttributeIssue} (hi : AreSpacing is) (hj : AreSpacing js) :
    AreSpacing (is ++ js) := List.forall_mem_append.2 ⟨hi, hj⟩

/-- The issues that are found before a value. -/
theorem areSpacing_of_name (spaced : Bool) (d : Dialect) (name rest : Text) :
    AreSpacing ((if spaced then [.spaceAroundName name] else [])
      ++ (spacingIssue? d name rest).toList) := by
  refine areSpacing_append ?_ ?_
  · split <;> simp [AreSpacing, AttributeIssue.code]
  · unfold spacingIssue?
    split <;> simp [AreSpacing, AttributeIssue.code]

/-- The word before a delimiter is a name. -/
theorem isAttributeName_of_splitName? {raw rest : Text} (h : splitName? d t = some (raw, rest)) :
    t = raw ++ d.delimiter :: rest ∧
      (trim raw = positionalName ∨ IsAttributeName (trim raw)) := by
  obtain ⟨⟨raw', rest'⟩, hbreak, hif⟩ := Option.bind_eq_some_iff.1 h
  dsimp only at hif
  split at hif
  · next hword =>
    cases hif
    rw [Bool.and_eq_true, Bool.not_eq_true', List.all_eq_true] at hword
    refine ⟨breakAtDelimiter_spec hbreak, Classical.or_iff_not_imp_left.2 fun hnamed => ?_⟩
    exact ⟨by simpa using hword.1, hword.2, hnamed⟩
  · cases hif

/-- A part is passed over, or its value is read behind its name. -/
theorem readStep_shape (d : Dialect) (t : Text) :
    ((readStep d t).entry = none ∧ (readStep d t).issues = []) ∨
      ∃ name issues rest, readStep d t = readNamed d name issues rest ∧ rest <:+ t ∧
        (name = positionalName ∨ IsAttributeName name) ∧ AreSpacing issues := by
  have hcommas : t.dropWhile (· == ',') <:+ t := List.dropWhile_suffix _
  rw [readStep]
  split
  · exact .inl ⟨rfl, rfl⟩
  · split
    · exact .inl ⟨rfl, rfl⟩
    · right
      rw [readAttribute]
      cases hsplit : splitName? d (t.dropWhile (· == ',')) with
      | none => exact ⟨positionalName, [], _, rfl, hcommas, .inl rfl, by simp [AreSpacing]⟩
      | some parts =>
        obtain ⟨raw, rest⟩ := parts
        obtain ⟨htext, hname⟩ := isAttributeName_of_splitName? hsplit
        have hrest : rest <:+ t.dropWhile (· == ',') := ⟨raw ++ [d.delimiter], by rw [htext]; simp⟩
        exact ⟨trim raw, _, _, rfl, (List.dropWhile_suffix _).trans (hrest.trans hcommas), hname,
          areSpacing_of_name _ d _ rest⟩

/-- A part that ends with the text: its value is not closed, and the last issue of the part says so. -/
structure AttributeReading.EndsOpen (r : AttributeReading) (t : Text) : Prop where
  rest : r.rest = []
  issue : ∃ issues issue name value, r.issues = issues ++ [issue] ∧ AreSpacing issues ∧
    r.entry = some (name, value) ∧ ReachesEnd t issue value

theorem areSpacing_readNamed (name : Text) {issues : List AttributeIssue} (h : AreSpacing issues)
    (hvalue : (readValue d t).issue = none) : AreSpacing (readNamed d name issues t).issues := by
  rw [readNamed]
  dsimp only
  rw [hvalue]
  refine areSpacing_append (areSpacing_append h (by simp [AreSpacing])) ?_
  split <;> simp [AreSpacing, AttributeIssue.code]

theorem readNamed_issues {name : Text} {issues : List AttributeIssue} (h : AreSpacing issues) :
    AreSpacing (readNamed d name issues t).issues ∨ (readNamed d name issues t).EndsOpen t := by
  rcases readValue_issue d t with hnone | ⟨issue, hissue, hrest, hend⟩
  · exact .inl (areSpacing_readNamed name h hnone)
  · right
    rw [readNamed]
    refine ⟨by simp [hrest, afterSeparator], issues, issue, name, (readValue d t).value, ?_, h, rfl, hend⟩
    simp [hissue, hrest]

/-- A part has no issue but about spaces, or it ends with the text. -/
theorem readStep_issues (d : Dialect) (t : Text) :
    AreSpacing (readStep d t).issues ∨ (readStep d t).EndsOpen t := by
  rcases readStep_shape d t with ⟨-, hnone⟩ | ⟨name, issues, rest, hstep, hrest, -, hspacing⟩
  · rw [hnone]
    exact .inl (by simp [AreSpacing])
  · rw [hstep]
    refine (readNamed_issues hspacing).imp_right fun hopen => ⟨hopen.rest, ?_⟩
    obtain ⟨is, issue, name', value, hissues, his, hentry, hend⟩ := hopen.issue
    exact ⟨is, issue, name', value, hissues, his, hentry, hend.mono hrest⟩

theorem name_of_readStep {name : Text} {value : AttributeValue}
    (h : (readStep d t).entry = some (name, value)) :
    name = positionalName ∨ IsAttributeName name := by
  rcases readStep_shape d t with ⟨hnone, -⟩ | ⟨name', issues, rest, hstep, -, hname, -⟩
  · cases hnone.symm.trans h
  · rw [hstep] at h
    obtain rfl : name' = name := congrArg Prod.fst (Option.some.inj h)
    exact hname

end Part

/-! ### All parts -/

variable {d : Dialect} {t : Text}

theorem name_of_mem_attributeReadings {r : AttributeReading} {name : Text} {value : AttributeValue}
    (hr : r ∈ attributeReadings d t) (h : r.entry = some (name, value)) :
    name = positionalName ∨ IsAttributeName name := by
  fun_induction attributeReadings d t with
  | case1 t hblank => cases hr
  | case2 t hblank hlt ih =>
    rcases List.mem_cons.1 hr with rfl | hr
    · exact name_of_readStep h
    · exact ih hr

/-- Only the last part can be one that ends with the text. -/
theorem attributeReadings_issues (d : Dialect) (t : Text) :
    (∀ r ∈ attributeReadings d t, AreSpacing r.issues) ∨
      ∃ readings r, attributeReadings d t = readings ++ [r] ∧
        (∀ r ∈ readings, AreSpacing r.issues) ∧ r.EndsOpen t := by
  fun_induction attributeReadings d t with
  | case1 t hblank => exact .inl (by simp)
  | case2 t hblank hlt ih =>
    rcases readStep_issues d t with hspacing | hopen
    · rcases ih with hrest | ⟨readings, r, hreadings, hrest, hopen⟩
      · exact .inl (List.forall_mem_cons.2 ⟨hspacing, hrest⟩)
      · obtain ⟨is, issue, name, value, hissues, his, hentry, hend⟩ := hopen.issue
        exact .inr ⟨readStep d t :: readings, r, by rw [hreadings]; rfl,
          List.forall_mem_cons.2 ⟨hspacing, hrest⟩, hopen.rest, is, issue, name, value, hissues, his,
          hentry, hend.mono (rest_readStep_suffix d t)⟩
    · refine .inr ⟨[], readStep d t, ?_, by simp, hopen⟩
      rw [hopen.rest, attributeReadings_nil]
      rfl

/-- The arguments end inside of a string or an array: this is the last issue and the only one of its
kind, and the value that is not closed is that of the last part and of its name. -/
structure EndsOpen (d : Dialect) (text : Text) (issue : AttributeIssue) : Prop where
  last : ∃ issues, (parseAttributes d text).issues = issues ++ [issue] ∧ AreSpacing issues
  part : ∃ readings r name value, attributeReadings d (trim text) = readings ++ [r] ∧
    issue ∈ r.issues ∧ r.entry = some (name, value) ∧ ReachesEnd (trim text) issue value ∧
    (parseAttributes d text).attributes.get? name = some value

theorem endsOpen_of_mem {text : Text} {issue : AttributeIssue}
    (h : issue ∈ (parseAttributes d text).issues) (hcode : issue.code = "UnexpectedEnd") :
    EndsOpen d text issue := by
  rcases attributeReadings_issues d (trim text) with hspacing | ⟨readings, r, hreadings, hspacing, hopen⟩
  · obtain ⟨r, hr, hissue⟩ := List.mem_flatMap.1 h
    exact absurd hcode (hspacing r hr issue hissue)
  · obtain ⟨is, issue', name, value, hissues, his, hentry, hend⟩ := hopen.issue
    have hbefore : AreSpacing (readings.flatMap AttributeReading.issues ++ is) := by
      refine areSpacing_append (fun i hi => ?_) his
      obtain ⟨r, hr, hi⟩ := List.mem_flatMap.1 hi
      exact hspacing r hr i hi
    have hall : (parseAttributes d text).issues =
        (readings.flatMap AttributeReading.issues ++ is) ++ [issue'] := by
      simp [parseAttributes, hreadings, hissues]
    obtain rfl : issue = issue' := by
      rw [hall] at h
      rcases List.mem_append.1 h with hmem | hmem
      · exact absurd hcode (hbefore issue hmem)
      · exact List.mem_singleton.1 hmem
    refine ⟨⟨_, hall, hbefore⟩, readings, r, name, value, hreadings, by simp [hissues], hentry, hend, ?_⟩
    have hentries : (attributeReadings d (trim text)).filterMap AttributeReading.entry =
        readings.filterMap AttributeReading.entry ++ [(name, value)] := by
      simp [hreadings, hentry]
    rw [parseAttributes, hentries, AttributeMap.get?_ofList_concat, if_pos rfl]

/-- **Arguments are used up.** Each part of a text that is more than blanks leaves a shorter end of it,
no part and no run over a text cuts it outside of its bounds or inside of a character, and every run
ends. The names in the map are words, or stand for arguments without a name; they are distinct and in
the order in which they first came up. At most one issue says that the text ended too early, and then
it is the last, the attribute read with it is the last one read and is in the map, and its text is an
end of the trimmed arguments. -/
theorem arguments_are_used_up (d : Dialect) (text : Text) :
    (∀ t, t.all isBlank = false → Bytewise.readStep d t = .ok (readStep d t) ∧
      (readStep d t).rest <:+ t ∧ (readStep d t).rest.length < t.length) ∧
    Bytewise.parseAttributes d text = .ok (parseAttributes d text) ∧
    (parseAttributes d text).attributes.names.Nodup ∧
    (parseAttributes d text).attributes.names =
      (((attributeReadings d (trim text)).filterMap AttributeReading.entry).map Prod.fst).eraseDups ∧
    (∀ name ∈ (parseAttributes d text).attributes.names,
      name = positionalName ∨ IsAttributeName name) ∧
    ∀ issue ∈ (parseAttributes d text).issues, issue.code = "UnexpectedEnd" → EndsOpen d text issue := by
  refine ⟨fun t ht => ⟨Bytewise.readStep_eq d t, rest_readStep_suffix d t, length_rest_readStep ht⟩,
    Bytewise.parseAttributes_eq d text, AttributeMap.nodup_names_ofList _, AttributeMap.names_ofList _,
    fun name hname => ?_, fun issue => endsOpen_of_mem⟩
  rw [parseAttributes, AttributeMap.names_ofList, List.mem_eraseDups] at hname
  obtain ⟨⟨name, value⟩, hentry, rfl⟩ := List.mem_map.1 hname
  obtain ⟨r, hr, hentry⟩ := List.mem_filterMap.1 hentry
  exact name_of_mem_attributeReadings hr hentry

/-- A string that is not closed. -/
theorem arguments_are_used_up_string : EndsOpen .native "id: 1, name: 'a".toList .unclosedString :=
  (arguments_are_used_up .native "id: 1, name: 'a".toList).2.2.2.2.2 .unclosedString
    (by decide +kernel) rfl

end EntityLint
