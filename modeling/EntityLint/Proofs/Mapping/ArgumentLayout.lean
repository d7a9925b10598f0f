import EntityLint.Proofs.Mapping.ArgumentEnd

/-!
# Arguments with line breaks in them

Named attributes may be laid out on several lines, with any blanks around their names, values and
commas. The reader passes over spaces only where it comes to a value, and over spaces and one more
character behind it. So a value is read as it is written if nothing but spaces stands in front of it or
it is a number, and the next name is found if at most one character other than a space stands between
the spaces behind the value and the comma.

* `LaidAttribute`, `layOut`: attributes with blanks around their parts;
* `LaidAttribute.ValueIsReached`, `CommaIsReached`: the layouts that the reader gets through;
* `LaidAttribute.readValue_beforeValue`, `readStep_body`: a value and an attribute;
* `afterSeparator_layOutFrom`: what is left in front of the next name;
* `readings_layOutFrom`: all attributes.

The main statement is `parseAttributes_layOut`.
-/

namespace EntityLint

open Text

variable {d : Dialect}

/-- A named attribute as it is written, with blanks around its name and its value. -/
structure LaidAttribute (d : Dialect) where
  name : Text
  value : WrittenValue d
  beforeName : Text
  afterName : Text
  beforeValue : Text
  afterValue : Text
  name_ne_nil : name ≠ []
  isNameChar_of_mem : ∀ c ∈ name, isNameChar c = true
  isBlank_beforeName : ∀ c ∈ beforeName, isBlank c = true
  isBlank_afterName : ∀ c ∈ afterName, isBlank c = true
  isBlank_beforeValue : ∀ c ∈ beforeValue, isBlank c = true
  isBlank_afterValue : ∀ c ∈ afterValue, isBlank c = true

namespace LaidAttribute

/-- The text of an attribute without the blanks around it. -/
def body (a : LaidAttribute d) : Text :=
  a.name ++ (a.afterName ++ d.delimiter :: (a.beforeValue ++ a.value.text))

/-- The text of an attribute. -/
def text (a : LaidAttribute d) : Text := a.beforeName ++ (a.body ++ a.afterValue)

/-- The name and the value that are written. -/
def entry (a : LaidAttribute d) : Text × AttributeValue := (a.name, a.value.value)

/-- Nothing but spaces stands in front of a value, or the value is a number. -/
def ValueIsReached (a : LaidAttribute d) : Prop :=
  (∀ c ∈ a.beforeValue, c = ' ') ∨ ∃ n h, a.value = .integer n h

/-- After a value stand spaces, and at most one other blank behind them. -/
def CommaIsReached (a : LaidAttribute d) : Prop := (a.afterValue.dropWhile (· == ' ')).length ≤ 1

instance (a : LaidAttribute d) : Decidable a.CommaIsReached := Nat.decLe _ _

end LaidAttribute

/-- The attributes one after the other with commas between them. -/
def layOut (as : List (LaidAttribute d)) : Text := Text.join [','] (as.map LaidAttribute.text)

/-! ### Reading an attribute -/

namespace LaidAttribute

theorem isTrimmed_body (a : LaidAttribute d) : IsTrimmed a.body := by
  have hname : IsTrimmed a.name :=
    .of_forall a.name_ne_nil fun c hc => isBlank_of_isNameChar (a.isNameChar_of_mem c hc)
  have happend := hname.append a.value.isTrimmed_text (a.afterName ++ d.delimiter :: a.beforeValue)
  simpa [body] using happend

/-- A number is read with the blanks that stand in front of it. -/
theorem readValue_integer {n : Int} (h : Numeral.inWord n = true) {u w s : Text}
    (hu : ∀ c ∈ u, isBlank c = true) (hw : ∀ c ∈ w, isBlank c = true) (hs : ∀ c ∈ s.head?, c = ',') :
    readValue d (u ++ ((toString n).toList ++ (w ++ s))) = ⟨.integer n, none, w ++ s⟩ := by
  have hplain : IsPlain d (toString n).toList := WrittenValue.isPlain_integer n
  cases u with
  | nil => exact (WrittenValue.integer n h).readValue_text hw hs
  | cons c u =>
    have hc : c ≠ d.quote ∧ c ≠ d.opening := by
      have hblank := hu c List.mem_cons_self
      constructor <;> rintro rfl <;> revert hblank <;> cases d <;> decide
    have hcomma : ',' ∉ (c :: u) ++ (toString n).toList := by
      intro hmem
      rcases List.mem_append.1 hmem with hmem | hmem
      · exact absurd (hu ',' hmem) (by decide)
      · exact hplain.not_comma hmem
    have hlast : ∀ e ∈ ((c :: u) ++ (toString n).toList).getLast?, isBlank e = false := by
      rw [List.getLast?_append_of_ne_nil _ hplain.ne_nil]
      exact hplain.last
    have htrim : trim ((c :: u) ++ (toString n).toList) = (toString n).toList := by
      have hblanks := hplain.trim_blanks hu (v := []) (by simp)
      rwa [List.append_nil] at hblanks
    have hbare := readBare_append hcomma hlast hw hs
    rw [WrittenValue.bareValue_integer h htrim, List.append_assoc] at hbare
    rw [List.cons_append, readValue, if_neg hc.1, if_neg hc.2]
    exact hbare

/-- A value that is reached is read back, whatever blanks stand behind it. -/
theorem readValue_beforeValue {a : LaidAttribute d} (ha : a.ValueIsReached) {w s : Text}
    (hw : ∀ c ∈ w, isBlank c = true) (hs : ∀ c ∈ s.head?, c = ',') :
    readValue d ((a.beforeValue ++ (a.value.text ++ (w ++ s))).dropWhile (· == ' ')) =
      ⟨a.value.value, none, w ++ s⟩ := by
  have hhead : (a.value.text ++ (w ++ s)).head? ≠ some ' ' :=
    a.value.isTrimmed_text.head?_append_ne (w ++ s)
  obtain ⟨sp, u, hbefore, hsp, hu⟩ := exists_run (· == ' ') a.beforeValue
  have hspaces : (a.beforeValue ++ (a.value.text ++ (w ++ s))).dropWhile (· == ' ') =
      u ++ (a.value.text ++ (w ++ s)) := by
    rw [hbefore, List.append_assoc]
    refine dropWhile_append_of_head hsp ?_
    cases u with
    | cons c u => exact hu
    | nil =>
      rw [List.nil_append]
      cases hc : (a.value.text ++ (w ++ s)).head? with
      | none => rfl
      | some c =>
        rw [hc] at hhead
        simpa using hhead
  rw [hspaces]
  rcases ha with hall | ⟨n, h, hvalue⟩
  · have hnil : u = [] := by
      cases u with
      | nil => rfl
      | cons c u =>
        have hc : c = ' ' := hall c (by rw [hbefore]; simp)
        rw [hc] at hu
        cases hu
    rw [hnil, List.nil_append]
    exact a.value.readValue_text hw hs
  · have hblank : ∀ c ∈ u, isBlank c = true := fun c hc =>
      a.isBlank_beforeValue c (by rw [hbefore]; exact List.mem_append_right _ hc)
    rw [hvalue]
    exact readValue_integer h hblank hw hs

/-- An attribute is read back behind commas and blanks, and the blanks behind it are left. -/
theorem readStep_body {a : LaidAttribute d} (ha : a.ValueIsReached) {x y w s : Text}
    (hx : ∀ c ∈ x, c = ',') (hy : ∀ c ∈ y, isBlank c = true) (hw : ∀ c ∈ w, isBlank c = true)
    (hs : ∀ c ∈ s.head?, c = ',') :
    ∃ issues, AreSpacing issues ∧ readStep d (x ++ (y ++ (a.body ++ (w ++ s)))) =
      ⟨some a.entry, issues, afterSeparator ((w ++ s).dropWhile (· == ' '))⟩ := by
  have hvalue := readValue_beforeValue ha hw hs
  have hhead : (a.beforeValue ++ (a.value.text ++ (w ++ s))).head? ≠ some d.delimiter := by
    cases hbefore : a.beforeValue with
    | nil =>
      rw [List.nil_append, List.head?_append_of_ne_nil _ a.value.isTrimmed_text.ne_nil]
      exact a.value.head_text_ne
    | cons c u =>
      intro heq
      have hblank := a.isBlank_beforeValue c (by rw [hbefore]; exact List.mem_cons_self)
      obtain rfl : c = d.delimiter := Option.some.inj heq
      revert hblank
      cases d <;> decide
  have htext : a.body ++ (w ++ s) = a.name ++ (a.afterName ++
      d.delimiter :: (a.beforeValue ++ (a.value.text ++ (w ++ s)))) := by
    simp [body]
  obtain ⟨issues, hissues, hstep⟩ : ∃ issues, AreSpacing issues ∧
      readStep d (x ++ (y ++ (a.body ++ (w ++ s)))) = readNamed d a.name issues
        ((a.beforeValue ++ (a.value.text ++ (w ++ s))).dropWhile (· == ' ')) := by
    rw [htext]
    exact ⟨_, areSpacing_of_name _ d _ _,
      readStep_eq_readNamed a.name_ne_nil a.isNameChar_of_mem hx hy a.isBlank_afterName hhead⟩
  refine ⟨_, areSpacing_readNamed a.name hissues (congrArg ValueReading.issue hvalue), ?_⟩
  rw [hstep, readNamed, hvalue]
  rfl

end LaidAttribute

/-! ### Reading all attributes -/

/-- An attribute and the ones that follow, from its name on. -/
def layOutFrom (a : LaidAttribute d) : List (LaidAttribute d) → Text
  | [] => a.body
  | b :: as => a.body ++ (a.afterValue ++ ',' :: (b.beforeName ++ layOutFrom b as))

theorem isTrimmed_layOutFrom (a : LaidAttribute d) (as : List (LaidAttribute d)) :
    IsTrimmed (layOutFrom a as) := by
  induction as generalizing a with
  | nil => exact a.isTrimmed_body
  | cons b as ih =>
    have happend := a.isTrimmed_body.append (ih b) (a.afterValue ++ ',' :: b.beforeName)
    rw [layOutFrom]
    simpa using happend

/-- Only the blanks at the two ends are trimmed. -/
theorem trim_layOut (a : LaidAttribute d) (as : List (LaidAttribute d)) :
    trim (layOut (a :: as)) = layOutFrom a as := by
  have hends : ∃ w, (∀ c ∈ w, isBlank c = true) ∧
      layOut (a :: as) = a.beforeName ++ (layOutFrom a as ++ w) := by
    induction as generalizing a with
    | nil =>
      exact ⟨a.afterValue, a.isBlank_afterValue, by
        simp [layOut, Text.join, LaidAttribute.text, layOutFrom]⟩
    | cons b as ih =>
      obtain ⟨w, hw, hlayOut⟩ := ih b
      have hjoin : layOut (a :: b :: as) = a.text ++ ',' :: layOut (b :: as) := by
        simp [layOut, Text.join]
      exact ⟨w, hw, by simp [hjoin, hlayOut, LaidAttribute.text, layOutFrom]⟩
  obtain ⟨w, hw, hlayOut⟩ := hends
  rw [hlayOut, (isTrimmed_layOutFrom a as).trim_blanks a.isBlank_beforeName hw]

/-- Behind a value whose comma is reached at most this comma is left in front of the next name. -/
theorem afterSeparator_layOutFrom {a : LaidAttribute d} (ha : a.CommaIsReached) (b : LaidAttribute d)
    (as : List (LaidAttribute d)) :
    ∃ x y, (∀ c ∈ x, c = ',') ∧ (∀ c ∈ y, isBlank c = true) ∧
      afterSeparator ((a.afterValue ++ ',' :: (b.beforeName ++ layOutFrom b as)).dropWhile (· == ' ')) =
        x ++ (y ++ layOutFrom b as) := by
  rw [dropWhile_append_cons (by decide)]
  rw [LaidAttribute.CommaIsReached] at ha
  rcases hgap : a.afterValue.dropWhile (· == ' ') with - | ⟨c, - | ⟨c', u⟩⟩
  · rw [List.nil_append, afterSeparator_cons]
    split
    · next hspace =>
      -- the space behind the comma is the first of the blanks there
      cases hbefore : b.beforeName with
      | nil =>
        have hhead := (isTrimmed_layOutFrom b as).head?_append_ne []
        rw [List.append_nil] at hhead
        rw [hbefore] at hspace
        exact absurd hspace.2 hhead
      | cons c y =>
        refine ⟨[], y, by simp, fun e he => b.isBlank_beforeName e ?_, rfl⟩
        rw [hbefore]
        exact List.mem_cons_of_mem c he
    · exact ⟨[], b.beforeName, by simp, b.isBlank_beforeName, rfl⟩
  · rw [List.singleton_append, afterSeparator_cons, if_neg (by simp)]
    exact ⟨[','], b.beforeName, by simp, b.isBlank_beforeName, rfl⟩
  · rw [hgap, List.length_cons, List.length_cons] at ha
    omega

/-- The attributes are read one by one, behind what is left of the text before each. -/
theorem readings_layOutFrom {a : LaidAttribute d} {as : List (LaidAttribute d)}
    (hvalues : ∀ b ∈ a :: as, b.ValueIsReached) (hcommas : ∀ b ∈ (a :: as).dropLast, b.CommaIsReached)
    {x y : Text} (hx : ∀ c ∈ x, c = ',') (hy : ∀ c ∈ y, isBlank c = true) :
    (attributeReadings d (x ++ (y ++ layOutFrom a as))).filterMap AttributeReading.entry =
        (a :: as).map LaidAttribute.entry ∧
      AreSpacing ((attributeReadings d (x ++ (y ++ layOutFrom a as))).flatMap
        AttributeReading.issues) := by
  have hblank : (x ++ (y ++ layOutFrom a as)).all isBlank = false := by
    have happend := (isTrimmed_layOutFrom a as).all_isBlank_append (x ++ y) []
    rwa [List.append_nil, List.append_assoc] at happend
  induction as generalizing a x y with
  | nil =>
    obtain ⟨issues, hissues, hstep⟩ :=
      LaidAttribute.readStep_body (w := []) (s := []) (hvalues a List.mem_cons_self) hx hy (by simp) (by simp)
    rw [List.append_nil, List.append_nil] at hstep
    rw [layOutFrom] at hblank ⊢
    rw [attributeReadings_of_readStep hblank hstep]
    simpa [afterSeparator, attributeReadings_nil] using hissues
  | cons b as ih =>
    obtain ⟨ha, hvalues⟩ := List.forall_mem_cons.1 hvalues
    rw [List.dropLast_cons_of_ne_nil (List.cons_ne_nil b as)] at hcommas
    obtain ⟨hcomma, hcommas⟩ := List.forall_mem_cons.1 hcommas
    obtain ⟨issues, hissues, hstep⟩ := LaidAttribute.readStep_body ha hx hy a.isBlank_afterValue
      (s := ',' :: (b.beforeName ++ layOutFrom b as)) (by simp)
    obtain ⟨x', y', hx', hy', hrest⟩ := afterSeparator_layOutFrom hcomma b as
    have hblank' : (x' ++ (y' ++ layOutFrom b as)).all isBlank = false := by
      have happend := (isTrimmed_layOutFrom b as).all_isBlank_append (x' ++ y') []
      rwa [List.append_nil, List.append_assoc] at happend
    obtain ⟨hentries, hspacing⟩ := ih hvalues hcommas hx' hy' hblank'
    rw [hrest] at hstep
    rw [layOutFrom] at hblank ⊢
    rw [attributeReadings_of_readStep hblank hstep]
    refine ⟨by simp [hentries], ?_⟩
    rw [List.flatMap_cons]
    exact areSpacing_append hissues hspacing

/-- **The layout of arguments does not change what they say**, if every value and every comma is
reached: the attributes are those that are written, set one after the other, and all issues are about
spaces. The blanks around names are free, and so are those at the two ends. -/
theorem parseAttributes_layOut {as : List (LaidAttribute d)}
    (hvalues : ∀ a ∈ as, a.ValueIsReached) (hcommas : ∀ a ∈ as.dropLast, a.CommaIsReached) :
    (parseAttributes d (layOut as)).attributes = .ofList (as.map LaidAttribute.entry) ∧
      AreSpacing (parseAttributes d (layOut as)).issues := by
  cases as with
  | nil =>
    have hnil : parseAttributes d (layOut ([] : List (LaidAttribute d))) = ⟨.ofList [], []⟩ :=
      parseAttributes_nil
    rw [hnil]
    exact ⟨rfl, by simp [AreSpacing]⟩
  | cons a as =>
    have hreadings := readings_layOutFrom hvalues hcommas (x := []) (y := []) (by simp) (by simp)
    rw [List.nil_append, List.nil_append] at hreadings
    rw [parseAttributes, trim_layOut, hreadings.1]
    exact ⟨rfl, hreadings.2⟩

/-- A class, a text and a number, each on a line of its own. -/
def laidAssociation : List (LaidAttribute .native) :=
  [{ name := "targetEntity".toList
     value := .bare "User::class".toList ⟨.of_forall (by decide +kernel)
       (by simp [isBlank]), by decide +kernel, by rintro c ⟨⟩; decide⟩ (by decide +kernel)
       (by decide +kernel)
     beforeName := ['\n', ' ', ' ']
     afterName := []
     beforeValue := [' ']
     afterValue := ['\n']
     name_ne_nil := by decide +kernel
     isNameChar_of_mem := List.all_eq_true.1 rfl
     isBlank_beforeName := List.all_eq_true.1 rfl
     isBlank_afterName := List.all_eq_true.1 rfl
     isBlank_beforeValue := List.all_eq_true.1 rfl
     isBlank_afterValue := List.all_eq_true.1 rfl },
   { name := "mappedBy".toList
     value := .quoted "posts".toList (by decide +kernel)
     beforeName := ['\n', ' ', ' ']
     afterName := ['\r', '\n']
     beforeValue := [' ', ' ']
     afterValue := [' ', ' ', '\t']
     name_ne_nil := by decide +kernel
     isNameChar_of_mem := List.all_eq_true.1 rfl
     isBlank_beforeName := List.all_eq_true.1 rfl
     isBlank_afterName := List.all_eq_true.1 rfl
     isBlank_beforeValue := List.all_eq_true.1 rfl
     isBlank_afterValue := List.all_eq_true.1 rfl },
   { name := "length".toList
     value := .integer 12 (by decide)
     beforeName := ['\n', ' ', ' ']
     afterName := []
     beforeValue := ['\n', ' ']
     afterValue := ['\n', '\n']
     name_ne_nil := by decide +kernel
     isNameChar_of_mem := List.all_eq_true.1 rfl
     isBlank_beforeName := List.all_eq_true.1 rfl
     isBlank_afterName := List.all_eq_true.1 rfl
     isBlank_beforeValue := List.all_eq_true.1 rfl
     isBlank_afterValue := List.all_eq_true.1 rfl }]

theorem parseAttributes_layOut_association :
    (parseAttributes .native (layOut laidAssociation)).attributes =
        .ofList [("targetEntity".toList, .string "User::class".toList),
          ("mappedBy".toList, .string "posts".toList), ("length".toList, .integer 12)] ∧
      AreSpacing (parseAttributes .native (layOut laidAssociation)).issues := by
  have hvalues : ∀ a ∈ laidAssociation, a.ValueIsReached := by
    simp only [laidAssociation, List.forall_mem_cons]
    exact ⟨.inl (by simp), .inl (by simp), .inr ⟨12, _, rfl⟩, by simp⟩
  have hcommas : ∀ a ∈ laidAssociation.dropLast, a.CommaIsReached := by
    simp only [laidAssociation, List.dropLast, List.forall_mem_cons]
    exact ⟨by decide, by decide, by simp⟩
  exact parseAttributes_layOut hvalues hcommas

/-- Behind a line break a text in quotes is no longer seen as one. -/
example : (parseAttributes .native "name:\n'x'".toList).attributes =
    .ofList [("name".toList, .string "\n'x'".toList)] := by decide +kernel

end EntityLint
