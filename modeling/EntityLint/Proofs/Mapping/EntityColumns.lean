import EntityLint.Proofs.Mapping.Accessors
import EntityLint.Proofs.Mapping.ArgumentList
import EntityLint.Proofs.Rule.Findings

/-!
# The columns of an entity

The properties of an entity are the variables of its declarations. Each of them has one annotation, for
a column of the type that is written, and no fault is found in it.

* `FunctionLinks.isPropertyToken_body`, `isPropertyToken_parens`: no property in a function;
* `Entity.property_cases`: the properties of an entity;
* `ColumnProperty.parseAttributes_arguments`: the attributes of a column;
* `ColumnProperty.validate_attributes`: the attributes are those that a column may have;
* `Entity.propertyTags_declaration`, `typeText_declaration`: what is known of a property;
* `PropertyCheck.Fits`: what is known of a property fits a column.

The main statement is `Entity.findings_eq_nil`.
-/

namespace EntityLint

open Naming Pairing SourceFile

/-! ### Properties -/

namespace FunctionLinks

variable {f : SourceFile} {ps : List Piece} (hf : f.Composed ps) {start o p b q a : ℕ}
  {ls : List Lexeme} (hp : f.Passage start ls)
  (hl : FunctionLinks (ls.map Lexeme.kind) o p b q) {t : Token} (ht : f.tokens[start + a]? = some t)

include hf hp hl ht

/-- There are no properties in the body of a function. -/
theorem isPropertyToken_body (hba : b < a) (haq : a < q) : isPropertyToken t = false := by
  have hquiet : ∀ j, b < j → j < a → ∀ k, (ls.map Lexeme.kind)[j]? = some k →
      k.isScopeOwner = false := by
    intro j hbj _ k hk
    have hlt := hl.ownsScope.waits.lt
    refine hl.quiet k (List.mem_of_getElem? (i := j - 3) ?_)
    rw [List.getElem?_drop, Nat.add_sub_cancel' (by omega), hk]
  have hlast := hp.getLast?_ownersAround hf.kinds_eq hf.paired hl.ownsScope hl.scope hl.keyword hba
    haq hquiet
  rw [← hf.conditions _ t ht] at hlast
  simp [isPropertyToken, hlast, Kind.isClassLike]

/-- There are no properties among the parameters of a function. -/
theorem isPropertyToken_parens (hoa : o < a) (hap : a < p) : isPropertyToken t = false := by
  have hmem : (⟨start + o, start + p⟩ : Range) ∈ Token.roundAround f.tokens.toList (start + a) :=
    (Token.mem_roundAround hf.paired).2
      ⟨hp.matching hf.kinds_eq hl.parens, Nat.add_lt_add_left hoa start, Nat.add_lt_add_left hap start⟩
  have hdepth : t.parenDepth ≠ 0 := by
    rw [hf.parenDepth _ t ht]
    exact (List.length_pos_of_mem hmem).ne'
  simp [isPropertyToken, hdepth]

end FunctionLinks

namespace Entity

variable {e : Entity} {f : SourceFile} (hf : f.Composed e.blocks.flatten) {c : ColumnProperty}
  {start i : ℕ}

include hf

/-- The properties of an entity are the variables of its declarations. -/
theorem property_cases (hi : i ∈ f.propertyTokens) : ∃ c ∈ e.columns, ∃ start,
    i = start + 11 ∧ Stands e.blocks.flatten start c.declarationPieces := by
  obtain ⟨t, ht, hproperty⟩ := mem_propertyTokens_iff.1 hi
  have hvariable : f.kindAt i = some .variable := by
    have hk : t.kind = .variable := by
      simp only [isPropertyToken, Bool.and_eq_true, beq_iff_eq] at hproperty
      exact hproperty.1.1.1
    rw [kindAt, ht, Option.map_some, hk]
  clear hi
  obtain ⟨c, hc, start, a, rfl, ⟨hs, rfl⟩ | ⟨hs, rfl⟩ | ⟨hs, ha⟩⟩ := variable_cases hf hvariable
  · exact ⟨c, hc, start, rfl, hs⟩
  · have hfalse := c.getterLinks.isPropertyToken_body hf (hf.passage hs) ht (by decide) (by decide)
    exact absurd hproperty (Bool.eq_false_iff.1 hfalse)
  · have hplace : ∀ a ∈ [8, 16, 22, 27], 5 < a ∧ a < 9 ∨ 14 < a ∧ a < 30 := by decide
    rcases hplace a ha with ⟨hbefore, hbehind⟩ | ⟨hbefore, hbehind⟩
    · have hfalse := c.setterLinks.isPropertyToken_parens hf (hf.passage hs) ht hbefore hbehind
      exact absurd hproperty (Bool.eq_false_iff.1 hfalse)
    · have hfalse := c.setterLinks.isPropertyToken_body hf (hf.passage hs) ht hbefore hbehind
      exact absurd hproperty (Bool.eq_false_iff.1 hfalse)

end Entity

/-! ### Attributes -/

namespace WrittenAttribute

/-- An attribute with some spaces before its name and no others. -/
def tight (name : Text) (spaces : ℕ) (value : WrittenValue .doc) (hne : name ≠ [])
    (hname : name.all isNameChar = true) : WrittenAttribute .doc :=
  ⟨name, value, spaces, 0, 0, 0, hne, List.all_eq_true.1 hname⟩

theorem text_tight {name : Text} {spaces : ℕ} {value : WrittenValue .doc} (hne : name ≠ [])
    (hname : name.all isNameChar = true) : (tight name spaces value hne hname).text =
      Text.spaces spaces ++ (name ++ '=' :: value.text) := by
  show Text.spaces spaces ++ ((name ++ ([] ++ '=' :: ([] ++ value.text))) ++ []) = _
  rw [List.append_nil, List.nil_append, List.nil_append]

theorem beforeName_tight {name : Text} {spaces : ℕ} {value : WrittenValue .doc} (hne : name ≠ [])
    (hname : name.all isNameChar = true) :
    (tight name spaces value hne hname).beforeName = spaces := rfl

theorem isTidy_tight {name : Text} {spaces : ℕ} {value : WrittenValue .doc} (hne : name ≠ [])
    (hname : name.all isNameChar = true) : IsTidy [tight name spaces value hne hname] :=
  (isTidy_singleton _).2 ⟨rfl, fun _ => rfl, nofun⟩

end WrittenAttribute

namespace ColumnProperty

variable (c : ColumnProperty)

theorem quote_not_mem_keyword : '"' ∉ c.keyword := by
  intro hmem
  have hall := ColumnType.isNameChar_of_mem_keywords (ColumnType.mem_keywords_of_held? c.holds).1
  exact absurd (hall _ hmem) (by decide)

/-- The attribute for the type of the column. -/
def typeAttribute : WrittenAttribute .doc :=
  .tight "type".toList 0 (.quoted c.keyword c.quote_not_mem_keyword) (by decide) (by decide)

/-- The attribute for the precision of a decimal column. -/
def precisionAttribute : WrittenAttribute .doc :=
  .tight "precision".toList 1 (.integer c.precision c.inWord_precision) (by decide) (by decide)

/-- The attribute for the scale of a decimal column. -/
def scaleAttribute : WrittenAttribute .doc :=
  .tight "scale".toList 1 (.integer c.scale c.inWord_scale) (by decide) (by decide)

/-- The attributes of the column as they are written. -/
def written : List (WrittenAttribute .doc) :=
  c.typeAttribute ::
    if c.keyword = "decimal".toList then [c.precisionAttribute, c.scaleAttribute] else []

theorem writeAttributes_written : writeAttributes c.written = c.arguments := by
  have htype : c.typeAttribute.text = "type=\"".toList ++ c.keyword ++ "\"".toList := by
    have hopen : "type=\"".toList = "type".toList ++ ['=', '"'] := rfl
    have hclose : "\"".toList = ['"'] := rfl
    rw [typeAttribute, WrittenAttribute.text_tight, hopen, hclose]
    simp only [List.append_assoc]
    rfl
  have hprecision : ',' :: c.precisionAttribute.text =
      ", precision=".toList ++ (toString c.precision).toList := by
    have hlit : ", precision=".toList = ',' :: ' ' :: ("precision".toList ++ ['=']) := rfl
    rw [precisionAttribute, WrittenAttribute.text_tight, hlit, List.cons_append, List.cons_append,
      List.append_assoc]
    rfl
  have hscale : ',' :: c.scaleAttribute.text = ", scale=".toList ++ (toString c.scale).toList := by
    have hlit : ", scale=".toList = ',' :: ' ' :: ("scale".toList ++ ['=']) := rfl
    rw [scaleAttribute, WrittenAttribute.text_tight, hlit, List.cons_append, List.cons_append,
      List.append_assoc]
    rfl
  unfold written arguments
  split
  · have hwrite : writeAttributes [c.typeAttribute, c.precisionAttribute, c.scaleAttribute] =
        c.typeAttribute.text ++ (',' :: c.precisionAttribute.text ++
          (',' :: c.scaleAttribute.text ++ [])) := rfl
    rw [hwrite, htype, hprecision, hscale]
    simp only [List.append_assoc, List.append_nil]
  · have hwrite : writeAttributes [c.typeAttribute] = c.typeAttribute.text ++ [] := rfl
    rw [hwrite, htype]

/-- The attributes of the column. -/
def attributes : AttributeMap := .ofList (c.written.map WrittenAttribute.entry)

theorem isTidy_written : IsTidy c.written := by
  unfold written
  split
  · refine (isTidy_cons_cons _ _ _).2 ⟨WrittenAttribute.isTidy_tight .., rfl, ?_, ?_⟩
    · exact Nat.le_of_eq (WrittenAttribute.beforeName_tight ..)
    · refine (isTidy_cons_cons _ _ _).2 ⟨WrittenAttribute.isTidy_tight .., rfl, ?_, ?_⟩
      · exact Nat.le_of_eq (WrittenAttribute.beforeName_tight ..)
      · exact WrittenAttribute.isTidy_tight ..
  · exact WrittenAttribute.isTidy_tight ..

/-- The arguments are read back without a fault. -/
theorem parseAttributes_arguments : parseAttributes .doc c.arguments = ⟨c.attributes, []⟩ := by
  rw [← c.writeAttributes_written]
  have hattributes := attributes_writeAttributes c.written
  have hissues := (issues_writeAttributes_eq_nil_iff c.written).2 c.isTidy_written
  cases hparsed : parseAttributes .doc (writeAttributes c.written) with
  | mk attributes issues =>
    rw [hparsed] at hattributes hissues
    exact congrArg₂ ParsedAttributes.mk hattributes hissues

theorem attributes_eq : c.attributes = ⟨("type".toList, .string c.keyword) ::
    if c.keyword = "decimal".toList then
      [("precision".toList, .integer c.precision), ("scale".toList, .integer c.scale)]
    else []⟩ := by
  unfold attributes written
  split <;> rfl

/-! ### What the attributes say -/

theorem get?_type : c.attributes.get? "type".toList = some (.string c.keyword) := by
  rw [attributes_eq]
  rfl

theorem get?_of_not_mem {name : Text}
    (h : name ∉ ["type".toList, "precision".toList, "scale".toList]) :
    c.attributes.get? name = none := by
  rw [attributes_eq, AttributeMap.get?, List.lookup_eq_none_iff]
  intro entry hentry
  have hname : entry.1 ∈ ["type".toList, "precision".toList, "scale".toList] := by
    rcases List.mem_cons.1 hentry with rfl | hentry
    · exact List.mem_cons_self
    · split at hentry
      · rcases List.mem_cons.1 hentry with rfl | hentry
        · exact List.mem_cons_of_mem _ List.mem_cons_self
        · rw [List.mem_singleton.1 hentry]
          exact List.mem_cons_of_mem _ (List.mem_cons_of_mem _ List.mem_cons_self)
      · cases hentry
  exact bne_iff_ne.2 fun heq : name = entry.1 => h (heq ▸ hname)

/-- What is said of a column type is checked on the list of those that are known. -/
theorem keyword_of_all {q : Text → Bool} (h : ColumnType.keywords.all q = true) :
    q c.keyword = true :=
  List.all_eq_true.1 h c.keyword (ColumnType.mem_keywords_of_held? c.holds).1

/-- The attributes are those that a column may have. -/
theorem validate_attributes : MappingKind.column.validate c.attributes [.column] = [] := by
  rw [attributes_eq]
  split
  · next hdecimal =>
    rw [hdecimal]
    rfl
  · have hall : ColumnType.keywords.all (fun k => (MappingKind.column.validate
        ⟨[("type".toList, .string k)]⟩ [.column]).isEmpty) = true := by decide +kernel
    exact List.isEmpty_iff.1 (c.keyword_of_all hall)

/-- The type of the property adds nothing to the attributes. -/
theorem infer_attributes (type : Text) : c.attributes.infer .column type = c.attributes := by
  have hcontains : c.attributes.contains "type".toList = true := by
    rw [AttributeMap.contains, get?_type]
    rfl
  unfold AttributeMap.infer
  simp only [hcontains, Bool.not_true, Bool.and_false, MappingKind.isToOne, Bool.false_and,
    Bool.false_eq_true, if_false, ite_self]

theorem columnNameFindings_attributes (p : PropertyCheck) (tag : MappingTag) :
    p.columnNameFindings tag c.attributes = [] := by
  rw [PropertyCheck.columnNameFindings, c.get?_of_not_mem (by decide)]

theorem suggest_keyword (dynamicEnums : Bool) :
    ColumnType.suggest c.keyword dynamicEnums = c.held := by
  have hall : ColumnType.keywords.all (fun k => (Text.stripLeading? "Types::".toList k).isNone) =
      true := by decide +kernel
  have hplain := Option.isNone_iff_eq_none.1 (c.keyword_of_all hall)
  unfold ColumnType.suggest
  simp only [hplain, c.holds]

theorem columnSizeFindings_attributes (tag : MappingTag) :
    PropertyCheck.columnSizeFindings tag c.attributes c.keyword = [] := by
  have hall : ColumnType.keywords.all (fun k => !(k == "varchar".toList)) = true := by decide +kernel
  have hvarchar := c.keyword_of_all hall
  rw [Bool.not_eq_true'] at hvarchar
  have hdecimal : (c.keyword == "decimal".toList && !(c.attributes.contains "precision".toList &&
      c.attributes.contains "scale".toList)) = false := by
    by_cases hk : c.keyword = "decimal".toList
    · rw [attributes_eq, if_pos hk]
      exact Bool.and_false _
    · rw [beq_false_of_ne hk, Bool.false_and]
  rw [PropertyCheck.columnSizeFindings, hvarchar, hdecimal]
  rfl

theorem length_declaration : (c.declarationPieces.flatMap Piece.lexemes).length = 13 := rfl

end ColumnProperty

/-! ### What is known of a property -/

/-- The type stands behind the visibility, so nothing in front of the visibility belongs to it. -/
theorem Property.typeText_ofTokens {p : Property} (hp : p.isExplicit = true) (ts : List Token) :
    (p.ofTokens ts).typeText = p.typeText := by
  induction ts generalizing p with
  | nil => rfl
  | cons t ts ih =>
    rw [ofTokens]
    cases hnext : p.takeIn t with
    | none => rfl
    | some q =>
      have hq : q.isExplicit = true ∧ q.typeText = p.typeText := by
        unfold takeIn at hnext
        split at hnext
        · cases hnext
          exact ⟨rfl, rfl⟩
        · split at hnext
          · cases hnext
            exact ⟨hp, rfl⟩
          · cases hnext
            exact ⟨hp, rfl⟩
          · cases hnext
            exact ⟨hp, rfl⟩
          · rw [hp, Bool.not_true, Bool.and_false] at hnext
            cases hnext
      exact (ih hq.1).trans hq.2

namespace Entity

variable {e : Entity} {f : SourceFile} (hf : f.Composed e.blocks.flatten) {c : ColumnProperty}
  {start : ℕ} (hs : Stands e.blocks.flatten start c.declarationPieces)

include hf hs

theorem docCommentOf?_declaration : f.docCommentOf? (start + 11) = some ⟨start, start + 5⟩ := by
  have hp := hf.passage hs
  have hfind : ((kindsOf c.declarationPieces).take 11).reverse.findIdx?
      (fun k => [Kind.docClose].contains k != false) = some 5 := by
    rw [ColumnProperty.kindsOf_declarationPieces]
    rcases c.nativeKind_mem with hk | hk <;> rw [hk] <;> rfl
  have hclose : f.previousOfKind? [.docClose] (start + 11 - 1) none false = some (start + 5) :=
    hp.previousOfKind? (a := 10) (d := 5) (by rw [c.length_declaration]; decide) hfind
  have hcomment : f.tokens[start + 5]?.map Token.comment = some (some ⟨start, start + 5⟩) :=
    (hf.comment_of_stands hs).2
  obtain ⟨t, ht, htoken⟩ := Option.map_eq_some_iff.1 hcomment
  have hpositive : 0 < start + 11 := by omega
  unfold docCommentOf?
  simp only [guard, hpositive, if_true, hclose, ownerOf?_declaration hf hs, ht, Option.pure_def,
    Option.bind_eq_bind, Option.bind_some, htoken]

theorem docArguments_declaration :
    f.docArguments (start + 5) (start + 2) = (c.arguments, start + 4) := by
  have hp := hf.passage hs
  have hl : (c.declarationPieces.flatMap Piece.lexemes)[3]? =
      some ⟨.docText, '(' :: (c.arguments ++ [')'])⟩ := rfl
  obtain ⟨t, ht, hkind, htext⟩ := hp.exists_token hl
  have hopens : f.opensList (start + 2) = true := by
    have ht : f.tokens[start + 2 + 1]? = some t := ht
    simp [opensList, holdsAt, ht, hkind, htext]
  have hlisted : isListed t = true := isListed_iff.2 (.inl hkind)
  have hclose : ')' ∉ '(' :: c.arguments := by
    rw [List.mem_cons]
    exact not_or.2 ⟨by decide, c.not_mem_arguments (by decide) (by decide)⟩
  have hextended : extended [] t.text = ('(' :: c.arguments) ++ ')' :: [] := by
    rw [htext]
    rfl
  rw [docArguments_eq, if_pos hopens, indexedTokens_cons ht (by omega),
    argumentsFrom_cons_of_close hlisted hextended hclose]
  rfl

theorem docEntriesOf_declaration :
    f.docEntriesOf ⟨start, start + 5⟩ = [.tag (start + 2) c.arguments (start + 4)] := by
  have htags : f.tokens[start]?.map Token.docTags = some [start + 2] :=
    (hf.comment_of_stands hs).1
  have hname : f.textAt (start + 2) = "@ORM\\Column".toList := (hf.passage hs).textAt (a := 2) rfl
  show f.docEntries (start + 5) start ((f.tokens[start]?.map Token.docTags).getD []) = _
  rw [htags, Option.getD_some, docEntries, if_neg (by omega), hname, if_neg (by decide),
    docArguments_declaration hf hs]
  rfl

/-- The annotation of a property. -/
theorem propertyTags_declaration (ruleCode : Text) : ∃ ignored,
    f.propertyTags (start + 11) ruleCode = ⟨[⟨"ORM\\Column".toList, .column, start + 2, start + 2,
      start + 4, .doc, c.attributes, []⟩], none, ignored⟩ := by
  have hname : f.textAt (start + 2) = "@ORM\\Column".toList := (hf.passage hs).textAt (a := 2) rfl
  have htag : f.docTag? (.tag (start + 2) c.arguments (start + 4)) = some ⟨"ORM\\Column".toList,
      .column, start + 2, start + 2, start + 4, .doc, c.attributes, []⟩ := by
    have hbare : "@ORM\\Column".toList.dropWhile (· == '@') = "ORM\\Column".toList := rfl
    have hmapping : MappingTag.isMapping "ORM\\Column".toList = true := by decide
    have hkind : MappingKind.ofName (MappingTag.bareName "ORM\\Column".toList) = .column := by decide
    simp only [docTag?, hname, hbare, hmapping, if_true, MappingTag.ofArguments, hkind,
      c.parseAttributes_arguments]
  rw [propertyTags, docCommentOf?_declaration hf hs]
  refine ⟨.parse (f.textBetween start (start + 5 + 1)) ruleCode, ?_⟩
  simp only [docTags, docVarType?, docEntriesOf_declaration hf hs, hf.nativeTags_eq,
    List.filterMap_cons, List.filterMap_nil, htag, List.append_nil, List.getLast?_nil]

/-- The type that the code gives a property. -/
theorem typeText_declaration : (f.property? (start + 11)).bind Property.typeText = some c.native := by
  have hp := hf.passage hs
  have hsize : start + 11 ≤ f.tokens.size :=
    (hp.lt_size (a := 11) (by rw [c.length_declaration]; decide)).le
  obtain ⟨before, hbefore⟩ := hp.significantBefore (a := 11) (by rw [c.length_declaration]; decide)
  have hplain : c.nativeKind.isTrivia = false := by
    rcases c.nativeKind_mem with hk | hk <;> rw [hk] <;> rfl
  obtain ⟨rest, hlexemes⟩ : ∃ rest, (f.significantBefore (start + 11)).map Token.lexeme =
      ⟨c.nativeKind, c.native⟩ :: ⟨.kwPrivate, "private".toList⟩ :: rest := by
    have hreverse : ((c.declarationPieces.flatMap Piece.lexemes).take 11).reverse =
        [⟨.blank, [' ']⟩, ⟨c.nativeKind, c.native⟩, ⟨.blank, [' ']⟩,
          ⟨.kwPrivate, "private".toList⟩, ⟨.blank, [' ']⟩, ⟨.docClose, "*/".toList⟩] ++
          (⟨.docOpen, "/**".toList⟩ :: c.docParts).reverse := rfl
    rw [hbefore, hreverse, List.filter_append, List.filter_cons_of_neg (by decide),
      List.filter_cons_of_pos (by simp [hplain]), List.filter_cons_of_neg (by decide),
      List.filter_cons_of_pos (by decide)]
    exact ⟨_, rfl⟩
  obtain ⟨t, ts, hts, ht, hlexemes⟩ := List.map_eq_cons_iff.1 hlexemes
  obtain ⟨t', ts', rfl, ht', -⟩ := List.map_eq_cons_iff.1 hlexemes
  have hkind : t.kind = c.nativeKind := congrArg Lexeme.kind ht
  have htext : t.text = c.native := congrArg Lexeme.text ht
  have hkind' : t'.kind = .kwPrivate := congrArg Lexeme.kind ht'
  have htype : Property.bare.takeIn t = some ⟨.isPublic, false, false, false, some c.native⟩ := by
    unfold Property.takeIn
    rw [hkind, htext]
    rcases c.nativeKind_mem with hk | hk <;> rw [hk] <;>
      simp [Visibility.ofKind?, Kind.isTypePart, Property.bare]
  have hvisibility : Property.takeIn ⟨.isPublic, false, false, false, some c.native⟩ t' =
      some ⟨.isPrivate, true, false, false, some c.native⟩ := by
    unfold Property.takeIn
    rw [hkind']
    rfl
  rw [property?, if_pos hsize, hts, Option.bind_some, Property.ofTokens, htype]
  dsimp only
  rw [Property.ofTokens, hvisibility]
  exact Property.typeText_ofTokens rfl ts'

end Entity

/-! ### Findings -/

/-- If each of some checks finds nothing, then neither do they all together. -/
theorem answers_flatten_mapM {σ α β : Type} {g : α → StateM σ (List β)} {l : List α}
    (hg : ∀ a ∈ l, Answers (· = []) (g a)) :
    Answers (fun found => found.flatten = []) (l.mapM g) := by
  refine (answers_mapM (R := fun _ found => found = []) hg).imp fun found hfound => ?_
  clear hg
  induction hfound with
  | nil => rfl
  | cons hnil _ ih => rw [List.flatten_cons, hnil, List.nil_append, ih]

/-- What is known of a property fits a column and its annotation. -/
structure PropertyCheck.Fits (p : PropertyCheck) (c : ColumnProperty) (tag : MappingTag) : Prop where
  name : p.name = c.name
  type : p.type? = some c.native
  varType : p.tags.varType = none
  tags : p.tags.tags = [tag]
  kind : tag.kind = .column
  attributes : tag.attributes = c.attributes
  issues : tag.issues = []

namespace PropertyCheck.Fits

variable {p : PropertyCheck} {c : ColumnProperty} {tag : MappingTag} (h : p.Fits c tag)

include h

theorem completed_eq : p.completed tag = c.attributes := by
  rw [completed, h.type, h.attributes, h.kind]
  exact c.infer_attributes c.native

theorem declaredTypeFindings_eq : p.declaredTypeFindings tag c.held = [] := by
  have hbare : Text.dropEndWhile (· == '?') (c.native.dropWhile (· == '?')) = c.native := by
    have hmark : '?' ∉ c.native := not_mem_of_isName c.isName_native rfl
    have hlast : c.native.getLast?.any (· == '?') = false := by
      rw [Option.any_eq_false]
      intro d hd
      exact beq_false_of_ne fun heq => hmark (heq ▸ List.mem_of_getLast? hd)
    have hend := Text.dropEndWhile_append hlast (v := []) nofun
    rw [List.append_nil] at hend
    rw [dropWhile_of_isName c.isName_native rfl, hend]
  simp [declaredTypeFindings, h.varType, h.type, hbare, c.isSame]

end PropertyCheck.Fits

namespace Entity

variable {e : Entity} {f : SourceFile} (hf : f.Composed e.blocks.flatten) {c : ColumnProperty}
  (hc : c ∈ e.columns) {p : PropertyCheck} {tag : MappingTag} (h : p.Fits c tag) (hfile : p.file = f)

include hf hc h hfile

theorem answers_columnFindings : Answers (· = []) (p.columnFindings tag c.attributes) := by
  have hheld : c.held.isEmpty = false := List.isEmpty_eq_false_iff.2 c.held_ne_nil
  have hgetter : Answers (· = []) (Contract.findings
      { PropertyCheck.contract .column .getter "get" p.name with returns := some (.type c.held) }
      p.options.baseTypes p.file tag.position) := by
    rw [h.name, hfile]
    exact fun memo => findings_getter hf hc rfl rfl rfl _ _ memo
  have hsetter : Answers (· = []) (Contract.findings
      { PropertyCheck.contract .column .setter "set" p.name with
        required := !p.tags.has .generatedValue
        returns := some .fluent
        argument := some ⟨p.name, some c.held, false⟩ }
      p.options.baseTypes p.file tag.position) := by
    rw [h.name, hfile]
    exact fun memo => findings_setter hf hc rfl rfl rfl _ _ memo
  have henum : c.attributes.get? "enumType".toList = none := c.get?_of_not_mem (by decide)
  have hnullable : c.attributes.get? "nullable".toList = none := c.get?_of_not_mem (by decide)
  unfold PropertyCheck.columnFindings
  simp only [c.get?_type, PropertyCheck.columnType, henum, hnullable, AttributeValue.text, pure_bind,
    c.suggest_keyword, hheld, Bool.false_eq_true, if_false, h.declaredTypeFindings_eq,
    c.columnSizeFindings_attributes, Option.any_none, Option.map_some]
  refine answers_bind hgetter fun getter hgetter => answers_bind hsetter fun setter hsetter =>
    answers_pure ?_
  rw [hgetter, hsetter, c.columnNameFindings_attributes]
  rfl

theorem answers_tagFindings : Answers (· = []) (p.tagFindings tag) := by
  have hkinds : p.tags.kinds = [.column] := by
    rw [PropertyTags.kinds, h.tags, List.map_singleton, h.kind]
  have hkind : p.kindFindings tag c.attributes = p.columnFindings tag c.attributes := by
    rw [PropertyCheck.kindFindings, if_pos h.kind]
  unfold PropertyCheck.tagFindings
  simp only [h.completed_eq, h.kind, hkinds, c.validate_attributes, hkind, List.map_nil]
  refine answers_bind (answers_columnFindings hf hc h hfile) fun findings hfindings =>
    answers_pure ?_
  rw [hfindings]
  rfl

/-- No fault is found in a property. -/
theorem answers_findings : Answers (· = []) p.findings := by
  have htags : Answers (fun findings => findings.flatten = []) (p.tags.tags.mapM p.tagFindings) := by
    rw [h.tags]
    refine answers_flatten_mapM fun tag' htag => ?_
    rw [List.mem_singleton.1 htag]
    exact answers_tagFindings hf hc h hfile
  have hspelling : PropertyCheck.spellingFindings tag = [] := by
    rw [PropertyCheck.spellingFindings, h.issues]
    rfl
  have hall : Answers (· = []) p.allFindings := by
    unfold PropertyCheck.allFindings
    refine answers_bind htags fun findings hfindings => answers_pure ?_
    rw [h.tags, List.flatMap_singleton, hspelling, hfindings]
    rfl
  unfold PropertyCheck.findings
  refine answers_bind hall fun findings hfindings => answers_pure ?_
  rw [hfindings]
  rfl

end Entity

/-! ### The file -/

namespace Entity

variable {e : Entity} {f : SourceFile} (hf : f.Composed e.blocks.flatten) {c : ColumnProperty}
  {start : ℕ}

include hf

theorem exists_fits (hs : Stands e.blocks.flatten start c.declarationPieces) (options : MappingOptions) :
    ∃ tag, (EntityMapping.propertyCheck options f (start + 11)).Fits c tag := by
  obtain ⟨ignored, htags⟩ := propertyTags_declaration hf hs EntityMapping.code.toList
  have hname : f.textAt (start + 11) = '$' :: c.name := (hf.passage hs).textAt (a := 11) rfl
  refine ⟨_, ?_, typeText_declaration hf hs, congrArg PropertyTags.varType htags,
    congrArg PropertyTags.tags htags, rfl, rfl, rfl⟩
  show (f.textAt (start + 11)).dropWhile (· == '$') = c.name
  rw [hname]
  exact dropWhile_of_isName c.isName rfl

/-- No fault is found in a property of an entity. -/
theorem answers_propertyFindings (options : MappingOptions) {i : ℕ} (hi : i ∈ f.propertyTokens) :
    Answers (· = []) (EntityMapping.propertyFindings options f i) := by
  obtain ⟨c, hc, start, rfl, hs⟩ := property_cases hf hi
  obtain ⟨tag, hfits⟩ := exists_fits hf hs options
  unfold EntityMapping.propertyFindings
  dsimp only
  split
  · exact answers_pure rfl
  · exact answers_findings hf hc hfits rfl

/-- No fault is found in the mapping of an entity. -/
theorem findings_eq_nil (options : MappingOptions) : EntityMapping.findings options f = [] :=
  answers_flatten_mapM (fun _ hi => answers_propertyFindings hf options hi) FileMemo.empty

end Entity

end EntityLint
