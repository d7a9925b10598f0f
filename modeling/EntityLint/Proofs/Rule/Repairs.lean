import EntityLint.Proofs.Mapping.Literal
import EntityLint.Proofs.Rule.Findings
import EntityLint.Proofs.Source.Reading
import EntityLint.Proofs.Token.Recast
import EntityLint.Rule.RuleSet

/-!
# What the rules do to mend a file

Each repair of a rule is a single edit, which mends one lexeme in one of the ways that leave those
around it alone.

* `Edit.Mends`, `Finding.IsMendable`: edits that mend, and findings with such a repair or none;
* `InterfaceSuffix.isMendable`, `BlankLineBeforeReturn.isMendable`, `EntityMapping.isMendable`: the
  findings of the rules, rule by rule.

The main statement is `Rule.IsBuiltIn.isMendable`.
-/

namespace EntityLint

open Lexeme Text

/-- An edit mends the lexeme of a file that it changes. -/
def Edit.Mends (f : SourceFile) (ls : List Lexeme) (e : Edit) : Prop :=
  MendsAt ls e.token (e.newText f.lineEnd (f.textAt e.token))

/-- A finding that has a repair is marked so, and the repair is a single edit that mends a
lexeme. -/
def Finding.IsMendable (f : SourceFile) (ls : List Lexeme) (x : Finding) : Prop :=
  ∀ s, x.repair = some s →
    x.fixable = true ∧ ∃ e : Edit, e.Mends f ls ∧ (s = .edit e ∨ s = .changeset [.edit e])

variable {f : SourceFile} {ls : List Lexeme}

theorem Finding.IsMendable.of_none {x : Finding} (h : x.repair = none) : x.IsMendable f ls := by
  intro s hs
  rw [h] at hs
  cases hs

theorem SourceFile.lineEnd_isLineBreak (f : SourceFile) : IsLineBreak f.lineEnd := by
  unfold lineEnd
  split
  · split
    · exact .inr rfl
    · exact .inl rfl
  · exact .inl rfl

/-! ### Names of interfaces -/

namespace InterfaceSuffix

theorem kindAt_of_nameOf? {keyword i : ℕ} (h : nameOf? f keyword = some i) :
    f.kindAt i = some .word := by
  unfold nameOf? at h
  obtain ⟨t, -, h⟩ := Option.bind_eq_some_iff.1 h
  obtain ⟨⟨u, j⟩, hfind, h⟩ := Option.bind_eq_some_iff.1 h
  cases h
  have hmem := List.mem_of_mem_drop
    ((List.takeWhile_sublist _).subset (List.mem_of_find?_eq_some hfind))
  have hj : f.tokens[i]? = some u := by
    rw [← Array.getElem?_toList]
    exact List.mk_mem_zipIdx_iff_getElem?.1 hmem
  have hkind := List.find?_some hfind
  rw [SourceFile.kindAt, hj]
  exact congrArg some (beq_iff_eq.1 hkind)

theorem isMendable (h : f.Reads ls) {x : Finding} (hx : x ∈ rule.findings f) :
    x.IsMendable f ls := by
  obtain ⟨keyword, -, hx⟩ := List.mem_filterMap.1 hx
  unfold finding? at hx
  obtain ⟨i, hi, hx⟩ := Option.bind_eq_some_iff.1 hx
  obtain ⟨-, -, hx⟩ := Option.bind_eq_some_iff.1 hx
  cases hx
  rintro s ⟨⟩
  obtain ⟨l, hl, hk⟩ := h.kind i .word (kindAt_of_nameOf? hi) (by decide)
  refine ⟨rfl, .replace i _, ⟨l, hl, ?_⟩, .inl rfl⟩
  rw [Edit.newText, h.textAt_eq hl]
  exact .suffix hk

end InterfaceSuffix

/-! ### Lines above return statements -/

/-- The elements in front of an index that satisfy a predicate, up to the next one that does not. -/
theorem takeWhile_reverse_take {α : Type} (p : α → Bool) {l : List α} {i : ℕ} (hi : i ≤ l.length) :
    let n := ((l.take i).reverse.takeWhile p).length
    n ≤ i ∧ (∀ j a, i - n ≤ j → j < i → l[j]? = some a → p a = true) ∧
      (n < i → ∃ a, l[i - n - 1]? = some a ∧ p a = false) := by
  induction i with
  | zero => exact ⟨Nat.zero_le _, fun j a _ hj => absurd hj (Nat.not_lt_zero j), fun h => absurd h (Nat.not_lt_zero _)⟩
  | succ i ih =>
    obtain ⟨hle, hall, hstop⟩ := ih (Nat.le_of_succ_le hi)
    have hget : l[i]? = some l[i] := List.getElem?_eq_getElem hi
    rw [List.take_add_one, hget, Option.toList_some, List.reverse_append, List.reverse_singleton,
      List.singleton_append, List.takeWhile_cons]
    cases hp : p l[i] with
    | true =>
      rw [if_pos rfl, List.length_cons]
      intro n
      refine ⟨Nat.succ_le_succ hle, fun j a hj hlt ha => ?_, fun h => ?_⟩
      · rcases Nat.lt_succ_iff_lt_or_eq.1 hlt with hlt | rfl
        · exact hall j a (by omega) hlt ha
        · rw [hget] at ha
          exact Option.some.inj ha ▸ hp
      · obtain ⟨a, ha, hpa⟩ := hstop (by omega)
        exact ⟨a, by rw [← ha]; congr 1; omega, hpa⟩
    | false =>
      rw [if_neg Bool.false_ne_true, List.length_nil]
      intro n
      exact ⟨Nat.zero_le _, fun j a hj hlt => by omega, fun _ => ⟨_, hget, hp⟩⟩

namespace BlankLineBeforeReturn

/-- The tokens on a line that lead up to a token. -/
theorem lineStart_run {i : ℕ} {t : Token} (ht : f.tokens[i]? = some t) :
    lineStart f i ≤ i ∧
    (∀ j u, lineStart f i ≤ j → j ≤ i → f.tokens[j]? = some u → u.position.line = t.position.line) ∧
    (0 < lineStart f i → ∃ u, f.tokens[lineStart f i - 1]? = some u ∧
      u.position.line ≠ t.position.line) := by
  rw [← Array.getElem?_toList] at ht
  have hi := (List.getElem?_eq_some_iff.1 ht).1
  have hstart : lineStart f i = i - ((f.tokens.toList.take i).reverse.takeWhile fun u =>
      some u.position.line == some t.position.line).length := by
    rw [lineStart, ← Array.getElem?_toList, ht]
    rfl
  obtain ⟨hle, hall, hstop⟩ := takeWhile_reverse_take
    (fun u : Token => some u.position.line == some t.position.line) hi.le
  set n := ((f.tokens.toList.take i).reverse.takeWhile fun u =>
    some u.position.line == some t.position.line).length
  rw [hstart]
  refine ⟨Nat.sub_le i n, fun j u hj hji hu => ?_, fun hpos => ?_⟩
  · rw [← Array.getElem?_toList] at hu
    rcases hji.lt_or_eq with hlt | rfl
    · simpa using hall j u hj hlt hu
    · rw [Option.some.inj (hu.symm.trans ht)]
  · obtain ⟨u, hu, hne⟩ := hstop (Nat.lt_of_sub_pos hpos)
    exact ⟨u, by rw [← Array.getElem?_toList, hu], by simpa using hne⟩

/-- The first token of a line that stands below another one, and the token in front of it. -/
theorem lineStart_spec {i : ℕ} {k : Kind} (h : codeBefore? f i = some k) :
    0 < lineStart f i ∧ ∃ t t', f.tokens[lineStart f i]? = some t ∧
      f.tokens[lineStart f i - 1]? = some t' ∧ t'.position.line ≠ t.position.line := by
  unfold codeBefore? at h
  obtain ⟨t, ht, h⟩ := Option.bind_eq_some_iff.1 h
  obtain ⟨last, hlast, -⟩ := Option.bind_eq_some_iff.1 h
  obtain ⟨habove, hline⟩ := List.mem_filter.1 (List.mem_of_find?_eq_some hlast)
  have hline : last.position.line + 1 = t.position.line := beq_iff_eq.1 hline
  obtain ⟨hle, hrun, hstop⟩ := lineStart_run ht
  -- not all tokens in front are on the same line
  have hpos : 0 < lineStart f i := by
    refine Nat.pos_of_ne_zero fun hzero => ?_
    obtain ⟨j, hj⟩ := List.mem_iff_getElem?.1
      (List.mem_reverse.1 ((List.takeWhile_sublist _).subset habove))
    rw [List.getElem?_take] at hj
    split at hj
    · next hji =>
      have := hrun j last (hzero ▸ Nat.zero_le j) hji.le (by rw [← Array.getElem?_toList, hj])
      omega
    · cases hj
  obtain ⟨t', ht', hne⟩ := hstop hpos
  obtain ⟨u, hu⟩ : ∃ u, f.tokens[lineStart f i]? = some u :=
    ⟨_, Array.getElem?_eq_getElem (hle.trans_lt (Array.getElem?_eq_some_iff.1 ht).1)⟩
  exact ⟨hpos, u, t', hu, ht', hrun _ u le_rfl hle hu ▸ hne⟩

/-- A line that stands below another one begins after a lexeme with a line break. -/
theorem mem_text_of_codeBefore? (h : f.Reads ls) {i : ℕ} {k : Kind}
    (hcode : codeBefore? f i = some k) :
    ∃ l, ls[lineStart f i]? = some l ∧
      ∃ l', (ls.take (lineStart f i)).getLast? = some l' ∧ '\n' ∈ l'.text := by
  obtain ⟨hpos, t, t', ht, ht', hne⟩ := lineStart_spec hcode
  obtain ⟨j, hj⟩ := Nat.exists_eq_add_one_of_ne_zero hpos.ne'
  rw [hj] at ht ⊢
  rw [hj, Nat.add_sub_cancel] at ht'
  have hlt := (Array.getElem?_eq_some_iff.1 ht).1
  rw [h.size] at hlt
  have hget := List.getElem?_eq_getElem (Nat.lt_of_succ_lt hlt)
  have htake : ls.take (j + 1) = ls.take j ++ [ls[j]] := by
    rw [List.take_add_one, hget]
    rfl
  refine ⟨_, List.getElem?_eq_getElem hlt, ls[j], by rw [htake, List.getLast?_concat], ?_⟩
  have hline := h.line (j + 1) t ht
  rw [htake, List.flatMap_append, List.count_append, ← Nat.add_assoc, ← h.line j t' ht',
    List.flatMap_singleton] at hline
  refine List.count_pos_iff.1 (Nat.pos_of_ne_zero fun hzero => hne ?_)
  rw [hline, hzero]
  rfl

theorem isMendable (h : f.Reads ls) {x : Finding} (hx : x ∈ rule.findings f) :
    x.IsMendable f ls := by
  obtain ⟨i, -, hx⟩ := List.mem_filterMap.1 hx
  unfold finding? at hx
  obtain ⟨k, hk, hx⟩ := Option.bind_eq_some_iff.1 hx
  obtain ⟨-, -, hx⟩ := Option.bind_eq_some_iff.1 hx
  cases hx
  rintro s ⟨⟩
  obtain ⟨l, hl, l', hl', hline⟩ := mem_text_of_codeBefore? h hk
  refine ⟨rfl, .prependLineEnd (lineStart f i), ⟨l, hl, ?_⟩, .inl rfl⟩
  rw [Edit.newText, Edit.token, h.textAt_eq hl]
  refine .line ?_ f.lineEnd f.lineEnd_isLineBreak
  rw [hl']
  exact breaksLine_iff.2 hline

end BlankLineBeforeReturn

/-! ### Names in mappings -/

/-- The edit that makes the value of an attribute new recasts the lexeme where it is written. -/
theorem recasts_of_literalEdit? (h : f.Reads ls) {tag : MappingTag} {attr old new : Text} {e : Edit}
    (hattr : ∃ c ∈ attr, isSoft c = false ∧ isBlank c = false) (hnew : ∀ c ∈ new, isWordChar c = true)
    (he : f.literalEdit? tag attr old new = some e) :
    ∃ i t l, e = .replace i t ∧ ls[i]? = some l ∧ l.Recasts ((ls.take i).foldl lastAfter none) t := by
  unfold SourceFile.literalEdit? at he
  split at he
  · obtain ⟨⟨i, t⟩, hliteral, rfl⟩ := Option.map_eq_some_iff.1 he
    obtain ⟨-, -, hkind, hrename⟩ := SourceFile.docLiteral?_eq_some hliteral
    obtain ⟨l, hl, hk⟩ := h.kind i .docText hkind (by decide)
    obtain ⟨u, b, sp, v, -, -, -, htext, hrenames⟩ := renameLiteral?_spec hrename
    rw [hrenames] at hrename
    cases hrename
    obtain ⟨c, hc, hplain⟩ := hattr
    rw [h.textAt_eq hl] at htext
    have hrecasts : l.Recasts ((ls.take i).foldl lastAfter none) _ :=
      .docLiteral hk (u ++ (attr ++ (b ++ '=' :: sp))) old new v (by simpa [assignment] using htext)
        ⟨c, by simp [hc], hplain⟩ hnew
    exact ⟨i, _, l, rfl, hl, by simpa [assignment] using hrecasts⟩
  · obtain ⟨i, hliteral, rfl⟩ := Option.map_eq_some_iff.1 he
    obtain ⟨-, -, hquoted, colon, hcolon, hvalue⟩ := SourceFile.nativeLiteral?_eq_some hliteral
    obtain ⟨l, hl, hk⟩ := h.kind i .quoted hquoted (by decide)
    obtain ⟨l', hl', hk'⟩ := h.kind colon .colon hcolon (by decide)
    refine ⟨i, _, l, rfl, hl, .literal hk ?_ new hnew⟩
    -- between the colon and the string there is nothing that counts
    have hlt := (SourceFile.next?_eq_some hvalue).1
    have hsplit : ls.take i = ls.take colon ++ [l'] ++ (ls.take i).drop (colon + 1) := by
      have htake : (ls.take i).take (colon + 1) = ls.take colon ++ [l'] := by
        rw [List.take_take, min_eq_left hlt, List.take_add_one, hl']
        rfl
      rw [← htake, List.take_append_drop]
    rw [hsplit, List.foldl_append, List.foldl_concat,
      foldl_lastAfter_of_isTrivia (h.isTrivia_of_nextSignificant? hvalue), lastAfter, hk']
    rfl

/-- The edit that makes the value of an attribute new mends where it is written. -/
theorem mends_of_literalEdit? (h : f.Reads ls) {tag : MappingTag} {attr old new : Text} {e : Edit}
    (hattr : ∃ c ∈ attr, isSoft c = false ∧ isBlank c = false) (hnew : ∀ c ∈ new, isWordChar c = true)
    (he : f.literalEdit? tag attr old new = some e) : e.Mends f ls := by
  obtain ⟨i, t, l, rfl, hl, hrecasts⟩ := recasts_of_literalEdit? h hattr hnew he
  exact ⟨l, hl, hrecasts.mends _⟩

namespace EntityMapping

theorem kindAt_of_mem_propertyTokens {i : ℕ} (hi : i ∈ f.propertyTokens) :
    f.kindAt i = some .variable := by
  obtain ⟨t, hget, hproperty⟩ := SourceFile.mem_propertyTokens_iff.1 hi
  have hkind : t.kind = .variable := by
    simp only [SourceFile.isPropertyToken, Bool.and_eq_true, beq_iff_eq] at hproperty
    exact hproperty.1.1.1
  rw [SourceFile.kindAt, hget, ← hkind]
  rfl

/-- The name of a property is one. -/
theorem isWordChar_of_mem_name (h : f.Reads ls) {i : ℕ} (hi : i ∈ f.propertyTokens) :
    ∀ c ∈ (f.textAt i).dropWhile (· == '$'), isWordChar c = true := by
  obtain ⟨l, hl, hk⟩ := h.kind i .variable (kindAt_of_mem_propertyTokens hi) (by decide)
  obtain ⟨u, htext, hword⟩ := h.variable_text l (List.mem_of_getElem? hl) hk
  rw [h.textAt_eq hl, htext, List.dropWhile_cons_of_pos (by rfl)]
  exact fun c hc => hword c ((List.dropWhile_sublist _).subset hc)

theorem isMendable (h : f.Reads ls) {options : MappingOptions} {x : Finding}
    (hx : x ∈ (rule options).findings f) : x.IsMendable f ls := by
  rcases (findings_spec options f).1 x hx with hplain | hname
  · exact .of_none hplain.1
  · obtain ⟨m, hm, hname⟩ := List.mem_flatMap.1 hname
    obtain ⟨value, code, message, -, rfl⟩ :=
      PropertyCheck.exists_of_mem_nameFindings (List.mem_filter.1 hname).1
    intro s hs
    obtain ⟨e, he, rfl⟩ := Option.map_eq_some_iff.1 hs
    have hnew : ∀ c ∈ (propertyCheck options f m.1).expectedName m.2, isWordChar c = true :=
      PropertyCheck.isWordChar_expectedName (isWordChar_of_mem_name h (SourceFile.mem_mappings.1 hm).1)
    exact ⟨rfl, e, mends_of_literalEdit? h ⟨'n', by decide, rfl, rfl⟩ hnew he, .inr rfl⟩

end EntityMapping

/-! ### All rules -/

/-- The rules that there are, with any options. -/
def Rule.IsBuiltIn (rule : Rule) : Prop := ∃ options, rule ∈ RuleSet.withOptions options

/-- The findings of all rules are mendable. -/
theorem Rule.IsBuiltIn.isMendable {rule : Rule} (hrule : rule.IsBuiltIn) (h : f.Reads ls) {x : Finding}
    (hx : x ∈ rule.findings f) : x.IsMendable f ls := by
  obtain ⟨options, hrule⟩ := hrule
  simp only [RuleSet.withOptions, List.mem_cons, List.not_mem_nil, or_false] at hrule
  rcases hrule with rfl | rfl | rfl
  · exact EntityMapping.isMendable h hx
  · exact InterfaceSuffix.isMendable h hx
  · exact BlankLineBeforeReturn.isMendable h hx

end EntityLint
