import EntityLint.Mapping.PropertyCheck
import EntityLint.Proofs.Text.Runs

/-!
# Where the value of an attribute is made new

In a doc comment the value of an attribute is looked for as `name="value"`, where spaces may stand
around the equals sign. In an attribute group it is the string after the name and a colon.

* `Assigns`: a text that begins with such a literal;
* `renameHere?_eq_some`, `renameLiteral?_spec`: what is made new in a text;
* `renameLiteral?_append`: what is found in a part of a text is found in the whole;
* `docLiteral?_eq_some`, `nativeLiteral?_eq_some`: the tokens of an annotation.
-/

namespace EntityLint

open Text

/-! ### Texts -/

/-- The text `attr="value"` with some spaces around the equals sign. -/
def assignment (attr b sp value : Text) : Text := attr ++ (b ++ '=' :: (sp ++ '"' :: (value ++ ['"'])))

section Texts

variable {attr old new t t' : Text}

theorem renameHere?_eq_some (h : renameHere? attr old new t = some t') :
    ∃ b sp v, (∀ c ∈ b, c = ' ') ∧ (∀ c ∈ sp, c = ' ') ∧ t = assignment attr b sp old ++ v ∧
      t' = assignment attr b sp new ++ v := by
  unfold renameHere? at h
  obtain ⟨spaced, hspaced, h⟩ := Option.bind_eq_some_iff.1 h
  obtain ⟨afterEquals, hequals, h⟩ := Option.bind_eq_some_iff.1 h
  obtain ⟨value, hvalue, h⟩ := Option.bind_eq_some_iff.1 h
  obtain ⟨rest, hrest, h⟩ := Option.bind_eq_some_iff.1 h
  obtain ⟨_, hquote, h⟩ := Option.bind_eq_some_iff.1 h
  obtain ⟨v, rfl⟩ : ∃ v, rest = '"' :: v :=
    List.head?_eq_some_iff.1 ((Option.guard_eq_some' _).1 hquote)
  cases h
  obtain rfl := append_of_stripLeading? hspaced
  have hequals : '=' :: afterEquals = spaced.dropWhile (· == ' ') := append_of_stripLeading? hequals
  have hvalue : '"' :: value = afterEquals.dropWhile (· == ' ') := append_of_stripLeading? hvalue
  have hold := append_of_stripLeading? hrest
  have hspaces : ∀ t : Text, ∀ c ∈ t.takeWhile (· == ' '), c = ' ' :=
    fun t c hc => by simpa using List.mem_takeWhile_imp hc
  refine ⟨spaced.takeWhile (· == ' '), afterEquals.takeWhile (· == ' '), v, hspaces _, hspaces _, ?_, ?_⟩
  · have hafter : afterEquals = afterEquals.takeWhile (· == ' ') ++ '"' :: (old ++ '"' :: v) := by
      rw [hold, hvalue, List.takeWhile_append_dropWhile]
    have hspaced : spaced = spaced.takeWhile (· == ' ') ++ '=' :: afterEquals := by
      rw [hequals, List.takeWhile_append_dropWhile]
    simpa [assignment, ← hafter] using hspaced
  · simp [assignment]

theorem renameHere?_assignment (attr old new : Text) {b sp : Text} (hb : ∀ c ∈ b, c = ' ')
    (hsp : ∀ c ∈ sp, c = ' ') (v : Text) : renameHere? attr old new (assignment attr b sp old ++ v) =
      some (assignment attr b sp new ++ v) := by
  have hrun : ∀ {w : Text} {c : Char} (s : Text), (∀ c ∈ w, c = ' ') → c ≠ ' ' →
      (w ++ c :: s).dropWhile (· == ' ') = c :: s ∧ (w ++ c :: s).takeWhile (· == ' ') = w := by
    intro w c s hw hc
    exact ⟨dropWhile_append_of_head (by simpa using hw) (by simpa using hc),
      takeWhile_append_of_head (by simpa using hw) (by simpa using hc)⟩
  obtain ⟨hdropb, htakeb⟩ := hrun (c := '=') (sp ++ '"' :: (old ++ '"' :: v)) hb (by decide)
  obtain ⟨hdropsp, htakesp⟩ := hrun (c := '"') (old ++ '"' :: v) hsp (by decide)
  have hold : assignment attr b sp old ++ v =
      attr ++ (b ++ '=' :: (sp ++ '"' :: (old ++ '"' :: v))) := by simp [assignment]
  have hequals := stripLeading?_append ['='] (sp ++ '"' :: (old ++ '"' :: v))
  have hquote := stripLeading?_append ['"'] (old ++ '"' :: v)
  rw [List.singleton_append] at hequals hquote
  rw [renameHere?, hold]
  simp only [stripLeading?_append, Option.bind_eq_bind, Option.bind_some, hdropb, htakeb, hdropsp,
    htakesp, hequals, hquote]
  simp [assignment]

/-- Whether a literal begins at the beginning of a text does not depend on the new value. -/
theorem renameHere?_eq_none (h : renameHere? attr old new t = none) (new' : Text) :
    renameHere? attr old new' t = none := by
  cases hrename : renameHere? attr old new' t with
  | none => rfl
  | some t' =>
    obtain ⟨b, sp, v, hb, hsp, rfl, -⟩ := renameHere?_eq_some hrename
    rw [renameHere?_assignment _ _ _ hb hsp] at h
    cases h

theorem renameLiteral?_cons_of_none {before : Option Char} {c : Char}
    (h : before.any isNameChar = true ∨ renameHere? attr old new (c :: t) = none) :
    renameLiteral? attr old new before (c :: t) =
      (renameLiteral? attr old new (some c) t).map (c :: ·) := by
  have hhere : (if before.any isNameChar then none else renameHere? attr old new (c :: t)) = none := by
    rcases h with h | h
    · exact if_pos h
    · rw [h, ite_self]
  simp only [renameLiteral?, hhere]

/-- What is made new in a text is a literal in it, at the same place for all new values. -/
theorem renameLiteral?_spec {before : Option Char} (h : renameLiteral? attr old new before t = some t') :
    ∃ u b sp v, (∀ c ∈ b, c = ' ') ∧ (∀ c ∈ sp, c = ' ') ∧
      (u.getLast?.or before).all (!isNameChar ·) = true ∧ t = u ++ (assignment attr b sp old ++ v) ∧
      ∀ new, renameLiteral? attr old new before t = some (u ++ (assignment attr b sp new ++ v)) := by
  induction t generalizing before t' with
  | nil => cases h
  | cons c t ih =>
    by_cases hhere : before.any isNameChar = true ∨ renameHere? attr old new (c :: t) = none
    · rw [renameLiteral?_cons_of_none hhere] at h
      obtain ⟨t', h, -⟩ := Option.map_eq_some_iff.1 h
      obtain ⟨u, b, sp, v, hb, hsp, hu, rfl, hnew⟩ := ih h
      refine ⟨c :: u, b, sp, v, hb, hsp, ?_, rfl, fun new' => ?_⟩
      · cases hlast : u.getLast? <;> simp_all [List.getLast?_cons]
      · rw [renameLiteral?_cons_of_none (hhere.imp_right (renameHere?_eq_none · new')), hnew]
        rfl
    · obtain ⟨hbefore, hsome⟩ := not_or.1 hhere
      obtain ⟨renamed, hrenamed⟩ := Option.ne_none_iff_exists'.1 hsome
      obtain ⟨b, sp, v, hb, hsp, ht, -⟩ := renameHere?_eq_some hrenamed
      refine ⟨[], b, sp, v, hb, hsp, ?_, ht, fun new' => ?_⟩
      · cases before with
        | none => rfl
        | some c' => simpa using hbefore
      · have hrename := renameHere?_assignment attr old new' hb hsp v
        rw [← ht] at hrename
        simp only [renameLiteral?, if_neg hbefore, hrename, List.nil_append]

/-- A literal that begins in front of another one does not end behind it. -/
theorem renameHere?_append_eq_none (hne : attr ≠ []) (hattr : ∀ c ∈ attr, isNameChar c = true)
    {x b sp v : Text} (hx : x ≠ []) (hlast : x.getLast?.all (!isNameChar ·) = true)
    (h : renameHere? attr old new (x ++ (assignment attr b sp old ++ v)) = none) (r : Text) :
    renameHere? attr old new (x ++ (assignment attr b sp old ++ v) ++ r) = none := by
  cases hrename : renameHere? attr old new (x ++ (assignment attr b sp old ++ v) ++ r) with
  | none => rfl
  | some t =>
    obtain ⟨b', sp', v', hb', hsp', heq, -⟩ := renameHere?_eq_some hrename
    have hmarks : ∀ c ∈ b' ++ '=' :: (sp' ++ ['"']), isNameChar c = false := by
      intro c hc
      simp only [List.mem_append, List.mem_cons, List.not_mem_nil, or_false] at hc
      rcases hc with hc | rfl | hc | rfl
      · rw [hb' c hc]
        rfl
      · rfl
      · rw [hsp' c hc]
        rfl
      · rfl
    obtain ⟨e, attr', rfl⟩ := List.exists_cons_of_ne_nil hne
    have he : isNameChar e = true := hattr e List.mem_cons_self
    -- the other literal begins behind the opening quote
    obtain ⟨c', hx', hold⟩ : ∃ c', x = (e :: attr') ++ (b' ++ '=' :: (sp' ++ ['"'])) ++ c' ∧
        old ++ '"' :: v' = c' ++ (assignment (e :: attr') b sp old ++ v ++ r) := by
      have hsplit : x ++ (assignment (e :: attr') b sp old ++ v ++ r) =
          (e :: attr') ++ (b' ++ '=' :: (sp' ++ ['"'])) ++ (old ++ '"' :: v') := by
        rw [← List.append_assoc, heq]
        simp [assignment]
      rcases List.append_eq_append_iff.1 hsplit with ⟨m, hm, hrest⟩ | ⟨c', hx', hold⟩
      · cases m with
        | nil => exact ⟨[], by simpa using hm.symm, by simpa using hrest.symm⟩
        | cons d m =>
          obtain rfl : e = d := by simpa [assignment] using congrArg List.head? hrest
          rcases List.append_eq_append_iff.1 hm with ⟨n, rfl, hn⟩ | ⟨n, hn, hn'⟩
          · have := hmarks e (hn ▸ by simp)
            rw [he] at this
            cases this
          · cases n with
            | nil =>
              have := hmarks e (by simp at hn'; simp [← hn'])
              rw [he] at this
              cases this
            | cons d' n =>
              obtain ⟨last, hlast'⟩ : ∃ last, x.getLast? = some last :=
                Option.ne_none_iff_exists'.1 (by simpa using hx)
              rw [hlast', Option.all_some, Bool.not_eq_true'] at hlast
              have := hattr last (hn ▸ List.mem_append_left _ (List.mem_of_getLast? hlast'))
              rw [hlast] at this
              cases this
      · exact ⟨c', hx', hold⟩
    have hprefix : old ++ ['"'] <+: c' ++ (assignment (e :: attr') b sp old ++ v) := by
      have hshort : old ++ ['"'] <+: old ++ '"' :: v' := ⟨v', by simp⟩
      refine List.prefix_of_prefix_length_le hshort ⟨r, by simp [hold]⟩ ?_
      simp [assignment]
      omega
    obtain ⟨v'', hv''⟩ := hprefix
    have hsome := renameHere?_assignment (e :: attr') old new hb' hsp' v''
    rw [show assignment (e :: attr') b' sp' old ++ v'' =
      x ++ (assignment (e :: attr') b sp old ++ v) by rw [hx', List.append_assoc, ← hv'']; simp [assignment],
      h] at hsome
    cases hsome

/-- What is made new in a part of a text is made new in the text. -/
theorem renameLiteral?_append (hne : attr ≠ []) (hattr : ∀ c ∈ attr, isNameChar c = true)
    {before : Option Char} (h : renameLiteral? attr old new before t = some t') (r : Text) :
    renameLiteral? attr old new before (t ++ r) = some (t' ++ r) := by
  induction t generalizing before t' with
  | nil => cases h
  | cons c t ih =>
    by_cases hhere : before.any isNameChar = true ∨ renameHere? attr old new (c :: t) = none
    · rw [renameLiteral?_cons_of_none hhere] at h
      obtain ⟨t', htail, rfl⟩ := Option.map_eq_some_iff.1 h
      obtain ⟨u, b, sp, v, -, -, hu, ht, -⟩ := renameLiteral?_spec htail
      have hwhole : before.any isNameChar = true ∨ renameHere? attr old new (c :: (t ++ r)) = none := by
        refine hhere.imp_right fun hnone => ?_
        have hcons : c :: t = c :: u ++ (assignment attr b sp old ++ v) := by rw [ht]; rfl
        rw [← List.cons_append]
        rw [hcons] at hnone ⊢
        refine renameHere?_append_eq_none hne hattr (List.cons_ne_nil _ _) ?_ hnone r
        cases hlast : u.getLast? <;> simp_all [List.getLast?_cons]
      rw [List.cons_append, renameLiteral?_cons_of_none hwhole, ih htail]
      rfl
    · obtain ⟨hbefore, hsome⟩ := not_or.1 hhere
      obtain ⟨renamed, hrenamed⟩ := Option.ne_none_iff_exists'.1 hsome
      simp only [renameLiteral?, if_neg hbefore, hrenamed, Option.some.injEq] at h
      subst h
      obtain ⟨b, sp, v, hb, hsp, ht, rfl⟩ := renameHere?_eq_some hrenamed
      have hwhole := renameHere?_assignment attr old new hb hsp (v ++ r)
      rw [← List.append_assoc, ← ht] at hwhole
      simp only [List.cons_append] at hwhole
      simp only [List.cons_append, renameLiteral?, if_neg hbefore, hwhole, List.append_assoc]

end Texts

/-! ### Tokens -/

namespace SourceFile

variable {f : SourceFile} {tag : MappingTag} {attr old new : Text}

theorem next?_lt {p : Token → Bool} {start stop i : ℕ} (h : f.next? p start (some stop) = some i) :
    i < stop := by
  obtain ⟨hle, hlt, -⟩ := findUp_eq_some h
  rw [Option.getD_some] at hlt
  omega

/-- The token in which a value is made new is the first one with the old value. -/
theorem map_fst_docLiteral? (f : SourceFile) (tag : MappingTag) (attr old new : Text) :
    (f.docLiteral? tag attr old new).map Prod.fst =
      (List.range' tag.start (tag.stop - tag.start)).find? fun i =>
        f.kindAt i == some .docText && (renameLiteral? attr old [] none (f.textAt i)).isSome := by
  unfold docLiteral?
  induction List.range' tag.start (tag.stop - tag.start) with
  | nil => rfl
  | cons i is ih =>
    rw [List.findSome?_cons, List.find?_cons]
    by_cases hkind : f.kindAt i = some .docText
    · cases hnew : renameLiteral? attr old new none (f.textAt i) with
      | none =>
        have hnone : renameLiteral? attr old [] none (f.textAt i) = none := by
          cases hold : renameLiteral? attr old [] none (f.textAt i) with
          | none => rfl
          | some t =>
            obtain ⟨_, _, _, _, -, -, -, -, hall⟩ := renameLiteral?_spec hold
            cases hnew.symm.trans (hall new)
        simpa [hkind, hnone] using ih
      | some t =>
        obtain ⟨_, _, _, _, -, -, -, -, hall⟩ := renameLiteral?_spec hnew
        simp [hkind, hall]
    · rw [show (f.kindAt i == some .docText) = false from beq_false_of_ne hkind, Bool.false_and]
      simpa [hkind] using ih

theorem docLiteral?_eq_some {i : ℕ} {t : Text} (h : f.docLiteral? tag attr old new = some (i, t)) :
    tag.start ≤ i ∧ i < tag.stop ∧ f.kindAt i = some .docText ∧
      renameLiteral? attr old new none (f.textAt i) = some t := by
  obtain ⟨j, hj, h⟩ := List.exists_of_findSome?_eq_some h
  obtain ⟨_, hkind, h⟩ := Option.bind_eq_some_iff.1 h
  obtain ⟨t', hrename, h⟩ := Option.bind_eq_some_iff.1 h
  cases h
  rw [List.mem_range'_1] at hj
  exact ⟨hj.1, by omega, (Option.guard_eq_some' _).1 hkind, hrename⟩

theorem nativeLiteral?_eq_some {j : ℕ} (h : f.nativeLiteral? tag attr = some j) :
    tag.start ≤ j ∧ j < tag.stop ∧ f.kindAt j = some .quoted ∧
      ∃ colon, f.kindAt colon = some .colon ∧
        f.nextSignificant? (colon + 1) (some tag.stop) = some j := by
  obtain ⟨i, hi, h⟩ := List.exists_of_findSome?_eq_some h
  obtain ⟨-, -, h⟩ := Option.bind_eq_some_iff.1 h
  obtain ⟨colon, hnext, h⟩ := Option.bind_eq_some_iff.1 h
  obtain ⟨_, hcolon, h⟩ := Option.bind_eq_some_iff.1 h
  obtain ⟨value, hvalue, h⟩ := Option.bind_eq_some_iff.1 h
  obtain ⟨_, hquoted, h⟩ := Option.bind_eq_some_iff.1 h
  cases h
  rw [List.mem_range'_1] at hi
  have hle := (next?_eq_some hnext).1
  have hle' := (next?_eq_some hvalue).1
  exact ⟨by omega, next?_lt hvalue, (Option.guard_eq_some' _).1 hquoted, colon,
    (Option.guard_eq_some' _).1 hcolon, hvalue⟩

end SourceFile

end EntityLint
