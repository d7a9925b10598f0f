import EntityLint.Proofs.Mapping.Arguments
import EntityLint.Proofs.Mapping.Insertions
import EntityLint.Proofs.Token.Rules

/-!
# Where the arguments of an annotation name an attribute

An attribute is named where its name stands in front of a delimiter. The reader takes the arguments
part by part, and what it takes in front of such a place does not depend on the text behind the
delimiter. So where an attribute is named at one place only, its value can be exchanged there.

* `afterName?`, `isFresh`, `namePlaces`: the places at which an attribute is named;
* `Passes`, `passes_readStep`: a part in front of a place is read alike whatever follows;
* `readStep_eq_readNamed`, `exists_name_of_readStep`: the part that begins at such a place;
* `exists_place_of_mem`: what the reader finds is named at such a place.

The main statement is `get?_attributes_rename`.
-/

namespace EntityLint

open Text

/-! ### Places -/

/-- The text after a name, blanks and a delimiter, if a text begins with them. -/
def afterName? (d : Dialect) (attr t : Text) : Option Text :=
  (stripLeading? attr t).bind fun rest => stripLeading? [d.delimiter] (rest.dropWhile isBlank)

/-- Whether a name may begin after a text. The reader passes over one character between attributes,
so that only two characters of a name in a row show that a longer name has begun. -/
def isFresh (t : Text) : Bool :=
  match t.reverse with
  | c :: c' :: _ => !(isNameChar c && isNameChar c')
  | _ => true

/-- Whether an attribute is named between two parts of a text. -/
def isNamePlace (d : Dialect) (attr u t : Text) : Bool := isFresh u && (afterName? d attr t).isSome

/-- The places at which an attribute is named in some arguments. -/
def namePlaces (d : Dialect) (attr t : Text) : List ℕ :=
  (List.range t.length).filter fun i => isNamePlace d attr (t.take i) (t.drop i)

/-- Names that attributes have where they are named. -/
structure IsAttributeName (attr : Text) : Prop where
  ne : attr ≠ []
  chars : ∀ c ∈ attr, isNameChar c = true
  named : attr ≠ positionalName

theorem isAttributeName_name : IsAttributeName "name".toList :=
  ⟨by decide, List.all_eq_true.1 rfl, by decide⟩

section Places

variable {d : Dialect} {attr u t : Text}

theorem isFresh_of_getLast? (h : t.getLast?.all (!isNameChar ·) = true) : isFresh t = true := by
  rw [← List.head?_reverse] at h
  unfold isFresh
  split
  · next heq =>
    rw [heq] at h
    have hc := Bool.not_eq_true' _ ▸ h
    rw [show isNameChar _ = false from hc]
    rfl
  · rfl

/-- What stands in front of a text that ends in no name does not matter. -/
theorem isFresh_append {c c' : Char} (h : isNameChar c' = false) (u : Text) :
    isFresh (u ++ [c', c]) = true := by
  simp [isFresh, h]

theorem isFresh_append_singleton {c : Char} (h : isNameChar c = false) (u : Text) :
    isFresh (u ++ [c]) = true :=
  isFresh_of_getLast? (by simp [h])

theorem afterName?_eq_some_iff {rest : Text} : afterName? d attr t = some rest ↔
    ∃ b, (∀ c ∈ b, isBlank c = true) ∧ t = attr ++ (b ++ d.delimiter :: rest) := by
  have hdelimiter : isBlank d.delimiter = false := by cases d <;> rfl
  constructor
  · intro h
    obtain ⟨r, hr, h⟩ := Option.bind_eq_some_iff.1 h
    refine ⟨r.takeWhile isBlank, fun c hc => List.mem_takeWhile_imp hc, ?_⟩
    rw [← append_of_stripLeading? hr, ← List.singleton_append, append_of_stripLeading? h,
      List.takeWhile_append_dropWhile]
  · rintro ⟨b, hb, rfl⟩
    rw [afterName?, stripLeading?_append, Option.bind_some,
      dropWhile_append_of_head hb (by simpa using hdelimiter)]
    exact stripLeading?_append [d.delimiter] rest

/-- In a text with one place at most, two places are one. -/
theorem eq_of_isNamePlace {u' t' : Text} (hattr : attr ≠ [])
    (h : (namePlaces d attr (u ++ t)).length ≤ 1) (heq : u ++ t = u' ++ t')
    (hplace : isNamePlace d attr u t = true) (hplace' : isNamePlace d attr u' t' = true) :
    u = u' ∧ t = t' := by
  have hmem : ∀ {v s : Text}, u ++ t = v ++ s → isNamePlace d attr v s = true →
      v.length ∈ namePlaces d attr (u ++ t) := by
    intro v s hvs hv
    have hne : s ≠ [] := by
      rintro rfl
      obtain ⟨rest, hrest⟩ := Option.isSome_iff_exists.1 (Bool.and_eq_true_iff.1 hv).2
      obtain ⟨_, -, hnil⟩ := afterName?_eq_some_iff.1 hrest
      exact hattr (List.append_eq_nil_iff.1 hnil.symm).1
    have hlen := List.length_pos_iff.2 hne
    rw [namePlaces, List.mem_filter, List.mem_range, hvs, List.length_append, List.take_left,
      List.drop_left]
    exact ⟨by omega, hv⟩
  have hlen : u.length = u'.length := by
    have h₁ := hmem rfl hplace
    have h₂ := hmem heq hplace'
    match hplaces : namePlaces d attr (u ++ t), h with
    | [], _ => rw [hplaces] at h₁; cases h₁
    | [i], _ =>
      rw [hplaces, List.mem_singleton] at h₁ h₂
      rw [h₁, h₂]
  exact List.append_inj heq hlen

end Places

/-! ### What the reader passes over -/

/-- Whether a reader has passed into a text, or stands at the same distance from it as another reader
from another text. -/
def Passes (z z' r r' : Text) : Prop :=
  r.length < z.length ∨ ∃ a, r = a ++ z ∧ r' = a ++ z'

section Passing

variable {d : Dialect} {z z' r r' : Text}

theorem Passes.map (h : Passes z z' r r') {g : Text → Text} (hg : ∀ t, (g t).length ≤ t.length)
    (hpass : ∀ a, Passes z z' (g (a ++ z)) (g (a ++ z'))) : Passes z z' (g r) (g r') := by
  rcases h with h | ⟨a, rfl, rfl⟩
  · exact .inl (lt_of_le_of_lt (hg r) h)
  · exact hpass a

end Passing

/-- The marks of a dialect are no part of a name. -/
theorem isNameChar_marks (d : Dialect) : isNameChar d.quote = false ∧
    isNameChar d.opening = false ∧ isNameChar d.closing = false := by
  cases d <;> exact ⟨rfl, rfl, rfl⟩

theorem afterSeparator_cons (c : Char) (t : Text) :
    afterSeparator (c :: t) = if c = ',' ∧ t.head? = some ' ' then t.tail else t := by
  unfold afterSeparator
  split
  · next heq =>
    obtain ⟨rfl, rfl⟩ := List.cons.inj heq
    rfl
  · next t' hnot heq =>
    obtain ⟨rfl, rfl⟩ := List.cons.inj heq
    rw [if_neg]
    rintro ⟨rfl, hhead⟩
    obtain ⟨s, rfl⟩ := List.head?_eq_some_iff.1 hhead
    exact hnot s rfl rfl
  · next heq => cases heq

theorem trim_cons {c : Char} (hc : isBlank c = false) (t : Text) : ∃ u, trim (c :: t) = c :: u := by
  obtain ⟨u, v, huv, htrim, hv, -⟩ := dropEndWhile_spec isBlank (c :: t)
  rw [trim, trimStart, List.dropWhile_cons_of_neg (Bool.eq_false_iff.1 hc), trimEnd, htrim]
  cases u with
  | nil =>
    rw [List.nil_append] at huv
    have := hv c (huv ▸ List.mem_cons_self)
    rw [hc] at this
    cases this
  | cons d u => exact ⟨u, by rw [(List.cons.inj huv).1]⟩

/-- A literal that is not closed takes all of the text. -/
theorem rest_readAttribute_of_unclosed {d : Dialect} {t : Text} (hopen : t.head? = some d.opening)
    (hclose : breakOn [d.closing] t = none) : (readAttribute d t).rest = [] := by
  obtain ⟨t, rfl⟩ := List.head?_eq_some_iff.1 hopen
  have hmarks : d.opening ≠ d.delimiter ∧ d.opening ≠ d.quote ∧ isBlank d.opening = false ∧
      isNameChar d.opening = false := by
    cases d <;> exact ⟨by decide, by decide, rfl, rfl⟩
  have hsplit : splitName? d (d.opening :: t) = none := by
    rw [splitName?, breakAtDelimiter, if_neg fun h => hmarks.1 h.1]
    cases breakAtDelimiter d (some d.opening) t with
    | none => rfl
    | some parts =>
      obtain ⟨u, hu⟩ := trim_cons hmarks.2.2.1 parts.1
      simp [hu, hmarks.2.2.2]
  have hclose' : breakOn [d.closing] t = none := by
    rcases breakOn_singleton_cases d.closing (d.opening :: t) with ⟨hmem, -⟩ | ⟨_, _, -, -, hsome⟩
    · rcases breakOn_singleton_cases d.closing t with ⟨-, hnone⟩ | ⟨b, a, -, rfl, -⟩
      · exact hnone
      · exact absurd (by simp) hmem
    · cases hclose.symm.trans hsome
  simp only [readAttribute, hsplit, readNamed, readValue, if_neg hmarks.2.1, hclose', if_true]
  rfl

/-- A name with blanks and a delimiter after it, in front of two texts that may follow. -/
structure NamedBefore (d : Dialect) (attr z z' w w' : Text) : Prop where
  name : IsAttributeName attr
  text : ∃ b, (∀ c ∈ b, isBlank c = true) ∧ z = attr ++ (b ++ d.delimiter :: w) ∧
    z' = attr ++ (b ++ d.delimiter :: w')
  head : w.head? ≠ some d.delimiter
  head' : w'.head? ≠ some d.delimiter

namespace NamedBefore

variable {d : Dialect} {attr z z' w w' : Text} (h : NamedBefore d attr z z' w w')

include h

theorem swap : NamedBefore d attr z' z w' w := by
  obtain ⟨b, hb, hz, hz'⟩ := h.text
  exact ⟨h.name, ⟨b, hb, hz', hz⟩, h.head', h.head⟩

theorem exists_cons : ∃ c s s', isNameChar c = true ∧ z = c :: s ∧ z' = c :: s' := by
  obtain ⟨b, -, rfl, rfl⟩ := h.text
  obtain ⟨c, attr', hc⟩ := List.exists_cons_of_ne_nil h.name.ne
  exact ⟨c, _, _, h.name.chars c (hc ▸ List.mem_cons_self), by rw [hc]; rfl, by rw [hc]; rfl⟩

theorem passes_dropWhile {p : Char → Bool} (hp : ∀ c, isNameChar c = true → p c = false)
    (a : Text) : Passes z z' ((a ++ z).dropWhile p) ((a ++ z').dropWhile p) := by
  obtain ⟨c, s, s', hc, rfl, rfl⟩ := h.exists_cons
  exact .inr ⟨a.dropWhile p, dropWhile_append_cons (hp c hc) a s, dropWhile_append_cons (hp c hc) a s'⟩

theorem passes_afterSeparator (a : Text) :
    Passes z z' (afterSeparator (a ++ z)) (afterSeparator (a ++ z')) := by
  obtain ⟨c, s, s', hc, rfl, rfl⟩ := h.exists_cons
  have hcomma : c ≠ ',' ∧ c ≠ ' ' := by constructor <;> rintro rfl <;> cases hc
  match a with
  | [] =>
    refine .inl ?_
    rw [List.nil_append, afterSeparator_cons, if_neg fun h => hcomma.1 h.1]
    simp
  | [e] =>
    have hnot : ∀ t : Text, ¬(e = ',' ∧ (c :: t).head? = some ' ') :=
      fun t h => hcomma.2 (Option.some.inj h.2)
    refine .inr ⟨[], ?_, ?_⟩ <;>
      rw [List.singleton_append, afterSeparator_cons, if_neg (hnot _), List.nil_append]
  | e :: e' :: a =>
    rw [List.cons_append, List.cons_append, List.cons_append, List.cons_append, afterSeparator_cons,
      afterSeparator_cons, List.head?_cons, List.head?_cons]
    split
    · exact .inr ⟨a, rfl, rfl⟩
    · exact .inr ⟨e' :: a, rfl, rfl⟩

/-- A first occurrence stands in front of the place or behind its beginning. -/
theorem passes_breakOn {q : Char} (hq : isNameChar q = false) (a : Text) :
    (∃ b a', breakOn [q] (a ++ z) = some (b, a' ++ z) ∧ breakOn [q] (a ++ z') = some (b, a' ++ z')) ∨
      ∀ b r, breakOn [q] (a ++ z) = some (b, r) → r.length < z.length := by
  by_cases hmem : q ∈ a
  · obtain ⟨b, a', rfl, hb⟩ := List.eq_append_cons_of_mem hmem
    refine .inl ⟨b, a', ?_, ?_⟩ <;>
      rw [List.append_assoc, List.cons_append, breakOn_singleton hb]
  · refine .inr fun b r hbreak => ?_
    have htext := append_of_breakOn hbreak
    rw [List.append_assoc, List.singleton_append] at htext
    rcases List.append_eq_append_iff.1 htext with ⟨m, rfl, hz⟩ | ⟨m, rfl, hz⟩
    · cases m with
      | nil =>
        obtain ⟨c, s, -, hc, hz', -⟩ := h.exists_cons
        rw [hz', List.nil_append] at hz
        obtain rfl := (List.cons.inj hz).1
        rw [hc] at hq
        cases hq
      | cons e m =>
        obtain rfl := (List.cons.inj hz).1
        exact absurd (by simp) hmem
    · rw [hz]
      simp only [List.length_append, List.length_cons]
      omega

theorem delimiter_not_mem : ∀ b : Text, (∀ c ∈ b, isBlank c = true) → d.delimiter ∉ attr ++ b := by
  intro b hb hmem
  rcases List.mem_append.1 hmem with hmem | hmem
  · have := h.name.chars _ hmem
    cases d <;> cases this
  · have := hb _ hmem
    cases d <;> cases this

theorem all_isBlank_append (a : Text) : (a ++ z).all isBlank = false := by
  obtain ⟨c, s, s', hc, rfl, rfl⟩ := h.exists_cons
  simp [isBlank_of_isNameChar hc]

theorem passes_readBare (a : Text) :
    Passes z z' (readBare (a ++ z)).rest (readBare (a ++ z')).rest := by
  by_cases hmem : ',' ∈ a
  · obtain ⟨b, a', rfl, hb⟩ := List.eq_append_cons_of_mem hmem
    have htake : ∀ s : Text, ((b ++ ',' :: a') ++ s).takeWhile (· != ',') = b := by
      intro s
      rw [List.append_assoc, List.cons_append]
      refine takeWhile_append_of_head (fun c hc => ?_) rfl
      have : c ≠ ',' := by rintro rfl; exact hb hc
      simpa using this
    have hlen : (trimEnd b).length ≤ (b ++ ',' :: a').length := by
      have : (trimEnd b).length ≤ b.length := by
        rw [trimEnd, dropEndWhile, List.length_reverse]
        exact (length_dropWhile_le _ _).trans_eq List.length_reverse
      rw [List.length_append]
      omega
    refine .inr ⟨(b ++ ',' :: a').drop (trimEnd b).length, ?_, ?_⟩ <;>
      rw [readBare, htake, List.drop_append_of_le_length hlen]
  · refine .inl ?_
    obtain ⟨c, s, s', hc, hz, -⟩ := h.exists_cons
    have hcomma : (c != ',') = true := by
      rw [bne_iff_ne]
      rintro rfl
      cases hc
    have hall : ∀ e ∈ a ++ [c], (e != ',') = true := by
      intro e he
      rcases List.mem_append.1 he with he | he
      · rw [bne_iff_ne]
        rintro rfl
        exact hmem he
      · rwa [List.mem_singleton.1 he]
    -- the name is not blank, so that it is part of the value
    obtain ⟨m, v, hmv, htrim, hv, -⟩ := dropEndWhile_spec isBlank ((a ++ z).takeWhile (· != ','))
    rw [hz, ← List.singleton_append (x := c), ← List.append_assoc,
      List.takeWhile_append_of_pos hall] at hmv
    have hlt : a.length < m.length := by
      by_contra hle
      have hblank := hv c (by
        have := congrArg (fun t => t[a.length]?) hmv
        simp only [List.append_assoc, List.singleton_append] at this
        rw [List.getElem?_append_right (le_refl _), Nat.sub_self, List.getElem?_cons_zero,
          List.getElem?_append_right (not_lt.1 hle)] at this
        exact List.mem_of_getElem? this.symm)
      rw [isBlank_of_isNameChar hc] at hblank
      cases hblank
    have hpos : 0 < z.length := by rw [hz]; simp
    simp only [readBare, trimEnd, htrim, List.length_drop, List.length_append]
    omega

theorem passes_readValue (a : Text) :
    Passes z z' (readValue d (a ++ z)).rest (readValue d (a ++ z')).rest := by
  obtain ⟨hquote, hopening, hclosing⟩ := isNameChar_marks d
  match a with
  | [] =>
    have hbare := h.passes_readBare []
    obtain ⟨c, s, s', hc, rfl, rfl⟩ := h.exists_cons
    have hne : c ≠ d.quote ∧ c ≠ d.opening := by
      constructor <;> rintro rfl <;> simp_all
    rwa [List.nil_append, List.nil_append, readValue, readValue, if_neg hne.1, if_neg hne.2,
      if_neg hne.1, if_neg hne.2]
  | c :: a =>
    have hbare := h.passes_readBare (c :: a)
    rw [List.cons_append, List.cons_append] at hbare ⊢
    have hpos : 0 < z.length := by
      obtain ⟨_, _, _, -, hz, -⟩ := h.exists_cons
      rw [hz]
      simp
    simp only [readValue]
    split_ifs
    · rcases h.passes_breakOn hquote a with ⟨b, a', h₁, h₂⟩ | hlt
      · rw [h₁, h₂]
        exact .inr ⟨a', rfl, rfl⟩
      · refine .inl ?_
        split
        · next hbreak => exact hlt _ _ hbreak
        · exact hpos
    · rcases h.passes_breakOn hclosing a with ⟨b, a', h₁, h₂⟩ | hlt
      · rw [h₁, h₂]
        exact .inr ⟨a', rfl, rfl⟩
      · refine .inl ?_
        split
        · next hbreak => exact hlt _ _ hbreak
        · exact hpos
    · exact hbare

theorem passes_readNamed {r r' : Text} (hr : Passes z z' r r') (name : Text)
    (issues : List AttributeIssue) :
    Passes z z' (readNamed d name issues r).rest (readNamed d name issues r').rest := by
  have hspace : ∀ c, isNameChar c = true → (c == ' ') = false := by
    intro c hc
    rw [beq_eq_false_iff_ne]
    rintro rfl
    cases hc
  simp only [readNamed]
  refine ((hr.map (length_rest_readValue d) h.passes_readValue).map (length_dropWhile_le _)
    (h.passes_dropWhile hspace)).map (fun t => ?_) h.passes_afterSeparator
  exact (length_afterSeparator t).trans (Nat.sub_le _ _)

/-- The delimiter after the name is one, whatever stands in front of the name. -/
theorem breakAtDelimiter_name (before : Option Char) {b : Text} (hb : ∀ c ∈ b, isBlank c = true)
    (hz : z = attr ++ (b ++ d.delimiter :: w)) :
    breakAtDelimiter d before z = some (attr ++ b, w) := by
  have hnot := h.delimiter_not_mem b hb
  obtain ⟨c, attr', hc⟩ := List.exists_cons_of_ne_nil h.name.ne
  rw [hc, List.cons_append] at hnot
  obtain ⟨hne, hnot⟩ := not_or.1 (mt List.mem_cons.2 hnot)
  have hrest := breakAtDelimiter_append hnot h.head (some c) (by simpa using Ne.symm hne)
  rw [hz, hc, List.cons_append, List.cons_append, breakAtDelimiter, if_neg fun h => hne h.1.symm,
    ← List.append_assoc, hrest]
  rfl

/-- The first delimiter stands in front of the place or is the one that follows the name. -/
theorem breakAtDelimiter_cases (a : Text) (before : Option Char) :
    (∃ n a', breakAtDelimiter d before (a ++ z) = some (n, a' ++ z) ∧
      breakAtDelimiter d before (a ++ z') = some (n, a' ++ z')) ∨
    ∃ n, breakAtDelimiter d before (a ++ z) = some (n, w) ∧
      breakAtDelimiter d before (a ++ z') = some (n, w') := by
  induction a generalizing before with
  | nil =>
    obtain ⟨b, hb, hz, hz'⟩ := h.text
    exact .inr ⟨attr ++ b, h.breakAtDelimiter_name before hb hz,
      h.swap.breakAtDelimiter_name before hb hz'⟩
  | cons c a ih =>
    have hhead : (a ++ z').head? = (a ++ z).head? := by
      obtain ⟨e, s, s', he, hz, hz'⟩ := h.exists_cons
      cases a with
      | nil => rw [hz, hz']; rfl
      | cons _ _ => rfl
    rw [List.cons_append, List.cons_append, breakAtDelimiter, breakAtDelimiter, hhead]
    by_cases hc : c = d.delimiter ∧ (d = .doc ∨ (a ++ z).head? ≠ some ':' ∧ before ≠ some ':')
    · rw [if_pos hc, if_pos hc]
      exact .inl ⟨[], a, rfl, rfl⟩
    · rw [if_neg hc, if_neg hc]
      rcases ih (some c) with ⟨n, a', h₁, h₂⟩ | ⟨n, h₁, h₂⟩
      · exact .inl ⟨c :: n, a', by rw [h₁]; rfl, by rw [h₂]; rfl⟩
      · exact .inr ⟨c :: n, by rw [h₁]; rfl, by rw [h₂]; rfl⟩

theorem length_lt : w.length < z.length := by
  obtain ⟨b, -, rfl, -⟩ := h.text
  simp only [List.length_append, List.length_cons]
  omega

/-- Either both texts begin with a name up to the first delimiter, or neither does. -/
theorem passes_readAttribute (a : Text) :
    Passes z z' (readAttribute d (a ++ z)).rest (readAttribute d (a ++ z')).rest := by
  have hpositional := h.passes_readNamed (.inr ⟨a, rfl, rfl⟩) positionalName []
  have hspace : ∀ c, isNameChar c = true → (c == ' ') = false := by
    intro c hc
    rw [beq_eq_false_iff_ne]
    rintro rfl
    cases hc
  rcases h.breakAtDelimiter_cases a none with ⟨n, a', h₁, h₂⟩ | ⟨n, h₁, h₂⟩
  · simp only [readAttribute, splitName?, h₁, h₂, Option.bind_eq_bind, Option.bind_some]
    split_ifs
    · have hissues : spacingIssue? d (trim n) (a' ++ z') = spacingIssue? d (trim n) (a' ++ z) := by
        obtain ⟨e, s, s', he, hz, hz'⟩ := h.exists_cons
        cases a' with
        | nil => rw [hz, hz']; rfl
        | cons _ _ => rfl
      dsimp only
      rw [hissues]
      exact h.passes_readNamed (h.passes_dropWhile hspace a') _ _
    · exact hpositional
  · simp only [readAttribute, splitName?, h₁, h₂, Option.bind_eq_bind, Option.bind_some]
    split_ifs
    · refine .inl (lt_of_le_of_lt ?_ h.length_lt)
      exact length_rest_readNamed.trans ((Nat.sub_le _ _).trans (length_dropWhile_le _ _))
    · exact hpositional

/-- What a part of the arguments leaves over does not depend on the text behind a place, unless the
part reaches that far. -/
theorem passes_readStep (a : Text) :
    Passes z z' (readStep d (a ++ z)).rest (readStep d (a ++ z')).rest := by
  obtain ⟨e, s, s', he, hz, hz'⟩ := id h.exists_cons
  have hcomma : (e == ',') = false := by
    rw [beq_eq_false_iff_ne]
    rintro rfl
    cases he
  have hdrop : ∀ t : Text, (a ++ e :: t).dropWhile (· == ',') = a.dropWhile (· == ',') ++ e :: t :=
    dropWhile_append_cons (p := (· == ',')) hcomma a
  have hzdrop : (a ++ z).dropWhile (· == ',') = a.dropWhile (· == ',') ++ z := hz ▸ hdrop s
  have hzdrop' : (a ++ z').dropWhile (· == ',') = a.dropWhile (· == ',') ++ z' := hz' ▸ hdrop s'
  have hblank := h.all_isBlank_append (a.dropWhile (· == ','))
  have hblank' := h.swap.all_isBlank_append (a.dropWhile (· == ','))
  simp only [readStep, hzdrop, hzdrop', hblank, hblank', Bool.false_eq_true, if_false]
  generalize a.dropWhile (· == ',') = a
  have hattribute := h.passes_readAttribute a
  have hhead : (a ++ z').head? = (a ++ z).head? := by
    cases a with
    | nil => rw [hz, hz']; rfl
    | cons _ _ => rfl
  obtain ⟨-, -, hclosing⟩ := isNameChar_marks d
  by_cases hopen : (a ++ z).head? = some d.opening
  · rw [skipLiteral?, skipLiteral?, if_pos hopen, if_pos (hhead ▸ hopen)]
    have hskip : ∀ c, isNameChar c = true → (c == ',' || isBlank c) = false := by
      intro c hc
      rw [Bool.or_eq_false_iff, beq_eq_false_iff_ne]
      refine ⟨?_, isBlank_of_isNameChar hc⟩
      rintro rfl
      cases hc
    rcases h.passes_breakOn hclosing a with ⟨b, a', h₁, h₂⟩ | hlt
    · rw [h₁, h₂]
      exact h.passes_dropWhile hskip a'
    · refine .inl ?_
      cases hbreak : breakOn [d.closing] (a ++ z) with
      | some parts => exact lt_of_le_of_lt (length_dropWhile_le _ _) (hlt _ _ hbreak)
      | none =>
        have hrest := rest_readAttribute_of_unclosed hopen hbreak
        have hpos : 0 < z.length := by rw [hz]; simp
        rwa [Option.map_none, hrest]
  · rw [skipLiteral?, skipLiteral?, if_neg hopen, if_neg (hhead ▸ hopen)]
    exact hattribute

end NamedBefore

/-! ### Where a part begins -/

/-- Whether a text does not end in two characters of a name, whatever stands in front of it. -/
def EndsFresh (t : Text) : Prop :=
  (∃ u c, t = u ++ [c] ∧ isNameChar c = false) ∨ ∃ u c c', t = u ++ [c, c'] ∧ isNameChar c = false

theorem EndsFresh.isFresh_append {t : Text} (h : EndsFresh t) (pre : Text) :
    isFresh (pre ++ t) = true := by
  rcases h with ⟨u, c, rfl, hc⟩ | ⟨u, c, c', rfl, hc⟩
  · rw [← List.append_assoc]
    exact isFresh_append_singleton hc _
  · rw [← List.append_assoc]
    exact EntityLint.isFresh_append hc _

theorem EndsFresh.append {t : Text} (h : EndsFresh t) (pre : Text) : EndsFresh (pre ++ t) := by
  rcases h with ⟨u, c, rfl, hc⟩ | ⟨u, c, c', rfl, hc⟩
  · exact .inl ⟨pre ++ u, c, (List.append_assoc ..).symm, hc⟩
  · exact .inr ⟨pre ++ u, c, c', (List.append_assoc ..).symm, hc⟩

/-- Characters that neither end a name nor belong to one: blanks and commas. -/
theorem isNameChar_eq_false_of_blank {c : Char} (h : c = ',' ∨ isBlank c = true) :
    isNameChar c = false := by
  refine Bool.eq_false_iff.2 fun hc => ?_
  rcases h with rfl | h
  · cases hc
  · rw [isBlank_of_isNameChar hc] at h
    cases h

section Reading

variable {d : Dialect} {t : Text}

/-- A bare value ends before a comma or a blank. -/
theorem readBare_spec (t : Text) : ∃ v, t = v ++ (readBare t).rest ∧
    ∀ c ∈ (readBare t).rest.head?, isNameChar c = false := by
  obtain ⟨run, rest, rfl, hrun, hrest⟩ := exists_run (· != ',') t
  obtain ⟨u, v, rfl, htrim, hv, -⟩ := dropEndWhile_spec isBlank run
  have hreading : (readBare ((u ++ v) ++ rest)).rest = v ++ rest := by
    rw [readBare, takeWhile_append_of_head hrun hrest, trimEnd, htrim, List.append_assoc,
      List.drop_left]
  refine ⟨u, by rw [hreading, List.append_assoc], fun c hc => ?_⟩
  rw [hreading] at hc
  cases v with
  | cons e v =>
    obtain rfl : e = c := Option.some.inj hc
    exact isNameChar_eq_false_of_blank (.inr (hv e List.mem_cons_self))
  | nil =>
    rw [List.nil_append] at hc
    rw [Option.mem_def.1 hc] at hrest
    have hcomma : c = ',' := by simpa using hrest
    exact isNameChar_eq_false_of_blank (.inl hcomma)

/-- A value ends with a mark, or before a comma or a blank. -/
theorem readValue_spec (d : Dialect) (t : Text) : ∃ v, t = v ++ (readValue d t).rest ∧
    ((∀ c ∈ (readValue d t).rest.head?, isNameChar c = false) ∨
      ∃ u c, v = u ++ [c] ∧ isNameChar c = false) := by
  obtain ⟨hquote, -, hclosing⟩ := isNameChar_marks d
  have hbare : ∀ t, ∃ v, t = v ++ (readBare t).rest ∧
      ((∀ c ∈ (readBare t).rest.head?, isNameChar c = false) ∨
        ∃ u c, v = u ++ [c] ∧ isNameChar c = false) := by
    intro t
    obtain ⟨v, ht, hv⟩ := readBare_spec t
    exact ⟨v, ht, .inl hv⟩
  cases t with
  | nil => exact hbare []
  | cons c t =>
    simp only [readValue]
    split_ifs
    · split
      · next text rest hbreak =>
        refine ⟨c :: (text ++ [d.quote]), ?_, .inr ⟨c :: text, d.quote, rfl, hquote⟩⟩
        rw [← append_of_breakOn hbreak, List.cons_append]
      · exact ⟨c :: t, (List.append_nil _).symm, .inl (by simp)⟩
    · split
      · next text rest hbreak =>
        refine ⟨c :: (text ++ [d.closing]), ?_, .inr ⟨c :: text, d.closing, rfl, hclosing⟩⟩
        rw [← append_of_breakOn hbreak, List.cons_append]
      · exact ⟨c :: t, (List.append_nil _).symm, .inl (by simp)⟩
    · exact hbare _

theorem EndsFresh.concat {c : Char} (h : isNameChar c = false) (u : Text) : EndsFresh (u ++ [c]) :=
  .inl ⟨u, c, rfl, h⟩

/-- After a mark, or before a comma or a blank, spaces and a separator leave a name room to begin. -/
theorem exists_endsFresh_of_afterSeparator (t : Text)
    (hne : afterSeparator (t.dropWhile (· == ' ')) ≠ []) :
    ∃ v, t = v ++ afterSeparator (t.dropWhile (· == ' ')) ∧
      (∀ q, isNameChar q = false → EndsFresh (q :: v)) ∧
        ((∀ c ∈ t.head?, isNameChar c = false) → EndsFresh v) := by
  obtain ⟨sp, r, rfl, hsp, hhead⟩ := exists_run (· == ' ') t
  rw [dropWhile_append_of_head hsp hhead] at hne ⊢
  cases r with
  | nil => exact absurd rfl hne
  | cons c r =>
    rw [afterSeparator_cons]
    split
    · next hcomma =>
      obtain ⟨r, rfl⟩ := List.head?_eq_some_iff.1 hcomma.2
      have hend : EndsFresh (sp ++ [c, ' ']) := .append (.concat (c := ' ') rfl [c]) sp
      exact ⟨sp ++ [c, ' '], by simp, fun q _ => hend.append [q], fun _ => hend⟩
    · refine ⟨sp ++ [c], by simp, fun q hq => ?_, fun hfirst => ?_⟩
      · rcases List.eq_nil_or_concat sp with rfl | ⟨sp, e, rfl⟩
        · exact .inr ⟨[], q, c, rfl, hq⟩
        · obtain rfl : e = ' ' := by simpa using hsp e (by simp)
          exact .inr ⟨q :: sp, ' ', c, by simp, rfl⟩
      · rcases List.eq_nil_or_concat sp with rfl | ⟨sp, e, rfl⟩
        · exact .concat (hfirst c rfl) []
        · obtain rfl : e = ' ' := by simpa using hsp e (by simp)
          exact .inr ⟨sp, ' ', c, by simp, rfl⟩

/-- The text after a separator begins where a name may begin. -/
theorem exists_endsFresh_of_readNamed (d : Dialect) (name : Text) (issues : List AttributeIssue)
    (t : Text) (hne : (readNamed d name issues t).rest ≠ []) :
    ∃ v, t = v ++ (readNamed d name issues t).rest ∧ EndsFresh v := by
  obtain ⟨v, ht, hv⟩ := readValue_spec d t
  obtain ⟨s, hs, hmark, hfirst⟩ := exists_endsFresh_of_afterSeparator _ hne
  refine ⟨v ++ s, ?_, ?_⟩
  · rw [readNamed, List.append_assoc, ← hs, ← ht]
  · rcases hv with hv | ⟨u, q, rfl, hq⟩
    · exact (hfirst hv).append v
    · rw [List.append_assoc]
      exact (hmark q hq).append u

theorem breakAtDelimiter_spec {before : Option Char} {name rest : Text}
    (h : breakAtDelimiter d before t = some (name, rest)) : t = name ++ d.delimiter :: rest := by
  induction t generalizing before name with
  | nil => cases h
  | cons c t ih =>
    rw [breakAtDelimiter] at h
    split at h
    · next hc =>
      cases h
      rw [hc.1]
      rfl
    · obtain ⟨⟨n, r⟩, hnr, heq⟩ := Option.map_eq_some_iff.1 h
      cases heq
      rw [ih hnr]
      rfl

/-- A part that is more than blanks: a literal, or an attribute with a name or without one. -/
theorem readStep_cases (h : (readStep d t).rest ≠ [] ∨ (readStep d t).entry ≠ none) :
    (∃ v, t = v ++ (readStep d t).rest ∧ EndsFresh v ∧ (readStep d t).entry = none) ∨
      (∃ u rest, t = u ++ rest ∧ readStep d t = readNamed d positionalName [] rest) ∨
      ∃ u raw sp rest issues, t = u ++ (raw ++ d.delimiter :: (sp ++ rest)) ∧ (∀ c ∈ u, c = ',') ∧
        readStep d t = readNamed d (trim raw) issues rest := by
  obtain ⟨u, t, rfl, hu, hcomma⟩ := exists_run (· == ',') t
  have hu' : ∀ c ∈ u, c = ',' := fun c hc => by simpa using hu c hc
  have hdrop := dropWhile_append_of_head hu hcomma
  by_cases hblank : t.all isBlank = true
  · simp [readStep, hdrop, hblank] at h
  · cases hskip : skipLiteral? d t with
    | some rest =>
      have hstep : readStep d (u ++ t) = ⟨none, [], rest⟩ := by simp [readStep, hdrop, hblank, hskip]
      left
      rw [hstep]
      unfold skipLiteral? at hskip
      split at hskip
      · obtain ⟨⟨b, r⟩, hbreak, rfl⟩ := Option.map_eq_some_iff.1 hskip
        obtain ⟨run, rest, rfl, hrun, hrest⟩ := exists_run (fun c => c == ',' || isBlank c) r
        refine ⟨u ++ (b ++ d.closing :: run), ?_, ?_, rfl⟩
        · dsimp only
          rw [← append_of_breakOn hbreak, dropWhile_append_of_head hrun hrest]
          simp
        · rcases List.eq_nil_or_concat run with rfl | ⟨run, e, rfl⟩
          · exact .append (.inl ⟨b, d.closing, rfl, (isNameChar_marks d).2.2⟩) u
          · have he : e = ',' ∨ isBlank e = true := by simpa using hrun e (by simp)
            exact .append (.append (.inl ⟨d.closing :: run, e, by simp,
              isNameChar_eq_false_of_blank he⟩) b) u
      · cases hskip
    | none =>
      have hstep : readStep d (u ++ t) = readAttribute d t := by simp [readStep, hdrop, hblank, hskip]
      right
      rw [hstep, readAttribute]
      cases hsplit : splitName? d t with
      | none => exact .inl ⟨u, t, rfl, rfl⟩
      | some parts =>
        obtain ⟨raw, r⟩ := parts
        right
        have hbreak : t = raw ++ d.delimiter :: r := by
          obtain ⟨⟨n, m⟩, hnm, hif⟩ := Option.bind_eq_some_iff.1 hsplit
          dsimp only at hif
          split at hif
          · cases hif
            exact breakAtDelimiter_spec hnm
          · cases hif
        obtain ⟨sp, rest, rfl, hsp, hrest⟩ := exists_run (· == ' ') r
        dsimp only
        rw [dropWhile_append_of_head hsp hrest]
        exact ⟨u, raw, sp, rest, _, by rw [hbreak], hu', rfl⟩

/-- After a part, the text goes on where a name may begin. -/
theorem exists_endsFresh_of_readStep (h : (readStep d t).rest ≠ []) :
    ∃ v, t = v ++ (readStep d t).rest ∧ EndsFresh v := by
  rcases readStep_cases (.inl h) with ⟨v, ht, hv, -⟩ | ⟨u, rest, rfl, hstep⟩ |
    ⟨u, raw, sp, rest, issues, rfl, -, hstep⟩
  · exact ⟨v, ht, hv⟩
  · rw [hstep] at h ⊢
    obtain ⟨v, hrest, hv⟩ := exists_endsFresh_of_readNamed d _ _ rest h
    exact ⟨u ++ v, by rw [List.append_assoc, ← hrest], hv.append u⟩
  · rw [hstep] at h ⊢
    obtain ⟨v, hrest, hv⟩ := exists_endsFresh_of_readNamed d _ _ rest h
    refine ⟨u ++ (raw ++ d.delimiter :: sp) ++ v, ?_, hv.append _⟩
    rw [List.append_assoc, ← hrest]
    simp

/-- An attribute that a part names is named in it, after commas and blanks. -/
theorem exists_name_of_readStep {attr : Text} {value : AttributeValue} (hattr : IsAttributeName attr)
    (h : (readStep d t).entry = some (attr, value)) :
    ∃ x y s, t = x ++ (y ++ s) ∧ (∀ c ∈ x, c = ',') ∧ (∀ c ∈ y, isBlank c = true) ∧
      (afterName? d attr s).isSome = true := by
  rcases readStep_cases (d := d) (t := t) (.inr (by rw [h]; exact Option.some_ne_none _)) with
    ⟨v, -, -, hnone⟩ | ⟨u, rest, -, hstep⟩ | ⟨x, raw, sp, rest, issues, rfl, hx, hstep⟩
  · cases hnone.symm.trans h
  · rw [hstep] at h
    exact absurd (congrArg Prod.fst (Option.some.inj h)).symm hattr.named
  · rw [hstep] at h
    have hname : trim raw = attr := congrArg Prod.fst (Option.some.inj h)
    obtain ⟨y, b, hraw, hy, hb⟩ := trim_spec raw
    rw [hname] at hraw
    refine ⟨x, y, attr ++ (b ++ d.delimiter :: (sp ++ rest)), by rw [hraw]; simp, hx, hy, ?_⟩
    rw [afterName?_eq_some_iff.2 ⟨b, hb, rfl⟩]
    rfl

theorem isFresh_append_blanks {pre x y : Text} (hpre : isFresh pre = true) (hx : ∀ c ∈ x, c = ',')
    (hy : ∀ c ∈ y, isBlank c = true) : isFresh (pre ++ (x ++ y)) = true := by
  rcases List.eq_nil_or_concat (x ++ y) with hnil | ⟨m, c, hm⟩
  · rwa [hnil, List.append_nil]
  · have hc : c = ',' ∨ isBlank c = true := by
      have hmem : c ∈ x ++ y := by rw [hm]; simp
      exact (List.mem_append.1 hmem).imp (hx c) (hy c)
    rw [hm, List.concat_eq_append, ← List.append_assoc]
    exact isFresh_append_singleton (isNameChar_eq_false_of_blank hc) _

theorem attributeReadings_nil (d : Dialect) : attributeReadings d [] = [] := by
  rw [attributeReadings]
  rfl

/-- An attribute that the reader finds is named where its name may begin. -/
theorem exists_place_of_mem {attr pre : Text} {r : AttributeReading} {value : AttributeValue}
    (hattr : IsAttributeName attr) (hpre : isFresh pre = true) (hr : r ∈ attributeReadings d t)
    (hentry : r.entry = some (attr, value)) :
    ∃ u s, t = u ++ s ∧ isNamePlace d attr (pre ++ u) s = true := by
  induction t using attributeReadings.induct d generalizing pre with
  | case1 t hblank =>
    rw [attributeReadings, dif_pos hblank] at hr
    cases hr
  | case2 t hblank hlt ih =>
    rw [attributeReadings, dif_neg hblank] at hr
    rcases List.mem_cons.1 hr with rfl | hr
    · obtain ⟨x, y, s, rfl, hx, hy, hname⟩ := exists_name_of_readStep hattr hentry
      refine ⟨x ++ y, s, (List.append_assoc ..).symm, ?_⟩
      rw [isNamePlace, hname, Bool.and_true]
      exact isFresh_append_blanks hpre hx hy
    · have hne : (readStep d t).rest ≠ [] := by
        intro hnil
        rw [hnil, attributeReadings_nil] at hr
        cases hr
      obtain ⟨v, ht, hv⟩ := exists_endsFresh_of_readStep hne
      obtain ⟨u, s, hrest, hplace⟩ := ih (hv.isFresh_append pre) hr
      refine ⟨v ++ u, s, ?_, by rwa [← List.append_assoc]⟩
      rw [List.append_assoc, ← hrest, ← ht]

/-- An attribute that begins with commas, blanks and its name is read from behind its delimiter. -/
theorem readStep_eq_readNamed {attr x y b w : Text} (hne : attr ≠ [])
    (hchars : ∀ c ∈ attr, isNameChar c = true) (hx : ∀ c ∈ x, c = ',')
    (hy : ∀ c ∈ y, isBlank c = true) (hb : ∀ c ∈ b, isBlank c = true)
    (hw : w.head? ≠ some d.delimiter) :
    readStep d (x ++ (y ++ (attr ++ (b ++ d.delimiter :: w)))) =
      readNamed d attr ((if isSpacedName d (y ++ (attr ++ b)) then [.spaceAroundName attr] else [])
        ++ (spacingIssue? d attr w).toList) (w.dropWhile (· == ' ')) := by
  have hword := IsTrimmed.of_forall hne fun c hc => isBlank_of_isNameChar (hchars c hc)
  have hmarks : ∀ e ∈ (y ++ (attr ++ (b ++ d.delimiter :: w))).head?, e ≠ ',' ∧ e ≠ d.opening := by
    intro e he
    have hcases : isBlank e = true ∨ isNameChar e = true := by
      cases y with
      | nil =>
        rw [List.nil_append, List.head?_append_of_ne_nil _ hne] at he
        exact .inr (hchars e (List.mem_of_mem_head? he))
      | cons f y => exact .inl (Option.some.inj he ▸ hy f List.mem_cons_self)
    constructor <;> rintro rfl <;> revert hcases <;> cases d <;> decide
  have hdrop : (x ++ (y ++ (attr ++ (b ++ d.delimiter :: w)))).dropWhile (· == ',') =
      y ++ (attr ++ (b ++ d.delimiter :: w)) := by
    refine dropWhile_append_of_head (fun c hc => by simpa using hx c hc) ?_
    cases hhead : (y ++ (attr ++ (b ++ d.delimiter :: w))).head? with
    | none => rfl
    | some e => simpa using (hmarks e hhead).1
  have hskip : skipLiteral? d (y ++ (attr ++ (b ++ d.delimiter :: w))) = none := by
    rw [skipLiteral?, if_neg]
    exact fun h => (hmarks _ h).2 rfl
  have hbreak : breakAtDelimiter d none (y ++ (attr ++ (b ++ d.delimiter :: w))) =
      some (y ++ (attr ++ b), w) := by
    have hnot : d.delimiter ∉ y ++ (attr ++ b) := by
      have hblank : isBlank d.delimiter = false := by cases d <;> rfl
      have hname : isNameChar d.delimiter = false := by cases d <;> rfl
      intro hmem
      rcases List.mem_append.1 hmem with hmem | hmem
      · cases hblank.symm.trans (hy _ hmem)
      · rcases List.mem_append.1 hmem with hmem | hmem
        · cases hname.symm.trans (hchars _ hmem)
        · cases hblank.symm.trans (hb _ hmem)
    have hdelimiter := breakAtDelimiter_append hnot hw none (by simp)
    simpa using hdelimiter
  have htrim : trim (y ++ (attr ++ b)) = attr := hword.trim_blanks hy hb
  have hsplit : splitName? d (y ++ (attr ++ (b ++ d.delimiter :: w))) = some (y ++ (attr ++ b), w) := by
    simpa [splitName?, hbreak, htrim, hne] using hchars
  have hstep : readStep d (x ++ (y ++ (attr ++ (b ++ d.delimiter :: w)))) =
      readAttribute d (y ++ (attr ++ (b ++ d.delimiter :: w))) := by
    simp [readStep, hdrop, hword.all_isBlank_append y, hskip]
  rw [hstep, readAttribute, hsplit]
  dsimp only
  rw [htrim]

end Reading

/-! ### Exchanging a value -/

section Renaming

variable {d : Dialect} {attr u b sp old new v : Text} {q : Char}

/-- A quote is no part of a name, no blank and no delimiter. -/
theorem isQuote_spec (hq : isQuote q = true) (d : Dialect) :
    isNameChar q = false ∧ isBlank q = false ∧ q ≠ d.delimiter := by
  rcases (by simpa [isQuote, or_assoc] using hq : q = '\'' ∨ q = '"' ∨ q = '\x60') with
    rfl | rfl | rfl <;> cases d <;> exact ⟨rfl, rfl, by decide⟩

theorem namedBefore_rename (hattr : IsAttributeName attr) (hb : ∀ c ∈ b, isBlank c = true)
    (hsp : ∀ c ∈ sp, c = ' ') (hq : isQuote q = true) :
    NamedBefore d attr (attr ++ (b ++ d.delimiter :: (sp ++ q :: (old ++ q :: v))))
      (attr ++ (b ++ d.delimiter :: (sp ++ d.quote :: (new ++ d.quote :: v))))
      (sp ++ q :: (old ++ q :: v)) (sp ++ d.quote :: (new ++ d.quote :: v)) := by
  have hhead : ∀ {e : Char} (t : Text), e ≠ d.delimiter →
      (sp ++ e :: t).head? ≠ some d.delimiter := by
    intro e t he h
    cases sp with
    | nil => exact he (Option.some.inj h)
    | cons c sp =>
      have hc := hsp c List.mem_cons_self
      obtain rfl : c = d.delimiter := Option.some.inj h
      cases d <;> cases hc
  exact ⟨hattr, ⟨b, hb, rfl, rfl⟩, hhead _ (isQuote_spec hq d).2.2, hhead _ (by cases d <;> decide)⟩

/-- Where an attribute is named at one place only, the reader comes to that place whatever the value
is, and names the attribute there for the last time. -/
theorem exists_reading_rename (hattr : IsAttributeName attr) (hb : ∀ c ∈ b, isBlank c = true)
    (hsp : ∀ c ∈ sp, c = ' ') (hq : isQuote q = true) (hnew : d.quote ∉ new)
    (hfresh : isFresh u = true)
    (hplaces : (namePlaces d attr
      (u ++ (attr ++ (b ++ d.delimiter :: (sp ++ q :: (old ++ q :: v)))))).length ≤ 1)
    {pre a : Text} (hu : u = pre ++ a) (hpre : isFresh pre = true)
    (hmem : ∃ r ∈ attributeReadings d (a ++ (attr ++ (b ++ d.delimiter :: (sp ++ q :: (old ++ q :: v))))),
      ∃ value, r.entry = some (attr, value)) :
    ∃ before r after, attributeReadings d
        (a ++ (attr ++ (b ++ d.delimiter :: (sp ++ d.quote :: (new ++ d.quote :: v))))) =
        before ++ r :: after ∧ r.entry = some (attr, .string new) ∧
      ∀ r ∈ after, ∀ value, r.entry ≠ some (attr, value) := by
  have hnamed : NamedBefore d attr (attr ++ (b ++ d.delimiter :: (sp ++ q :: (old ++ q :: v))))
      (attr ++ (b ++ d.delimiter :: (sp ++ d.quote :: (new ++ d.quote :: v))))
      (sp ++ q :: (old ++ q :: v)) (sp ++ d.quote :: (new ++ d.quote :: v)) :=
    namedBefore_rename hattr hb hsp hq
  have hplace : isNamePlace d attr u (attr ++ (b ++ d.delimiter :: (sp ++ q :: (old ++ q :: v)))) = true := by
    rw [isNamePlace, hfresh, afterName?_eq_some_iff.2 ⟨b, hb, rfl⟩]
    rfl
  -- any other place contradicts that there is one only
  have honly : ∀ u' s' : Text, u ++ (attr ++ (b ++ d.delimiter :: (sp ++ q :: (old ++ q :: v)))) =
      u' ++ s' → isNamePlace d attr u' s' = true → u = u' := fun _ _ heq hplace' =>
    (eq_of_isNamePlace hattr.ne hplaces heq hplace hplace').1
  induction hn : a.length using Nat.strong_induction_on generalizing pre a with
  | _ n ih =>
    subst hn
    have hcons : ∀ {z : Text}, (a ++ z).all isBlank = false → attributeReadings d (a ++ z) =
        readStep d (a ++ z) :: attributeReadings d (readStep d (a ++ z)).rest := by
      intro z hz
      rw [attributeReadings, dif_neg (by simp [hz])]
    rw [hcons (hnamed.swap.all_isBlank_append a)]
    rw [hcons (hnamed.all_isBlank_append a)] at hmem
    by_cases hentry : ∃ value, (readStep d (a ++ (attr ++ (b ++ d.delimiter ::
        (sp ++ q :: (old ++ q :: v)))))).entry = some (attr, value)
    · obtain ⟨value, hentry⟩ := hentry
      obtain ⟨x, y, s, htext, hx, hy, hname⟩ := exists_name_of_readStep hattr hentry
      obtain rfl : a = x ++ y := by
        have hsame := honly (pre ++ (x ++ y)) s (by rw [hu]; simp [htext]) (by
          rw [isNamePlace, hname, Bool.and_true]
          exact isFresh_append_blanks hpre hx hy)
        rw [hu] at hsame
        exact List.append_cancel_left hsame
      have hstep := readStep_eq_readNamed hattr.ne hattr.chars hx hy hb hnamed.head'
      rw [← List.append_assoc] at hstep
      have hspaces : (sp ++ d.quote :: (new ++ d.quote :: v)).dropWhile (· == ' ') =
          d.quote :: (new ++ d.quote :: v) :=
        dropWhile_append_of_head (fun c hc => by simpa using hsp c hc) (by cases d <;> rfl)
      have hvalue : readValue d (d.quote :: (new ++ d.quote :: v)) = ⟨.string new, none, v⟩ := by
        simp only [readValue, if_true, breakOn_singleton hnew]
      refine ⟨[], _, _, rfl, ?_, fun r hr value' hr' => ?_⟩
      · rw [hstep, hspaces, readNamed, hvalue]
      · have hrest : (readStep d (x ++ y ++ (attr ++ (b ++ d.delimiter ::
            (sp ++ d.quote :: (new ++ d.quote :: v)))))).rest =
              afterSeparator (v.dropWhile (· == ' ')) := by
          rw [hstep, hspaces, readNamed, hvalue]
        rw [hrest] at hr
        have hne : afterSeparator (v.dropWhile (· == ' ')) ≠ [] := by
          intro hnil
          rw [hnil, attributeReadings_nil] at hr
          cases hr
        obtain ⟨m, hm, hmark, -⟩ := exists_endsFresh_of_afterSeparator v hne
        obtain ⟨u', s', hs', hplace'⟩ := exists_place_of_mem hattr
          ((hmark q (isQuote_spec hq d).1).isFresh_append
            (u ++ (attr ++ (b ++ d.delimiter :: (sp ++ q :: old))))) hr hr'
        have hlen := congrArg List.length (honly _ _ (by rw [hm, hs']; simp) hplace')
        simp only [List.length_append, List.length_cons] at hlen
        omega
    · obtain ⟨r, hr, value, hr'⟩ := hmem
      rcases List.mem_cons.1 hr with rfl | hlater
      · exact absurd ⟨value, hr'⟩ hentry
      · have hne : (readStep d (a ++ (attr ++ (b ++ d.delimiter ::
            (sp ++ q :: (old ++ q :: v)))))).rest ≠ [] := by
          intro hnil
          rw [hnil, attributeReadings_nil] at hlater
          cases hlater
        obtain ⟨m, hm, hend⟩ := exists_endsFresh_of_readStep hne
        rcases hnamed.passes_readStep a with hlt | ⟨a', ha, ha'⟩
        · obtain ⟨u', s', hs', hplace'⟩ := exists_place_of_mem hattr (hend.isFresh_append pre) hlater hr'
          have hsplit : u ++ (attr ++ (b ++ d.delimiter :: (sp ++ q :: (old ++ q :: v)))) =
              pre ++ m ++ u' ++ s' := by
            rw [hu, List.append_assoc, hm, hs']
            simp
          have hsame := honly _ _ hsplit hplace'
          rw [hs'] at hlt
          have hlen := congrArg List.length hsplit
          rw [← hsame] at hlen
          simp only [List.length_append] at hlen hlt
          omega
        · rw [ha] at hm hlater
          obtain rfl := List.append_cancel_right (hm.trans (List.append_assoc ..).symm)
          have hpos : 0 < m.length := by
            rcases hend with ⟨_, _, rfl, -⟩ | ⟨_, _, _, rfl, -⟩ <;> simp
          obtain ⟨before, r', after, hreadings, hentry', hafter⟩ :=
            ih a'.length (by rw [List.length_append]; omega) (by rw [hu, List.append_assoc])
              (hend.isFresh_append pre) ⟨r, hlater, value, hr'⟩ rfl
          exact ⟨_ :: before, r', after, by rw [ha', hreadings]; rfl, hentry', hafter⟩

/-- **The value of an attribute that is named at one place only can be exchanged there**, if it
stands in quotes: the attribute is read with the new value. -/
theorem get?_attributes_rename (hattr : IsAttributeName attr) (hb : ∀ c ∈ b, isBlank c = true)
    (hsp : ∀ c ∈ sp, c = ' ') (hq : isQuote q = true) (hnew : d.quote ∉ new)
    (hfresh : isFresh (trimStart u) = true)
    (hplaces : (namePlaces d attr
      (trim (u ++ (attr ++ (b ++ d.delimiter :: (sp ++ q :: (old ++ q :: v))))))).length ≤ 1)
    (hvalue : ((parseAttributes d (u ++ (attr ++ (b ++ d.delimiter ::
      (sp ++ q :: (old ++ q :: v)))))).attributes.get? attr).isSome = true) :
    (parseAttributes d (u ++ (attr ++ (b ++ d.delimiter ::
      (sp ++ d.quote :: (new ++ d.quote :: v)))))).attributes.get? attr = some (.string new) := by
  have htrim : ∀ {e : Char} (m : Text), isQuote e = true →
      trim (u ++ (attr ++ (b ++ d.delimiter :: (sp ++ e :: (m ++ e :: v))))) =
        trimStart u ++ (attr ++ (b ++ d.delimiter :: (sp ++ e :: (m ++ e :: trimEnd v)))) := by
    intro e m he
    have hname := IsTrimmed.of_forall hattr.ne fun c hc => isBlank_of_isNameChar (hattr.chars c hc)
    have hquote := IsTrimmed.of_forall (t := [e]) (List.cons_ne_nil _ _) fun c hc =>
      List.mem_singleton.1 hc ▸ (isQuote_spec he d).2.1
    have hliteral := (hname.append hquote (b ++ d.delimiter :: (sp ++ e :: m))).trim_append u v
    simpa using hliteral
  have hquote : isQuote d.quote = true := by cases d <;> rfl
  rw [htrim old hq] at hplaces
  rw [parseAttributes, htrim old hq] at hvalue
  rw [parseAttributes, htrim new hquote]
  obtain ⟨value, hvalue⟩ := Option.isSome_iff_exists.1 hvalue
  obtain ⟨r, hr, hentry⟩ := List.mem_filterMap.1 (AttributeMap.exists_mem_of_get?_ofList hvalue)
  obtain ⟨before, r, after, hreadings, hentry, hafter⟩ := exists_reading_rename hattr hb hsp hq
    hnew hfresh hplaces (List.nil_append _).symm rfl ⟨r, hr, value, hentry⟩
  rw [hreadings, List.filterMap_append, List.filterMap_cons_some hentry]
  refine AttributeMap.get?_ofList_append fun e he hkey => ?_
  obtain ⟨r, hr, hr'⟩ := List.mem_filterMap.1 he
  obtain ⟨k, value⟩ := e
  exact hafter r hr value (hr'.trans (by rw [← hkey]))

end Renaming

end EntityLint
