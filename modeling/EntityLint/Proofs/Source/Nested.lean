import EntityLint.Proofs.Mapping.AttributeGroups

/-!
# Lexemes that a file spells

Before question marks are resolved and attribute groups are known, lexemes have other kinds than the
tokens that are made of them. Brackets among such lexemes are the brackets of the file all the same. If
they are properly nested, and no attribute group is open in front of them, a list of parts is read past
each of them.

* `Nested`, with `Nested.append` and `Nested.balanced`: properly nested brackets, with or without commas
  outside of them;
* `Lexeme.ReadAs`, `SourceFile.Spells`: lexemes and the tokens that are made of them;
* `Spells.passage`, `Spells.textBetween`, `Spells.matching`: what a file says of lexemes that it spells;
* `SourceFile.Clear`: no attribute group is open in front of a token;
* `Spells.afterGroup_eq`, `Spells.partBounds_eq`: properly nested brackets are stepped over.
-/

namespace EntityLint

open Pairing

/-! ### Properly nested brackets -/

/-- Whether a kind opens or closes something. -/
def Kind.isBracket : Kind → Bool
  | openRound | closeRound | openSquare | closeSquare | openCurly | closeCurly | attributeOpen
  | attributeClose => true
  | _ => false

theorem Kind.step?_of_isBracket {k : Kind} (hk : k.isBracket = false) (family : Family) :
    family.step? k = none := by
  cases family <;> cases k <;> first | rfl | cases hk

/-- Properly nested brackets among other kinds. Commas may stand outside of all brackets only if this is
allowed. -/
inductive Nested : Bool → List Kind → Prop
  | nil {commas : Bool} : Nested commas []
  | cons {commas : Bool} {k : Kind} {ks : List Kind} (hk : k.isBracket = false)
      (hcomma : k = .comma → commas = true) (h : Nested commas ks) : Nested commas (k :: ks)
  | pair {commas : Bool} {o c : Kind} {ks ls : List Kind} (hoc : o.closer? = some c)
      (hks : Nested true ks) (hls : Nested commas ls) : Nested commas (o :: (ks ++ c :: ls))

namespace Nested

variable {commas : Bool} {ks ls : List Kind}

theorem append (hks : Nested commas ks) (hls : Nested commas ls) : Nested commas (ks ++ ls) := by
  induction hks with
  | nil => exact hls
  | cons hk hcomma _ ih => exact .cons hk hcomma (ih hls)
  | pair hoc hks _ _ ih =>
    rw [List.cons_append, List.append_assoc, List.cons_append]
    exact .pair hoc hks (ih hls)

theorem mono (h : Nested false ks) : Nested true ks := by
  generalize hcommas : false = commas at h
  induction h with
  | nil => exact .nil
  | cons hk _ _ ih => exact .cons hk (fun _ => rfl) (ih hcommas)
  | pair hoc hks _ _ ih => exact .pair hoc hks (ih hcommas)

theorem flatMap {α : Type} {as : List α} {g : α → List Kind} (h : ∀ a ∈ as, Nested commas (g a)) :
    Nested commas (as.flatMap g) := by
  induction as with
  | nil => exact .nil
  | cons a as ih =>
    obtain ⟨ha, has⟩ := List.forall_mem_cons.1 h
    exact ha.append (ih has)

theorem of_forall (h : ∀ k ∈ ks, k.isBracket = false ∧ k ≠ .comma) : Nested commas ks := by
  induction ks with
  | nil => exact .nil
  | cons k ks ih =>
    obtain ⟨hk, hks⟩ := List.forall_mem_cons.1 h
    exact .cons hk.1 (fun hcomma => absurd hcomma hk.2) (ih hks)

/-- Brackets that are properly nested are balanced family by family. -/
theorem balanced (h : Nested commas ks) (family : Family) : family.Balanced ks := by
  induction h with
  | nil => exact ⟨0, rfl⟩
  | cons hk _ _ ih => exact ih.cons (Kind.step?_of_isBracket hk family)
  | pair hoc _ _ ihks ihls =>
    have happend := (ihks.pair hoc).append ihls
    rwa [List.cons_append, List.append_assoc, List.singleton_append] at happend

end Nested

/-! ### Brackets by their steps -/

namespace Pairing.Family

variable {family : Family} {k k' : Kind}

theorem step?_eq_up_iff : family.step? k = some .U ↔ family.opens k = true := by
  rw [step?]
  split_ifs with hopens hcloses <;> simp_all

theorem step?_eq_down_iff : family.step? k = some .D ↔ family.closes k = true := by
  rw [step?]
  split_ifs with hopens hcloses
  · simp [closes_of_opens hopens]
  · simp [hcloses]
  · simp [hcloses]

/-- Brackets that match in a list match in a file that has the same steps there. -/
theorem Matches.shift_steps {ks ls : List Kind} {start : ℕ} {r : Range}
    (h : ∀ a k, ls[a]? = some k → ∃ k', ks[start + a]? = some k' ∧ family.step? k' = family.step? k)
    (hr : family.Matches ls r) : family.Matches ks ⟨start + r.opener, start + r.closer⟩ := by
  obtain ⟨hlt, ⟨o, ho, hopens⟩, ⟨c, hc, hcloses⟩, hbalanced⟩ := hr
  obtain ⟨o', ho', hstepo⟩ := h _ _ ho
  obtain ⟨c', hc', hstepc⟩ := h _ _ hc
  have hlen := (List.getElem?_eq_some_iff.1 hc).1
  have hsteps : ((ks.take (start + r.closer)).drop (start + r.opener + 1)).map family.step? =
      ((ls.take r.closer).drop (r.opener + 1)).map family.step? := by
    apply List.ext_getElem?
    intro i
    rw [List.getElem?_map, List.getElem?_map, List.getElem?_drop, List.getElem?_drop,
      List.getElem?_take, List.getElem?_take]
    by_cases hi : r.opener + 1 + i < r.closer
    · obtain ⟨k', hk', hstep⟩ := h _ _ (List.getElem?_eq_getElem (hi.trans hlen))
      rw [if_pos (by omega), if_pos hi, List.getElem?_eq_getElem (hi.trans hlen), Option.map_some,
        show start + r.opener + 1 + i = start + (r.opener + 1 + i) by omega, hk', Option.map_some, hstep]
    · rw [if_neg (by omega), if_neg hi]
  have hword : family.word ((ks.take (start + r.closer)).drop (start + r.opener + 1)) =
      family.word ((ls.take r.closer).drop (r.opener + 1)) := by
    have hid := congrArg (List.filterMap id) hsteps
    rwa [List.filterMap_map, List.filterMap_map] at hid
  refine ⟨by dsimp only; omega, ⟨o', ho', ?_⟩, ⟨c', hc', ?_⟩, ?_⟩
  · rw [← step?_eq_up_iff, hstepo, step?_eq_up_iff]
    exact hopens
  · rw [← step?_eq_down_iff, hstepc, step?_eq_down_iff]
    exact hcloses
  · obtain ⟨w, hw⟩ := hbalanced
    exact ⟨w, hw.trans hword.symm⟩

end Pairing.Family

/-! ### Lexemes and tokens -/

/-- A token is made of a lexeme: a question mark may count as part of a type, and a square bracket as the
end of an attribute group. -/
structure Lexeme.ReadAs (l : Lexeme) (t : Token) : Prop where
  text : t.text = l.text
  kind : t.kind.unpaired = l.kind ∨ l.kind = .ternary ∧ t.kind = .nullable

/-- Kinds that a token has in common with the lexeme that it is made of. -/
def Kind.IsSettled (k : Kind) : Prop := k ≠ .ternary ∧ k ≠ .closeSquare

instance (k : Kind) : Decidable k.IsSettled := instDecidableAnd

theorem Kind.opener_of_closer? {o c : Kind} (h : o.closer? = some c) :
    o.IsSettled ∧ o ≠ .comma ∧ SourceFile.parameterGroups.contains o = true := by
  cases o <;> first | decide | cases h

theorem Lexeme.ReadAs.kind_eq {l : Lexeme} {t : Token} (h : l.ReadAs t) (hl : l.kind.IsSettled) :
    t.kind = l.kind := by
  have hkind := h.kind.resolve_right fun hmark => hl.1 hmark.1
  by_cases hclose : t.kind = .attributeClose
  · rw [hclose] at hkind
    exact absurd hkind.symm hl.2
  · rwa [Kind.unpaired_of_ne hclose] at hkind

namespace SourceFile

variable {f : SourceFile} {start a : ℕ} {ls ms : List Lexeme} {l : Lexeme}

/-- Some lexemes are what the tokens from an index on are made of. -/
def Spells (f : SourceFile) (start : ℕ) (ls : List Lexeme) : Prop :=
  ∀ a l, ls[a]? = some l → ∃ t, f.tokens[start + a]? = some t ∧ l.ReadAs t

namespace Spells

theorem left (h : f.Spells start (ls ++ ms)) : f.Spells start ls := fun a l hl =>
  h a l (by rw [List.getElem?_append_left (List.getElem?_eq_some_iff.1 hl).1, hl])

theorem right (h : f.Spells start (ls ++ ms)) : f.Spells (start + ls.length) ms := by
  intro a l hl
  rw [Nat.add_assoc]
  exact h (ls.length + a) l (by rw [List.getElem?_append_right (Nat.le_add_right ..),
    Nat.add_sub_cancel_left, hl])

theorem tail (h : f.Spells start (l :: ls)) : f.Spells (start + 1) ls :=
  right (show f.Spells start ([l] ++ ls) from h)

theorem head (h : f.Spells start (l :: ls)) : ∃ t, f.tokens[start]? = some t ∧ l.ReadAs t := h 0 l rfl

theorem le_size (h : f.Spells start ls) (hstart : start ≤ f.tokens.size) :
    start + ls.length ≤ f.tokens.size := by
  rcases Nat.eq_zero_or_pos ls.length with hnil | hpos
  · omega
  · obtain ⟨t, ht, -⟩ := h (ls.length - 1) _ (List.getElem?_eq_getElem (by omega))
    have hlt := (Array.getElem?_eq_some_iff.1 ht).1
    omega

section Reading

variable (h : f.Spells start ls)

include h

theorem kindAt (hl : ls[a]? = some l) (hsettled : l.kind.IsSettled) :
    f.kindAt (start + a) = some l.kind := by
  obtain ⟨t, ht, hread⟩ := h a l hl
  rw [SourceFile.kindAt, ht, Option.map_some, hread.kind_eq hsettled]

theorem textAt (hl : ls[a]? = some l) : f.textAt (start + a) = l.text := by
  obtain ⟨t, ht, hread⟩ := h a l hl
  rw [SourceFile.textAt, ht, Option.map_some, Option.getD_some, hread.text]

/-- Lexemes of settled kinds stand in the file as they are. -/
theorem passage (hls : ∀ l ∈ ls, l.kind.IsSettled) : f.Passage start ls := by
  apply List.ext_getElem?
  intro i
  rw [List.getElem?_take, List.getElem?_drop]
  split
  · next hi =>
    have hl := List.getElem?_eq_getElem hi
    obtain ⟨t, ht, hread⟩ := h i _ hl
    rw [hl, getElem?_lexemes, ht, Option.map_some, Token.lexeme, hread.text,
      hread.kind_eq (hls _ (List.getElem_mem hi))]
  · next hi => exact (List.getElem?_eq_none (Nat.le_of_not_lt hi)).symm

theorem textBetween : f.textBetween start (start + ls.length) = ls.flatMap Lexeme.text := by
  have htexts : (f.slice start (start + ls.length)).map Token.text = ls.map Lexeme.text := by
    apply List.ext_getElem?
    intro i
    rw [slice, List.getElem?_map, List.getElem?_map, List.getElem?_take, List.getElem?_drop,
      Nat.add_sub_cancel_left]
    split
    · next hi =>
      obtain ⟨t, ht, hread⟩ := h i _ (List.getElem?_eq_getElem hi)
      rw [Array.getElem?_toList, ht, List.getElem?_eq_getElem hi, Option.map_some, Option.map_some,
        hread.text]
    · next hi =>
      rw [List.getElem?_eq_none (Nat.le_of_not_lt hi)]
      rfl
  rw [SourceFile.textBetween, List.flatMap_def, htexts, List.flatMap_def]

/-- Brackets that match among the lexemes match in the file. -/
theorem matching {family : Family} {r : Range} (hr : family.Matches (ls.map Lexeme.kind) r) :
    family.Matches (Token.kinds f.tokens.toList) ⟨start + r.opener, start + r.closer⟩ := by
  refine hr.shift_steps fun a k hk => ?_
  rw [List.getElem?_map] at hk
  obtain ⟨l, hl, rfl⟩ := Option.map_eq_some_iff.1 hk
  obtain ⟨t, ht, hread⟩ := h a l hl
  refine ⟨t.kind.unpaired, ?_, ?_⟩
  · rw [Token.kinds, List.getElem?_map, Array.getElem?_toList, ht, Option.map_some]
  · rcases hread.kind with hkind | ⟨hternary, hnullable⟩
    · rw [hkind]
    · rw [hternary, hnullable]
      cases family <;> rfl

/-- A bracket and the one that closes it. -/
theorem matching_pair (family : Family) {o c : Lexeme} {inner rest : List Lexeme}
    (hls : ls = o :: (inner ++ c :: rest)) (hinner : family.Balanced (inner.map Lexeme.kind))
    (hopens : family.opens o.kind = true) (hcloses : family.closes c.kind = true) :
    family.Matches (Token.kinds f.tokens.toList) ⟨start, start + (inner.length + 1)⟩ := by
  have hmatches := Family.Matches.of_append [] (rest.map Lexeme.kind) hopens hcloses hinner
  refine h.matching (r := ⟨0, inner.length + 1⟩) ?_
  rw [hls]
  simpa using hmatches

end Reading

end Spells

/-! ### Open attribute groups -/

/-- No attribute group is open in front of a token. -/
def Clear (f : SourceFile) (i : ℕ) : Prop := ∀ g, f.IsGroup g → g.opener < i → g.closer < i

/-- No attribute group is open behind a token that stands in none, before a new one opens. -/
theorem clear_of_token {path : String} {source : Text} {i : ℕ} {t : Token}
    (h : parse path source = .ok f) (ht : f.tokens[start]? = some t) (hnone : t.attrGroup = none)
    (hle : start ≤ i) (hls : ∀ j, start ≤ j → j < i → f.kindAt j ≠ some .attributeOpen) : f.Clear i := by
  intro g hg hlt
  have hbefore : g.opener < start := by
    by_contra hge
    obtain ⟨u, hu, hkind⟩ := Token.exists_token_of_kinds hg.opens (by decide)
    rw [Array.getElem?_toList] at hu
    exact hls g.opener (by omega) hlt (by rw [SourceFile.kindAt, hu, Option.map_some, hkind])
  by_contra hge
  exact (hg.carried h (by omega) (by omega) ht).1 hnone

/-- Behind balanced brackets no group is open that was not open in front of them. -/
theorem Clear.after (hclear : f.Clear start) (h : f.Spells start ls)
    (hbalanced : Family.square.Balanced (ls.map Lexeme.kind)) : f.Clear (start + ls.length) := by
  intro g hg hlt
  rcases Nat.lt_or_ge g.opener start with hbefore | hge
  · exact (hclear g hg hbefore).trans_le (Nat.le_add_right ..)
  · obtain ⟨a, ha⟩ := Nat.exists_eq_add_of_le hge
    have hopens : Family.square.OpensAt (ls.map Lexeme.kind) a := by
      obtain ⟨t, ht, hread⟩ := h a _ (List.getElem?_eq_getElem (by omega))
      obtain ⟨u, hu, hkind⟩ := Token.exists_token_of_kinds hg.opens (by decide)
      rw [Array.getElem?_toList, ha, ht] at hu
      cases hu
      rcases hread.kind with hk | ⟨-, hnullable⟩
      · refine ⟨_, by rw [List.getElem?_map, List.getElem?_eq_getElem (by omega), Option.map_some], ?_⟩
        rw [← hk, hkind]
        rfl
      · cases hkind.symm.trans hnullable
    obtain ⟨c, hc⟩ := hbalanced.exists_closer hopens
    have hclen : c < (ls.map Lexeme.kind).length := lt_length_of_closesAt hc.closes
    rw [List.length_map] at hclen
    rw [hg.matching.closer_unique (h.matching hc) ha]
    exact Nat.add_lt_add_left hclen start

/-- A group that opens where no other one is open is the one that its marks carry. -/
theorem Clear.attrGroup_eq (hpaired : Token.WellPaired f.tokens.toList) {r : Range} (hr : f.IsGroup r)
    (hclear : f.Clear r.opener) {t : Token} (ht : f.tokens[r.opener]? = some t) :
    t.attrGroup = some r := by
  obtain ⟨g, hg, hopen, hle, hge, hends⟩ := hpaired.group r hr.matching hr.opens
  have hsame : g.opener = r.opener := by
    by_contra hne
    have hlt := hclear g ⟨hg, hopen⟩ (by omega)
    have := hr.matching.lt
    omega
  rw [hends _ t (.inl rfl) (Array.getElem?_toList.trans ht), hg.closer_unique hr.matching hsame]

/-- No attribute group is open in front of some lexemes that have attribute groups among them. -/
def ClearFor (f : SourceFile) (start : ℕ) (ls : List Lexeme) : Prop :=
  (∃ l ∈ ls, l.kind = .attributeOpen) → f.Clear start

theorem ClearFor.left (hclear : f.ClearFor start (ls ++ ms)) : f.ClearFor start ls :=
  fun ⟨l, hl, hk⟩ => hclear ⟨l, List.mem_append_left ms hl, hk⟩

theorem ClearFor.right (hclear : f.ClearFor start (ls ++ ms)) (h : f.Spells start ls)
    (hbalanced : Family.square.Balanced (ls.map Lexeme.kind)) : f.ClearFor (start + ls.length) ms :=
  fun ⟨l, hl, hk⟩ => (hclear ⟨l, List.mem_append_right ls hl, hk⟩).after h hbalanced

/-! ### Stepping over brackets -/

section Groups

variable (hpaired : Token.WellPaired f.tokens.toList)

include hpaired

/-- A bracket is stepped over together with what it encloses. -/
theorem Spells.afterGroup_eq {o c : Lexeme} {inner rest : List Lexeme}
    (h : f.Spells start (o :: (inner ++ c :: rest))) (hoc : o.kind.closer? = some c.kind)
    (hinner : Nested true (inner.map Lexeme.kind)) (hclear : o.kind = .attributeOpen → f.Clear start)
    {t : Token} (ht : f.tokens[start]? = some t) (hkind : t.kind = o.kind) :
    afterGroup start t = start + (inner.length + 1) + 1 := by
  have hmatches (family : Family) (hopens : family.opens o.kind = true)
      (hcloses : family.closes c.kind = true) :=
    h.matching_pair family rfl (hinner.balanced family) hopens hcloses
  have hlist : f.tokens.toList[start]? = some t := Array.getElem?_toList.trans ht
  have hopener {k : Kind} (hk : t.kind = k) (hne : k ≠ .attributeClose) :
      (Token.kinds f.tokens.toList)[start]? = some k := by
    rw [Token.getElem?_kinds hlist (by rwa [hk]), hk]
  obtain ⟨okind, otext⟩ := o
  obtain ⟨ckind, ctext⟩ := c
  dsimp only at hoc hkind hclear hmatches
  unfold afterGroup
  cases okind <;> cases hoc
  case openRound =>
    have hcarry := hpaired.round _ _ t (hmatches .round rfl rfl) (.inl rfl) hlist
    simp only [hkind, hcarry, Option.elim_some]
    omega
  case openSquare =>
    have hcarry := hpaired.square _ _ t (hmatches .square rfl rfl)
      (hopener hkind (by decide)) (.inl rfl) hlist
    simp only [hkind, hcarry, Option.elim_some]
    omega
  case attributeOpen =>
    have hcarry := (hclear rfl).attrGroup_eq hpaired
      ⟨hmatches .square rfl rfl, hopener hkind (by decide)⟩ ht
    simp only [hkind, hcarry, Option.elim_some]
    omega
  case openCurly =>
    have hcarry := hpaired.curly _ _ t (hmatches .curly rfl rfl) (.inl rfl) hlist
    simp only [hkind, hcarry, Option.elim_some]
    omega

/-- A parameter does not end within properly nested brackets, nor at what is no comma outside of them. -/
theorem Spells.partBounds_eq (h : f.Spells start ls) (hls : Nested false (ls.map Lexeme.kind))
    (hclear : f.ClearFor start ls) {stop first : ℕ} (hstop : start + ls.length ≤ stop) :
    f.partBounds parameterGroups stop first start =
      f.partBounds parameterGroups stop first (start + ls.length) := by
  generalize hcommas : false = commas at hls
  generalize hks : ls.map Lexeme.kind = ks at hls
  induction hls generalizing ls start with
  | nil =>
    rw [List.map_eq_nil_iff.1 hks]
    rfl
  | cons hk hcomma _ ih =>
    obtain ⟨l, ls, rfl, rfl, rfl⟩ := List.map_eq_cons_iff.1 hks
    obtain ⟨t, ht, hread⟩ := h.head
    rw [List.length_cons] at hstop ⊢
    have hplain : t.kind ≠ .comma ∧ parameterGroups.contains t.kind = false := by
      rcases hread.kind with hkind | ⟨-, hkind⟩
      · rw [← hkind, ← hcommas] at hcomma
        rw [← hkind] at hk
        revert hk hcomma
        cases t.kind <;> decide
      · rw [hkind]
        decide
    have hbalanced : Family.square.Balanced ([l].map Lexeme.kind) :=
      .of_forall (List.forall_mem_singleton.2 (Kind.step?_of_isBracket hk .square))
    have hstep : f.partBounds parameterGroups stop first start =
        f.partBounds parameterGroups stop first (start + 1) := by
      refine partBounds_of_between (Nat.le_succ start) (by omega) fun j hj hlt => ⟨t.kind, ?_, hplain⟩
      obtain rfl : j = start := by omega
      rw [SourceFile.kindAt, ht, Option.map_some]
    have hsplit : f.ClearFor start ([l] ++ ls) := hclear
    have hrest := hsplit.right (Spells.left h) hbalanced
    rw [hstep, ih h.tail hrest (by omega) hcommas rfl, Nat.add_right_comm, Nat.add_assoc]
  | pair hoc hinner _ _ ih =>
    obtain ⟨o, tail, rfl, rfl, htail⟩ := List.map_eq_cons_iff.1 hks
    obtain ⟨inner, closed, rfl, rfl, hclosed⟩ := List.map_eq_append_iff.1 htail
    obtain ⟨c, ls, rfl, rfl, rfl⟩ := List.map_eq_cons_iff.1 hclosed
    obtain ⟨t, ht, hread⟩ := h.head
    obtain ⟨hsettled, hcomma, hgroup⟩ := Kind.opener_of_closer? hoc
    have hkind := hread.kind_eq hsettled
    have hafter := h.afterGroup_eq hpaired hoc hinner
      (fun hk => hclear ⟨o, List.mem_cons_self, hk⟩) ht hkind
    -- what stands behind the bracket that closes is the rest of the lexemes
    have hsplit : o :: (inner ++ c :: ls) = (o :: (inner ++ [c])) ++ ls := by simp
    have hlength : (o :: (inner ++ [c])).length = inner.length + 1 + 1 := by simp
    have hbalanced : Family.square.Balanced ((o :: (inner ++ [c])).map Lexeme.kind) := by
      have hpair := (hinner.balanced .square).pair hoc
      simpa using hpair
    rw [hsplit] at h hclear hstop ⊢
    have hrest := hclear.right (Spells.left h) hbalanced
    have hright := Spells.right h
    rw [hlength] at hrest hright
    rw [List.length_append, hlength] at hstop ⊢
    rw [partBounds_of_group (by omega) ht (by rwa [hkind]) (by rwa [hkind]), hafter, Nat.add_assoc,
      ih hright hrest (by omega) hcommas rfl, Nat.add_assoc]

end Groups

end SourceFile

end EntityLint
