import EntityLint.Proofs.Rule.Repairs
import EntityLint.Proofs.Token.Spacing

/-!
# Lines above return statements

When a line break is put at the beginning of each line on which a return is at fault, no return is at
fault any more: above the lines that have got one there is nothing, and above all others there is what
has been there before.

* `codeBefore?_eq_some_iff`: what the line above ends with;
* `leavesBranch_iff`: which return leaves a branch;
* `SourceFile.Respaced.codeBefore?`, `SourceFile.Respaced.endsBranch`: both of them after line breaks
  have been put in.

The main statement is `findings_eq_nil_of_respaced`.
-/

namespace EntityLint

open Lexeme Text MarkedLexeme

/-! ### Lines -/

namespace SourceFile.Reads

variable {f : SourceFile} {ls : List Lexeme}

theorem line_le (h : f.Reads ls) {i j : ℕ} {t u : Token} (hij : i ≤ j) (ht : f.tokens[i]? = some t)
    (hu : f.tokens[j]? = some u) : t.position.line ≤ u.position.line := by
  have hsplit : ls.take j = ls.take i ++ (ls.take j).drop i := by
    conv_lhs => rw [← List.take_append_drop i (ls.take j), List.take_take, Nat.min_eq_left hij]
  rw [h.line i t ht, h.line j u hu, hsplit, List.flatMap_append, List.count_append]
  omega

theorem pairwise_line (h : f.Reads ls) :
    f.tokens.toList.Pairwise fun t u => t.position.line ≤ u.position.line := by
  refine List.pairwise_iff_getElem.2 fun i j hi hj hij => h.line_le hij.le ?_ ?_
  · rw [← Array.getElem?_toList, List.getElem?_eq_getElem hi]
  · rw [← Array.getElem?_toList, List.getElem?_eq_getElem hj]

end SourceFile.Reads

/-- A search from an index downward finds the last element that satisfies a predicate. -/
theorem find?_reverse_take_eq_some_iff {α : Type} {p : α → Bool} {l : List α} {i : ℕ} {a : α} :
    (l.take i).reverse.find? p = some a ↔ ∃ j, j < i ∧ l[j]? = some a ∧ p a = true ∧
      ∀ m b, j < m → m < i → l[m]? = some b → p b = false := by
  induction i with
  | zero => simp
  | succ i ih =>
    have hstep : (l.take (i + 1)).reverse.find? p =
        (l[i]?.filter p).or ((l.take i).reverse.find? p) := by
      rw [List.take_add_one]
      cases l[i]? with
      | none => rw [Option.toList_none, List.append_nil]; rfl
      | some b =>
        rw [Option.toList_some, List.reverse_append, List.reverse_singleton, List.singleton_append,
          List.find?_cons]
        cases hb : p b <;> simp [Option.filter, hb]
    rw [hstep]
    cases hlast : l[i]?.filter p with
    | some b =>
      obtain ⟨hb, hpb⟩ := Option.filter_eq_some_iff.1 hlast
      rw [Option.some_or]
      constructor
      · rintro ⟨⟩
        exact ⟨i, Nat.lt_succ_self i, hb, hpb, fun m _ hm hlt => by omega⟩
      · rintro ⟨j, hj, ha, -, hnone⟩
        rcases Nat.lt_succ_iff_lt_or_eq.1 hj with hj | rfl
        · have := hnone i b hj (Nat.lt_succ_self i) hb
          rw [hpb] at this
          cases this
        · exact hb.symm.trans ha
    | none =>
      have hfalse : ∀ b, l[i]? = some b → p b = false := by
        intro b hb
        simpa [hb, Option.filter] using hlast
      rw [Option.none_or, ih]
      constructor
      · rintro ⟨j, hj, ha, hpa, hnone⟩
        refine ⟨j, Nat.lt_succ_of_lt hj, ha, hpa, fun m b hm hlt hb => ?_⟩
        rcases Nat.lt_succ_iff_lt_or_eq.1 hlt with hlt | rfl
        · exact hnone m b hm hlt hb
        · exact hfalse b hb
      · rintro ⟨j, hj, ha, hpa, hnone⟩
        refine ⟨j, (Nat.lt_succ_iff_lt_or_eq.1 hj).resolve_right ?_, ha, hpa,
          fun m b hm hlt => hnone m b hm (Nat.lt_succ_of_lt hlt)⟩
        rintro rfl
        rw [hfalse a ha] at hpa
        cases hpa

/-- Where what satisfies a predicate comes first, no search for some of it needs to go on. -/
theorem find?_takeWhile_of_pairwise {α : Type} {p q : α → Bool} {l : List α}
    (h : l.Pairwise fun a b => p b = true → p a = true) (hq : ∀ a, q a = true → p a = true) :
    (l.takeWhile p).find? q = l.find? q := by
  induction l with
  | nil => rfl
  | cons a l ih =>
    obtain ⟨ha, hl⟩ := List.pairwise_cons.1 h
    cases hp : p a with
    | true => rw [List.takeWhile_cons_of_pos hp, List.find?_cons, List.find?_cons, ih hl]
    | false =>
      rw [List.takeWhile_cons_of_neg (Bool.eq_false_iff.1 hp), List.find?_nil, eq_comm,
        List.find?_eq_none]
      intro b hb hqb
      rcases List.mem_cons.1 hb with rfl | hb
      · rw [hq _ hqb] at hp
        cases hp
      · rw [ha b hb (hq b hqb)] at hp
        cases hp

namespace BlankLineBeforeReturn

variable {f : SourceFile} {ls : List Lexeme}

/-- Whether a token is on the line above a given one, and is neither blank nor a plain comment. -/
def isCodeAbove (line : ℕ) (u : Token) : Bool :=
  u.position.line + 1 == line && (u.kind != .blank && u.kind != .comment)

theorem isCodeAbove_iff {line : ℕ} {u : Token} : isCodeAbove line u = true ↔
    u.position.line + 1 = line ∧ u.kind.unpaired ∉ [.blank, .comment] := by
  have hunpaired : ∀ k : Kind, k ∈ [.blank, .comment] ↔ k.unpaired ∈ [.blank, .comment] := by
    intro k
    cases k <;> decide
  rw [isCodeAbove, Bool.and_eq_true, beq_iff_eq, ← hunpaired]
  simp

/-- The line above a token ends with the last token on it that counts. -/
theorem codeBefore?_eq_some_iff (h : f.Reads ls) {i : ℕ} {t : Token} (ht : f.tokens[i]? = some t)
    {k : Kind} : codeBefore? f i = some k ↔ ∃ j u, j < i ∧ f.tokens[j]? = some u ∧ u.kind = k ∧
      isCodeAbove t.position.line u = true ∧ ∀ m v, j < m → m < i → f.tokens[m]? = some v →
        isCodeAbove t.position.line v = false := by
  have hsorted : (f.tokens.toList.take i).reverse.Pairwise fun u v : Token =>
      decide (t.position.line ≤ v.position.line + 1) = true →
        decide (t.position.line ≤ u.position.line + 1) = true := by
    refine List.pairwise_reverse.2 ((h.pairwise_line.sublist (List.take_sublist _ _)).imp fun hle => ?_)
    simp only [decide_eq_true_eq]
    omega
  have habove : ∀ u : Token, isCodeAbove t.position.line u = true →
      decide (t.position.line ≤ u.position.line + 1) = true := by
    intro u hu
    simp only [isCodeAbove, Bool.and_eq_true, beq_iff_eq] at hu
    exact decide_eq_true (by omega)
  have hfind : codeBefore? f i =
      ((f.tokens.toList.take i).reverse.find? (isCodeAbove t.position.line)).map Token.kind := by
    rw [← find?_takeWhile_of_pairwise hsorted habove, codeBefore?, ht, Option.map_eq_bind]
    simp only [Option.bind_eq_bind, Option.bind_some, List.find?_filter, Bool.decide_and,
      Bool.decide_eq_true]
    rfl
  rw [hfind, Option.map_eq_some_iff]
  simp only [find?_reverse_take_eq_some_iff, Array.getElem?_toList]
  constructor
  · rintro ⟨u, ⟨j, hj, hu, habove, hnone⟩, rfl⟩
    exact ⟨j, u, hj, hu, rfl, habove, hnone⟩
  · rintro ⟨j, u, hj, hu, rfl, habove, hnone⟩
    exact ⟨u, ⟨j, hj, hu, habove, hnone⟩, rfl⟩

/-- A return leaves the branch that a keyword before it begins, in the same scopes, if there is no
other way out between them. -/
theorem leavesBranch_iff {i : ℕ} {keyword : Kind} : leavesBranch f i keyword = true ↔
    ∃ b, b < i ∧ f.kindAt b = some keyword ∧ (∀ j, b < j → j ≤ i → f.kindAt j ≠ some keyword) ∧
      scopesAt f b = scopesAt f i ∧ (∃ k ∈ [Kind.kwReturn, .kwBreak], f.kindAt i = some k) ∧
      ∀ j, b < j → j < i → ∀ k ∈ [Kind.kwReturn, .kwBreak], f.kindAt j ≠ some k := by
  rw [leavesBranch, Option.any_eq_true]
  simp only [SourceFile.previousOfKind?_eq_some_iff, Bool.and_eq_true, beq_iff_eq,
    SourceFile.nextOfKind?_eq_some_iff, List.mem_singleton, forall_eq, exists_eq_left]
  constructor
  · rintro ⟨b, ⟨-, hb, hlast⟩, hscopes, hlt, hk, hfirst⟩
    exact ⟨b, hlt, hb, hlast, hscopes, hk, fun j hj => hfirst j hj⟩
  · rintro ⟨b, hlt, hb, hlast, hscopes, hk, hfirst⟩
    exact ⟨b, ⟨hlt.le, hb, hlast⟩, hscopes, hlt, hk, fun j hj => hfirst j hj⟩

/-- A return that lacks a blank line above it. -/
def AtFault (f : SourceFile) (i : ℕ) : Prop :=
  f.kindAt i = some .kwReturn ∧ ∃ k, codeBefore? f i = some k ∧ k ≠ .openCurly ∧ k ≠ .colon ∧
    endsBranch f i = false

theorem mem_tokensOfKind {kind : Kind} {i : ℕ} :
    i ∈ Rule.tokensOfKind kind f ↔ f.kindAt i = some kind := by
  simp only [Rule.tokensOfKind, List.mem_map, List.mem_filter, beq_iff_eq, Prod.exists,
    List.mk_mem_zipIdx_iff_getElem?, Array.getElem?_toList, exists_eq_right]
  exact (Option.map_eq_some_iff (f := Token.kind) (x := f.tokens[i]?)).symm

theorem finding?_eq_some_iff {i : ℕ} {x : Finding} : finding? f i = some x ↔
    (∃ k, codeBefore? f i = some k ∧ k ≠ .openCurly ∧ k ≠ .colon ∧ endsBranch f i = false) ∧
      x = { token := i, code := "Missing", message := "Missing blank line before return statement",
            fixable := true, repair := some (.edit (.prependLineEnd (lineStart f i))) } := by
  constructor
  · intro h
    obtain ⟨k, hk, h⟩ := Option.bind_eq_some_iff.1 h
    obtain ⟨_, hguard, h⟩ := Option.bind_eq_some_iff.1 h
    cases h
    refine ⟨⟨k, hk, ?_⟩, rfl⟩
    simpa [and_assoc] using (Option.guard_eq_some' _).1 hguard
  · rintro ⟨⟨k, hk, hcurly, hcolon, hbranch⟩, rfl⟩
    have hguard : (!(k == .openCurly || k == .colon || endsBranch f i)) = true := by
      rw [beq_false_of_ne hcurly, beq_false_of_ne hcolon, hbranch]
      rfl
    refine Option.bind_eq_some_iff.2 ⟨k, hk, Option.bind_eq_some_iff.2 ⟨(), ?_, rfl⟩⟩
    exact (Option.guard_eq_some' _).2 hguard

/-- What is found are the returns that lack a blank line. -/
theorem exists_finding_iff {i : ℕ} : (∃ x ∈ rule.findings f, x.token = i) ↔ AtFault f i := by
  have hmem : ∀ x, x ∈ rule.findings f ↔ ∃ j, f.kindAt j = some .kwReturn ∧ finding? f j = some x := by
    intro x
    rw [rule, List.mem_filterMap]
    simp only [mem_tokensOfKind]
  constructor
  · rintro ⟨x, hx, rfl⟩
    obtain ⟨j, hj, hfinding⟩ := (hmem x).1 hx
    obtain ⟨hcode, rfl⟩ := finding?_eq_some_iff.1 hfinding
    exact ⟨hj, hcode⟩
  · rintro ⟨hi, hcode⟩
    exact ⟨_, (hmem _).2 ⟨i, hi, finding?_eq_some_iff.2 ⟨hcode, rfl⟩⟩, rfl⟩

end BlankLineBeforeReturn

/-! ### Files with line breaks -/

namespace SourceFile.Respaced

open BlankLineBeforeReturn

variable {f f' : SourceFile} {xs : List MarkedLexeme} (h : f.Respaced f' xs)

include h

theorem kindAt_place {i : ℕ} {k : Kind} (hk : k ∉ [.attributeClose, .closeSquare]) :
    f'.kindAt (place xs i) = some k ↔ f.kindAt i = some k := by
  have hkind := h.padded.kind_eq i
  rw [getElem?_kinds, getElem?_kinds] at hkind
  have hiff : ∀ o : Option Kind, o = some k ↔ o.map Kind.unpaired = some k := by
    intro o
    cases o with
    | none => simp
    | some k' => rw [Option.map_some, Option.some_inj, Option.some_inj, Kind.unpaired_eq_iff hk]
  rw [hiff, hkind, ← hiff]

theorem exists_place {j : ℕ} {k : Kind} (hk : k ∉ [.blank, .attributeClose, .closeSquare])
    (hj : f'.kindAt j = some k) : ∃ i, j = place xs i ∧ f.kindAt i = some k := by
  obtain ⟨hblank, hsquare⟩ := not_or.1 (mt List.mem_cons.2 hk)
  have hkind : (Token.kinds f'.tokens.toList)[j]? = some k := by
    rw [getElem?_kinds, hj, Option.map_some, (Kind.unpaired_eq_iff hsquare).2 rfl]
  obtain ⟨i, rfl, -⟩ := h.padded.exists_place hkind hblank
  exact ⟨i, rfl, (h.kindAt_place hsquare).1 hj⟩

theorem exists_token {i : ℕ} {t : Token} (ht : f.tokens[i]? = some t) :
    ∃ t', f'.tokens[place xs i]? = some t' ∧ t'.kind.unpaired = t.kind.unpaired := by
  have hkind := h.padded.kind_eq i
  rw [getElem?_kinds, getElem?_kinds, kindAt, kindAt, ht, Option.map_map] at hkind
  exact Option.map_eq_some_iff.1 hkind

/-! ### Branches -/

section Branches

variable {path path' : String} {source source' : Text} (hparse : SourceFile.parse path source = .ok f)
  (hparse' : SourceFile.parse path' source' = .ok f')

include hparse hparse'

theorem scopesAt_place {i : ℕ} {t : Token} (ht : f.tokens[i]? = some t) :
    scopesAt f' (place xs i) = (scopesAt f i).map fun scopes =>
      scopes.map fun x => (place xs x.1, x.2) := by
  obtain ⟨t', ht', -⟩ := h.exists_token ht
  rw [scopesAt, scopesAt, ht, ht', Option.map_some, Option.map_some, Option.map_some,
    conditions_of_parse hparse ht, conditions_of_parse hparse' ht',
    h.padded.ownersAround_eq (wellPaired_of_parse hparse) (wellPaired_of_parse hparse')]

theorem leavesBranch {i : ℕ} {keyword : Kind}
    (hkeyword : keyword ∉ [.blank, .attributeClose, .closeSquare])
    (hleaves : leavesBranch f i keyword = true) : leavesBranch f' (place xs i) keyword = true := by
  have hout : ∀ k ∈ [Kind.kwReturn, .kwBreak], k ∉ [Kind.blank, .attributeClose, .closeSquare] := by
    decide
  have hsquare : ∀ {k : Kind}, k ∉ [Kind.blank, .attributeClose, .closeSquare] →
      k ∉ [Kind.attributeClose, .closeSquare] := fun hk => (not_or.1 (mt List.mem_cons.2 hk)).2
  obtain ⟨b, hlt, hb, hlast, hscopes, ⟨k, hk, hkind⟩, hfirst⟩ := leavesBranch_iff.1 hleaves
  obtain ⟨t, ht, -⟩ := Option.map_eq_some_iff.1 hb
  obtain ⟨u, hu, -⟩ := Option.map_eq_some_iff.1 hkind
  refine leavesBranch_iff.2 ⟨place xs b, h.padded.strictMono hlt,
    (h.kindAt_place (hsquare hkeyword)).2 hb, fun j' hj hji hkind' => ?_, ?_,
    ⟨k, hk, (h.kindAt_place (hsquare (hout k hk))).2 hkind⟩, fun j' hj hji k' hk' hkind' => ?_⟩
  · obtain ⟨j, rfl, hold⟩ := h.exists_place hkeyword hkind'
    exact hlast j (h.padded.strictMono.lt_iff_lt.1 hj) (h.padded.strictMono.le_iff_le.1 hji) hold
  · rw [h.scopesAt_place hparse hparse' ht, h.scopesAt_place hparse hparse' hu, hscopes]
  · obtain ⟨j, rfl, hold⟩ := h.exists_place (hout k' hk') hkind'
    exact hfirst j (h.padded.strictMono.lt_iff_lt.1 hj) (h.padded.strictMono.lt_iff_lt.1 hji) k' hk'
      hold

/-- A return that ends a branch does so after line breaks have been put in. -/
theorem endsBranch {i : ℕ} (hends : endsBranch f i = true) : endsBranch f' (place xs i) = true := by
  obtain ⟨keyword, hkeyword, hleaves⟩ := List.any_eq_true.1 hends
  have hkeywords : ∀ k ∈ [Kind.kwCase, .kwDefault], k ∉ [Kind.blank, .attributeClose, .closeSquare] := by
    decide
  exact List.any_eq_true.2
    ⟨keyword, hkeyword, h.leavesBranch hparse hparse' (hkeywords keyword hkeyword) hleaves⟩

end Branches

/-! ### Lines above -/

/-- A line that ends above a return after line breaks have been put in, none of them at the beginning of
the line of the return, ends in the same way without them. -/
theorem codeBefore? {ls ls' : List Lexeme} (hreads : f.Reads ls) (hreads' : f'.Reads ls')
    (hmarked : ∀ s, xs[s]?.any marked = true → ∃ u v, f.tokens[s]? = some u ∧
      f.tokens[s - 1]? = some v ∧ v.position.line ≠ u.position.line)
    {r : ℕ} {t : Token} (ht : f.tokens[r]? = some t) {k' : Kind}
    (hcode : codeBefore? f' (place xs r) = some k') :
    xs[lineStart f r]?.any marked = false ∧
      ∃ k, codeBefore? f r = some k ∧ k.unpaired = k'.unpaired := by
  obtain ⟨t', ht', -⟩ := h.exists_token ht
  obtain ⟨j', u', hj', hu', rfl, habove', hnone'⟩ := (codeBefore?_eq_some_iff hreads' ht').1 hcode
  obtain ⟨huline', hukind'⟩ := isCodeAbove_iff.1 habove'
  obtain ⟨j, u, rfl, hu, hkind⟩ : ∃ j u, j' = place xs j ∧ f.tokens[j]? = some u ∧
      u.kind.unpaired = u'.kind.unpaired := by
    have hkind' : (Token.kinds f'.tokens.toList)[j']? = some u'.kind.unpaired := by
      rw [getElem?_kinds, kindAt, hu']
      rfl
    obtain ⟨j, rfl, hj⟩ := h.padded.exists_place hkind' fun hblank =>
      hukind' (hblank ▸ List.mem_cons_self)
    rw [getElem?_kinds, kindAt, Option.map_map] at hj
    obtain ⟨u, hu, hkind⟩ := Option.map_eq_some_iff.1 hj
    exact ⟨j, u, rfl, hu, hkind⟩
  have hjr : j < r := h.padded.strictMono.lt_iff_lt.1 hj'
  have hline := h.line r t t' ht ht'
  have huline := h.line j u u' hu hu'
  obtain ⟨hle, hrun, hstop⟩ := lineStart_run ht
  -- further line breaks begin other lines
  have hunmarked : ∀ m, lineStart f r < m → m ≤ r → xs[m]?.any marked = false := by
    intro m hm hmr
    refine Bool.eq_false_iff.2 fun hmarked' => ?_
    obtain ⟨u, v, hu, hv, hne⟩ := hmarked m hmarked'
    exact hne ((hrun (m - 1) v (by omega) (by omega) hv).trans (hrun m u hm.le hmr hu).symm)
  have habove := above_eq_above hle hunmarked
  have hjs : j < lineStart f r := by
    by_contra hge
    have hsame := hrun j u (not_lt.1 hge) hjr.le hu
    have := above_eq_above hjr.le fun m hm => hunmarked m ((not_lt.1 hge).trans_lt hm)
    omega
  obtain ⟨v, hv, hne⟩ := hstop (Nat.zero_lt_of_lt hjs)
  have huv := hreads.line_le (Nat.le_sub_one_of_lt hjs) hu hv
  have hvt := hreads.line_le ((Nat.sub_le _ 1).trans hle) hv ht
  have hmono := above_mono xs hjs.le
  refine ⟨Bool.eq_false_iff.2 fun hmarked' => ?_, u.kind,
    (codeBefore?_eq_some_iff hreads ht).2 ⟨j, u, hjr, hu, rfl, ?_, fun m w hm hmr hw => ?_⟩, hkind⟩
  · have := above_lt_above hjs hmarked'
    omega
  · exact isCodeAbove_iff.2 ⟨by omega, hkind ▸ hukind'⟩
  · obtain ⟨w', hw', hwkind⟩ := h.exists_token hw
    have hnone := hnone' (place xs m) w' (h.padded.strictMono hm) (h.padded.strictMono hmr) hw'
    have hwline := h.line m w w' hw hw'
    refine Bool.eq_false_iff.2 fun hw => Bool.eq_false_iff.1 hnone ?_
    obtain ⟨hwabove, hwcode⟩ := isCodeAbove_iff.1 hw
    have hjm := above_mono xs hm.le
    have hmr := above_mono xs hmr.le
    exact isCodeAbove_iff.2 ⟨by omega, hwkind ▸ hwcode⟩

end SourceFile.Respaced

namespace BlankLineBeforeReturn

/-- **No return is at fault** after a line break has been put at the beginning of each line on which one
has been. -/
theorem findings_eq_nil_of_respaced {path path' : String} {source source' : Text} {f f' : SourceFile}
    {xs : List MarkedLexeme} (hparse : SourceFile.parse path source = .ok f)
    (hparse' : SourceFile.parse path' source' = .ok f') (h : f.Respaced f' xs)
    (hmarked : ∀ s, xs[s]?.any marked = true ↔ ∃ x ∈ rule.findings f, lineStart f x.token = s) :
    rule.findings f' = [] := by
  obtain ⟨pieces, -, hreads⟩ := exists_reads_of_parse hparse
  obtain ⟨pieces', -, hreads'⟩ := exists_reads_of_parse hparse'
  refine List.eq_nil_iff_forall_not_mem.2 fun x hx => ?_
  obtain ⟨hkind, k', hcode', hcurly, hcolon, hends⟩ := exists_finding_iff.1 ⟨x, hx, rfl⟩
  obtain ⟨r, hr, hkindr⟩ := h.exists_place (by decide) hkind
  rw [hr] at hcode' hends
  obtain ⟨t, ht, -⟩ := Option.map_eq_some_iff.1 hkindr
  have hbegins : ∀ s, xs[s]?.any marked = true → ∃ u v, f.tokens[s]? = some u ∧
      f.tokens[s - 1]? = some v ∧ v.position.line ≠ u.position.line := by
    intro s hs
    obtain ⟨y, hy, rfl⟩ := (hmarked s).1 hs
    obtain ⟨-, k, hk, -⟩ := exists_finding_iff.1 ⟨y, hy, rfl⟩
    obtain ⟨-, u, v, huv⟩ := lineStart_spec hk
    exact ⟨u, v, huv⟩
  obtain ⟨hunmarked, k, hcode, hsame⟩ := h.codeBefore? hreads hreads' hbegins ht hcode'
  have hne : ∀ k₀ : Kind, k₀ ∉ [Kind.attributeClose, .closeSquare] → k' ≠ k₀ → k ≠ k₀ := by
    rintro k₀ hk₀ hne rfl
    exact hne ((Kind.unpaired_eq_iff hk₀).1 (hsame.symm.trans ((Kind.unpaired_eq_iff hk₀).2 rfl)))
  have hfault : AtFault f r := by
    refine ⟨hkindr, k, hcode, hne _ (by decide) hcurly, hne _ (by decide) hcolon, ?_⟩
    refine Bool.eq_false_iff.2 fun hbranch => ?_
    rw [h.endsBranch hparse hparse' hbranch] at hends
    cases hends
  obtain ⟨y, hy, hyr⟩ := exists_finding_iff.2 hfault
  rw [(hmarked _).2 ⟨y, hy, by rw [hyr]⟩] at hunmarked
  cases hunmarked

end BlankLineBeforeReturn

end EntityLint
