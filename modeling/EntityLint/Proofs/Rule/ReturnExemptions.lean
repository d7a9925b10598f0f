import EntityLint.Proofs.Rule.ReturnLines

/-!
# Which returns need no blank line

A return needs no blank line above it if it begins a block or a branch, if the line above holds
nothing that counts, or if it is the first one to leave a branch. Parts of doc comments count. Where a
switch ends does not matter to its branches: they are open until something leaves them.

* `EndsLineAbove`, `codeBefore?_eq_some_iff_endsLineAbove`: what the line above ends with;
* `SameScopes`, `scopesAt_eq_iff`: tokens in the same bodies of classes and functions;
* `FollowsOpenBranch`, `endsBranch_iff`: a branch that has not been left.

The main statements are `comments_above_are_ignored_iff` and `branches_are_open_until_left`.
-/

namespace EntityLint.BlankLineBeforeReturn

variable {path : String} {source : Text} {f : SourceFile} {ls : List Lexeme} {i j : ℕ} {t u : Token}

/-! ### Lines above -/

/-- The line above a token ends with a token, the last one that begins there and is neither blank nor a
plain comment. -/
structure EndsLineAbove (f : SourceFile) (t : Token) (j : ℕ) (u : Token) : Prop where
  token : f.tokens[j]? = some u
  line : u.position.line + 1 = t.position.line
  counts : u.kind ∉ [.blank, .comment]
  last : ∀ m v, j < m → f.tokens[m]? = some v → v.position.line + 1 = t.position.line →
    v.kind ∈ [.blank, .comment]

theorem isCodeAbove_eq_true_iff {line : ℕ} :
    isCodeAbove line u = true ↔ u.position.line + 1 = line ∧ u.kind ∉ [.blank, .comment] := by
  simp [isCodeAbove]

theorem lt_of_line_above (h : f.Reads ls) (ht : f.tokens[i]? = some t) (hu : f.tokens[j]? = some u)
    (hline : u.position.line + 1 = t.position.line) : j < i := by
  by_contra hle
  have := h.line_le (not_lt.1 hle) ht hu
  omega

theorem codeBefore?_eq_some_iff_endsLineAbove (h : f.Reads ls) (ht : f.tokens[i]? = some t) {k : Kind} :
    codeBefore? f i = some k ↔ ∃ j u, EndsLineAbove f t j u ∧ u.kind = k := by
  rw [codeBefore?_eq_some_iff h ht]
  constructor
  · rintro ⟨j, u, -, hu, rfl, habove, hlast⟩
    obtain ⟨hline, hcounts⟩ := isCodeAbove_eq_true_iff.1 habove
    refine ⟨j, u, ⟨hu, hline, hcounts, fun m v hm hv hvline => ?_⟩, rfl⟩
    by_contra hvcounts
    have hcode := hlast m v hm (lt_of_line_above h ht hv hvline) hv
    rw [isCodeAbove_eq_true_iff.2 ⟨hvline, hvcounts⟩] at hcode
    cases hcode
  · rintro ⟨j, u, ⟨hu, hline, hcounts, hlast⟩, rfl⟩
    refine ⟨j, u, lt_of_line_above h ht hu hline, hu, rfl,
      isCodeAbove_eq_true_iff.2 ⟨hline, hcounts⟩, fun m v hm _ hv => ?_⟩
    refine Bool.eq_false_iff.2 fun hcode => ?_
    obtain ⟨hvline, hvcounts⟩ := isCodeAbove_eq_true_iff.1 hcode
    exact hvcounts (hlast m v hm hv hvline)

/-- A line with a token that counts ends with such a token. -/
theorem exists_endsLineAbove (hu : f.tokens[j]? = some u)
    (hline : u.position.line + 1 = t.position.line) (hcounts : u.kind ∉ [.blank, .comment]) :
    ∃ m v, EndsLineAbove f t m v := by
  -- by induction on the number of tokens behind it
  induction hn : f.tokens.size - j using Nat.strongRecOn generalizing j u with
  | ind n ih =>
    by_cases hlast : ∀ m v, j < m → f.tokens[m]? = some v → v.position.line + 1 = t.position.line →
        v.kind ∈ [.blank, .comment]
    · exact ⟨j, u, hu, hline, hcounts, hlast⟩
    · push Not at hlast
      obtain ⟨m, v, hm, hv, hvline, hvcounts⟩ := hlast
      have hsize := (Array.getElem?_eq_some_iff.1 hv).1
      exact ih _ (by omega) hv hvline hvcounts rfl

/-! ### Branches -/

/-- Two tokens are in the same bodies of classes and functions. -/
def SameScopes (f : SourceFile) (i j : ℕ) : Prop :=
  ∀ w k r, Token.ScopeAround f.tokens.toList i w k r ↔ Token.ScopeAround f.tokens.toList j w k r

/-- Who owns a scope carries one scope only. -/
theorem scopeAround_of_mem {w : ℕ} {k : Kind} {r : Range}
    (hr : Token.ScopeAround f.tokens.toList i w k r)
    (hmem : (w, k) ∈ Token.ownersAround f.tokens.toList j) :
    Token.ScopeAround f.tokens.toList j w k r := by
  obtain ⟨s, hs⟩ := Token.mem_ownersAround.1 hmem
  obtain ⟨u, hu, -, hur⟩ := hr.token
  obtain ⟨v, hv, -, hvs⟩ := hs.token
  cases hu.symm.trans hv
  cases hur.symm.trans hvs
  exact hs

theorem scopesAt_eq_iff (h : SourceFile.parse path source = .ok f) (ht : f.tokens[i]? = some t)
    (hu : f.tokens[j]? = some u) : scopesAt f i = scopesAt f j ↔ SameScopes f i j := by
  rw [scopesAt, scopesAt, ht, hu, Option.map_some, Option.map_some, Option.some_inj,
    conditions_of_parse h ht, conditions_of_parse h hu]
  constructor
  · intro heq w k r
    exact ⟨fun hr => scopeAround_of_mem hr (heq ▸ Token.mem_ownersAround.2 ⟨r, hr⟩),
      fun hr => scopeAround_of_mem hr (heq ▸ Token.mem_ownersAround.2 ⟨r, hr⟩)⟩
  · intro hsame
    have hirrefl : Std.Irrefl fun x y : ℕ × Kind => x.1 < y.1 := ⟨fun x => lt_irrefl x.1⟩
    have hantisymm : Std.Antisymm fun x y : ℕ × Kind => x.1 < y.1 :=
      ⟨fun x y hxy hyx => absurd hxy (Nat.lt_asymm hyx)⟩
    refine Token.sorted_ownersAround.eq_of_mem_iff Token.sorted_ownersAround ?_
    rintro ⟨w, k⟩
    rw [Token.mem_ownersAround, Token.mem_ownersAround]
    exact exists_congr fun r => hsame w k r

/-- Between a keyword that begins a branch and a token there is nothing that leaves the branch, and no
further keyword of its sort. Both are in the same bodies of classes and functions. -/
def FollowsOpenBranch (f : SourceFile) (i : ℕ) : Prop :=
  ∃ keyword ∈ [Kind.kwCase, .kwDefault], ∃ b < i, f.kindAt b = some keyword ∧ SameScopes f b i ∧
    ∀ j, b < j → j < i → f.kindAt j ∉ [some keyword, some .kwReturn, some .kwBreak]

theorem endsBranch_iff (h : SourceFile.parse path source = .ok f) (ht : f.tokens[i]? = some t)
    (hreturn : t.kind = .kwReturn) : endsBranch f i = true ↔ FollowsOpenBranch f i := by
  have hi : f.kindAt i = some .kwReturn := by rw [SourceFile.kindAt, ht, Option.map_some, hreturn]
  rw [endsBranch, List.any_eq_true]
  refine exists_congr fun keyword => and_congr_right fun hkeyword => ?_
  have hne : keyword ≠ .kwReturn := by
    rintro rfl
    revert hkeyword
    decide
  rw [leavesBranch_iff]
  refine exists_congr fun b => and_congr_right fun hlt => and_congr_right fun hb => ?_
  obtain ⟨u, hu, -⟩ := Option.map_eq_some_iff.1 hb
  rw [scopesAt_eq_iff h hu ht]
  constructor
  · rintro ⟨hlast, hscopes, -, hfirst⟩
    refine ⟨hscopes, fun j hbj hji hj => ?_⟩
    rcases List.mem_cons.1 hj with hj | hj
    · exact hlast j hbj hji.le hj
    · obtain ⟨k, hk, hjk⟩ := List.mem_map.1 (show f.kindAt j ∈ [Kind.kwReturn, .kwBreak].map some from hj)
      exact hfirst j hbj hji k hk hjk.symm
  · rintro ⟨hscopes, hopen⟩
    refine ⟨fun j hbj hji hj => ?_, hscopes, ⟨_, List.mem_cons_self, hi⟩, fun j hbj hji k hk hj => ?_⟩
    · rcases hji.eq_or_lt with rfl | hji
      · exact hne (Option.some_inj.1 (hj.symm.trans hi))
      · exact hopen j hbj hji (hj ▸ List.mem_cons_self)
    · exact hopen j hbj hji (hj ▸ List.mem_cons_of_mem _ (List.mem_map_of_mem (f := some) hk))

/-! ### Which returns are reported -/

theorem reported_iff (h : SourceFile.parse path source = .ok f) (ht : f.tokens[i]? = some t)
    (hreturn : t.kind = .kwReturn) : (∃ x ∈ rule.findings f, x.token = i) ↔
      (∃ j u, EndsLineAbove f t j u ∧ u.kind ∉ [.openCurly, .colon]) ∧ ¬FollowsOpenBranch f i := by
  obtain ⟨_, -, hreads⟩ := exists_reads_of_parse h
  have hi : f.kindAt i = some .kwReturn := by rw [SourceFile.kindAt, ht, Option.map_some, hreturn]
  rw [exists_finding_iff, ← endsBranch_iff h ht hreturn, Bool.not_eq_true]
  constructor
  · rintro ⟨-, k, hk, hcurly, hcolon, hbranch⟩
    obtain ⟨j, u, hends, rfl⟩ := (codeBefore?_eq_some_iff_endsLineAbove hreads ht).1 hk
    exact ⟨⟨j, u, hends, by simp [hcurly, hcolon]⟩, hbranch⟩
  · rintro ⟨⟨j, u, hends, hkind⟩, hbranch⟩
    obtain ⟨hcurly, hcolon⟩ : u.kind ≠ .openCurly ∧ u.kind ≠ .colon := by simpa using hkind
    exact ⟨hi, u.kind, (codeBefore?_eq_some_iff_endsLineAbove hreads ht).2 ⟨j, u, hends, rfl⟩, hcurly,
      hcolon, hbranch⟩

/-- **Plain comments on the line above are ignored, doc comments are not.** Below a line of blanks and
comments a return is reported exactly if a part of a doc comment begins on that line and the return
follows no open branch. -/
theorem comments_above_are_ignored_iff (h : SourceFile.parse path source = .ok f)
    (ht : f.tokens[i]? = some t) (hreturn : t.kind = .kwReturn)
    (habove : ∀ u ∈ f.tokens, u.position.line + 1 = t.position.line → u.kind.isTrivia = true) :
    (∃ x ∈ rule.findings f, x.token = i) ↔
      (∃ u ∈ f.tokens, u.position.line + 1 = t.position.line ∧ u.kind.isDocPart = true) ∧
        ¬FollowsOpenBranch f i := by
  have hdoc : ∀ k : Kind, k.isTrivia = true → (k ∉ [.blank, .comment] ↔ k.isDocPart = true) := by
    intro k
    cases k <;> decide
  have hplain : ∀ k : Kind, k.isDocPart = true → k ∉ [.openCurly, .colon] := by
    intro k
    cases k <;> decide
  have hmem : ∀ {j : ℕ} {u : Token}, f.tokens[j]? = some u → u ∈ f.tokens :=
    fun hu => Array.mem_of_getElem? hu
  rw [reported_iff h ht hreturn]
  refine and_congr_left fun _ => ?_
  constructor
  · rintro ⟨j, u, hends, -⟩
    have htrivia := habove u (hmem hends.token) hends.line
    exact ⟨u, hmem hends.token, hends.line, (hdoc _ htrivia).1 hends.counts⟩
  · rintro ⟨u, hu, hline, hk⟩
    obtain ⟨j, hj, rfl⟩ := Array.mem_iff_getElem.1 hu
    have hcounts := (hdoc _ (habove _ hu hline)).2 hk
    obtain ⟨m, v, hends⟩ := exists_endsLineAbove (Array.getElem?_eq_getElem hj) hline hcounts
    have htrivia := habove v (hmem hends.token) hends.line
    exact ⟨m, v, hends, hplain _ ((hdoc _ htrivia).1 hends.counts)⟩

/-- A doc comment and a line comment above a return. -/
def belowDocComment : Text := "<?php\n$a;\n/** b */ // c\nreturn;".toList

/-- The doc comment counts. -/
theorem comments_above_are_ignored_iff_doc : ∃ (f : SourceFile) (t : Token),
    SourceFile.parse "a.php" belowDocComment = .ok f ∧
    f.tokens[13]? = some t ∧ t.kind = .kwReturn ∧
    (∀ u ∈ f.tokens, u.position.line + 1 = t.position.line → u.kind.isTrivia = true) ∧
    (∃ x ∈ rule.findings f, x.token = 13) ∧
    (∃ u ∈ f.tokens, u.position.line + 1 = t.position.line ∧ u.kind.isDocPart = true) ∧
      ¬FollowsOpenBranch f 13 := by
  have heval : (SourceFile.parse "a.php" belowDocComment).toOption.any (fun f : SourceFile =>
      (f.tokens[13]?.any fun t : Token => t.kind = .kwReturn ∧
        ∀ u ∈ f.tokens.toList, u.position.line + 1 = t.position.line → u.kind.isTrivia = true) = true ∧
      ∃ x ∈ rule.findings f, x.token = 13) = true := by
    decide +kernel
  obtain ⟨f, hparse, htoken, hfound⟩ := exists_ok_of_any heval
  obtain ⟨t, ht, hline⟩ := (Option.any_eq_true _ _).1 htoken
  obtain ⟨hreturn, habove⟩ := of_decide_eq_true hline
  simp only [Array.mem_toList_iff] at habove
  have hiff := comments_above_are_ignored_iff hparse ht hreturn habove
  exact ⟨f, t, hparse, ht, hreturn, habove, hfound, hiff.1 hfound⟩

-- a block comment that is no doc comment does not count
example : (SourceFile.parse "a.php" "<?php\n$a;\n/* b */ // c\nreturn;".toList).toOption.any
    (fun f => (rule.findings f).length = 0) = true := by
  decide +kernel

/-- **A branch is open until something leaves it.** Below code a return is reported exactly if each
keyword of a branch in front of it, in the same bodies of classes and functions, is followed by a return,
a break or a further keyword of its sort. The braces of the switch do not matter. -/
theorem branches_are_open_until_left (h : SourceFile.parse path source = .ok f)
    (ht : f.tokens[i]? = some t) (hreturn : t.kind = .kwReturn) (hends : EndsLineAbove f t j u)
    (hkind : u.kind ∉ [.openCurly, .colon]) : (∃ x ∈ rule.findings f, x.token = i) ↔
      ∀ keyword ∈ [Kind.kwCase, .kwDefault], ∀ b < i, f.kindAt b = some keyword → SameScopes f b i →
        ∃ j, b < j ∧ j < i ∧ f.kindAt j ∈ [some keyword, some .kwReturn, some .kwBreak] := by
  rw [reported_iff h ht hreturn, and_iff_right ⟨j, u, hends, hkind⟩, FollowsOpenBranch]
  push Not
  rfl

/-- A return behind a switch whose branch has been left. -/
def belowLeftBranch : Text :=
  "<?php function f() \x7b switch (1) \x7b case 1: break; \x7d\n$y;\nreturn; \x7d".toList

/-- The branch is not open. -/
theorem branches_are_open_until_left_switch : ∃ (f : SourceFile) (t u : Token),
    SourceFile.parse "a.php" belowLeftBranch = .ok f ∧
    f.tokens[31]? = some t ∧ t.kind = .kwReturn ∧ EndsLineAbove f t 29 u ∧
    u.kind ∉ [.openCurly, .colon] ∧ (∃ x ∈ rule.findings f, x.token = 31) ∧
    ∀ keyword ∈ [Kind.kwCase, .kwDefault], ∀ b < 31, f.kindAt b = some keyword → SameScopes f b 31 →
      ∃ j, b < j ∧ j < 31 ∧ f.kindAt j ∈ [some keyword, some .kwReturn, some .kwBreak] := by
  have heval : (SourceFile.parse "a.php" belowLeftBranch).toOption.any (fun f : SourceFile =>
      (f.tokens[31]?.any fun t : Token => t.kind = .kwReturn ∧ (f.tokens[29]?.any fun u : Token =>
        u.position.line + 1 = t.position.line ∧ u.kind = .semicolon) = true ∧
        ∀ x ∈ f.tokens.toList.zipIdx, 29 < x.2 → x.1.position.line + 1 = t.position.line →
          x.1.kind ∈ [.blank, .comment]) = true ∧
      ∃ x ∈ rule.findings f, x.token = 31) = true := by
    decide +kernel
  obtain ⟨f, hparse, htoken, hfound⟩ := exists_ok_of_any heval
  obtain ⟨t, ht, hline⟩ := (Option.any_eq_true _ _).1 htoken
  obtain ⟨hreturn, habove, hlast⟩ := of_decide_eq_true hline
  obtain ⟨u, hu, hcode⟩ := (Option.any_eq_true _ _).1 habove
  obtain ⟨huline, hsemicolon⟩ := of_decide_eq_true hcode
  have hends : EndsLineAbove f t 29 u := by
    refine ⟨hu, huline, by rw [hsemicolon]; decide, fun m v hm hv => hlast (v, m) ?_ hm⟩
    rw [List.mk_mem_zipIdx_iff_getElem?, Array.getElem?_toList, hv]
  have hkind : u.kind ∉ [.openCurly, .colon] := by
    rw [hsemicolon]
    decide
  exact ⟨f, t, u, hparse, ht, hreturn, hends, hkind, hfound,
    (branches_are_open_until_left hparse ht hreturn hends hkind).1 hfound⟩

-- the end of a switch leaves no branch
example : (SourceFile.parse "a.php"
    "<?php function f() \x7b switch (1) \x7b case 1: $x; \x7d\n$y;\nreturn; \x7d".toList).toOption.any
      (fun f => (rule.findings f).length = 0) = true := by
  decide +kernel

end EntityLint.BlankLineBeforeReturn
