import EntityLint.Proofs.Mapping.Arguments
import EntityLint.Proofs.Rule.ReturnLines
import EntityLint.Proofs.Source.Shape

/-!
# Names of interfaces that get longer

When each name of an interface that lacks the suffix gets it, the tokens stay where they are and what they
are, and no name is at fault any more. The one keyword that looks at what follows is `enum`. Between it and
a name of an interface there is either the keyword of the interface or no name at all.

* `InterfaceSuffix.nameOf?_eq_some_iff`: the name that a keyword declares;
* `InterfaceSuffix.IsMisnamed`, `exists_finding_iff`: the names at fault;
* `InterfaceSuffix.exists_not_blank`: what stands in front of a name at fault;
* `InterfaceSuffix.Lengthens`: the texts of the tokens after the names have got the suffix;
* `InterfaceSuffix.Lengthens.retold`, `Lengthens.line_eq`: how they are cut again, and their lines.

The main statement is `InterfaceSuffix.findings_eq_nil_of_lengthens`.
-/

namespace EntityLint

open Lexeme Text

/-- A search among the elements in front that satisfy a predicate. -/
theorem find?_takeWhile_eq_some_iff {α : Type} {p q : α → Bool} {l : List α} {a : α} :
    (l.takeWhile p).find? q = some a ↔ ∃ i : ℕ, l[i]? = some a ∧ q a = true ∧
      (∀ (j : ℕ) b, j ≤ i → l[j]? = some b → p b = true) ∧
      ∀ (j : ℕ) b, j < i → l[j]? = some b → q b = false := by
  induction l with
  | nil => simp
  | cons c l ih =>
    cases hp : p c with
    | false =>
      rw [List.takeWhile_cons_of_neg (Bool.eq_false_iff.1 hp)]
      refine iff_of_false (by simp) ?_
      rintro ⟨i, -, -, hfront, -⟩
      rw [hfront 0 c (Nat.zero_le i) rfl] at hp
      cases hp
    | true =>
      rw [List.takeWhile_cons_of_pos hp, List.find?_cons]
      cases hq : q c with
      | true =>
        constructor
        · rintro ⟨⟩
          refine ⟨0, rfl, hq, fun j b hj hb => ?_, fun j b hj => absurd hj (Nat.not_lt_zero j)⟩
          obtain rfl := Nat.le_zero.1 hj
          exact Option.some.inj hb ▸ hp
        · rintro ⟨i, ha, -, -, hfirst⟩
          cases i with
          | zero => exact ha
          | succ i =>
            have := hfirst 0 c (Nat.succ_pos i) rfl
            rw [hq] at this
            cases this
      | false =>
        rw [ih]
        constructor
        · rintro ⟨i, ha, hqa, hfront, hfirst⟩
          refine ⟨i + 1, ha, hqa, fun j b hj hb => ?_, fun j b hj hb => ?_⟩
          · cases j with
            | zero => exact Option.some.inj hb ▸ hp
            | succ j => exact hfront j b (Nat.le_of_succ_le_succ hj) hb
          · cases j with
            | zero => exact Option.some.inj hb ▸ hq
            | succ j => exact hfirst j b (Nat.lt_of_succ_lt_succ hj) hb
        · rintro ⟨i, ha, hqa, hfront, hfirst⟩
          cases i with
          | zero =>
            rw [Option.some.inj ha, hqa] at hq
            cases hq
          | succ i =>
            exact ⟨i, ha, hqa, fun j b hj => hfront (j + 1) b (Nat.succ_le_succ hj),
              fun j b hj => hfirst (j + 1) b (Nat.succ_lt_succ hj)⟩

namespace InterfaceSuffix

variable {f f' : SourceFile} {ls ls' : List Lexeme} {i j keyword : ℕ}

/-! ### The name of an interface -/

/-- A keyword declares the first word behind it, if that is on its line. -/
theorem nameOf?_eq_some_iff (h : f.Reads ls) : nameOf? f keyword = some i ↔
    ∃ k t, f.tokens[keyword]? = some k ∧ f.tokens[i]? = some t ∧ keyword < i ∧ t.kind = .word ∧
      t.position.line = k.position.line ∧
      ∀ j, keyword < j → j < i → f.kindAt j ≠ some .word := by
  have hfollowing (m : ℕ) : (f.tokens.toList.zipIdx.drop (keyword + 1))[m]? =
      (f.tokens[keyword + 1 + m]?).map (·, keyword + 1 + m) := by
    rw [List.getElem?_drop, List.getElem?_zipIdx, Array.getElem?_toList, Nat.zero_add]
  unfold nameOf?
  rw [Option.bind_eq_bind, Option.bind_eq_some_iff]
  constructor
  · rintro ⟨k, hk, hname⟩
    obtain ⟨⟨t, j⟩, hfind, hj⟩ := Option.bind_eq_some_iff.1 hname
    obtain rfl : j = i := Option.some.inj hj
    obtain ⟨m, hm, hword, hfront, hfirst⟩ := find?_takeWhile_eq_some_iff.1 hfind
    rw [hfollowing] at hm
    obtain ⟨u, hu, heq⟩ := Option.map_eq_some_iff.1 hm
    cases heq
    refine ⟨k, t, hk, hu, by omega, beq_iff_eq.1 hword, ?_, fun j hkj hj hkind => ?_⟩
    · exact beq_iff_eq.1 (hfront m (t, keyword + 1 + m) le_rfl ((hfollowing m).trans (by rw [hu]; rfl)))
    · obtain ⟨u, hu, hword'⟩ := Option.map_eq_some_iff.1 hkind
      obtain ⟨n, rfl⟩ := Nat.exists_eq_add_of_lt hkj
      have hn : keyword + n + 1 = keyword + 1 + n := by omega
      rw [hn] at hu
      have := hfirst n (u, keyword + 1 + n) (by omega) ((hfollowing n).trans (by rw [hu]; rfl))
      exact beq_eq_false_iff_ne.1 this hword'
  · rintro ⟨k, t, hk, ht, hlt, hword, hline, hfirst⟩
    obtain ⟨m, rfl⟩ := Nat.exists_eq_add_of_lt hlt
    have hm : keyword + m + 1 = keyword + 1 + m := by omega
    rw [hm] at ht hfirst ⊢
    refine ⟨k, hk, Option.bind_eq_some_iff.2 ⟨(t, keyword + 1 + m), ?_, rfl⟩⟩
    refine find?_takeWhile_eq_some_iff.2 ⟨m, ?_, beq_iff_eq.2 hword, fun j b hj hb => ?_,
      fun j b hj hb => ?_⟩
    · rw [hfollowing, ht]
      rfl
    · rw [hfollowing] at hb
      obtain ⟨u, hu, rfl⟩ := Option.map_eq_some_iff.1 hb
      have hbefore := h.line_le (by omega : keyword ≤ keyword + 1 + j) hk hu
      have hafter := h.line_le (by omega : keyword + 1 + j ≤ keyword + 1 + m) hu ht
      exact beq_iff_eq.2 (by omega)
    · rw [hfollowing] at hb
      obtain ⟨u, hu, rfl⟩ := Option.map_eq_some_iff.1 hb
      refine Bool.eq_false_iff.2 fun hkind => hfirst (keyword + 1 + j) (by omega) (by omega) ?_
      rw [SourceFile.kindAt, hu]
      exact congrArg some (beq_iff_eq.1 hkind)

/-- The token is the name of an interface and lacks the suffix. -/
def IsMisnamed (f : SourceFile) (i : ℕ) : Prop :=
  (∃ keyword, f.kindAt keyword = some .kwInterface ∧ nameOf? f keyword = some i) ∧
    endsWith (f.textAt i) suffix = false

/-- A finding asks for the suffix at its token. -/
theorem mem_findings {x : Finding} (hx : x ∈ rule.findings f) : IsMisnamed f x.token ∧
    x.repair = some (.edit (.replace x.token (f.textAt x.token ++ suffix))) := by
  obtain ⟨keyword, hkeyword, hx⟩ := List.mem_filterMap.1 hx
  obtain ⟨⟨t, k⟩, ht, rfl⟩ := List.mem_map.1 hkeyword
  obtain ⟨ht, hkind⟩ := List.mem_filter.1 ht
  have ht := List.mk_mem_zipIdx_iff_getElem?.1 ht
  unfold finding? at hx
  obtain ⟨i, hi, hx⟩ := Option.bind_eq_some_iff.1 hx
  obtain ⟨_, hmissing, hx⟩ := Option.bind_eq_some_iff.1 hx
  cases hx
  refine ⟨⟨⟨k, ?_, hi⟩, ?_⟩, rfl⟩
  · rw [SourceFile.kindAt, ← Array.getElem?_toList, ht]
    exact congrArg some (beq_iff_eq.1 hkind)
  · simpa [guard] using hmissing

theorem exists_finding_iff : (∃ x ∈ rule.findings f, x.token = i) ↔ IsMisnamed f i := by
  constructor
  · rintro ⟨x, hx, rfl⟩
    exact (mem_findings hx).1
  · rintro ⟨⟨keyword, hkind, hi⟩, hmissing⟩
    obtain ⟨k, hk, hkind⟩ := Option.map_eq_some_iff.1 hkind
    have hkeyword : keyword ∈ Rule.tokensOfKind .kwInterface f := by
      refine List.mem_map.2 ⟨(k, keyword), List.mem_filter.2 ⟨?_, beq_iff_eq.2 hkind⟩, rfl⟩
      rw [List.mk_mem_zipIdx_iff_getElem?, Array.getElem?_toList, hk]
    have hfinding : (finding? f keyword).map Finding.token = some i := by
      rw [finding?, hi]
      simp [hmissing, guard]
    obtain ⟨x, hx, htoken⟩ := Option.map_eq_some_iff.1 hfinding
    exact ⟨x, List.mem_filterMap.2 ⟨keyword, hkeyword, hx⟩, htoken⟩

/-! ### What stands in front of a name -/

/-- The keyword of an interface is not blank. -/
theorem exists_not_blank_of_keyword {ctx : Context} {t : Text} {pieces : List Piece}
    (h : Piece.cutAll ctx t = .ok pieces) {l : Lexeme} (hl : l ∈ pieces.flatMap Piece.lexemes)
    (hk : l.kind = .kwInterface) : ∃ c ∈ l.text, isBlank c = false := by
  obtain ⟨p, hp, hl⟩ := List.mem_flatMap.1 hl
  refine forall_cutAll (P := fun p => ∀ l ∈ p.lexemes, l.kind = .kwInterface →
    ∃ c ∈ l.text, isBlank c = false) (fun ctx c t p hp l hl hk => ?_) h p hp l hl hk
  have hother : ∀ {kind : Kind} {n : ℕ}, kind ≠ .kwInterface →
      l ∈ (Piece.cut kind c t n).lexemes → False := by
    intro kind n hne hl
    rw [List.mem_singleton.1 hl] at hk
    exact hne hk
  unfold nextPiece at hp
  split at hp
  · cases codePiece_of_ok hp with
    | docComment body rest hdoc h =>
      have hkind := (mem_lexemes_docComment hl).2
      rw [hk] at hkind
      exact absurd hkind (by decide)
    | word hc =>
      rw [List.mem_singleton.1 hl] at hk ⊢
      refine ⟨c, List.mem_cons_self, isBlank_of_isAlphanum ?_⟩
      rw [wordLength_cons (isWordChar_of_isWordStart hc), List.take_succ_cons] at hk
      obtain ⟨before, after, htable, -⟩ := List.lookup_eq_some_iff.1
        (ctx.ofKeyword?_of_wordKind (k := .kwInterface) hk (by decide))
      -- a keyword begins with a letter
      have hall : ∀ x ∈ Kind.keywordTable, x.1.head?.all Char.isAlpha = true := by decide
      have hletter := hall _ (by rw [htable]; exact List.mem_append_right _ List.mem_cons_self)
      rw [asciiLower, List.map_cons, List.head?_cons, Option.all_some,
        Char.isAlpha_toLower_eq_isAlpha] at hletter
      rw [Char.isAlphanum, hletter, Bool.true_or]
    | symbol h =>
      exact (hother (of_symbolAt (P := (· ≠ .kwInterface)) (by decide)
        (fun d => by unfold Kind.ofSymbol; split <;> decide) _ _) hl).elim
    | _ => exact (hother (by decide) hl).elim
  · split at hp <;> cases hp <;> exact (hother (by decide) hl).elim

/-- Between a word and a name at fault behind it, there is more than blanks: the keyword that declares the
name cannot stand in front of both. -/
theorem exists_not_blank {source : Text} {pieces : List Piece}
    (hpieces : Piece.cutAll Context.start source = .ok pieces)
    (h : f.Reads (pieces.flatMap Piece.lexemes)) (hword : f.kindAt i = some .word)
    (hj : IsMisnamed f j) (hij : i < j) :
    ∃ m l, i < m ∧ m < j ∧ (pieces.flatMap Piece.lexemes)[m]? = some l ∧
      ∃ c ∈ l.text, isBlank c = false := by
  obtain ⟨⟨keyword, hkind, hname⟩, -⟩ := hj
  obtain ⟨_, _, -, -, hlt, -, -, hfirst⟩ := (nameOf?_eq_some_iff h).1 hname
  rcases lt_trichotomy keyword i with hbefore | rfl | hafter
  · exact absurd hword (hfirst i hbefore hij)
  · cases hkind.symm.trans hword
  · obtain ⟨l, hl, hk⟩ := h.kind keyword .kwInterface hkind (by decide)
    exact ⟨keyword, l, hafter, hlt, hl,
      exists_not_blank_of_keyword hpieces (List.mem_of_getElem? hl) hk⟩

/-! ### Longer names -/

/-- The texts of the tokens of a file after each name at fault has got the suffix. -/
structure Lengthens (f : SourceFile) (ts : List Text) : Prop where
  length : ts.length = f.tokens.size
  longer : ∀ (i : ℕ) t, ts[i]? = some t → IsMisnamed f i → t = f.textAt i ++ suffix
  same : ∀ (i : ℕ) t, ts[i]? = some t → ¬IsMisnamed f i → t = f.textAt i

namespace Lengthens

variable {ts : List Text}

/-- The texts are those of the old lexemes, retold. -/
theorem retold {path : String} {source : Text} {pieces : List Piece} (ht : Lengthens f ts)
    (hparse : SourceFile.parse path source = .ok f)
    (hpieces : Piece.cutAll Context.start source = .ok pieces)
    (h : f.Reads (pieces.flatMap Piece.lexemes)) :
    Retold none (pieces.flatMap Piece.lexemes) ts := by
  have hlen : ts.length = (pieces.flatMap Piece.lexemes).length := ht.length.trans h.size
  refine .of_forall hlen fun i l t hl hti => ?_
  by_cases hi : IsMisnamed f i
  · obtain ⟨⟨keyword, -, hname⟩, -⟩ := id hi
    obtain ⟨l', hl', hk⟩ := h.kind i .word (kindAt_of_nameOf? hname) (by decide)
    cases hl.symm.trans hl'
    exact .inl ⟨hk, h.textAt_eq hl ▸ ht.longer i t hti hi⟩
  refine .inr ⟨h.textAt_eq hl ▸ ht.same i t hti hi, fun hk => ?_⟩
  have hword : f.kindAt i = some .word := hk ▸ kindAt_of_parse hparse hpieces hl (by rw [hk]; decide)
  refine beginsName_of_forall (by rw [List.length_drop, List.length_drop, hlen]) ?_
  intro n l' t' hl' ht'
  rw [List.getElem?_drop] at hl' ht'
  by_cases hj : IsMisnamed f (i + 1 + n)
  · refine ⟨⟨suffix, ?_⟩, fun hblank => ?_⟩
    · rw [ht.longer _ t' ht' hj, h.textAt_eq hl']
    · obtain ⟨m, l'', him, hmj, hm, c, hc, hnot⟩ :=
        exists_not_blank hpieces h hword hj (by omega)
      have hmem : l'' ∈ ((pieces.flatMap Piece.lexemes).drop (i + 1)).take (n + 1) := by
        refine List.mem_of_getElem? (i := m - (i + 1)) ?_
        rw [List.getElem?_take, if_pos (by omega), List.getElem?_drop,
          show i + 1 + (m - (i + 1)) = m by omega, hm]
      rw [hblank l'' hmem c hc] at hnot
      cases hnot
  · have hsame : t' = l'.text := h.textAt_eq hl' ▸ ht.same _ t' ht' hj
    exact ⟨hsame ▸ List.prefix_rfl, fun _ => hsame⟩

/-- The suffix has no line break. -/
theorem count_eq (ht : Lengthens f ts) {t : Text} (hti : ts[i]? = some t) :
    t.count '\n' = (f.textAt i).count '\n' := by
  by_cases hi : IsMisnamed f i
  · rw [ht.longer i t hti hi, List.count_append]
    rfl
  · rw [ht.same i t hti hi]

/-- The tokens stay on their lines. -/
theorem line_eq (ht : Lengthens f ts) (h : f.Reads ls) (h' : f'.Reads ls') (hts : ls'.map text = ts)
    {t t' : Token} (hti : f.tokens[i]? = some t) (hti' : f'.tokens[i]? = some t') :
    t'.position.line = t.position.line := by
  have hcounts : ls'.map (fun l => l.text.count '\n') = ls.map fun l => l.text.count '\n' := by
    have hlen : ls'.length = ls.length := by
      rw [← h.size, ← ht.length, ← hts, List.length_map]
    refine List.ext_getElem (by rw [List.length_map, List.length_map, hlen]) fun n hn hn' => ?_
    rw [List.length_map] at hn hn'
    rw [List.getElem_map, List.getElem_map, ← h.textAt_eq (List.getElem?_eq_getElem hn')]
    refine ht.count_eq (i := n) ?_
    rw [← hts, List.getElem?_map, List.getElem?_eq_getElem hn]
    rfl
  rw [h.line i t hti, h'.line i t' hti', List.count_flatMap, List.count_flatMap, List.map_take,
    List.map_take]
  exact congrArg (fun ns : List ℕ => 1 + (ns.take i).sum) hcounts

end Lengthens

/-- A keyword declares the same token where kinds and lines are the same. -/
theorem nameOf?_of_sameShape (hshape : f.SameShape f') (h : f.Reads ls) (h' : f'.Reads ls')
    (hlines : ∀ (i : ℕ) t t', f.tokens[i]? = some t → f'.tokens[i]? = some t' →
      t'.position.line = t.position.line) (hname : nameOf? f' keyword = some i) :
    nameOf? f keyword = some i := by
  have hold : ∀ {n : ℕ} {t' : Token}, f'.tokens[n]? = some t' →
      ∃ t, f.tokens[n]? = some t ∧ t'.kind = t.kind ∧ t'.position.line = t.position.line := by
    intro n t' hn'
    rcases hshape.getElem?_cases n with ⟨-, hnone⟩ | ⟨t, u, p, hn, hsome⟩
    · cases hnone.symm.trans hn'
    · refine ⟨t, hn, ?_, hlines n t t' hn hn'⟩
      rw [Option.some.inj (hn'.symm.trans hsome)]
  obtain ⟨k', t', hk', hi', hlt, hword, hline, hfirst⟩ := (nameOf?_eq_some_iff h').1 hname
  obtain ⟨k, hk, -, hkline⟩ := hold hk'
  obtain ⟨t, hi, hkind, htline⟩ := hold hi'
  refine (nameOf?_eq_some_iff h).2 ⟨k, t, hk, hi, hlt, hkind ▸ hword, ?_, fun j hj hji => ?_⟩
  · rw [← htline, ← hkline, hline]
  · rw [← hshape.kindAt_eq]
    exact hfirst j hj hji

/-- **No name is at fault after the names at fault have got the suffix.** -/
theorem findings_eq_nil_of_lengthens {ts : List Text} (ht : Lengthens f ts)
    (hshape : f.SameShape f') (h : f.Reads ls) (h' : f'.Reads ls') (hts : ls'.map text = ts) :
    rule.findings f' = [] := by
  refine List.eq_nil_iff_forall_not_mem.2 fun x hx => ?_
  obtain ⟨⟨⟨keyword, hkind, hname⟩, hmissing⟩, -⟩ := mem_findings hx
  have hname' := nameOf?_of_sameShape hshape h h'
    (fun _ _ _ hti hti' => ht.line_eq h h' hts hti hti') hname
  obtain ⟨l, hl, -⟩ := h'.kind _ .word (kindAt_of_nameOf? hname) (by decide)
  have htext : ts[x.token]? = some (f'.textAt x.token) := by
    rw [← hts, List.getElem?_map, hl, h'.textAt_eq hl]
    rfl
  by_cases hi : IsMisnamed f x.token
  · rw [ht.longer _ _ htext hi, endsWith_iff.2 (List.suffix_append _ _)] at hmissing
    cases hmissing
  · rw [ht.same _ _ htext hi] at hmissing
    exact hi ⟨⟨keyword, hshape.kindAt_eq keyword ▸ hkind, hname'⟩, hmissing⟩

end InterfaceSuffix

end EntityLint
