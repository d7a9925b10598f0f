import EntityLint.Proofs.Bounds.Lexer
import EntityLint.Proofs.Token.Stream

/-!
# Token streams made index by index

Question marks are resolved and brackets paired in loops over the indices of a list of lexemes. A
bracket refers to its opener, and that one to its owner, by indices that an earlier turn has stored.

* `Guarded.resolveAt`, `resolveNullable`: one question mark, all question marks;
* `Guarded.Stacks`, `pairAt`, `pairAll`: the unclosed brackets, one turn, all turns;
* `Stacks.Fits`: the stored indices are behind the current one, and the pairs found so far together
  with the pairs of the rest are all pairs;
* `Guarded.tokenize`: the token stream of a text.

The main statement is `Guarded.tokenize_eq`.
-/

namespace EntityLint.Guarded

open Lexeme Pairing Checked

/-! ### Question marks -/

/-- Decide whether the lexeme at an index is a question mark of a type. -/
def resolveAt (lexemes : List Lexeme) (i : Nat) : Checked (List Lexeme) := do
  let l ← item lexemes i
  if l.kind = .ternary then
    let before ← part lexemes 0 i
    let after ← part lexemes (i + 1) lexemes.length
    if (firstSignificant? before.reverse).any Kind.precedesType
        ∧ (firstSignificant? after).any Kind.beginsType then
      return lexemes.set i { l with kind := .nullable }
    else return lexemes
  else return lexemes

/-- Decide it for all question marks. -/
def resolveNullable (lexemes : List Lexeme) : Checked (List Lexeme) :=
  (List.range lexemes.length).foldlM resolveAt lexemes

/-- A question mark is decided by what stands before and behind it. -/
theorem resolveAt_eq (done rest : List Lexeme) (l : Lexeme) :
    resolveAt (done ++ l :: rest) done.length = .ok (done ++
      { l with kind :=
        if l.kind = .ternary ∧ (firstSignificant? done.reverse).any Kind.precedesType
            ∧ (firstSignificant? rest).any Kind.beginsType then .nullable
        else l.kind } :: rest) := by
  have hitem : item (done ++ l :: rest) done.length = .ok l := item_eq (by simp)
  have hbefore : part (done ++ l :: rest) 0 done.length = .ok done := by
    rw [part_eq (Nat.zero_le _) (by simp), Nat.sub_zero, List.drop_zero, List.take_left]
  have hafter : part (done ++ l :: rest) (done.length + 1) (done ++ l :: rest).length = .ok rest := by
    rw [part_eq (by simp) (Nat.le_refl _), ← List.drop_drop, List.drop_left, List.drop_one,
      List.tail_cons]
    exact congrArg Except.ok (List.take_of_length_le (by simp; omega))
  rw [resolveAt, hitem, ok_bind, hbefore, hafter]
  by_cases hkind : l.kind = .ternary
  · by_cases htype : (firstSignificant? done.reverse).any Kind.precedesType
        ∧ (firstSignificant? rest).any Kind.beginsType
    · simp [hkind, htype]
    · simp only [hkind, htype, and_false, if_false, if_true, ok_bind, pure_eq]
      rw [← hkind]
  · simp [hkind]

theorem firstSignificant?_append (done : List Lexeme) (l : Lexeme) :
    firstSignificant? (done ++ [l]).reverse =
      if l.kind.isTrivia then firstSignificant? done.reverse else some l.kind := by
  rw [List.reverse_append, List.reverse_singleton, List.singleton_append, firstSignificant?,
    List.find?_cons]
  cases l.kind.isTrivia <;> rfl

/-- The lexemes before an index are decided, those from it on are as they were. -/
theorem resolveFrom_eq (done rest : List Lexeme) :
    (List.range' done.length rest.length).foldlM resolveAt (done ++ rest) =
      .ok (done ++ Lexeme.resolveNullable (firstSignificant? done.reverse) rest) := by
  induction rest generalizing done with
  | nil => rfl
  | cons l rest ih =>
    rw [List.length_cons, List.range'_succ, List.foldlM_cons, resolveAt_eq, ok_bind,
      Lexeme.resolveNullable]
    -- the next question mark looks back at the lexeme as it has been decided
    have hrest := fun l' => ih (done ++ [l'])
    simp only [List.append_assoc, List.length_append, firstSignificant?_append] at hrest
    exact hrest _

theorem resolveNullable_eq (lexemes : List Lexeme) :
    resolveNullable lexemes = .ok (Lexeme.resolveNullable none lexemes) := by
  rw [resolveNullable, List.range_eq_range']
  exact resolveFrom_eq [] lexemes

/-! ### Brackets -/

/-- The family that a kind opens a pair of. -/
def opened? : Kind → Option Family
  | .openRound => some .round
  | .openSquare | .attributeOpen => some .square
  | .openCurly => some .curly
  | _ => none

/-- The family that a kind closes a pair of. -/
def closed? : Kind → Option Family
  | .closeRound => some .round
  | .closeSquare => some .square
  | .closeCurly => some .curly
  | _ => none

/-- An opener that waits for its closer. -/
structure Unclosed where
  opener : Nat
  /-- The keyword that the pair belongs to. -/
  owner : Option Nat
  /-- Whether it opens an attribute group. -/
  isGroup : Bool

/-- What is known of the brackets before an index. -/
structure Stacks where
  /-- The openers that wait, the innermost first. -/
  unclosed : Family → List Unclosed
  /-- The pairs found so far. -/
  found : Family → List Range
  /-- The keyword that waits for a curly opener. -/
  scopeOwner : Option Nat
  /-- The keyword that waits for a round opener. -/
  parenOwner : Option Nat

namespace Stacks

/-- No brackets. -/
def empty : Stacks := ⟨fun _ => [], fun _ => [], none, none⟩

/-- The keyword that waits for an opener. -/
def owner (s : Stacks) : Family → Option Nat
  | .round => s.parenOwner
  | .square => none
  | .curly => s.scopeOwner

/-- An opener is put on the stack of its family. -/
def push (s : Stacks) (family : Family) (u : Unclosed) : Stacks where
  unclosed := Function.update s.unclosed family (u :: s.unclosed family)
  found := s.found
  scopeOwner := if family = .curly then none else s.scopeOwner
  parenOwner := if family = .square then s.parenOwner else none

/-- An opener is taken from the stack of its family, and its pair is found. -/
def pop (s : Stacks) (family : Family) (rest : List Unclosed) (r : Range) : Stacks where
  unclosed := Function.update s.unclosed family rest
  found := Function.update s.found family (s.found family ++ [r])
  scopeOwner := s.scopeOwner
  parenOwner := s.parenOwner

/-- The keywords that wait after a kind that is no bracket. -/
def wait (s : Stacks) (i : Nat) : Kind → Stacks
  | .kwClass | .kwInterface | .kwTrait | .kwEnum => { s with scopeOwner := some i }
  | .kwFunction => { s with scopeOwner := some i, parenOwner := some i }
  | .kwFn => { s with parenOwner := some i }
  | .semicolon => { s with scopeOwner := none, parenOwner := none }
  | _ => s

end Stacks

/-- Write to the lexeme at an index, if there is one. -/
def touch (lexemes : List Lexeme) : Option Nat → Checked Unit
  | some i => discard (item lexemes i)
  | none => return ()

/-- Write to an opener, or to all lexemes of an attribute group, when its closer is found. -/
def touchOpener (lexemes : List Lexeme) (u : Unclosed) (i : Nat) : Checked Unit :=
  if u.isGroup then discard (part lexemes u.opener (i + 1)) else touch lexemes (some u.opener)

/-- Pair the lexeme at an index. -/
def pairAt (lexemes : List Lexeme) (s : Stacks) (i : Nat) : Checked Stacks := do
  let l ← item lexemes i
  match opened? l.kind with
  | some family =>
    touch lexemes (s.owner family)
    return s.push family ⟨i, s.owner family, l.kind = .attributeOpen⟩
  | none =>
    match closed? l.kind with
    | some family =>
      match s.unclosed family with
      | [] => throw (.failure (.ofBracket lexemes i))
      | u :: rest =>
        touchOpener lexemes u i
        touch lexemes u.owner
        return s.pop family rest ⟨u.opener, i⟩
    | none => return s.wait i l.kind

/-- Pair all brackets. -/
def pairAll (lexemes : List Lexeme) : Checked Pairs := do
  let s ← (List.range lexemes.length).foldlM (pairAt lexemes) Stacks.empty
  let outermost (family : Family) : Option Nat := (s.unclosed family).getLast?.map Unclosed.opener
  match outermost .round <|> outermost .square <|> outermost .curly with
  | some i =>
    touch lexemes (some i)
    throw (.failure (.ofBracket lexemes i))
  | none => return ⟨s.found .round, s.found .square, s.found .curly⟩

/-! ### Pairs -/

theorem opens_iff (family : Family) (k : Kind) :
    family.opens k = true ↔ opened? k = some family := by
  cases family <;> cases k <;> decide

theorem closes_iff (family : Family) (k : Kind) :
    family.closes k = true ↔ closed? k = some family := by
  cases family <;> cases k <;> decide

/-- Stacks at an index of a list of kinds. -/
structure Stacks.Fits (s : Stacks) (kinds : List Kind) (i : Nat) : Prop where
  pairs : ∀ family, pairsFrom family 0 [] kinds =
    (pairsFrom family i ((s.unclosed family).map Unclosed.opener) (kinds.drop i)).map
      fun m => { m with pairs := s.found family ++ m.pairs }
  unclosed : ∀ family, ∀ u ∈ s.unclosed family, u.opener < i ∧ ∀ w ∈ u.owner, w < i
  owner : ∀ family, ∀ w ∈ s.owner family, w < i

variable {s : Stacks} {lexemes : List Lexeme} {kinds : List Kind} {i : Nat}

theorem fits_empty (kinds : List Kind) : Stacks.empty.Fits kinds 0 where
  pairs family := by
    have hnone : pairsFrom family 0 ((Stacks.empty.unclosed family).map Unclosed.opener) kinds =
      pairsFrom family 0 [] kinds := rfl
    rw [List.drop_zero, hnone]
    cases pairsFrom family 0 [] kinds <;> rfl
  unclosed := nofun
  owner family := by cases family <;> nofun

theorem touch_eq {o : Option Nat} (h : ∀ i ∈ o, i < lexemes.length) : touch lexemes o = .ok () := by
  cases o with
  | none => rfl
  | some i => rw [touch, item_eq (List.getElem?_eq_getElem (h i rfl))]; rfl

/-- The error of a family is not before the index it begins at. -/
theorem le_of_pairsFrom_eq_error {family : Family} {stack : List Nat} {j : Nat}
    (h : pairsFrom family i stack kinds = .error j) : i ≤ j := by
  induction kinds generalizing i stack with
  | nil => cases h
  | cons k kinds ih =>
    by_cases hopens : family.opens k = true
    · rw [pairsFrom_opens hopens] at h
      exact Nat.le_of_succ_le (ih h)
    · by_cases hcloses : family.closes k = true
      · cases stack with
        | nil =>
          rw [pairsFrom_closes_nil hcloses] at h
          cases h
          exact Nat.le_refl _
        | cons o stack =>
          rw [pairsFrom_closes_cons hcloses] at h
          cases hrest : pairsFrom family (i + 1) stack kinds with
          | ok m => rw [hrest] at h; cases h
          | error e =>
            rw [hrest] at h
            cases h
            exact Nat.le_of_succ_le (ih hrest)
      · rw [pairsFrom_skip hopens hcloses] at h
        exact Nat.le_of_succ_le (ih h)

/-- The first fault of all families is one that no other precedes. -/
theorem pairAll_of_error (family : Family) (h : pairsFrom family 0 [] kinds = .error i)
    (hle : ∀ other j, pairsFrom other 0 [] kinds = .error j → i ≤ j) :
    Pairing.pairAll kinds = .error i := by
  have hround := hle .round
  have hsquare := hle .square
  have hcurly := hle .curly
  rw [Pairing.pairAll]
  cases family <;>
    cases hr : pairsFrom .round 0 [] kinds <;> cases hs : pairsFrom .square 0 [] kinds <;>
    cases hc : pairsFrom .curly 0 [] kinds <;>
    simp_all [earliest]

namespace Stacks.Fits

variable {k : Kind} {family : Family} {rest : List Unclosed} {u : Unclosed}
  (h : s.Fits kinds i) (hdrop : kinds.drop i = k :: kinds.drop (i + 1))

include h

/-- Keywords wait for the openers behind them. -/
theorem owner_succ (family : Family) : ∀ w ∈ s.owner family, w < i + 1 :=
  fun w hw => Nat.lt_succ_of_lt (h.owner family w hw)

theorem unclosed_succ (family : Family) :
    ∀ u ∈ s.unclosed family, u.opener < i + 1 ∧ ∀ w ∈ u.owner, w < i + 1 := fun u hu =>
  let ⟨hopener, howner⟩ := h.unclosed family u hu
  ⟨Nat.lt_succ_of_lt hopener, fun w hw => Nat.lt_succ_of_lt (howner w hw)⟩

include hdrop

/-- A kind that is no bracket of a family is passed over. -/
theorem pairs_skip (hopens : opened? k ≠ some family) (hcloses : closed? k ≠ some family) :
    pairsFrom family 0 [] kinds =
      (pairsFrom family (i + 1) ((s.unclosed family).map Unclosed.opener)
        (kinds.drop (i + 1))).map fun m => { m with pairs := s.found family ++ m.pairs } := by
  rw [h.pairs family, hdrop, pairsFrom_skip (fun hk => hopens ((opens_iff family k).1 hk))
    fun hk => hcloses ((closes_iff family k).1 hk)]

theorem push (hk : opened? k = some family) (isGroup : Bool) :
    (s.push family ⟨i, s.owner family, isGroup⟩).Fits kinds (i + 1) where
  pairs other := by
    by_cases hother : other = family
    · subst hother
      rw [h.pairs other, hdrop, pairsFrom_opens ((opens_iff other k).2 hk), Stacks.push]
      simp only [Function.update_self, List.map_cons]
    · have hcloses : closed? k = none := by cases k <;> first | rfl | cases hk
      rw [h.pairs_skip hdrop (by rw [hk]; exact fun heq => hother (Option.some.inj heq).symm)
        (by rw [hcloses]; exact nofun), Stacks.push]
      simp only [Function.update_of_ne hother]
  unclosed other u hu := by
    by_cases hother : other = family
    · subst hother
      simp only [Stacks.push, Function.update_self] at hu
      rcases List.mem_cons.1 hu with rfl | hu
      · exact ⟨Nat.lt_succ_self i, h.owner_succ other⟩
      · exact h.unclosed_succ other u hu
    · simp only [Stacks.push, Function.update_of_ne hother] at hu
      exact h.unclosed_succ other u hu
  owner other w hw := by
    refine h.owner_succ other w ?_
    cases other with
    | square => exact hw
    | round =>
      simp only [Stacks.owner, Stacks.push] at hw ⊢
      split at hw
      · exact hw
      · cases hw
    | curly =>
      simp only [Stacks.owner, Stacks.push] at hw ⊢
      split at hw
      · cases hw
      · exact hw

theorem pop (hk : closed? k = some family) (hu : s.unclosed family = u :: rest) :
    (s.pop family rest ⟨u.opener, i⟩).Fits kinds (i + 1) where
  pairs other := by
    by_cases hother : other = family
    · subst hother
      rw [h.pairs other, hdrop, hu, List.map_cons,
        pairsFrom_closes_cons ((closes_iff other k).2 hk), Stacks.pop]
      simp only [Function.update_self]
      cases pairsFrom other (i + 1) (rest.map Unclosed.opener) (kinds.drop (i + 1)) with
      | error e => rfl
      | ok m => simp [Except.map]
    · have hopens : opened? k = none := by cases k <;> first | rfl | cases hk
      rw [h.pairs_skip hdrop (by rw [hopens]; exact nofun)
        (by rw [hk]; exact fun heq => hother (Option.some.inj heq).symm), Stacks.pop]
      simp only [Function.update_of_ne hother]
  unclosed other v hv := by
    refine h.unclosed_succ other v ?_
    by_cases hother : other = family
    · subst hother
      simp only [Stacks.pop, Function.update_self] at hv
      rw [hu]
      exact List.mem_cons_of_mem u hv
    · simpa only [Stacks.pop, Function.update_of_ne hother] using hv
  owner := h.owner_succ

theorem wait (hopens : opened? k = none) (hcloses : closed? k = none) :
    (s.wait i k).Fits kinds (i + 1) where
  pairs family := by
    have hsame : (s.wait i k).unclosed = s.unclosed ∧ (s.wait i k).found = s.found := by
      unfold Stacks.wait
      split <;> exact ⟨rfl, rfl⟩
    rw [hsame.1, hsame.2]
    exact h.pairs_skip hdrop (by rw [hopens]; exact nofun) (by rw [hcloses]; exact nofun)
  unclosed family u hu := by
    refine h.unclosed_succ family u ?_
    unfold Stacks.wait at hu
    split at hu <;> exact hu
  owner family w hw := by
    have hself : ∀ w ∈ some i, w < i + 1 := fun w hw => Option.some.inj hw ▸ Nat.lt_succ_self i
    have howner := h.owner_succ family w
    unfold Stacks.wait at hw
    cases family <;> split at hw <;>
      first | exact howner hw | exact hself w hw | exact absurd hw nofun

/-- A closer without an opener is the first fault of all. -/
theorem pairAll_error (hk : closed? k = some family) (hu : s.unclosed family = []) :
    Pairing.pairAll kinds = .error i := by
  -- the other families have come as far as `i` without a fault
  refine pairAll_of_error family ?_ fun other j hj => ?_
  · rw [h.pairs family, hdrop, hu]
    rw [List.map_nil, pairsFrom_closes_nil ((closes_iff family k).2 hk)]
    rfl
  · rw [h.pairs other] at hj
    cases hrest : pairsFrom other i ((s.unclosed other).map Unclosed.opener) (kinds.drop i) with
    | ok m => rw [hrest] at hj; cases hj
    | error e =>
      rw [hrest] at hj
      cases hj
      exact le_of_pairsFrom_eq_error hrest

end Stacks.Fits

/-- **One turn.** It comes to the next index, or to the first closer without an opener. -/
theorem pairAt_eq (h : s.Fits (lexemes.map Lexeme.kind) i) (hi : i < lexemes.length) :
    (∃ s', pairAt lexemes s i = .ok s' ∧ s'.Fits (lexemes.map Lexeme.kind) (i + 1)) ∨
      pairAt lexemes s i = .error (.failure (.ofBracket lexemes i)) ∧
        Pairing.pairAll (lexemes.map Lexeme.kind) = .error i := by
  obtain ⟨l, hl⟩ : ∃ l, lexemes[i]? = some l := ⟨_, List.getElem?_eq_getElem hi⟩
  have hdrop : (lexemes.map Lexeme.kind).drop i =
      l.kind :: (lexemes.map Lexeme.kind).drop (i + 1) := by
    rw [List.drop_eq_getElem_cons (by simpa using hi)]
    simp only [List.getElem_map, (List.getElem?_eq_some_iff.1 hl).2]
  have hbehind : ∀ {o : Option Nat}, (∀ w ∈ o, w < i) → touch lexemes o = .ok () :=
    fun ho => touch_eq fun w hw => Nat.lt_trans (ho w hw) hi
  -- an opener, a closer with or without an opener, or no bracket
  rw [pairAt, item_eq hl, ok_bind]
  cases hopened : opened? l.kind with
  | some family =>
    dsimp only
    rw [hbehind (h.owner family)]
    exact .inl ⟨_, rfl, h.push hdrop hopened _⟩
  | none =>
    dsimp only
    cases hclosed : closed? l.kind with
    | none => exact .inl ⟨_, rfl, h.wait hdrop hopened hclosed⟩
    | some family =>
      dsimp only
      cases hu : s.unclosed family with
      | nil => exact .inr ⟨rfl, h.pairAll_error hdrop hclosed hu⟩
      | cons u rest =>
        obtain ⟨hopener, howner⟩ := h.unclosed family u (by rw [hu]; exact List.mem_cons_self)
        have htouch : touchOpener lexemes u i = .ok () := by
          unfold touchOpener
          split
          · rw [part_eq (Nat.le_succ_of_le (Nat.le_of_lt hopener)) hi]
            rfl
          · exact hbehind fun w hw => Option.some.inj hw ▸ hopener
        dsimp only
        rw [htouch, ok_bind, hbehind howner]
        exact .inl ⟨_, rfl, h.pop hdrop hclosed hu⟩

/-- **All turns.** They come to an end, or to the first fault of all. -/
theorem pairFrom_eq {n : Nat} (h : s.Fits (lexemes.map Lexeme.kind) i)
    (hn : i + n = lexemes.length) :
    (∃ s', (List.range' i n).foldlM (pairAt lexemes) s = .ok s' ∧
      s'.Fits (lexemes.map Lexeme.kind) lexemes.length) ∨
      ∃ j, (List.range' i n).foldlM (pairAt lexemes) s = .error (.failure (.ofBracket lexemes j)) ∧
        Pairing.pairAll (lexemes.map Lexeme.kind) = .error j := by
  induction n generalizing s i with
  | zero => exact .inl ⟨s, rfl, hn ▸ h⟩
  | succ n ih =>
    rw [List.range'_succ, List.foldlM_cons]
    rcases pairAt_eq h (by omega) with ⟨s', hs', hfits⟩ | ⟨herror, hpairs⟩
    · rw [hs', ok_bind]
      exact ih hfits (by omega)
    · rw [herror]
      exact .inr ⟨i, rfl, hpairs⟩

/-- **All brackets.** -/
theorem pairAll_eq (lexemes : List Lexeme) :
    pairAll lexemes = match Pairing.pairAll (lexemes.map Lexeme.kind) with
      | .ok pairs => .ok pairs
      | .error i => .error (.failure (.ofBracket lexemes i)) := by
  rw [pairAll, List.range_eq_range']
  rcases pairFrom_eq (fits_empty (lexemes.map Lexeme.kind)) (Nat.zero_add lexemes.length) with
    ⟨s, hs, h⟩ | ⟨j, herror, hpairs⟩
  · have hend : ∀ family, pairsFrom family 0 [] (lexemes.map Lexeme.kind) =
        .ok ⟨s.found family, (s.unclosed family).map Unclosed.opener⟩ := by
      intro family
      rw [h.pairs family, List.drop_eq_nil_of_le (by simp), pairsFrom]
      simp [Except.map]
    have houtermost : ∀ family, ((s.unclosed family).map Unclosed.opener).getLast? =
        (s.unclosed family).getLast?.map Unclosed.opener := fun family => List.getLast?_map
    rw [hs, ok_bind, Pairing.pairAll, hend, hend, hend]
    simp only [houtermost]
    generalize hfirst : ((s.unclosed .round).getLast?.map Unclosed.opener <|>
      (s.unclosed .square).getLast?.map Unclosed.opener <|>
      (s.unclosed .curly).getLast?.map Unclosed.opener) = first
    cases first with
    | none => rfl
    | some i =>
      have hopener : ∀ {family}, (s.unclosed family).getLast?.map Unclosed.opener = some i →
          i < lexemes.length := by
        intro family hlast
        obtain ⟨u, hu, rfl⟩ := Option.map_eq_some_iff.1 hlast
        exact (h.unclosed family u (List.mem_of_getLast? hu)).1
      have hlt : i < lexemes.length := by
        simp only [Option.orElse_eq_orElse, Option.orElse_eq_or, Option.or_eq_some_iff] at hfirst
        rcases hfirst with hlast | ⟨-, hlast | ⟨-, hlast⟩⟩ <;> exact hopener hlast
      dsimp only
      rw [touch_eq fun w hw => Option.some.inj hw ▸ hlt]
      rfl
  · rw [herror, hpairs]
    rfl

/-! ### Token streams -/

/-- The token stream of a text. -/
def tokenize (source : Text) : Checked (List Token) := do
  let s ← (Bytewise.Lexer.start source).run false
  let lexemes ← resolveNullable s.lexemes
  let pairs ← pairAll lexemes
  return Token.ofLexemes lexemes s.docs pairs

/-- **A text is made into tokens without a fault.** What comes out is its token stream, or the reason
why it has none. -/
theorem tokenize_eq (source : Text) :
    tokenize source = match EntityLint.tokenize source with
      | .ok tokens => .ok tokens
      | .error cause => .error (.failure cause) := by
  rw [tokenize, Bytewise.Lexer.run_start_eq, EntityLint.tokenize]
  cases Piece.cutAll Context.start source with
  | error e => rfl
  | ok pieces =>
    obtain ⟨hlexemes, hdocs⟩ := Bytewise.Lexer.foldl_addPiece (.start source) pieces
    dsimp only [ok_bind]
    rw [hlexemes, hdocs, resolveNullable_eq, ok_bind, pairAll_eq]
    generalize hls : Lexeme.resolveNullable none (pieces.flatMap Piece.lexemes) = ls
    have hstart : Lexeme.resolveNullable none
        ((Bytewise.Lexer.start source).lexemes ++ pieces.flatMap Piece.lexemes) = ls := hls
    simp only [bind, Except.bind, hls, hstart]
    cases Pairing.pairAll (ls.map Lexeme.kind) <;> rfl

end EntityLint.Guarded
