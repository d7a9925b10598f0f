import Mathlib.Data.List.Basic
import EntityLint.Proofs.Text.Trimmed
import EntityLint.Token.Lexer

/-!
# Operations that may be refused

An index into a list, a cut of a text at a byte, and a difference of natural numbers are only there
for some arguments. A checked run asks each of them whether it is allowed, and stops where it is not.

* `Stop`, `Checked`: why a run stops, and runs that may stop;
* `Checked.item`, `Checked.part`, `Checked.minus`: indices, parts of lists and differences;
* `Checked.andThen`: runs that may have no result; `Checked.Yields`: runs with a memory;
* `Text.cut`, `Text.cutFrom`, `Text.cutTo`: parts of a text by byte offsets, which have to lie
  between characters;
* `Text.bytes`, `Text.offsetOf?`, `Text.offsetWhere?`: the bytes of a text and searches that answer
  with a byte offset.

The main statement is `Text.splitAt?_eq_some_iff`: a cut is allowed exactly at the end of a part.
-/

namespace EntityLint

/-- Why a checked run comes to no result. -/
inductive Stop
  /-- An index or a part past the end of a list. -/
  | outOfRange
  /-- A cut past the end of a text or inside of a character. -/
  | badCut
  /-- A difference below zero. -/
  | underflow
  /-- A loop that does not get on. -/
  | stuck
  /-- The text has no token stream, which is an answer and no fault of the run. -/
  | failure (cause : LexError)
  deriving DecidableEq, Repr

/-- A run of partial operations. -/
abbrev Checked := Except Stop

namespace Checked

@[simp] theorem ok_bind {α β : Type} (a : α) (k : α → Checked β) :
    ((Except.ok a : Checked α) >>= k) = k a := rfl

@[simp] theorem error_bind {α β : Type} (stop : Stop) (k : α → Checked β) :
    ((Except.error stop : Checked α) >>= k) = .error stop := rfl

@[simp] theorem pure_eq {α : Type} (a : α) : (pure a : Checked α) = .ok a := rfl

@[simp] theorem throw_eq {α : Type} (stop : Stop) : (throw stop : Checked α) = .error stop := rfl

@[simp] theorem map_ok {α β : Type} (g : α → β) (a : α) :
    (g <$> (Except.ok a : Checked α)) = .ok (g a) := rfl

/-- Go on only if a condition holds. -/
def ensure (stop : Stop) (condition : Bool) : Checked Unit :=
  if condition then .ok () else .error stop

@[simp] theorem ensure_true (stop : Stop) : ensure stop true = .ok () := rfl

/-- The item of a list at an index. -/
def item {α : Type} (l : List α) (i : Nat) : Checked α :=
  match l[i]? with
  | some a => .ok a
  | none => .error .outOfRange

theorem item_eq {α : Type} {l : List α} {i : Nat} {a : α} (h : l[i]? = some a) :
    item l i = .ok a := by
  rw [item, h]

/-- The part of a list between two indices. -/
def part {α : Type} (l : List α) (start stop : Nat) : Checked (List α) :=
  if start ≤ stop ∧ stop ≤ l.length then .ok ((l.drop start).take (stop - start))
  else .error .outOfRange

theorem part_eq {α : Type} {l : List α} {start stop : Nat} (h : start ≤ stop)
    (hstop : stop ≤ l.length) : part l start stop = .ok ((l.drop start).take (stop - start)) :=
  if_pos ⟨h, hstop⟩

/-- The difference of two numbers. -/
def minus (a b : Nat) : Checked Nat := if b ≤ a then .ok (a - b) else .error .underflow

theorem minus_eq {a b : Nat} (h : b ≤ a) : minus a b = .ok (a - b) := if_pos h

@[simp] theorem minus_add (a b : Nat) : minus (a + b) a = .ok b := by
  rw [minus_eq (Nat.le_add_right a b), Nat.add_sub_cancel_left]

/-! ### Runs over lists -/

theorem filterMapM_eq {α β : Type} {g : α → Checked (Option β)} {g' : α → Option β} {l : List α}
    (h : ∀ a ∈ l, g a = .ok (g' a)) : l.filterMapM g = .ok (l.filterMap g') := by
  induction l with
  | nil => rfl
  | cons a l ih =>
    rw [List.filterMapM_cons, h a List.mem_cons_self, ih fun b hb => h b (List.mem_cons_of_mem a hb),
      ok_bind, List.filterMap_cons]
    cases g' a <;> rfl

theorem flatMapM_eq {α β : Type} {g : α → Checked (List β)} {g' : α → List β} {l : List α}
    (h : ∀ a ∈ l, g a = .ok (g' a)) : l.flatMapM g = .ok (l.flatMap g') := by
  induction l with
  | nil => rfl
  | cons a l ih =>
    rw [List.flatMapM_cons, h a List.mem_cons_self, ih fun b hb => h b (List.mem_cons_of_mem a hb)]
    rfl

theorem anyM_eq {α : Type} {g : α → Checked Bool} {g' : α → Bool} {l : List α}
    (h : ∀ a ∈ l, g a = .ok (g' a)) : l.anyM g = .ok (l.any g') := by
  induction l with
  | nil => rfl
  | cons a l ih =>
    rw [List.anyM, h a List.mem_cons_self, ih fun b hb => h b (List.mem_cons_of_mem a hb), ok_bind,
      List.any_cons]
    cases g' a <;> rfl

theorem findSomeM?_eq {α β : Type} {g : α → Checked (Option β)} {g' : α → Option β} {l : List α}
    (h : ∀ a ∈ l, g a = .ok (g' a)) : l.findSomeM? g = .ok (l.findSome? g') := by
  induction l with
  | nil => rfl
  | cons a l ih =>
    rw [List.findSomeM?, h a List.mem_cons_self, ih fun b hb => h b (List.mem_cons_of_mem a hb),
      ok_bind, List.findSome?_cons]
    cases g' a <;> rfl

/-! ### Runs that may have no result -/

/-- Go on with a result, if there is one. -/
def andThen {α β : Type} (x : Checked (Option α)) (k : α → Checked (Option β)) :
    Checked (Option β) := do
  match ← x with
  | some a => k a
  | none => return none

theorem andThen_eq {α β : Type} {x : Checked (Option α)} {o : Option α}
    {k : α → Checked (Option β)} {k' : α → Option β} (hx : x = .ok o)
    (hk : ∀ a ∈ o, k a = .ok (k' a)) : andThen x k = .ok (o.bind k') := by
  rw [andThen, hx, ok_bind]
  cases o with
  | none => rfl
  | some a => exact hk a rfl

/-! ### Runs with a memory -/

section Memory

variable {σ α β : Type} {g : StateT σ Checked α} {g' : StateM σ α}
  {k : α → StateT σ Checked β} {k' : α → StateM σ β}

/-- A checked run with a memory comes to the result of another run and leaves the same memory. -/
def Yields (g : StateT σ Checked α) (g' : StateM σ α) : Prop := ∀ s, g.run s = .ok (g'.run s)

theorem Yields.pure (a : α) : Yields (Pure.pure a : StateT σ Checked α) (Pure.pure a) :=
  fun _ => rfl

theorem Yields.bind (hg : Yields g g') (hk : ∀ a, Yields (k a) (k' a)) :
    Yields (g >>= k) (g' >>= k') := fun s => by
  rw [StateT.run_bind, hg s, ok_bind, hk]
  rfl

theorem Yields.lift {x : Checked α} {a : α} (hx : x = .ok a) :
    Yields (liftM x : StateT σ Checked α) (Pure.pure a) := fun _ => by
  rw [hx]
  rfl

/-- A run without memory that is checked on the way. -/
theorem Yields.check {x : Checked α} {a : α} {h : StateM σ β} (hx : x = .ok a)
    (hk : Yields (k a) h) : Yields ((liftM x : StateT σ Checked α) >>= k) h := fun s => by
  rw [hx]
  exact hk s

theorem Yields.mapM {f : α → StateT σ Checked β} {f' : α → StateM σ β} {l : List α}
    (h : ∀ a ∈ l, Yields (f a) (f' a)) : Yields (l.mapM f) (l.mapM f') := by
  induction l with
  | nil => exact Yields.pure []
  | cons a l ih =>
    rw [List.mapM_cons, List.mapM_cons]
    exact (h a List.mem_cons_self).bind fun b =>
      (ih fun c hc => h c (List.mem_cons_of_mem a hc)).bind fun bs => Yields.pure (b :: bs)

end Memory

end Checked

namespace Text

/-! ### Cuts -/

/-- The parts of a text before and after a byte offset, if that is between characters. -/
def splitAt? : Nat → Text → Option (Text × Text)
  | 0, t => some ([], t)
  | _ + 1, [] => none
  | n + 1, c :: t =>
    if c.utf8Size ≤ n + 1 then
      (splitAt? (n + 1 - c.utf8Size) t).map fun (before, after) => (c :: before, after)
    else none

theorem splitAt?_append (u t : Text) : splitAt? u.utf8Length (u ++ t) = some (u, t) := by
  induction u with
  | nil => rw [utf8Length_nil, List.nil_append, splitAt?]
  | cons c u ih =>
    have hpos : 0 < c.utf8Size := c.utf8Size_pos
    obtain ⟨n, hn⟩ : ∃ n, c.utf8Size + utf8Length u = n + 1 :=
      Nat.exists_eq_add_one_of_ne_zero (by omega)
    rw [List.cons_append, utf8Length_cons, hn, splitAt?, if_pos (by omega),
      show n + 1 - c.utf8Size = utf8Length u by omega, ih]
    rfl

/-- A cut is allowed exactly at the end of a part of the text. -/
theorem splitAt?_eq_some_iff {n : Nat} {t before after : Text} :
    splitAt? n t = some (before, after) ↔ t = before ++ after ∧ n = before.utf8Length := by
  constructor
  · intro h
    fun_induction splitAt? n t generalizing before after with
    | case1 => cases h; exact ⟨rfl, rfl⟩
    | case2 => cases h
    | case3 n c t hle ih =>
      simp only [Option.map_eq_some_iff, Prod.mk.injEq, Prod.exists] at h
      obtain ⟨u, v, hu, rfl, rfl⟩ := h
      obtain ⟨rfl, hn⟩ := ih hu
      exact ⟨rfl, by rw [utf8Length_cons]; omega⟩
    | case4 => cases h
  · rintro ⟨rfl, rfl⟩
    exact splitAt?_append before after

/-- The text from a byte offset on. -/
def cutFrom (t : Text) (i : Nat) : Checked Text :=
  match splitAt? i t with
  | some (_, after) => .ok after
  | none => .error .badCut

/-- The text before a byte offset. -/
def cutTo (t : Text) (i : Nat) : Checked Text :=
  match splitAt? i t with
  | some (before, _) => .ok before
  | none => .error .badCut

/-- The text between two byte offsets. -/
def cut (t : Text) (i j : Nat) : Checked Text := do
  let rest ← t.cutFrom i
  Checked.ensure .badCut (i ≤ j)
  rest.cutTo (j - i)

variable {t u v w : Text} {i j : Nat}

theorem cutFrom_eq (ht : t = u ++ v) (hi : i = u.utf8Length) : t.cutFrom i = .ok v := by
  rw [cutFrom, splitAt?_eq_some_iff.2 ⟨ht, hi⟩]

theorem cutTo_eq (ht : t = u ++ v) (hi : i = u.utf8Length) : t.cutTo i = .ok u := by
  rw [cutTo, splitAt?_eq_some_iff.2 ⟨ht, hi⟩]

theorem cut_eq (ht : t = u ++ (v ++ w)) (hi : i = u.utf8Length)
    (hj : j = u.utf8Length + v.utf8Length) : t.cut i j = .ok v := by
  have hle : i ≤ j := by omega
  rw [cut, cutFrom_eq ht hi, Checked.ok_bind, decide_eq_true hle, Checked.ensure_true,
    Checked.ok_bind, cutTo_eq rfl (by omega)]

/-! ### Searches -/

/-- The byte offset of the first character that satisfies `p`. -/
def offsetWhere? (p : Char → Bool) (t : Text) : Option Nat :=
  if t.any p then some (utf8Length (t.takeWhile (!p ·))) else none

/-- The byte offset of the first occurrence of a text. -/
def offsetOf? (needle t : Text) : Option Nat :=
  (breakOn needle t).map fun (before, _) => utf8Length before

theorem offsetWhere?_getD (p : Char → Bool) (t : Text) :
    (offsetWhere? p t).getD t.utf8Length = utf8Length (t.takeWhile (!p ·)) := by
  rw [offsetWhere?]
  split
  · rfl
  · next h =>
    have hall : ∀ c ∈ t, (!p c) = true := by simpa using h
    rw [List.takeWhile_eq_self_iff.2 hall]
    rfl

/-! ### Bytes -/

/-- The bytes of a character in UTF-8, each as the character with its number. -/
def bytesOf (c : Char) : List Char := (String.utf8EncodeChar c).map fun b => Char.ofNat b.toNat

/-- The bytes of a text in UTF-8, each as the character with its number. -/
def bytes (t : Text) : List Char := t.flatMap bytesOf

@[simp] theorem bytes_nil : bytes [] = [] := rfl

@[simp] theorem bytes_cons (c : Char) (t : Text) : bytes (c :: t) = bytesOf c ++ bytes t := rfl

@[simp] theorem bytes_append (u t : Text) : bytes (u ++ t) = bytes u ++ bytes t :=
  List.flatMap_append

@[simp] theorem length_bytesOf (c : Char) : (bytesOf c).length = c.utf8Size := by
  rw [bytesOf, List.length_map, String.length_utf8EncodeChar]

@[simp] theorem length_bytes (t : Text) : t.bytes.length = t.utf8Length := by
  induction t with
  | nil => rfl
  | cons c t ih => rw [bytes_cons, List.length_append, length_bytesOf, ih]; rfl

theorem ne_ascii {c d : Char} (h : 128 ≤ c.toNat) (hd : d.toNat < 128) : c ≠ d := by
  rintro rfl
  omega

theorem utf8Size_of_lt {c : Char} (h : c.toNat < 128) : c.utf8Size = 1 := by
  rw [Char.utf8Size_eq_one_iff, UInt32.le_iff_toNat_le]
  exact Nat.le_of_lt_succ h

theorem toNat_ofNat_of_lt {n : Nat} (h : n < 256) : (Char.ofNat n).toNat = n := by
  have hvalid : n.isValidChar := .inl (by omega)
  rw [Char.ofNat, dif_pos hvalid]
  rfl

/-- An ASCII character is its own byte. -/
theorem bytesOf_of_lt {c : Char} (h : c.toNat < 128) : bytesOf c = [c] := by
  rw [bytesOf, String.utf8EncodeChar_eq_singleton (utf8Size_of_lt h), List.map_singleton]
  have hbyte : c.val.toUInt8.toNat = c.toNat := by
    rw [UInt32.toNat_toUInt8]
    exact Nat.mod_eq_of_lt (Nat.lt_trans h (by decide))
  rw [hbyte, Char.ofNat_toNat]

/-- The bytes of any other character are no ASCII characters. -/
theorem le_of_mem_bytesOf {c b : Char} (h : 128 ≤ c.toNat) (hb : b ∈ bytesOf c) :
    128 ≤ b.toNat := by
  have hle : ¬c.val.toNat ≤ 127 := fun hle => absurd h (Nat.not_le_of_lt (Nat.lt_succ_of_le hle))
  have hvalid : c.val.toNat < 0x110000 := by
    have := c.valid
    simp only [UInt32.isValidChar, Nat.isValidChar] at this
    omega
  have hall : ∀ byte ∈ String.utf8EncodeChar c, 128 ≤ byte.toNat := by
    simp only [String.utf8EncodeChar]
    rw [if_neg hle]
    split_ifs <;>
      simp only [List.mem_cons, List.not_mem_nil, or_false, forall_eq_or_imp, forall_eq,
        UInt8.toNat_ofNat'] <;> omega
  obtain ⟨byte, hbyte, rfl⟩ := List.mem_map.1 hb
  rw [toNat_ofNat_of_lt byte.toNat_lt]
  exact hall byte hbyte

/-- A character is its own byte if it is ASCII, and none of its bytes is ASCII otherwise. -/
theorem bytesOf_cases (c : Char) : (c.toNat < 128 ∧ bytesOf c = [c]) ∨
    (128 ≤ c.toNat ∧ ∃ b more, bytesOf c = b :: more ∧ 128 ≤ b.toNat ∧
      ∀ d ∈ more, 128 ≤ d.toNat) := by
  rcases Nat.lt_or_ge c.toNat 128 with hc | hc
  · exact .inl ⟨hc, bytesOf_of_lt hc⟩
  · cases hbytes : bytesOf c with
    | nil =>
      have hpos := c.utf8Size_pos
      rw [← length_bytesOf, hbytes] at hpos
      cases hpos
    | cons b more =>
      have hall : ∀ d ∈ b :: more, 128 ≤ d.toNat := fun d hd => le_of_mem_bytesOf hc (hbytes ▸ hd)
      exact .inr ⟨hc, b, more, rfl, hall b List.mem_cons_self,
        fun d hd => hall d (List.mem_cons_of_mem b hd)⟩

/-- Whether a character is a given ASCII character shows in its last byte. -/
theorem exists_getLast?_bytesOf (c : Char) : ∃ b, (bytesOf c).getLast? = some b ∧
    ∀ {d : Char}, d.toNat < 128 → (b = d ↔ c = d) := by
  rcases bytesOf_cases c with ⟨-, hbytes⟩ | ⟨hc, b, more, hbytes, hb, hmore⟩ <;> rw [hbytes]
  · exact ⟨c, rfl, fun _ => Iff.rfl⟩
  · have hall : ∀ d ∈ b :: more, 128 ≤ d.toNat := List.forall_mem_cons.2 ⟨hb, hmore⟩
    have hlast := hall _ (List.getLast_mem (List.cons_ne_nil b more))
    exact ⟨_, List.getLast?_eq_some_getLast (List.cons_ne_nil b more), fun hd =>
      iff_of_false (ne_ascii hlast hd) (ne_ascii hc hd)⟩

end Text

end EntityLint
