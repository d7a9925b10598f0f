import EntityLint.Proofs.Bounds.Declaration
import EntityLint.Proofs.Source.Reading

/-!
# Questions about a file at any index

A file can be asked about indices and lengths that are not in it. It is asked once more with each
index into the stream checked. All questions but one have an answer everywhere: behind the end it is
an empty one, and a search downward begins with the last token. The facts of a property alone are
read off the tokens before an index without a look at where the stream ends, so that there are none
for an index behind the end.

* `Query`, `Answer`: what a file is asked, and what it answers;
* `Query.run`, `Query.answer?`: the answer with all indices checked, and the answer;
* `Query.clamp`: the question with its indices moved into the stream;
* `Query.IsPast`, `Answer.IsEmpty`: questions about what is behind the end.

The main statement is `queries_stay_in_file`.
-/

namespace EntityLint

/-! ### Behind the end of the stream -/

theorem findDown_eq_none_of_le {p : ℕ → Bool} {low stop : ℕ} (h : stop ≤ low) :
    findDown p low stop = none := by
  cases stop with
  | zero => rfl
  | succ stop => exact if_pos h

namespace SourceFile

variable {f : SourceFile} {i start : ℕ}

theorem next?_eq_none_of_le (p : Token → Bool) (stop : Option ℕ) (h : f.tokens.size ≤ start) :
    f.next? p start stop = none := by
  rw [next?, Nat.sub_eq_zero_of_le (Nat.le_trans (Nat.min_le_right _ _) h)]
  rfl

theorem next?_clamp (f : SourceFile) (p : Token → Bool) (start : ℕ) (stop : Option ℕ) :
    f.next? p (min start f.tokens.size) (stop.map (min · f.tokens.size)) =
      f.next? p start stop := by
  have hstop : min ((stop.map (min · f.tokens.size)).getD f.tokens.size) f.tokens.size =
      min (stop.getD f.tokens.size) f.tokens.size := by
    cases stop with
    | none => rfl
    | some stop =>
      rw [Option.map_some, Option.getD_some, Option.getD_some, Nat.min_assoc, Nat.min_self]
  rcases Nat.le_total f.tokens.size start with h | h
  · rw [next?_eq_none_of_le p stop h, Nat.min_eq_right h, next?_eq_none_of_le p _ le_rfl]
  · rw [Nat.min_eq_left h, next?, next?, hstop]

/-- A search downward from behind the end begins with the last token. -/
theorem previous?_clamp (f : SourceFile) (p : Token → Bool) (start : ℕ) (low : Option ℕ) :
    f.previous? p (min start (f.tokens.size - 1)) (low.map (min · f.tokens.size)) =
      f.previous? p start low := by
  have hstart : min (min start (f.tokens.size - 1) + 1) f.tokens.size =
      min (start + 1) f.tokens.size := by omega
  rw [previous?, previous?, hstart]
  cases low with
  | none => rfl
  | some low =>
    rw [Option.map_some, Option.getD_some, Option.getD_some]
    rcases Nat.le_total f.tokens.size low with h | h
    · rw [Nat.min_eq_right h, findDown_eq_none_of_le (Nat.min_le_right _ _),
        findDown_eq_none_of_le (Nat.le_trans (Nat.min_le_right _ _) h)]
    · rw [Nat.min_eq_left h]

theorem textOf_eq_nil (h : f.tokens.size ≤ start) (length : ℕ) : f.textOf start length = [] := by
  rw [textOf, textBetween, slice, List.drop_eq_nil_of_le (by simpa using h), List.take_nil]
  rfl

theorem textOf_clamp (f : SourceFile) (start length : ℕ) :
    f.textOf (min start f.tokens.size) (min length f.tokens.size) = f.textOf start length := by
  rcases Nat.le_total f.tokens.size start with h | h
  · rw [textOf_eq_nil h, Nat.min_eq_right h, textOf_eq_nil le_rfl]
  · rw [Nat.min_eq_left h]
    simp only [textOf, textBetween, slice, Nat.add_sub_cancel_left]
    rcases Nat.le_total f.tokens.size length with hlength | hlength
    · -- from `start` on there are not even as many tokens as in the file
      rw [Nat.min_eq_right hlength, List.take_of_length_le (by simp),
        List.take_of_length_le (by simp; omega)]
    · rw [Nat.min_eq_left hlength]

theorem declarationName?_eq_none (h : f.tokens.size ≤ i) : f.declarationName? i = none := by
  rw [declarationName?, Array.getElem?_eq_none h]
  rfl

theorem enclosingClass?_eq_none (h : f.tokens.size ≤ i) : f.enclosingClass? i = none := by
  rw [enclosingClass?, Array.getElem?_eq_none h]
  rfl

theorem signature_eq_absent (h : f.tokens.size ≤ i) : f.signature i = .absent := by
  rw [signature, Array.getElem?_eq_none h]

theorem parameters_eq_nil (h : f.tokens.size ≤ i) : f.parameters i = [] := by
  rw [parameters, Array.getElem?_eq_none h]
  rfl

end SourceFile

namespace Guarded

open Checked

/-- The facts of a property are not there for an index behind the end: the token before it is not in
the stream. -/
theorem property_eq_error {f : SourceFile} {i : ℕ} (h : f.tokens.size < i) :
    property f i = .error .outOfRange := by
  obtain ⟨j, rfl⟩ := Nat.exists_eq_add_one_of_ne_zero (Nat.ne_zero_of_lt h)
  have htoken : tokenAt f j = .error .outOfRange := by
    rw [tokenAt, item, List.getElem?_eq_none (by simpa using Nat.le_of_lt_succ h)]
  rw [property, propertyFrom, htoken, error_bind]

/-! ### Questions and answers -/

/-- A question about a file. -/
inductive Query
  | next (kinds : List Kind) (start : ℕ) (stop : Option ℕ) (exclude : Bool)
  | nextWithText (kinds : List Kind) (start : ℕ) (stop : Option ℕ) (content : Text)
  | nextSignificant (start : ℕ) (stop : Option ℕ)
  | previous (kinds : List Kind) (start : ℕ) (low : Option ℕ) (exclude : Bool)
  | previousSignificant (start : ℕ) (low : Option ℕ)
  | text (start length : ℕ)
  | declarationName (i : ℕ)
  | enclosingClass (i : ℕ)
  | signature (i : ℕ)
  | parameters (i : ℕ)
  | property (i : ℕ)

/-- An answer to a question about a file. -/
inductive Answer
  | index (i : Option ℕ)
  | text (t : Text)
  | name (t : Option Text)
  | signature (s : Signature)
  | parameters (ps : List Parameter)
  | property (p : Property)

/-- Whether an answer says that there is nothing. -/
def Answer.IsEmpty : Answer → Prop
  | index i => i = none
  | text t => t = []
  | name t => t = none
  | signature s => s = .absent
  | parameters ps => ps = []
  | property p => p = .bare

namespace Query

/-- The answer to a question, with each index into the stream checked. -/
def run (f : SourceFile) : Query → Checked Answer
  | next kinds start stop exclude => .index <$> nextOfKind? f kinds start stop exclude
  | nextWithText kinds start stop content => .index <$> nextWithText? f kinds start stop content
  | nextSignificant start stop => .index <$> nextSignificant? f start stop
  | previous kinds start low exclude => .index <$> previousOfKind? f kinds start low exclude
  | previousSignificant start low => .index <$> previousSignificant? f start low
  | text start length => .text <$> textOf f start length
  | declarationName i => .name <$> declarationName? f i
  | enclosingClass i => return .index (f.enclosingClass? i)
  | signature i => .signature <$> Guarded.signature f i
  | parameters i => .parameters <$> Guarded.parameters f i
  | property i => .property <$> Guarded.property f i

/-- The answer to a question, if there is one. -/
def answer? (f : SourceFile) : Query → Option Answer
  | next kinds start stop exclude => some (.index (f.nextOfKind? kinds start stop exclude))
  | nextWithText kinds start stop content =>
    some (.index (f.nextWithText? kinds start stop content))
  | nextSignificant start stop => some (.index (f.nextSignificant? start stop))
  | previous kinds start low exclude => some (.index (f.previousOfKind? kinds start low exclude))
  | previousSignificant start low => some (.index (f.previousSignificant? start low))
  | text start length => some (.text (f.textOf start length))
  | declarationName i => some (.name (f.declarationName? i))
  | enclosingClass i => some (.index (f.enclosingClass? i))
  | signature i => some (.signature (f.signature i))
  | parameters i => some (.parameters (f.parameters i))
  | property i => (f.property? i).map .property

/-- The same question with its indices moved into a stream of `size` tokens. -/
def clamp (size : ℕ) : Query → Query
  | next kinds start stop exclude => next kinds (min start size) (stop.map (min · size)) exclude
  | nextWithText kinds start stop content =>
    nextWithText kinds (min start size) (stop.map (min · size)) content
  | nextSignificant start stop => nextSignificant (min start size) (stop.map (min · size))
  | previous kinds start low exclude =>
    previous kinds (min start (size - 1)) (low.map (min · size)) exclude
  | previousSignificant start low =>
    previousSignificant (min start (size - 1)) (low.map (min · size))
  | text start length => text (min start size) (min length size)
  | declarationName i => declarationName (min i size)
  | enclosingClass i => enclosingClass (min i size)
  | signature i => signature (min i size)
  | parameters i => parameters (min i size)
  | property i => property (min i size)

/-- Whether a question is about the tokens from an index on that is not in a stream of `size`
tokens. -/
def IsPast (size : ℕ) : Query → Prop
  | next _ start _ _ | nextWithText _ start _ _ | nextSignificant start _ | text start _ =>
    size ≤ start
  | declarationName i | enclosingClass i | signature i | parameters i => size ≤ i
  | previous _ _ _ _ | previousSignificant _ _ | property _ => False

/-- Whether a question is not one about the facts of a property behind the end of the stream. -/
def IsAllowed (size : ℕ) : Query → Prop
  | property i => i ≤ size
  | _ => True

variable {f : SourceFile}

theorem answer?_eq_none_iff {q : Query} : q.answer? f = none ↔ ¬q.IsAllowed f.tokens.size := by
  cases q with
  | property i =>
    rw [answer?, SourceFile.property?, IsAllowed, Option.map_eq_none_iff, ite_eq_right_iff]
    exact ⟨fun h hi => Option.some_ne_none _ (h hi), fun h hi => absurd hi h⟩
  | _ => exact iff_of_false nofun fun h => h trivial

/-- With all indices checked, a question that has an answer is answered. -/
theorem run_eq (hf : f.Linked) (q : Query) :
    q.run f = (q.answer? f).elim (.error .outOfRange) .ok := by
  cases q with
  | declarationName i => rw [run, declarationName?_eq, map_ok]; rfl
  | signature i => rw [run, signature_eq, map_ok]; rfl
  | parameters i => rw [run, parameters_eq hf, map_ok]; rfl
  | property i =>
    rw [run, answer?]
    cases hp : f.property? i with
    | some p => rw [property_eq hp]; rfl
    | none =>
      have hnone : (property i).answer? f = none := congrArg (Option.map Answer.property) hp
      rw [property_eq_error (Nat.lt_of_not_le (answer?_eq_none_iff.1 hnone))]
      rfl
  | enclosingClass i => rfl
  | _ => simp only [run, nextOfKind?_eq, nextWithText?_eq, nextSignificant?_eq, previousOfKind?_eq,
      previousSignificant?_eq, textOf_eq, map_ok]; rfl

/-- An index that only counts where it is in the stream may as well be moved to its end. -/
theorem eq_at_min {α : Type} {g : ℕ → α} {a : α} {size : ℕ} (h : ∀ i, size ≤ i → g i = a) (i : ℕ) :
    g (min i size) = g i := by
  rcases Nat.le_total size i with hi | hi
  · rw [Nat.min_eq_right hi, h size le_rfl, h i hi]
  · rw [Nat.min_eq_left hi]

/-- The answer to a question is the answer to the same question inside of the stream. -/
theorem answer?_clamp {q : Query} (hq : q.IsAllowed f.tokens.size) :
    (q.clamp f.tokens.size).answer? f = q.answer? f := by
  cases q with
  | next kinds start stop exclude =>
    exact congrArg (some ∘ Answer.index) (f.next?_clamp _ start stop)
  | nextWithText kinds start stop content =>
    exact congrArg (some ∘ Answer.index) (f.next?_clamp _ start stop)
  | nextSignificant start stop => exact congrArg (some ∘ Answer.index) (f.next?_clamp _ start stop)
  | previous kinds start low exclude =>
    exact congrArg (some ∘ Answer.index) (f.previous?_clamp _ start low)
  | previousSignificant start low =>
    exact congrArg (some ∘ Answer.index) (f.previous?_clamp _ start low)
  | text start length => exact congrArg (some ∘ Answer.text) (f.textOf_clamp start length)
  | declarationName i =>
    exact congrArg (some ∘ Answer.name) (eq_at_min (fun _ => SourceFile.declarationName?_eq_none) i)
  | enclosingClass i =>
    exact congrArg (some ∘ Answer.index) (eq_at_min (fun _ => SourceFile.enclosingClass?_eq_none) i)
  | signature i =>
    exact congrArg (some ∘ Answer.signature) (eq_at_min (fun _ => SourceFile.signature_eq_absent) i)
  | parameters i =>
    exact congrArg (some ∘ Answer.parameters) (eq_at_min (fun _ => SourceFile.parameters_eq_nil) i)
  | property i => rw [clamp, Nat.min_eq_left hq]

/-- There is nothing behind the end of the stream. -/
theorem isEmpty_of_isPast {q : Query} (hq : q.IsPast f.tokens.size) :
    ∀ a ∈ q.answer? f, a.IsEmpty := by
  rintro _ ha
  cases q with
  | next kinds start stop exclude => cases ha; exact SourceFile.next?_eq_none_of_le _ stop hq
  | nextWithText kinds start stop content =>
    cases ha
    exact SourceFile.next?_eq_none_of_le _ stop hq
  | nextSignificant start stop => cases ha; exact SourceFile.next?_eq_none_of_le _ stop hq
  | text start length => cases ha; exact SourceFile.textOf_eq_nil hq length
  | declarationName i => cases ha; exact SourceFile.declarationName?_eq_none hq
  | enclosingClass i => cases ha; exact SourceFile.enclosingClass?_eq_none hq
  | signature i => cases ha; exact SourceFile.signature_eq_absent hq
  | parameters i => cases ha; exact SourceFile.parameters_eq_nil hq
  | _ => cases hq

end Query

/-- **All questions about a file have an answer at all indices, except for the facts of a property
behind the end of the stream.** The answer is the one inside of the stream, and an empty one where
nothing follows. For the facts of a property a token is read that is not in the stream. -/
theorem queries_stay_in_file {path : String} {source : Text} {f : SourceFile}
    (h : SourceFile.parse path source = .ok f) (q : Query) :
    (q.IsAllowed f.tokens.size ∧ ∃ a, q.run f = .ok a ∧ q.answer? f = some a ∧
        (q.clamp f.tokens.size).answer? f = some a ∧ (q.IsPast f.tokens.size → a.IsEmpty)) ∨
      ¬q.IsAllowed f.tokens.size ∧ q.run f = .error .outOfRange := by
  have hrun := q.run_eq (SourceFile.linked_of_parse h)
  cases ha : q.answer? f with
  | some a =>
    have hallowed : q.IsAllowed f.tokens.size := by
      by_contra hrefused
      exact Option.some_ne_none a (ha.symm.trans (Query.answer?_eq_none_iff.2 hrefused))
    rw [ha] at hrun
    exact .inl ⟨hallowed, a, hrun, rfl, (Query.answer?_clamp hallowed).trans ha,
      fun hpast => Query.isEmpty_of_isPast hpast a ha⟩
  | none =>
    rw [ha] at hrun
    exact .inr ⟨Query.answer?_eq_none_iff.1 ha, hrun⟩

/-- A function behind the end has the facts of no function, and a property none at all. -/
theorem queries_stay_in_file_behind : ∃ f, SourceFile.parse "a.php" "<?php\n".toList = .ok f ∧
    f.tokens.size < 5 ∧ (Query.property 5).run f = .error .outOfRange ∧
    ∃ a, (Query.signature 5).run f = .ok a ∧ a.IsEmpty := by
  have heval : (SourceFile.parse "a.php" "<?php\n".toList).toOption.any
      (fun f => f.tokens.size < 5) = true := by
    decide +kernel
  obtain ⟨f, hparse, hsize⟩ := exists_ok_of_any heval
  refine ⟨f, hparse, hsize, ?_, ?_⟩
  · rcases queries_stay_in_file hparse (.property 5) with ⟨hallowed, -⟩ | ⟨-, hrun⟩
    · exact absurd hallowed (Nat.not_le_of_lt hsize)
    · exact hrun
  · rcases queries_stay_in_file hparse (.signature 5) with ⟨-, a, hrun, -, -, hempty⟩ | ⟨hnot, -⟩
    · exact ⟨a, hrun, hempty hsize.le⟩
    · exact absurd trivial hnot

end Guarded

end EntityLint
