import EntityLint.Files.Search
import EntityLint.Proofs.Files.Paths
import EntityLint.Proofs.Files.Writing
import EntityLint.Proofs.Text.Runs

/-!
# Places and the paths that lead to them

A path is followed part by part. The path of a place leads to its address, and so it does with the names of
files and directories inside.

* `IsEntryName`, `FileTree.IsProper`: names that a path can be written with;
* `FileTree.mem_below_iff`: what is inside a directory;
* `FileTree.place?`: the place that a path leads to;
* `FileTree.resolve?_append`: one more part;
* `Path.eq_of_same_within`: places inside a directory have different paths.

The main statement is `FileTree.leadsTo_within`.
-/

namespace EntityLint

/-- A name of a file or directory: not empty, without slashes, and not made of points that stand for a
directory. -/
def IsEntryName (n : Text) : Prop := n ≠ [] ∧ '/' ∉ n ∧ n ≠ ['.'] ∧ n ≠ ['.', '.']

instance (n : Text) : Decidable (IsEntryName n) :=
  inferInstanceAs (Decidable (n ≠ [] ∧ '/' ∉ n ∧ n ≠ ['.'] ∧ n ≠ ['.', '.']))

namespace FileTree

/-- All files and directories have names. -/
def IsProper (t : FileTree) : Prop := ∀ l ∈ t.named, ∀ n ∈ l, IsEntryName n

variable {t : FileTree} {l names : Address}

/-! ### What is inside a directory -/

theorem inside?_eq_some_iff {m : Address} : inside? l m = some names ↔ names ≠ [] ∧ m = l ++ names := by
  simp only [inside?, List.isPrefixOf_iff_prefix, Option.ite_none_right_eq_some, Option.some.injEq]
  constructor
  · rintro ⟨⟨⟨rest, rfl⟩, hlt⟩, rfl⟩
    rw [List.drop_left]
    rw [List.length_append] at hlt
    exact ⟨List.ne_nil_of_length_pos (by omega), rfl⟩
  · rintro ⟨hne, rfl⟩
    have := List.length_pos_iff.2 hne
    exact ⟨⟨List.prefix_append l names, by rw [List.length_append]; omega⟩, List.drop_left⟩

/-- Something other than the root is there if it is the beginning of an address that is named. -/
theorem isPresent_iff (hl : l ≠ []) : t.isPresent l = true ↔ ∃ m ∈ t.named, l <+: m := by
  have hempty : l.isEmpty = false := List.isEmpty_eq_false_iff.2 hl
  rw [isPresent, isDirectory, hempty, Bool.false_or, Bool.or_eq_true, Bool.or_eq_true,
    List.contains_iff_mem, List.any_eq_true]
  constructor
  · rintro ((h | ⟨m, hm, h⟩) | h)
    · exact ⟨l, List.mem_append_left _ h, List.prefix_refl l⟩
    · obtain ⟨names, hnames⟩ := Option.isSome_iff_exists.1 h
      obtain ⟨-, rfl⟩ := inside?_eq_some_iff.1 hnames
      exact ⟨_, hm, List.prefix_append l names⟩
    · exact ⟨l, List.mem_append_right _ (content?_isSome_iff.1 h), List.prefix_refl l⟩
  · rintro ⟨m, hm, names, rfl⟩
    by_cases hnames : names = []
    · subst hnames
      rw [List.append_nil] at hm
      exact (List.mem_append.1 hm).imp .inl content?_isSome_iff.2
    · exact .inl (.inr ⟨_, hm, Option.isSome_of_eq_some (inside?_eq_some_iff.2 ⟨hnames, rfl⟩)⟩)

/-- What something stands in is a directory. -/
theorem isDirectory_of_isPresent_append (h : t.isPresent (l ++ names) = true) (hnames : names ≠ []) :
    t.isDirectory l = true := by
  obtain ⟨m, hm, rest, rfl⟩ := (isPresent_iff (List.append_ne_nil_of_right_ne_nil l hnames)).1 h
  have hinside : inside? l (l ++ names ++ rest) = some (names ++ rest) := by
    rw [inside?_eq_some_iff, List.append_assoc]
    exact ⟨List.append_ne_nil_of_left_ne_nil hnames rest, rfl⟩
  rw [isDirectory, Bool.or_eq_true]
  exact .inr (List.any_eq_true.2 ⟨_, hm, Option.isSome_of_eq_some hinside⟩)

/-- Inside a directory is what has its address as a beginning. -/
theorem mem_below_iff : names ∈ t.below l ↔ names ≠ [] ∧ t.isPresent (l ++ names) = true := by
  have hbeginnings : ∀ rest : Address, names ∈ beginnings rest ↔ names ≠ [] ∧ names <+: rest := by
    intro rest
    simp only [beginnings, List.mem_map, List.mem_range]
    constructor
    · rintro ⟨n, hn, rfl⟩
      refine ⟨List.ne_nil_of_length_pos ?_, List.take_prefix _ _⟩
      rw [List.length_take]
      omega
    · rintro ⟨hne, hprefix⟩
      have hlength := hprefix.length_le
      have hpos := List.length_pos_iff.2 hne
      exact ⟨names.length - 1, by omega, by
        rw [Nat.sub_add_cancel hpos, ← List.prefix_iff_eq_take.1 hprefix]⟩
  simp only [below, List.mem_eraseDups, List.mem_flatMap, List.mem_filterMap, inside?_eq_some_iff,
    hbeginnings]
  constructor
  · rintro ⟨rest, ⟨_, hm, -, rfl⟩, hne, hprefix⟩
    refine ⟨hne, (isPresent_iff (List.append_ne_nil_of_right_ne_nil l hne)).2 ⟨_, hm, ?_⟩⟩
    exact (List.prefix_append_right_inj l).2 hprefix
  · rintro ⟨hne, hpresent⟩
    obtain ⟨m, hm, rest, rfl⟩ :=
      (isPresent_iff (List.append_ne_nil_of_right_ne_nil l hne)).1 hpresent
    refine ⟨names ++ rest, ⟨_, hm, ?_⟩, hne, List.prefix_append _ _⟩
    exact ⟨List.append_ne_nil_of_left_ne_nil hne rest, List.append_assoc _ _ _⟩

theorem IsProper.isEntryName (ht : t.IsProper) (h : t.isPresent (l ++ names) = true) :
    ∀ n ∈ names, IsEntryName n := by
  intro n hn
  have hne : l ++ names ≠ [] := List.append_ne_nil_of_right_ne_nil l (List.ne_nil_of_mem hn)
  obtain ⟨m, hm, hbegins⟩ := (isPresent_iff hne).1 h
  exact ht m hm n (hbegins.subset (List.mem_append_right l hn))

/-! ### Following paths -/

/-- The address that a part of a path leads to from a directory, if something is there. -/
def enterAddress? (t : FileTree) (l : Address) (part : Text) : Option Address :=
  if t.isDirectory l && t.isPresent (addressAfter l part) then some (addressAfter l part) else none

/-- The place that a path leads to. -/
def place? (t : FileTree) (path : Text) : Option Place :=
  (Text.pieces '/' path).foldlM t.enter? Place.root

theorem map_address_enter? (p : Place) (part : Text) :
    (t.enter? p part).map Place.address = t.enterAddress? p.address part := by
  unfold enter? enterAddress?
  dsimp only
  split <;> rfl

theorem map_address_foldlM (parts : List Text) (p : Place) :
    (parts.foldlM t.enter? p).map Place.address = parts.foldlM t.enterAddress? p.address := by
  induction parts generalizing p with
  | nil => rfl
  | cons part parts ih =>
    rw [List.foldlM_cons, List.foldlM_cons, ← map_address_enter?]
    cases t.enter? p part with
    | none => rfl
    | some q => exact ih q

theorem resolve?_eq_foldlM (path : Text) :
    t.resolve? path = (Text.pieces '/' path).foldlM t.enterAddress? [] :=
  map_address_foldlM _ _

theorem addressAfter_of_isEntryName {n : Text} (hn : IsEntryName n) : addressAfter l n = l ++ [n] := by
  obtain ⟨hne, -, hpoint, hpoints⟩ := hn
  rw [addressAfter, if_neg, if_neg hpoints]
  simp [hne, hpoint]

/-- A path with one more part leads one step further. -/
theorem resolve?_append {base part : Text} (hbase : t.resolve? base = some l) (hne : base ≠ [])
    (hpart : '/' ∉ part) : t.resolve? (Path.append base part) = t.enterAddress? l part := by
  rw [resolve?_eq_foldlM] at hbase ⊢
  have hempty : base.isEmpty = false := List.isEmpty_eq_false_iff.2 hne
  rw [Path.append, hempty, Bool.false_or]
  split
  · next hslash =>
    -- the empty part behind the last slash stays where it is
    obtain ⟨u, rfl⟩ := Text.endsWith_iff.1 hslash
    rw [Text.pieces_append_sep, List.foldlM_append] at hbase
    obtain ⟨m, hm, hstay⟩ := Option.bind_eq_some_iff.1 hbase
    obtain rfl : m = l := by
      simp only [Text.pieces_of_not_mem List.not_mem_nil, List.foldlM_cons, List.foldlM_nil,
        bind_pure] at hstay
      exact Option.some.inj (Option.ite_none_right_eq_some.1 hstay).2
    rw [List.append_assoc, List.singleton_append, Text.pieces_append_sep, List.foldlM_append, hm,
      Text.pieces_of_not_mem hpart]
    exact bind_pure (t.enterAddress? m part)
  · rw [Text.pieces_append_sep, List.foldlM_append, hbase, Text.pieces_of_not_mem hpart]
    exact bind_pure (t.enterAddress? l part)

/-- The path of a place is absolute and leads to its address. -/
structure LeadsTo (t : FileTree) (p : Place) : Prop where
  isAbsolute : Path.isAbsolute p.path = true
  resolve? : t.resolve? p.path = some p.address

theorem isAbsolute_append {base : Text} (h : Path.isAbsolute base = true) (part : Text) :
    Path.isAbsolute (Path.append base part) = true := by
  cases base with
  | nil => cases h
  | cons c base =>
    rw [Path.append]
    split <;> exact h

theorem ne_nil_of_isAbsolute {base : Text} (h : Path.isAbsolute base = true) : base ≠ [] := by
  rintro rfl
  cases h

theorem leadsTo_root (t : FileTree) : t.LeadsTo Place.root := ⟨rfl, rfl⟩

theorem LeadsTo.enter {p q : Place} (h : t.LeadsTo p) {part : Text} (hpart : '/' ∉ part)
    (hq : t.enter? p part = some q) : t.LeadsTo q := by
  have haddress := map_address_enter? (t := t) p part
  rw [hq] at haddress
  unfold enter? at hq
  obtain ⟨-, hq⟩ := Option.ite_none_right_eq_some.1 hq
  obtain rfl := Option.some.inj hq
  refine ⟨isAbsolute_append h.isAbsolute part, ?_⟩
  exact (resolve?_append h.resolve? (ne_nil_of_isAbsolute h.isAbsolute) hpart).trans haddress.symm

/-- The place that a path leads to. -/
theorem leadsTo_of_place? {path : Text} {p : Place} (h : t.place? path = some p) : t.LeadsTo p := by
  have hparts : ∀ (parts : List Text), (∀ part ∈ parts, '/' ∉ part) → ∀ q : Place, t.LeadsTo q →
      parts.foldlM t.enter? q = some p → t.LeadsTo p := by
    intro parts hparts
    induction parts with
    | nil => exact fun q hq h => Option.some.inj h ▸ hq
    | cons part parts ih =>
      obtain ⟨hpart, hparts⟩ := List.forall_mem_cons.1 hparts
      intro q hq h
      rw [List.foldlM_cons] at h
      obtain ⟨q', hq', h⟩ := Option.bind_eq_some_iff.1 h
      exact ih hparts q' (hq.enter hpart hq') h
  exact hparts _ (fun _ hpart => (Text.of_mem_pieces hpart).1) _ (leadsTo_root t) h

/-- **Places inside a directory are led to by the names from there on.** -/
theorem leadsTo_within {p : Place} (hp : t.LeadsTo p) (hnames : ∀ n ∈ names, IsEntryName n)
    (hpresent : names ≠ [] → t.isPresent (p.address ++ names) = true) : t.LeadsTo (p.within names) := by
  induction names generalizing p with
  | nil => simpa [Place.within] using hp
  | cons n names ih =>
    obtain ⟨hn, hnames⟩ := List.forall_mem_cons.1 hnames
    have hpresent := hpresent (List.cons_ne_nil n names)
    have hdirectory := isDirectory_of_isPresent_append hpresent (List.cons_ne_nil n names)
    rw [← List.singleton_append, ← List.append_assoc] at hpresent
    have hfirst : t.isPresent (p.address ++ [n]) = true := by
      by_cases hne : names = []
      · rwa [hne, List.append_nil] at hpresent
      · rw [isPresent, isDirectory_of_isPresent_append hpresent hne, Bool.true_or]
    have hstep : t.enter? p n = some ⟨Path.append p.path n, p.address ++ [n]⟩ := by
      rw [enter?, addressAfter_of_isEntryName hn, hdirectory, hfirst]
      rfl
    have hwithin := ih (hp.enter hn.2.1 hstep) hnames fun _ => hpresent
    rw [Place.within] at hwithin ⊢
    rwa [List.append_assoc] at hwithin

end FileTree

/-! ### Paths of places -/

namespace Path

theorem components_append {base n : Text} (h : isAbsolute base = true) (hn : IsEntryName n) :
    components (append base n) = components base ++ [.name n] := by
  obtain ⟨hne, hslash, hpoint, hpoints⟩ := hn
  have hname : Component.ofPart? n = some (.name n) := by
    rw [Component.ofPart?, if_neg (by simp [hne, hpoint]), if_neg hpoints]
  have hempty : base.isEmpty = false :=
    List.isEmpty_eq_false_iff.2 (FileTree.ne_nil_of_isAbsolute h)
  unfold components
  dsimp only
  rw [FileTree.isAbsolute_append h, h, append, hempty, Bool.false_or, List.append_assoc]
  refine congrArg _ ?_
  split
  · next hend =>
    obtain ⟨u, rfl⟩ := Text.endsWith_iff.1 hend
    rw [List.append_assoc, List.singleton_append, Text.pieces_append_sep, Text.pieces_append_sep,
      Text.pieces_of_not_mem hslash, Text.pieces_of_not_mem List.not_mem_nil, List.filterMap_append,
      List.filterMap_append, List.filterMap_cons_some hname]
    exact (List.append_assoc _ [] _).symm
  · rw [Text.pieces_append_sep, Text.pieces_of_not_mem hslash, List.filterMap_append,
      List.filterMap_cons_some hname]
    rfl

theorem components_within {p : Place} (h : isAbsolute p.path = true) {names : Address}
    (hnames : ∀ n ∈ names, IsEntryName n) :
    components (p.within names).path = components p.path ++ names.map Component.name := by
  induction names generalizing p with
  | nil => exact (List.append_nil _).symm
  | cons n names ih =>
    obtain ⟨hn, hnames⟩ := List.forall_mem_cons.1 hnames
    have hrest := ih (p := ⟨append p.path n, p.address⟩) (FileTree.isAbsolute_append h n) hnames
    rw [components_append h hn, List.append_assoc] at hrest
    exact hrest

/-- Different places inside a directory do not have the same path. -/
theorem eq_of_same_within {p : Place} (h : isAbsolute p.path = true) {names names' : Address}
    (hnames : ∀ n ∈ names, IsEntryName n) (hnames' : ∀ n ∈ names', IsEntryName n)
    (hsame : same (p.within names).path (p.within names').path = true) : names = names' := by
  have heq : components (p.within names).path = components (p.within names').path := beq_iff_eq.1 hsame
  rw [components_within h hnames, components_within h hnames'] at heq
  have hinj : Function.Injective Component.name := fun _ _ h => Component.name.inj h
  exact hinj.list_map (List.append_cancel_left heq)

end Path

end EntityLint
