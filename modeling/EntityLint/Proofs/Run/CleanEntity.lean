import EntityLint.Proofs.Mapping.EntityColumns
import EntityLint.Proofs.Run.Independence

/-!
# A clean entity

The rule for entity mappings has nothing to report for a class in which each property has a type that
suits its column, and a getter and a setter of this type.

The main statement is `Entity.check_source`.
-/

namespace EntityLint

open Linter

/-- **An entity with accessors of the right types is clean.** The rule for entity mappings reports
nothing for it, and leaves its text as it is. -/
theorem Entity.check_source (e : Entity) (options : MappingOptions) (configuration : Configuration)
    (fixing : Bool) (path : String) :
    (⟨[EntityMapping.rule options], configuration, fixing⟩ : Linter).check path e.source =
      .ok ⟨[], 1, []⟩ := by
  obtain ⟨f, hparse, hf⟩ := e.exists_parse path
  rw [check_eq_ok hparse, checkFile_eq_clean fun rule hrule => ?_]
  rw [List.mem_singleton.1 (List.mem_of_mem_filter hrule)]
  exact findings_eq_nil hf options

/-- A class with a column for a price and one for a date. -/
def Entity.product : Entity :=
  { name := "Product".toList
    columns := [
      { name := "price".toList
        keyword := "decimal".toList
        held := "float".toList
        native := "float".toList
        precision := 8
        scale := 2
        isName := isName_of_all rfl
        holds := by decide
        held_ne_nil := by decide
        isName_native := isName_of_all rfl
        isSame := by decide
        inWord_precision := by decide
        inWord_scale := by decide },
      { name := "since".toList
        keyword := "date".toList
        held := "DateTime".toList
        native := "DateTimeInterface".toList
        precision := 0
        scale := 0
        isName := isName_of_all rfl
        holds := by decide
        held_ne_nil := by decide
        isName_native := isName_of_all rfl
        isSame := by decide
        inWord_precision := by decide
        inWord_scale := by decide }]
    gap := [' ']
    isName := isName_of_all rfl
    not_keyword := by decide
    nodup := by decide
    gap_ne_nil := by decide
    isCodeBlank_of_mem := List.forall_mem_singleton.2 rfl }

theorem Entity.check_source_product : Entity.product.source = "<?php class Product \x7b ".toList ++
      "/** @ORM\\Column(type=\"decimal\", precision=8, scale=2) */ private float $price; ".toList ++
      "/** @ORM\\Column(type=\"date\") */ private DateTimeInterface $since; ".toList ++
      "public function getPrice(): float \x7b return $this->price; \x7d ".toList ++
      "public function setPrice(float $price): self ".toList ++
      "\x7b $this->price = $price; return $this; \x7d ".toList ++
      "public function getSince(): DateTimeInterface \x7b return $this->since; \x7d ".toList ++
      "public function setSince(DateTimeInterface $since): self ".toList ++
      "\x7b $this->since = $since; return $this; \x7d \x7d ".toList ∧
    (⟨[EntityMapping.rule ⟨[], false⟩], {}, true⟩ : Linter).check "a.php" Entity.product.source =
      .ok ⟨[], 1, []⟩ :=
  ⟨by decide +kernel, check_source Entity.product ⟨[], false⟩ {} true "a.php"⟩

end EntityLint
