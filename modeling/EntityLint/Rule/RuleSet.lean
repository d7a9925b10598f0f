import EntityLint.Configuration
import EntityLint.Rule.BlankLineBeforeReturn
import EntityLint.Rule.EntityMapping
import EntityLint.Rule.InterfaceSuffix

/-!
# Sets of rules

* `MappingOptions.ofSection`: the options of the rule for mappings;
* `RuleSet.mapping`, `RuleSet.all`, `RuleSet.ofConfiguration`.
-/

namespace EntityLint

namespace MappingOptions

/-- The options that hold where nothing is said. -/
def standard : MappingOptions := ⟨[], false⟩

/-- The options that a section of a configuration gives. -/
def ofSection (s : RuleSection) : MappingOptions where
  baseTypes := (s.textMap? "concrete_type_to_base_type_map".toList).getD []
  dynamicEnums := s.flag "use_dynamical_calculation_for_enum_column_type".toList false

/-- The options that a configuration gives for the rule. -/
def ofConfiguration (c : Configuration) : MappingOptions :=
  (c.section? (EntityMapping.rule standard).name.toList).elim standard ofSection

end MappingOptions

namespace RuleSet

/-- The rule for mappings alone. -/
def mapping : List Rule := [EntityMapping.rule .standard]

/-- All rules, with the given options for mappings. -/
def withOptions (options : MappingOptions) : List Rule :=
  [EntityMapping.rule options, InterfaceSuffix.rule, BlankLineBeforeReturn.rule]

/-- All rules. -/
def all : List Rule := withOptions .standard

/-- The rules that a configuration wants. -/
def ofConfiguration (c : Configuration) : List Rule :=
  (withOptions (.ofConfiguration c)).filter fun rule => c.isEnabled rule.name.toList

end RuleSet

end EntityLint
