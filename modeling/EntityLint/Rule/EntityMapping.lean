import EntityLint.Mapping.PropertyCheck
import EntityLint.Rule.Basic

/-!
# Entity mappings

Every property with annotations is checked: how the annotations are written, whether they fit the
property, and whether the class has the accessors that they ask for.

* `EntityMapping.propertyFindings`, `EntityMapping.findings`: the faults of one property and of a
  file;
* `EntityMapping.rule`.

The properties of a file share one memory, which is empty at its beginning.
-/

namespace EntityLint.EntityMapping

/-- The code of the rule. -/
def code : String := "Ormsniff.Commenting.DoctrineEntity"

/-- The faults of the property declared by a variable. A property without annotations has none. -/
def propertyFindings (options : MappingOptions) (f : SourceFile) (i : Nat) :
    StateM FileMemo (List Finding) :=
  let tags := f.propertyTags i code.toList
  if tags.tags.isEmpty then pure []
  else PropertyCheck.findings { options, file := f, token := i, tags }

/-- The faults of the properties of a file, in order. -/
def findings (options : MappingOptions) (f : SourceFile) : List Finding :=
  let perProperty := f.propertyTokens.mapM (propertyFindings options f)
  (perProperty.run FileMemo.empty).1.flatten

/-- The rule for entity mappings. -/
def rule (options : MappingOptions) : Rule where
  name := "doctrine-entity"
  code := code
  description := "Validates Doctrine ORM annotations and the accessors they imply"
  findings := findings options

end EntityLint.EntityMapping
