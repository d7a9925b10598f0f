import EntityLint.Rule.Basic

/-!
# Names of interfaces

The name of an interface ends in `Interface`. The name is the first word after the keyword on its
line; an interface whose name stands elsewhere is passed over.

* `InterfaceSuffix.nameOf?`, `InterfaceSuffix.rule`.
-/

namespace EntityLint.InterfaceSuffix

/-- How the name of an interface ends. -/
def suffix : Text := "Interface".toList

/-- The name of the interface that a keyword declares. -/
def nameOf? (f : SourceFile) (keyword : Nat) : Option Nat := do
  let line := (← f.tokens[keyword]?).position.line
  let following := f.tokens.toList.zipIdx.drop (keyword + 1)
  let (_, i) ← (following.takeWhile fun (t, _) => t.position.line == line).find? fun (t, _) =>
    t.kind == .word
  return i

/-- The fault of an interface, if it has one. The suffix is added to mend it. -/
def finding? (f : SourceFile) (keyword : Nat) : Option Finding := do
  let i ← nameOf? f keyword
  guard !(Text.endsWith (f.textAt i) suffix)
  return {
    token := i
    code := "Missing"
    message := "Interface name is not suffixed with \"Interface\""
    fixable := true
    repair := some (.edit (.replace i (f.textAt i ++ suffix))) }

/-- The rule that interface names end in `Interface`. -/
def rule : Rule where
  name := "interface-suffix"
  code := "Ormsniff.NamingConventions.InterfaceSuffix"
  description := "Requires interface names to end in \"Interface\""
  findings f := (Rule.tokensOfKind .kwInterface f).filterMap (finding? f)

end EntityLint.InterfaceSuffix
