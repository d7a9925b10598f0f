import EntityLint.Configuration
import EntityLint.Edit.Draft
import EntityLint.Files.FileTree
import EntityLint.Files.Glob
import EntityLint.Files.Path
import EntityLint.Files.Search
import EntityLint.Mapping.Attribute
import EntityLint.Mapping.AttributeText
import EntityLint.Mapping.ClassFacts
import EntityLint.Mapping.ColumnType
import EntityLint.Mapping.Contract
import EntityLint.Mapping.FileCache
import EntityLint.Mapping.MappingKind
import EntityLint.Mapping.Naming
import EntityLint.Mapping.PropertyCheck
import EntityLint.Mapping.Schema
import EntityLint.Mapping.Tag
import EntityLint.Mapping.TypeName
import EntityLint.Number.Binary64
import EntityLint.Number.Numeral
import EntityLint.Number.Shortest
import EntityLint.Report.JsonForm
import EntityLint.Report.LintResult
import EntityLint.Report.Reporter
import EntityLint.Report.Violation
import EntityLint.Rule.Basic
import EntityLint.Rule.BlankLineBeforeReturn
import EntityLint.Rule.EntityMapping
import EntityLint.Rule.InterfaceSuffix
import EntityLint.Rule.RuleSet
import EntityLint.Run.ConfigurationSource
import EntityLint.Run.Directory
import EntityLint.Run.Linter
import EntityLint.Run.Project
import EntityLint.Source.Declaration
import EntityLint.Source.File
import EntityLint.Suppression
import EntityLint.Text.Basic
import EntityLint.Text.CaseTable
import EntityLint.Text.LowerCase
import EntityLint.Token.Basic
import EntityLint.Token.Kind
import EntityLint.Token.Lexeme
import EntityLint.Token.Lexer
import EntityLint.Token.Pairing
import EntityLint.Toml.Datetime
import EntityLint.Toml.Document
import EntityLint.Toml.Quoted
import EntityLint.Toml.Reader
import EntityLint.Toml.Scalar
import EntityLint.Toml.Table
import EntityLint.Toml.Value
import EntityLint.Proofs.Bounds.Access
import EntityLint.Proofs.Bounds.Arguments
import EntityLint.Proofs.Bounds.Contracts
import EntityLint.Proofs.Bounds.Declaration
import EntityLint.Proofs.Bounds.File
import EntityLint.Proofs.Bounds.Lexeme
import EntityLint.Proofs.Bounds.Lexer
import EntityLint.Proofs.Bounds.Links
import EntityLint.Proofs.Bounds.Linter
import EntityLint.Proofs.Bounds.Measures
import EntityLint.Proofs.Bounds.Properties
import EntityLint.Proofs.Bounds.Queries
import EntityLint.Proofs.Bounds.Rules
import EntityLint.Proofs.Bounds.Stages
import EntityLint.Proofs.Bounds.Tags
import EntityLint.Proofs.Bounds.Tokens
import EntityLint.Proofs.Bounds.Turns
import EntityLint.Proofs.Edit.Invariant
import EntityLint.Proofs.Edit.Transaction
import EntityLint.Proofs.Files.Paths
import EntityLint.Proofs.Files.Patterns
import EntityLint.Proofs.Files.Places
import EntityLint.Proofs.Files.Search
import EntityLint.Proofs.Files.Writing
import EntityLint.Proofs.Mapping.Accessors
import EntityLint.Proofs.Mapping.ArgumentEnd
import EntityLint.Proofs.Mapping.ArgumentLayout
import EntityLint.Proofs.Mapping.ArgumentList
import EntityLint.Proofs.Mapping.Arguments
import EntityLint.Proofs.Mapping.AttributeGroups
import EntityLint.Proofs.Mapping.AttributeItems
import EntityLint.Proofs.Mapping.Completion
import EntityLint.Proofs.Mapping.DeclaredTypes
import EntityLint.Proofs.Mapping.Defaults
import EntityLint.Proofs.Mapping.Dialects
import EntityLint.Proofs.Mapping.Directives
import EntityLint.Proofs.Mapping.DocComment
import EntityLint.Proofs.Mapping.DocSpans
import EntityLint.Proofs.Mapping.EntityColumns
import EntityLint.Proofs.Mapping.EntityFile
import EntityLint.Proofs.Mapping.EntityText
import EntityLint.Proofs.Mapping.FileCache
import EntityLint.Proofs.Mapping.GroupText
import EntityLint.Proofs.Mapping.InferredColumn
import EntityLint.Proofs.Mapping.Insertions
import EntityLint.Proofs.Mapping.Initialization
import EntityLint.Proofs.Mapping.Literal
import EntityLint.Proofs.Mapping.NamePlace
import EntityLint.Proofs.Mapping.NameWords
import EntityLint.Proofs.Mapping.NullableMarks
import EntityLint.Proofs.Mapping.Ownership
import EntityLint.Proofs.Mapping.PlainAnnotation
import EntityLint.Proofs.Mapping.Renaming
import EntityLint.Proofs.Mapping.Reread
import EntityLint.Proofs.Mapping.Schema
import EntityLint.Proofs.Mapping.Suppression
import EntityLint.Proofs.Mapping.TagLine
import EntityLint.Proofs.Mapping.TypeSpelling
import EntityLint.Proofs.Mapping.TypeUnion
import EntityLint.Proofs.Mapping.WordBreaks
import EntityLint.Proofs.Report.JsonForm
import EntityLint.Proofs.Rule.Faults
import EntityLint.Proofs.Rule.Findings
import EntityLint.Proofs.Rule.InterfaceNames
import EntityLint.Proofs.Rule.MissingConstructor
import EntityLint.Proofs.Rule.Pathless
import EntityLint.Proofs.Rule.Places
import EntityLint.Proofs.Rule.Repairs
import EntityLint.Proofs.Rule.RequiredReturns
import EntityLint.Proofs.Rule.ReturnExemptions
import EntityLint.Proofs.Rule.ReturnLines
import EntityLint.Proofs.Run.CleanEntity
import EntityLint.Proofs.Run.Directory
import EntityLint.Proofs.Run.Fixing
import EntityLint.Proofs.Run.Independence
import EntityLint.Proofs.Run.Interfaces
import EntityLint.Proofs.Run.Locations
import EntityLint.Proofs.Run.Naming
import EntityLint.Proofs.Run.Project
import EntityLint.Proofs.Run.Returns
import EntityLint.Proofs.Source.Beside
import EntityLint.Proofs.Source.Composed
import EntityLint.Proofs.Source.Groups
import EntityLint.Proofs.Source.Nested
import EntityLint.Proofs.Source.ParameterHead
import EntityLint.Proofs.Source.Parameters
import EntityLint.Proofs.Source.Passage
import EntityLint.Proofs.Source.Properties
import EntityLint.Proofs.Source.Shape
import EntityLint.Proofs.Source.Signatures
import EntityLint.Proofs.Source.Spelled
import EntityLint.Proofs.Source.TypeText
import EntityLint.Proofs.Source.WrittenParameter
import EntityLint.Proofs.Source.WrittenProperty
import EntityLint.Proofs.Source.WrittenSignature
import EntityLint.Proofs.Token.Brackets
import EntityLint.Proofs.Token.CodeText
import EntityLint.Proofs.Token.DocComments
import EntityLint.Proofs.Token.Enclosure
import EntityLint.Proofs.Token.Group
import EntityLint.Proofs.Token.GroupMarks
import EntityLint.Proofs.Token.LineBreaks
import EntityLint.Proofs.Token.Nullable
import EntityLint.Proofs.Token.Owner
import EntityLint.Proofs.Token.Padding
import EntityLint.Proofs.Token.Pairing
import EntityLint.Proofs.Token.Position
import EntityLint.Proofs.Token.Recast
import EntityLint.Proofs.Token.Spacing
import EntityLint.Proofs.Token.Spelling
import EntityLint.Proofs.Token.Surroundings
