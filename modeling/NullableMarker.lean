import NullableMarker.Annotate
import NullableMarker.Annotate.Header
import NullableMarker.Annotate.Mark
import NullableMarker.CommandLine
import NullableMarker.CommandLine.Arguments
import NullableMarker.Condition
import NullableMarker.Data.Decimal
import NullableMarker.Data.Flow
import NullableMarker.Data.Moment
import NullableMarker.Data.Scalar
import NullableMarker.Data.Value
import NullableMarker.Decision
import NullableMarker.Decision.Guard
import NullableMarker.Decision.Profile
import NullableMarker.Decision.Rule
import NullableMarker.Decision.Site
import NullableMarker.Grammar.Fault
import NullableMarker.Grammar.Group
import NullableMarker.Grammar.Member
import NullableMarker.Grammar.Reading
import NullableMarker.Grammar.Type
import NullableMarker.Grammar.Unit
import NullableMarker.Lexeme
import NullableMarker.Main
import NullableMarker.Region
import NullableMarker.Resolve.Environment
import NullableMarker.Resolve.Lookup
import NullableMarker.Resolve.Scope
import NullableMarker.Symbol
import NullableMarker.Symbol.Defaults
import NullableMarker.Symbol.Manifest
import NullableMarker.Symbol.Table
import NullableMarker.Text.Integer
import NullableMarker.Text.Letter
import NullableMarker.Text.Numeric
import NullableMarker.Text.Place
import NullableMarker.Text.Printable
import NullableMarker.Text.Quoted
import NullableMarker.Text.Range
import NullableMarker.Text.Search
import NullableMarker.Text.Utf8
import NullableMarker.Text.White
import NullableMarker.Token
import NullableMarker.Token.Fault
import NullableMarker.Token.Literal
import NullableMarker.Token.Number
import NullableMarker.Token.Punctuation
import NullableMarker.Token.Stream
import NullableMarker.Tree
import NullableMarker.Tree.Draft
import NullableMarker.Tree.Edit
import NullableMarker.Tree.View
import NullableMarker.Workspace
import NullableMarker.Workspace.Cache
import NullableMarker.Workspace.Config
import NullableMarker.Workspace.Encoding
import NullableMarker.Workspace.FileSystem
import NullableMarker.Workspace.Glob
import NullableMarker.Workspace.Path
import NullableMarker.Workspace.References
import NullableMarker.Workspace.Report
import NullableMarker.Proofs.LexemeStarts
import NullableMarker.Proofs.LexemeBounds
import NullableMarker.Proofs.Tiling
import NullableMarker.Proofs.TokenOrder
import NullableMarker.Proofs.Forms
import NullableMarker.Proofs.TypePhrases
import NullableMarker.Proofs.MemberForms
import NullableMarker.Proofs.UnitForms
import NullableMarker.Proofs.Marking
import NullableMarker.Proofs.ExactOutput
import NullableMarker.Proofs.SiteOffsets
import NullableMarker.Proofs.LexemeLocality
import NullableMarker.Proofs.MarkedStream
import NullableMarker.Proofs.RereadDeclarations
import NullableMarker.Proofs.KeptTokens
import NullableMarker.Proofs.Lookups
import NullableMarker.Proofs.CurrentSymbols
import NullableMarker.Proofs.RereadUnits
import NullableMarker.Proofs.Lines
import NullableMarker.Proofs.AnnotatedUnits
import NullableMarker.Proofs.WovenViews
import NullableMarker.Proofs.WovenScopes
import NullableMarker.Proofs.WovenSites
import NullableMarker.Proofs.StableDecisions
import NullableMarker.Proofs.ConditionalGroups
import NullableMarker.Proofs.Formatting
import NullableMarker.Proofs.LineLocality
import NullableMarker.Proofs.DisabledText
import NullableMarker.Proofs.NodeParts
import NullableMarker.Proofs.WholeTrees
import NullableMarker.Proofs.ProperReferences
import NullableMarker.Proofs.TotalResolution
import NullableMarker.Proofs.OpenFailures
import NullableMarker.Proofs.Brackets
import NullableMarker.Proofs.NestedTrees
import NullableMarker.Proofs.EnclosedGroups
import NullableMarker.Proofs.TypeTerms
import NullableMarker.Proofs.MemberTerms
import NullableMarker.Proofs.FieldTerms
import NullableMarker.Proofs.OpenedScopes
import NullableMarker.Proofs.StatelessLookup
import NullableMarker.Proofs.BoundDirectives
import NullableMarker.Proofs.LazyBinding
import NullableMarker.Proofs.DeclaredTables
import NullableMarker.Proofs.PartialTables
import NullableMarker.Proofs.DeclarationOrder
import NullableMarker.Proofs.ReferenceOrder
import NullableMarker.Proofs.Locations
import NullableMarker.Proofs.CachedTables
import NullableMarker.Proofs.HarvestedTypes
import NullableMarker.Proofs.FileFindings
import NullableMarker.Proofs.FileRuns
import NullableMarker.Proofs.WorkerSchedules
import NullableMarker.Proofs.DottedNames
import NullableMarker.Proofs.Enclosures
import NullableMarker.Proofs.FullNames
import NullableMarker.Proofs.ConditionSentences
import NullableMarker.Proofs.WrittenConditions
import NullableMarker.Proofs.DirectiveNames
import NullableMarker.Proofs.TriviaAttachment
import NullableMarker.Proofs.StableHeader
import NullableMarker.Proofs.FurtherRuns
import NullableMarker.Proofs.InterfaceClosure
import NullableMarker.Proofs.TableHistories
import NullableMarker.Proofs.BackingFields
import NullableMarker.Proofs.GenericCalls
import NullableMarker.Proofs.ManifestOutcomes
import NullableMarker.Proofs.RegularLiterals
import NullableMarker.Proofs.AnnouncedMarks
import NullableMarker.Proofs.MemberProgress
import NullableMarker.Proofs.OuterTrivia
import NullableMarker.Proofs.Places
import NullableMarker.Proofs.ScanProgress
import NullableMarker.Proofs.LookupCalls
