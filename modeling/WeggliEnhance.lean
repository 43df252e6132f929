import WeggliEnhance.SourceText
import WeggliEnhance.SyntaxTree
import WeggliEnhance.QueryText
import WeggliEnhance.ThirdParty
import WeggliEnhance.QueryTrees
import WeggliEnhance.PartialJoin
import WeggliEnhance.QueryResults
import WeggliEnhance.Memoization
import WeggliEnhance.QueryEngine
import WeggliEnhance.EngineMemoization
import WeggliEnhance.CompoundJoin
import WeggliEnhance.FallibleState
import WeggliEnhance.FirstOccurrence
import WeggliEnhance.NestedCounters
import WeggliEnhance.PatternBuilder
import WeggliEnhance.PatternNesting
import WeggliEnhance.BuilderEmission
import WeggliEnhance.BuilderSteps
import WeggliEnhance.BuilderSpecification
import WeggliEnhance.QueryTreeConstruction
import WeggliEnhance.CaptureNumbering
import WeggliEnhance.EngineInvariant
import WeggliEnhance.MatchCaptures
import WeggliEnhance.VariableCoherence
import WeggliEnhance.QueryIds
import WeggliEnhance.PositiveCandidates
import WeggliEnhance.CaptureLookup
import WeggliEnhance.NegationWindow
import WeggliEnhance.IdentifierPrefilter
import WeggliEnhance.PipelineWork
import WeggliEnhance.PipelineSchedules
import WeggliEnhance.KeyedGroups
import WeggliEnhance.ChainFilter
import WeggliEnhance.RuleIsolation
import WeggliEnhance.Interleaving
import WeggliEnhance.SarifReport
import WeggliEnhance.RegexRules
import WeggliEnhance.CaptureProvenance
import WeggliEnhance.OutlineSpecification
import WeggliEnhance.EnclosedResults
import WeggliEnhance.ResultShape
import WeggliEnhance.SiblingPatterns
import WeggliEnhance.ArgumentCount
import WeggliEnhance.RuleFiles
import WeggliEnhance.DuplicateFindings
import WeggliEnhance.LineMarks
import WeggliEnhance.LineContext
import WeggliEnhance.StyledText
import WeggliEnhance.TerminalDisplay
import WeggliEnhance.QueryGrammar
import WeggliEnhance.EmittedQueries
import WeggliEnhance.SyntaxErrors
import WeggliEnhance.ResultMerge
import WeggliEnhance.ResultFilters
import WeggliEnhance.LiteralGrammar
import WeggliEnhance.LiteralValues
import WeggliEnhance.ReportRegions
import WeggliEnhance.RuleReferences
import WeggliEnhance.ContextLines
import WeggliEnhance.LineColumns
import WeggliEnhance.HighlightedLines
import WeggliEnhance.CapturedLines
import WeggliEnhance.PairedRuns
import WeggliEnhance.LabelledMatches
import WeggliEnhance.PatternSemantics
import WeggliEnhance.MirroredPatterns
import WeggliEnhance.QueryCorrespondence
import WeggliEnhance.MirroredBuilding
import WeggliEnhance.MirroredQueries
import WeggliEnhance.NarrowedTexts
import WeggliEnhance.NarrowedQueries
import WeggliEnhance.MovedPatterns
import WeggliEnhance.StrictBuilding
import WeggliEnhance.StrictQueries
import WeggliEnhance.StrictStatements
import WeggliEnhance.BlankStatements
import WeggliEnhance.DenotationalCursor
import WeggliEnhance.StrictLabels
import WeggliEnhance.ConstrainedSearches
import WeggliEnhance.EnginePanics
import WeggliEnhance.ClosedProperties
import WeggliEnhance.CompletedRuns
import WeggliEnhance.DirectoryWalk
import WeggliEnhance.FileSelection
import WeggliEnhance.RunAgreement
import WeggliEnhance.Sessions
import WeggliEnhance.FoundInstances
