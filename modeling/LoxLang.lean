import LoxLang.Main
import LoxLang.Tree.Printer
import LoxLang.Tree.References
import LoxLang.Proofs.WellFormed
import LoxLang.Proofs.MaximalMunch
import LoxLang.Proofs.Parsing.Derivation
import LoxLang.Proofs.Parsing.Sound
import LoxLang.Proofs.Parsing.Complete
import LoxLang.Proofs.Parsing.Written
import LoxLang.Proofs.Parsing.Progress
import LoxLang.Proofs.Parsing.Concatenation
import LoxLang.Proofs.Parsing.Room
import LoxLang.Proofs.Parsing.Indexed
import LoxLang.Proofs.Parsing.Bounds
import LoxLang.Proofs.Reading
import LoxLang.Proofs.Scopes
import LoxLang.Proofs.Sites
import LoxLang.Proofs.Fits
import LoxLang.Proofs.History
import LoxLang.Proofs.Mirror
import LoxLang.Proofs.Invariant
import LoxLang.Proofs.HeldValues
import LoxLang.Proofs.HeapSteps
import LoxLang.Proofs.Lookups
import LoxLang.Proofs.InsideMethods
import LoxLang.Proofs.ClassSteps
import LoxLang.Proofs.KeywordStores
import LoxLang.Proofs.MethodCalls
import LoxLang.Proofs.BoundReceivers
import LoxLang.Proofs.Soundness
import LoxLang.Proofs.Runs
import LoxLang.Proofs.Histories
import LoxLang.Proofs.StaticAcceptance
import LoxLang.Proofs.FramesMirrorScopes
import LoxLang.Proofs.SharedVariables
import LoxLang.Proofs.Appearances
import LoxLang.Proofs.Renaming.Trees
import LoxLang.Proofs.Renaming.Scopes
import LoxLang.Proofs.Renaming.Resolution
import LoxLang.Proofs.Renaming.Acceptance
import LoxLang.Proofs.Renaming.Alike
import LoxLang.Proofs.Renaming.Heaps
import LoxLang.Proofs.Renaming.Operations
import LoxLang.Proofs.Renaming.Steps
import LoxLang.Proofs.RenamedLocals
import LoxLang.Proofs.Piecewise.Sources
import LoxLang.Proofs.Piecewise.Matching
import LoxLang.Proofs.Piecewise.Resolving
import LoxLang.Proofs.Piecewise.Deriving
import LoxLang.Proofs.Piecewise.Machines
import LoxLang.Proofs.Piecewise.Operations
import LoxLang.Proofs.Piecewise.Steps
import LoxLang.Proofs.Piecewise.Interpreting
import LoxLang.Proofs.Piecewise.Accepting
import LoxLang.Proofs.PiecewiseRuns
import LoxLang.Proofs.RejectedInputs
import LoxLang.Proofs.WaysBack
import LoxLang.Proofs.FrameRestored
import LoxLang.Proofs.Occurrences
import LoxLang.Proofs.LexicalDistance
import LoxLang.Proofs.Continuation
import LoxLang.Proofs.DepthLimits
import LoxLang.Proofs.ScopeRules
import LoxLang.Proofs.Rounding
import LoxLang.Proofs.FloatWords
import LoxLang.Proofs.PrintedNumbers
import LoxLang.Proofs.QuotedTokens
import LoxLang.Proofs.Lexemes
import LoxLang.Proofs.ExpressionInputs
import LoxLang.Proofs.GrowingTexts
import LoxLang.Proofs.EnteredLines
import LoxLang.Proofs.Braces.Trees
import LoxLang.Proofs.Braces.Resolution
import LoxLang.Proofs.Braces.Alike
import LoxLang.Proofs.Braces.Heaps
import LoxLang.Proofs.Braces.Operations
import LoxLang.Proofs.Braces.Steps
import LoxLang.Proofs.RedundantBraces
import LoxLang.Proofs.PromptState
import LoxLang.Proofs.LogFlags
import LoxLang.Proofs.ExitStatuses
import LoxLang.Proofs.Turns
import LoxLang.Proofs.LastingStructure
import LoxLang.Proofs.HeldReferences
import LoxLang.Proofs.AssignedNames
import LoxLang.Proofs.ImmutableStructure
import LoxLang.Proofs.HeldFunctions
import LoxLang.Proofs.ReceiverFamilies
import LoxLang.Proofs.AnswersAndReports
import LoxLang.Proofs.StoringSteps
import LoxLang.Proofs.GlobalNames
import LoxLang.Proofs.AssignedVariables
import LoxLang.Proofs.ResolutionTable
import LoxLang.Proofs.Holdings
import LoxLang.Proofs.Chains
import LoxLang.Proofs.Instantiation
import LoxLang.Proofs.InnerRuns
import LoxLang.Proofs.Echo
import LoxLang.Proofs.ExpressionStatements
import LoxLang.Proofs.Parsing.Contents
import LoxLang.Proofs.TokenOrigins
import LoxLang.Proofs.QuotedSources
import LoxLang.Proofs.Layout
import LoxLang.Proofs.NearestBindings
import LoxLang.Proofs.Parsing.ForStatements
import LoxLang.Proofs.Courses
import LoxLang.Proofs.LoopPhases
import LoxLang.Proofs.LoopVariables
import LoxLang.Proofs.ForLoops
