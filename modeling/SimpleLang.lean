import SimpleLang.Trace.Filter
import SimpleLang.Tree.Outline
import SimpleLang.Proofs.Reading
import SimpleLang.Proofs.Parser.Soundness
import SimpleLang.Proofs.Parser.Completeness
import SimpleLang.Proofs.Parser.Acceptance
import SimpleLang.Proofs.Grammar
import SimpleLang.Proofs.Grammar.Greedy
import SimpleLang.Proofs.Grammar.Acceptance
import SimpleLang.Proofs.Tokens.Pieces
import SimpleLang.Proofs.Tokens.Bytes
import SimpleLang.Proofs.Tokens.Scanner
import SimpleLang.Proofs.Tokens
import SimpleLang.Proofs.Lowering
import SimpleLang.Proofs.Lowering.Total
import SimpleLang.Proofs.Rendering
import SimpleLang.Proofs.Rendering.RoundTrip
import SimpleLang.Proofs.Machine.Parallel
import SimpleLang.Proofs.AutoDisplay
import SimpleLang.Proofs.Machine.Respects
import SimpleLang.Proofs.Machine.Sinks
import SimpleLang.Proofs.Machine.Outcome
import SimpleLang.Proofs.Machine.StepLimit
import SimpleLang.Proofs.Tree.Placed
import SimpleLang.Proofs.Parser.Respects
import SimpleLang.Proofs.Lowering.Congruence
import SimpleLang.Proofs.Lowering.Skeleton
import SimpleLang.Proofs.Lowering.Parentheses
import SimpleLang.Proofs.Lowering.ErrorPlaces
import SimpleLang.Proofs.Layout
import SimpleLang.Proofs.Tree.Nesting
import SimpleLang.Proofs.Tree.Nesting.Attained
import SimpleLang.Proofs.Machine.ScopeNames
import SimpleLang.Proofs.Machine.ScopeChains
import SimpleLang.Proofs.Number.FloatOrder
import SimpleLang.Proofs.Machine.Comparison
import SimpleLang.Proofs.Machine.UncallableCalls
import SimpleLang.Proofs.Machine.StepBudget
import SimpleLang.Proofs.Machine.SinkLimit
import SimpleLang.Proofs.Machine.DefinitionOrder
import SimpleLang.Proofs.Machine.Closures
import SimpleLang.Proofs.Machine.Loopless
import SimpleLang.Proofs.Machine.Replacement
import SimpleLang.Proofs.Machine.ReturnBodies
import SimpleLang.Proofs.Machine.Transitions
import SimpleLang.Proofs.Machine.Adequacy
import SimpleLang.Proofs.Machine.CallDepth
import SimpleLang.Proofs.Machine.Invariants
import SimpleLang.Proofs.Machine.CheckedCalls
import SimpleLang.Proofs.Machine.IntegerRange
import SimpleLang.Proofs.Parser.Progress
import SimpleLang.Proofs.Parser.Lockstep
import SimpleLang.Proofs.Parser.Locality
import SimpleLang.Proofs.Parser.StatementEnds
import SimpleLang.Proofs.Tree.Grouping
import SimpleLang.Proofs.Parser.Continuation
import SimpleLang.Proofs.Parser.NestingLimit
import SimpleLang.Proofs.Concatenation
import SimpleLang.Proofs.Parser.Levels
import SimpleLang.Proofs.Parser.Runs
import SimpleLang.Proofs.Parser.Bookkeeping
import SimpleLang.Proofs.Parser.InStep
import SimpleLang.Proofs.Parser.Refinement
import SimpleLang.Proofs.Tokens.LongestMatch
import SimpleLang.Proofs.Tokens.Lossless
import SimpleLang.Proofs.Tokens.Respelled
import SimpleLang.Proofs.Parser.ErrorOrder
import SimpleLang.Proofs.Locations
import SimpleLang.Proofs.Reassembly
import SimpleLang.Proofs.Number.Overflow
import SimpleLang.Proofs.FloatLiterals
