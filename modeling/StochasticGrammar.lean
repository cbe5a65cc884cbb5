import StochasticGrammar.CommandLine.Sandbox
import StochasticGrammar.FormulaObjective
import StochasticGrammar.Main
import StochasticGrammar.Session
import StochasticGrammar.Proofs.Stateful
import StochasticGrammar.Proofs.Memo.Lookup
import StochasticGrammar.Proofs.SpanGrid
import StochasticGrammar.Proofs.Chart.Filling
import StochasticGrammar.Proofs.Grammar.Acceptance
import StochasticGrammar.Proofs.Grammar.Updates
import StochasticGrammar.Proofs.Chart.Epochs
import StochasticGrammar.Proofs.Engine.Consistent
import StochasticGrammar.Proofs.Engine.History
import StochasticGrammar.Proofs.Double.Packing
import StochasticGrammar.Proofs.Double.Rounding
import StochasticGrammar.Proofs.Double.Sums
import StochasticGrammar.Proofs.Double.Products
import StochasticGrammar.Proofs.Grammar.Numbering
import StochasticGrammar.Proofs.Grammar.Pruning
import StochasticGrammar.Proofs.Grammar.Passes
import StochasticGrammar.Proofs.Chart.Plain
import StochasticGrammar.Proofs.Chart.Pruned
import StochasticGrammar.Proofs.Engine.PlainWeights
import StochasticGrammar.Proofs.Tree.BestChart
import StochasticGrammar.Proofs.Engine.BestParse
import StochasticGrammar.Proofs.Tree.Totals
import StochasticGrammar.Proofs.Tree.Contexts
import StochasticGrammar.Proofs.Tree.Exact
import StochasticGrammar.Proofs.Grammar.SententialForms
import StochasticGrammar.Proofs.Double.Heights
import StochasticGrammar.Proofs.Engine.Entries
import StochasticGrammar.Proofs.Engine.Support
import StochasticGrammar.Proofs.Tree.Surroundings
import StochasticGrammar.Proofs.Tree.Constancy
import StochasticGrammar.Proofs.Tree.Support
import StochasticGrammar.Proofs.Engine.Sessions
import StochasticGrammar.Proofs.Double.Intervals
import StochasticGrammar.Proofs.Double.Decimals
import StochasticGrammar.Proofs.Double.Signs
import StochasticGrammar.Proofs.Double.Order
import StochasticGrammar.Proofs.Double.Bounds
import StochasticGrammar.Proofs.Double.Fractions
import StochasticGrammar.Proofs.Double.Additions
import StochasticGrammar.Proofs.Chart.Bounds
import StochasticGrammar.Proofs.Ascent.Observed
import StochasticGrammar.Proofs.Ascent.Attained
import StochasticGrammar.Proofs.Decimal.Shortest
import StochasticGrammar.Proofs.Decimal.Scanning
import StochasticGrammar.Proofs.Decimal.Readings
import StochasticGrammar.Proofs.Decimal.Text
import StochasticGrammar.Proofs.Decimal.Numerals
import StochasticGrammar.Proofs.Text.Characters
import StochasticGrammar.Proofs.Formula.Reading
import StochasticGrammar.Proofs.Formula.Spelling
import StochasticGrammar.Proofs.Formula.Expressions
import StochasticGrammar.Proofs.Formula.Derivations
import StochasticGrammar.Proofs.Lexicon.Insertion
import StochasticGrammar.Proofs.Grammar.Checks
import StochasticGrammar.Proofs.Grammar.Additions
import StochasticGrammar.Proofs.Grammar.Reaching
import StochasticGrammar.Proofs.Grammar.Conditions
import StochasticGrammar.Proofs.Grammar.Construction
import StochasticGrammar.Proofs.GrammarText.Words
import StochasticGrammar.Proofs.GrammarText.Lines
import StochasticGrammar.Proofs.GrammarText.Contents
import StochasticGrammar.Proofs.GrammarText.Rereading
import StochasticGrammar.Proofs.GrammarText.Soundness
import StochasticGrammar.Proofs.GrammarText.Redeclaration
import StochasticGrammar.Proofs.GrammarText.Printing
import StochasticGrammar.Proofs.GrammarText.RoundTrip
import StochasticGrammar.Proofs.Grammar.Points
import StochasticGrammar.Proofs.Engine.Objective
import StochasticGrammar.Proofs.Engine.Training
import StochasticGrammar.Proofs.Engine.Definedness
import StochasticGrammar.Proofs.Formula.Rereading
import StochasticGrammar.Proofs.Lexicon.Tokens
import StochasticGrammar.Proofs.Lexicon.Offers
import StochasticGrammar.Proofs.Random.Source
import StochasticGrammar.Proofs.Tree.Growth
import StochasticGrammar.Proofs.Engine.Spawning
import StochasticGrammar.Proofs.Tree.Slots
import StochasticGrammar.Proofs.Tree.Chances
import StochasticGrammar.Proofs.Chart.Locality
import StochasticGrammar.Proofs.Engine.Locality
import StochasticGrammar.Proofs.Engine.Failures
import StochasticGrammar.Proofs.Grammar.NameMap
import StochasticGrammar.Proofs.Grammar.Registry
import StochasticGrammar.Proofs.Tree.InsideSums
import StochasticGrammar.Proofs.Tree.Single
import StochasticGrammar.Proofs.Engine.ParseWeight
import StochasticGrammar.Proofs.Tree.Masses
import StochasticGrammar.Proofs.Grammar.Unread
import StochasticGrammar.Proofs.Engine.Unread
import StochasticGrammar.Proofs.Chart.Stores
import StochasticGrammar.Proofs.Engine.Events
import StochasticGrammar.Proofs.Engine.Counting
import StochasticGrammar.Proofs.Double.Quotients
import StochasticGrammar.Proofs.Double.Strata
import StochasticGrammar.Proofs.Grammar.Sampling
import StochasticGrammar.Proofs.Engine.Sampling
import StochasticGrammar.Proofs.GrammarText.Remarks
import StochasticGrammar.Proofs.Double.Amounts
import StochasticGrammar.Proofs.Grammar.Slices
import StochasticGrammar.Proofs.Engine.Coverage
import StochasticGrammar.Proofs.Tree.Brackets
import StochasticGrammar.Proofs.Tree.Charted
import StochasticGrammar.Proofs.Engine.Brackets
import StochasticGrammar.Proofs.Ascent.Bounded
import StochasticGrammar.Proofs.Engine.Ranges
import StochasticGrammar.Proofs.Chart.Rounds
import StochasticGrammar.Proofs.Engine.Rounds
import StochasticGrammar.Proofs.Tree.Descents
import StochasticGrammar.Proofs.Engine.Descents
import StochasticGrammar.Proofs.Memo.Counts
import StochasticGrammar.Proofs.Memo.Columns
import StochasticGrammar.Proofs.Memo.History
import StochasticGrammar.Proofs.Guarded.Reads
import StochasticGrammar.Proofs.Guarded.Sums
import StochasticGrammar.Proofs.Guarded.Rounds
import StochasticGrammar.Proofs.Tree.Recurrence
import StochasticGrammar.Proofs.Guarded.Parsing
import StochasticGrammar.Proofs.Guarded.Traceback
import StochasticGrammar.Proofs.Engine.Guarded
import StochasticGrammar.Proofs.Guarded.Words
