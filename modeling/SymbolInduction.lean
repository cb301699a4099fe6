import SymbolInduction.Scalar
import SymbolInduction.Text.Blank
import SymbolInduction.Text.Pad
import SymbolInduction.Decimal.Word
import SymbolInduction.Value
import SymbolInduction.Panic
import SymbolInduction.Time
import SymbolInduction.Request
import SymbolInduction.Table
import SymbolInduction.Term.Primitive
import SymbolInduction.Term.Basic
import SymbolInduction.Term.Token
import SymbolInduction.Term.Printer
import SymbolInduction.Term.Reader
import SymbolInduction.Evaluation.Basic
import SymbolInduction.Decimal.Double
import SymbolInduction.Decimal.Fixed
import SymbolInduction.Decimal.Shortest
import SymbolInduction.Task
import SymbolInduction.Grammar
import SymbolInduction.Oracle.Error
import SymbolInduction.Journal
import SymbolInduction.Program.Body
import SymbolInduction.Program.Basic
import SymbolInduction.Score
import SymbolInduction.Frontier
import SymbolInduction.Oracle.Basic
import SymbolInduction.Draws
import SymbolInduction.Evidence
import SymbolInduction.Symbol.Basic
import SymbolInduction.Symbol.Tasks
import SymbolInduction.Symbol.Use
import SymbolInduction.Symbol.Saved
import SymbolInduction.Learner.Schedule
import SymbolInduction.Learner.Guard
import SymbolInduction.Enumeration.Observation
import SymbolInduction.Enumeration.Compositions
import SymbolInduction.Enumeration.Bank
import SymbolInduction.Enumeration.Search
import SymbolInduction.Decimal.Numeral
import SymbolInduction.Json.Tree
import SymbolInduction.Json.Printer
import SymbolInduction.Json.Reader
import SymbolInduction.Json.Forms
import SymbolInduction.Learner.Options
import SymbolInduction.Learner.Vocabulary
import SymbolInduction.Learner.Basic
import SymbolInduction.Learner.Merge
import SymbolInduction.Learner.Promotion
import SymbolInduction.Learner.Saved
import SymbolInduction.Learner.Round
import SymbolInduction.Proofs.Decimal.RoundTrip
import SymbolInduction.Proofs.Term.RoundTrip
import SymbolInduction.Proofs.Term.Spelling
import SymbolInduction.Proofs.Term.Grammar
import SymbolInduction.Proofs.Program.Equivalence
import SymbolInduction.Proofs.Program.Memory
import SymbolInduction.Proofs.Learner.Merge
import SymbolInduction.Proofs.Evaluation.Comparison
import SymbolInduction.Proofs.Evaluation.Agreement
import SymbolInduction.Proofs.Evaluation.Marks
import SymbolInduction.Proofs.Evaluation.Budgets
import SymbolInduction.Proofs.Evaluation.Promotion
import SymbolInduction.Proofs.Enumeration.Bank
import SymbolInduction.Proofs.Enumeration.Choices
import SymbolInduction.Proofs.Enumeration.Runs
import SymbolInduction.Proofs.Enumeration.Posteriors
import SymbolInduction.Proofs.Scalar.WholeDoubles
import SymbolInduction.Proofs.Scalar.Exact
import SymbolInduction.Proofs.Evidence
import SymbolInduction.Proofs.Enumeration.Completeness
import SymbolInduction.Proofs.Scalar.Doubles
import SymbolInduction.Proofs.Frontier
import SymbolInduction.Proofs.Scalar.Shares
import SymbolInduction.Proofs.Evaluation.Programs
import SymbolInduction.Proofs.Score
import SymbolInduction.Proofs.Symbol.Steps
import SymbolInduction.Proofs.Symbol.Histories
import SymbolInduction.Proofs.Symbol.Scores
import SymbolInduction.Proofs.Symbol.Solved
import SymbolInduction.Proofs.Learner.Reached
import SymbolInduction.Proofs.Enumeration.Tasks
import SymbolInduction.Proofs.Evaluation.Pace
import SymbolInduction.Proofs.Enumeration.Hits
import SymbolInduction.Proofs.Symbol.Ratings
import SymbolInduction.Proofs.Learner.Learning
import SymbolInduction.Proofs.Learner.Operations
import SymbolInduction.Proofs.Learner.Loading
import SymbolInduction.Proofs.Learner.Checkpoints
import SymbolInduction.Proofs.Learner.Versions
import SymbolInduction.Proofs.Learner.Places
import SymbolInduction.Proofs.Learner.Trust
import SymbolInduction.Proofs.Scalar.Signs
import SymbolInduction.Proofs.Scalar.Order
import SymbolInduction.Proofs.Likelihood
import SymbolInduction.Proofs.Symbol.Tasks
import SymbolInduction.Proofs.Symbol.Failures
import SymbolInduction.Proofs.Symbol.Arities
import SymbolInduction.Proofs.Symbol.Uses
import SymbolInduction.Proofs.Symbol.Batches
import SymbolInduction.Proofs.Symbol.Candidates
import SymbolInduction.Proofs.Learner.EmptyRounds
import SymbolInduction.Proofs.Frontier.Leaders
import SymbolInduction.Proofs.Grammar
import SymbolInduction.Proofs.Learner.Promotions
import SymbolInduction.Proofs.Learner.Components
import SymbolInduction.Proofs.Enumeration.Origins
import SymbolInduction.Proofs.Enumeration.Seeds
import SymbolInduction.Proofs.Symbol.Solutions
import SymbolInduction.Proofs.Evaluation.Watch
import SymbolInduction.Proofs.Evaluation.Discipline
import SymbolInduction.Proofs.Evaluation.Calls
import SymbolInduction.Proofs.Evaluation.Scopes
import SymbolInduction.Proofs.Evaluation.Arities
import SymbolInduction.Proofs.Evaluation.Branches
import SymbolInduction.Proofs.Term.Markers
import SymbolInduction.Proofs.Enumeration.Indices
import SymbolInduction.Proofs.Symbol.ExactScores
import SymbolInduction.Proofs.Request
import SymbolInduction.Proofs.Enumeration.Offers
import SymbolInduction.Proofs.Enumeration.Arguments
