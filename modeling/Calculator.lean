import Calculator.Comparison
import Calculator.Main
import Calculator.Proofs.Grammar
import Calculator.Proofs.Scan
import Calculator.Proofs.Descent
import Calculator.Proofs.Expression
import Calculator.Proofs.Spelling
import Calculator.Proofs.WellFormed
import Calculator.Proofs.Acceptance
import Calculator.Proofs.Calls
import Calculator.Proofs.EarliestError
import Calculator.Proofs.OneExpression
import Calculator.Proofs.Rendering
import Calculator.Proofs.Groups
import Calculator.Proofs.ReadBack
import Calculator.Proofs.Resumption
import Calculator.Proofs.Tiling
import Calculator.Proofs.PrintedLists
import Calculator.Proofs.OnePass
import Calculator.Proofs.Concatenation
import Calculator.Proofs.Spacing
import Calculator.Proofs.Report
import Calculator.Proofs.Faults
import Calculator.Proofs.Splitting
import Calculator.Proofs.Literals
import Calculator.Proofs.Shortest
import Calculator.Proofs.InOrder
import Calculator.Proofs.Progress
import Calculator.Proofs.Composition
import Calculator.Proofs.LetterCase
import Calculator.Proofs.FollowSets
import Calculator.Proofs.Indexing
import Calculator.Proofs.Listings
