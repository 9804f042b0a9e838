import DeskCalc.Main
import DeskCalc.Proofs.Reading.Place
import DeskCalc.Proofs.Reading.Reader
import DeskCalc.Proofs.Reading.Lexeme
import DeskCalc.Proofs.Reading.Token
import DeskCalc.Proofs.Reading.Derivation
import DeskCalc.Proofs.Reading.Expression
import DeskCalc.Proofs.Reading.Completeness
import DeskCalc.Proofs.Reading.Acceptance
import DeskCalc.Proofs.Tree.Growth
import DeskCalc.Proofs.Tree.Value
import DeskCalc.Proofs.Tree.Row
import DeskCalc.Proofs.Tree.Loss
import DeskCalc.Proofs.Tree.Piece
import DeskCalc.Proofs.Tree.Reduce
import DeskCalc.Proofs.Tree.Step
import DeskCalc.Proofs.Tree.Run
import DeskCalc.Proofs.Evaluation
import DeskCalc.Proofs.Inexactness
import DeskCalc.Proofs.WellFormedness
import DeskCalc.Proofs.Progress.Operation
import DeskCalc.Proofs.Progress.Step
import DeskCalc.Proofs.Progress
import DeskCalc.Proofs.Explanation
import DeskCalc.Proofs.Reading.Lookahead
import DeskCalc.Proofs.Reading.Stance
import DeskCalc.Proofs.Reading.Pending
import DeskCalc.Proofs.Reading.Completion
import DeskCalc.Proofs.Diagnosis.Course
import DeskCalc.Proofs.Diagnosis.Attempt
import DeskCalc.Proofs.Diagnosis.Coverage
import DeskCalc.Proofs.Diagnosis.Viable
import DeskCalc.Proofs.Provenance
import DeskCalc.Proofs.Rejection
import DeskCalc.Proofs.Diagnosis.UnknownCall
import DeskCalc.Proofs.UnknownFunction
import DeskCalc.Proofs.Tiling
import DeskCalc.Proofs.Location.Blame
import DeskCalc.Proofs.Location.Part
import DeskCalc.Proofs.Location.Row
import DeskCalc.Proofs.Location.Build
import DeskCalc.Proofs.Location.Reading
import DeskCalc.Proofs.ErrorSpan
import DeskCalc.Proofs.Layout.Spread
import DeskCalc.Proofs.Layout.Wordless
import DeskCalc.Proofs.Layout.Evaluate
import DeskCalc.Proofs.Layout
import DeskCalc.Proofs.Decimal.Rescale
import DeskCalc.Proofs.Decimal.Settled
import DeskCalc.Proofs.Decimal.Finalized
import DeskCalc.Proofs.Decimal.Digits
import DeskCalc.Proofs.Decimal.Written
import DeskCalc.Proofs.Reentry
import DeskCalc.Proofs.Magnitude.Values
import DeskCalc.Proofs.Decimal.Plain
import DeskCalc.Proofs.Notation
import DeskCalc.Proofs.RegisterHistory
import DeskCalc.Proofs.RegisterRange
import DeskCalc.Proofs.Scale.Series
import DeskCalc.Proofs.Scale.Power
import DeskCalc.Proofs.Scale.Literal
import DeskCalc.Proofs.Scale.Run
import DeskCalc.Proofs.ScaleOverflow
import DeskCalc.Proofs.Session
import DeskCalc.Proofs.Decimal.Nearest
import DeskCalc.Proofs.Decimal.Quotient
import DeskCalc.Proofs.Division
import DeskCalc.Proofs.Decimal.Estimate
import DeskCalc.Proofs.Decimal.Significant
import DeskCalc.Proofs.Decimal.Ratio
import DeskCalc.Proofs.Decimal.Canonical
import DeskCalc.Proofs.Power.Exponent
import DeskCalc.Proofs.Power.Squaring
import DeskCalc.Proofs.Power.Value
import DeskCalc.Proofs.Power.Integer
import DeskCalc.Proofs.Power.Root
import DeskCalc.Proofs.Power.Logarithm
import DeskCalc.Proofs.PowerError
import DeskCalc.Proofs.ExactPower
import DeskCalc.Proofs.PowerRepresentation
import DeskCalc.Proofs.NegatedBase
import DeskCalc.Proofs.Settling
import DeskCalc.Proofs.Decimal.Place
import DeskCalc.Proofs.Quantizing
import DeskCalc.Proofs.Decimal.SquareRoot
import DeskCalc.Proofs.PerfectSquare
import DeskCalc.Proofs.Tree.Exact
import DeskCalc.Proofs.UnlimitedPrecision
import DeskCalc.Proofs.ArgumentCheck
import DeskCalc.Proofs.Reading.RadixLiteral
import DeskCalc.Proofs.RadixRoundTrip
import DeskCalc.Proofs.Operands
import DeskCalc.Proofs.Decimal.Whole
import DeskCalc.Proofs.RadixDisplay
import DeskCalc.Proofs.Accuracy.Relative
import DeskCalc.Proofs.Accuracy.ArtanhSeries
import DeskCalc.Proofs.Accuracy.Logarithm
import DeskCalc.Proofs.LogarithmError
import DeskCalc.Proofs.ReportPrecedence
import DeskCalc.Proofs.Accuracy.ExponentialSeries
import DeskCalc.Proofs.Accuracy.Exponential
import DeskCalc.Proofs.ExponentialError
import DeskCalc.Proofs.FractionalPowerError
import DeskCalc.Proofs.Decimal.Shown
import DeskCalc.Proofs.Reading.Listing
import DeskCalc.Proofs.Accumulation
import DeskCalc.Proofs.VariadicCalls
import DeskCalc.Proofs.Marker
import DeskCalc.Proofs.Reading.Pattern
import DeskCalc.Proofs.Transaction
import DeskCalc.Proofs.Reading.Watched
import DeskCalc.Proofs.Termination
import DeskCalc.Proofs.Decimal.Loop
import DeskCalc.Proofs.SeriesLength
import DeskCalc.Proofs.Reading.LexemeKind
import DeskCalc.Proofs.Reading.Spelling
import DeskCalc.Proofs.LongestMatch
import DeskCalc.Proofs.Conversion
