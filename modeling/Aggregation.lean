import Aggregation.Accumulator.Outcome
import Aggregation.SortedBag.Request
import Aggregation.Proofs.Accumulator.Distinct
import Aggregation.Proofs.SortedBag.Positions
import Aggregation.Proofs.SortedBag.Refinement
import Aggregation.Proofs.SortedBag.Undo
import Aggregation.Proofs.Representation
import Aggregation.Proofs.Accumulator.Atomic
import Aggregation.Proofs.Accumulator.Extreme
import Aggregation.Proofs.Agreement
import Aggregation.Proofs.SortedBag.Phases
import Aggregation.Proofs.SortedBag.Bounds
import Aggregation.Proofs.Datum.Reading
import Aggregation.Proofs.Accumulator.Merging
import Aggregation.Proofs.Accumulator.Arrival
import Aggregation.Proofs.Accumulator.Idempotent
import Aggregation.Proofs.Accumulator.Average
import Aggregation.Proofs.Accumulator.Isolation
import Aggregation.Proofs.Datum.RoundTrip
import Aggregation.Proofs.Accumulator.Running
import Aggregation.Proofs.Accumulator.Finishing
import Aggregation.Proofs.Binary64.Words
import Aggregation.Proofs.Text.Whole
import Aggregation.Proofs.Datum.Whole
import Aggregation.Proofs.Binary64.Rounds
import Aggregation.Proofs.SortedBag.Percentile
import Aggregation.Proofs.SortedBag.Shares
import Aggregation.Proofs.SortedBag.Cursor
import Aggregation.Proofs.SortedBag.PercentileOrder
import Aggregation.Proofs.SortedBag.Mode
import Aggregation.Proofs.Accumulator.ExactSum
import Aggregation.Proofs.Accumulator.Combined
import Aggregation.Proofs.Accumulator.Bitwise
import Aggregation.Proofs.Accumulator.Variance
import Aggregation.Proofs.Accumulator.VarianceSign
import Aggregation.Proofs.Accumulator.Interval
import Aggregation.Proofs.Accumulator.GeometricMean
import Aggregation.Proofs.Accumulator.IntegerAverage
import Aggregation.Proofs.Accumulator.Converted
import Aggregation.Proofs.Binary64.Zeros
import Aggregation.Proofs.Accumulator.Constant
import Aggregation.Proofs.Probing
import Aggregation.Proofs.Datum.Search
import Aggregation.Proofs.AggregateName
