import Binning.Histogram.Fill
import Binning.Histogram.Read
import Binning.Histogram.Reshape
import Binning.Proofs.Axis.Sizes
import Binning.Proofs.Axis.Slots
import Binning.Proofs.Binary64
import Binning.Proofs.Layout
import Binning.Proofs.Storage.Cells
import Binning.Proofs.Storage.Unlimited
import Binning.Proofs.Storage.Gather
import Binning.Proofs.Axis.Made
import Binning.Proofs.Reduction
import Binning.Proofs.Routes
import Binning.Proofs.Histogram.Growth
import Binning.Proofs.Histogram.Reachable
import Binning.Proofs.Index.Expand
import Binning.Proofs.Histogram.Places
import Binning.Proofs.Histogram.Bounds
import Binning.Proofs.Histogram.Effect
import Binning.Proofs.Histogram.Moves
import Binning.Proofs.Index.Choices
import Binning.Proofs.Histogram.Selection
import Binning.Proofs.Histogram.Groups
import Binning.Histogram.InPlace
import Binning.Proofs.Storage.Counts
import Binning.Proofs.Registry
import Binning.Proofs.Composition
import Binning.Proofs.Index.Sums
import Binning.Proofs.Histogram.Reductions
import Binning.Proofs.Histogram.Additivity
import Binning.Proofs.Histogram.Failures
import Binning.Proofs.Histogram.Summing
import Binning.Proofs.Binary64.Units
import Binning.Proofs.Binary64.Rounding
import Binning.Proofs.Binary64.Integers
import Binning.Proofs.Law.Bounds
import Binning.Proofs.Axis.Located
import Binning.Proofs.Histogram.Totals
import Binning.Proofs.Histogram.Conservation
import Binning.Proofs.Binary64.Whole
import Binning.Proofs.Storage.Widening
import Binning.Proofs.Binary64.Special
import Binning.Proofs.Exact
import Binning.Proofs.Accumulator.Merge
import Binning.Proofs.Axis.IntegerGrowth
import Binning.Proofs.Storage.Equality
import Binning.Proofs.Storage.Unmoved
import Binning.Proofs.Index.Full
import Binning.Proofs.Histogram.FullSlices
import Binning.Registry.InPlace
import Binning.Proofs.Registry.Registered
import Binning.Proofs.Registry.Casts
import Binning.Proofs.Law.Lookup
import Binning.Proofs.Storage.Entries
import Binning.Proofs.Histogram.Regrouping
import Binning.Proofs.Axis.Equality
import Binning.Proofs.Histogram.Ledger
import Binning.Proofs.Histogram.Deposits
import Binning.Proofs.Axis.Labels
import Binning.Proofs.Histogram.Labels
import Binning.Proofs.Histogram.Order
import Binning.Proofs.Shadow
import Binning.Proofs.Histogram.Projections
import Binning.Proofs.Index.Cuts
import Binning.Proofs.Histogram.Cuts
import Binning.Proofs.Index.OneAxis
import Binning.Proofs.Histogram.OneAxis
import Binning.Proofs.Index.Rebins
import Binning.Proofs.Histogram.Rebins
import Binning.Proofs.Index.Picks
import Binning.Proofs.Histogram.Readings
import Binning.Proofs.Histogram.Casts
import Binning.Proofs.Histogram.Classes
import Binning.Proofs.Histogram.Twins
import Binning.Proofs.Histogram.Sessions
import Binning.Proofs.Axis.FixedLabels
import Binning.Proofs.Histogram.FixedLabels
import Binning.Proofs.Axis.EdgeBins
import Binning.Proofs.Axis.IntegerLookup
import Binning.Proofs.Reduction.Fibres
import Binning.Proofs.Binary64.Neighbours
import Binning.Proofs.Law.EdgeGrowth
import Binning.Law.InPlace
import Binning.Proofs.Law.IntegerRuns
import Binning.Proofs.Keywords
import Binning.Proofs.Keywords.Settings
import Binning.Proofs.Text
import Binning.Proofs.Keywords.Parse
import Binning.Proofs.Accumulator.Moments
import Binning.Proofs.Law.EvenBins
import Binning.Proofs.Law.EvenGrowth
import Binning.Proofs.Binary64.Nearest
import Binning.Proofs.Binary64.Monotone
import Binning.Proofs.Law.OuterEdges
import Binning.Proofs.Axis.FlowEdges
import Binning.Proofs.Index.Offsets
import Binning.Proofs.Equality
import Binning.Proofs.Histogram.Equality
import Binning.Proofs.Binary64.Range
import Binning.Proofs.Law.EdgeRuns
import Binning.Proofs.Law.EvenCuts
import Binning.Proofs.Law.EvenRuns
