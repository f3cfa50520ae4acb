import ValueIteration.Belief.Discipline
import ValueIteration.Belief.MinPlus
import ValueIteration.Bitboard.Cursor
import ValueIteration.Bitboard.Dilation
import ValueIteration.EarlyStart
import ValueIteration.Fpga.ActionTable
import ValueIteration.Fpga.Strips
import ValueIteration.FusedPadded
import ValueIteration.LabelSetting
import ValueIteration.OrderedSweep
import ValueIteration.Planner.Coherence
import ValueIteration.Planner.CompactView
import ValueIteration.Planner.Coverage
import ValueIteration.Planner.ObstacleDistance
import ValueIteration.Planner.Plan
import ValueIteration.Planner.Prefetch
import ValueIteration.Planner.Qmdp
import ValueIteration.ReferenceStop
import ValueIteration.Resweep
import ValueIteration.Schur.Corridor
import ValueIteration.Schur.Materialize
import ValueIteration.Solvers.Dispatch
import ValueIteration.StateSource
import ValueIteration.Termination
