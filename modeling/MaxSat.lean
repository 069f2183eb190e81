import MaxSat.Engine.Playback
import MaxSat.Files.Tree
import MaxSat.Main
import MaxSat.Random.Instance
import MaxSat.Learning.ClauseBase
import MaxSat.Learning.Conflict
import MaxSat.Learning.Search
import MaxSat.Proofs.Search.LeastModel
import MaxSat.Proofs.Search.Fixpoint
import MaxSat.Proofs.HittingSet.Hitter
import MaxSat.Proofs.HittingSet.Bound
import MaxSat.Proofs.Formula.WellFormed
import MaxSat.Proofs.Oracle.Minimization
import MaxSat.Proofs.Engine.Optimality
import MaxSat.Proofs.Engine.Numbering
import MaxSat.Proofs.Engine.Contract
import MaxSat.Proofs.Engine.Replay
import MaxSat.Proofs.Engine.Progress
import MaxSat.Proofs.Engine.Stagewise
import MaxSat.Proofs.Engine.Agreement
import MaxSat.Proofs.Text.Numeral
import MaxSat.Proofs.Formula.Allocation
import MaxSat.Proofs.Formula.Grammar
import MaxSat.Proofs.Formula.Reading
import MaxSat.Proofs.Formula.Acceptance
import MaxSat.Proofs.Formula.Buckets
import MaxSat.Proofs.Formula.Written
import MaxSat.Proofs.Formula.RoundTrip
import MaxSat.Proofs.Formula.Conversion
import MaxSat.Proofs.Engine.Lockstep
import MaxSat.Proofs.Engine.Modes
import MaxSat.Proofs.Oracle.Exhaustive
import MaxSat.Proofs.Engine.Meaning
import MaxSat.Proofs.Engine.Calls
import MaxSat.Proofs.Formula.Lookup
import MaxSat.Proofs.Formula.Selectors
import MaxSat.Proofs.HittingSet.Scaling
import MaxSat.Proofs.Formula.Scaling
import MaxSat.Proofs.Engine.Scaling
import MaxSat.Proofs.Weight.Grammar
import MaxSat.Proofs.Weight.Canonical
import MaxSat.Proofs.Random.Planted
import MaxSat.Proofs.Bench.Table
