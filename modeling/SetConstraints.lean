import SetConstraints.Event
import SetConstraints.Trail
import SetConstraints.SetDomain
import SetConstraints.IntDomain
import SetConstraints.Store
import SetConstraints.WatchList
import SetConstraints.Queue
import SetConstraints.Solver.Propagation
import SetConstraints.Solver.Enumeration
import SetConstraints.Graph.Reachability
import SetConstraints.Constraint
import SetConstraints.Script
import SetConstraints.Session
import SetConstraints.Report.Statistics
import SetConstraints.Proofs.Propagation
import SetConstraints.Proofs.Excursion
import SetConstraints.Proofs.Backtracking
import SetConstraints.Proofs.Notification
import SetConstraints.Proofs.Solutions
import SetConstraints.Proofs.Entailment
import SetConstraints.Proofs.Resting
import SetConstraints.Proofs.Filtering
import SetConstraints.Proofs.Incremental
import SetConstraints.Proofs.Termination
import SetConstraints.Proofs.SearchTree
import SetConstraints.Proofs.Graph.StronglyConnected
import SetConstraints.Proofs.Urgency
import SetConstraints.Proofs.Replay
import SetConstraints.Proofs.Representation
