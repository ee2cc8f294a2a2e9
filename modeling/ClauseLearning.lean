import ClauseLearning.Workbench
import ClauseLearning.Main
import ClauseLearning.Proofs.Semantics
import ClauseLearning.Proofs.Trail.Push
import ClauseLearning.Proofs.Trail.Backtrack
import ClauseLearning.Proofs.Coherence
import ClauseLearning.Proofs.Propagation.Scan
import ClauseLearning.Proofs.Propagation.Registration
import ClauseLearning.Proofs.Propagation.Watched
import ClauseLearning.Proofs.Propagation.Propagator
import ClauseLearning.Proofs.Analysis.Lesson
import ClauseLearning.Proofs.Trail.Consistency
import ClauseLearning.Proofs.Analysis.Entailment
import ClauseLearning.Proofs.Database.Compaction
import ClauseLearning.Proofs.Construction
import ClauseLearning.Proofs.Database.Activity
import ClauseLearning.Proofs.Decisions
import ClauseLearning.Proofs.Search.Invariant
import ClauseLearning.Proofs.Search.Conflict
import ClauseLearning.Proofs.Model
import ClauseLearning.Proofs.Search.Step
import ClauseLearning.Proofs.Search.Start
import ClauseLearning.Proofs.Search.Run
import ClauseLearning.Proofs.Search.Verdict
import ClauseLearning.Proofs.Search.Safety
import ClauseLearning.Proofs.Propagation.Closure
import ClauseLearning.Proofs.Search.Growth
import ClauseLearning.Proofs.Search.Moments
import ClauseLearning.Proofs.Search.States
import ClauseLearning.Proofs.Search.Novelty
import ClauseLearning.Proofs.Search.Saturation
import ClauseLearning.Proofs.Search.Budget
import ClauseLearning.Proofs.Dimacs.RoundTrip
import ClauseLearning.Proofs.Analysis.Assertion
import ClauseLearning.Proofs.Analysis.Resolution
import ClauseLearning.Proofs.Database.References
import ClauseLearning.Proofs.Database.Selection
import ClauseLearning.Proofs.Runs
import ClauseLearning.Proofs.Branching.Queue
import ClauseLearning.Proofs.Branching.Greatest
import ClauseLearning.Proofs.Trail.History
import ClauseLearning.Proofs.Database.Filing
import ClauseLearning.Proofs.Propagation.Upkeep
import ClauseLearning.Proofs.Machinery.Operations
import ClauseLearning.Proofs.Machinery.WatchLists
import ClauseLearning.Proofs.Machinery.LearntStore
import ClauseLearning.Proofs.Search.Balance
import ClauseLearning.Proofs.Restart.Schedule
import ClauseLearning.Proofs.Construction.Acceptance
import ClauseLearning.Proofs.Dimacs.Layout
import ClauseLearning.Proofs.Restart.Words
import ClauseLearning.Proofs.Analysis.Reuse
import ClauseLearning.Proofs.Construction.Representation
import ClauseLearning.Proofs.Search.Shown
