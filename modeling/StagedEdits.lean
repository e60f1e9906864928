import StagedEdits.Workspace
import StagedEdits.Store.Database
import StagedEdits.Store.Faulty
import StagedEdits.Proofs.Convergence
import StagedEdits.Proofs.Integrity
import StagedEdits.Proofs.RollBack
import StagedEdits.Proofs.ExternalCommits
import StagedEdits.Proofs.KeptEdits
import StagedEdits.Proofs.Repetition
import StagedEdits.Proofs.Reproduction
import StagedEdits.Proofs.FailedCommit
import StagedEdits.Proofs.Rejection
import StagedEdits.Proofs.Undoing
import StagedEdits.Proofs.LocalRuns
import StagedEdits.Proofs.ReadBack
import StagedEdits.Proofs.Vanished
import StagedEdits.Proofs.Grounds
import StagedEdits.Proofs.Severance
import StagedEdits.Proofs.PairedKeys
import StagedEdits.Proofs.Partition
import StagedEdits.Proofs.LookUps
import StagedEdits.Proofs.Unclaimed
import StagedEdits.Proofs.Admission
import StagedEdits.Proofs.AnswerOrder
import StagedEdits.Proofs.Tracking
import StagedEdits.Proofs.Settlement
import StagedEdits.Proofs.Atomicity
import StagedEdits.Proofs.Balance
import StagedEdits.Proofs.Turns
import StagedEdits.Proofs.EvictionOrder
