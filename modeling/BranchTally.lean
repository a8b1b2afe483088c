import BranchTally.Main
import BranchTally.Tree.Edit
import BranchTally.Proofs.Control.Soundness
import BranchTally.Proofs.Flow.Retention
import BranchTally.Proofs.Report.Sums
import BranchTally.Proofs.Tree.Order
import BranchTally.Proofs.Dump.Arena
import BranchTally.Proofs.Flow.Totality
import BranchTally.Proofs.Flow.Backward
import BranchTally.Proofs.Flow.Ledger
import BranchTally.Proofs.Flow.Balance
import BranchTally.Proofs.Dump.Arms
import BranchTally.Proofs.Dump.Language
import BranchTally.Proofs.Report.Shape
import BranchTally.Proofs.Report.Separation
import BranchTally.Proofs.Runs.Agreement
import BranchTally.Proofs.Report.Completeness
import BranchTally.Proofs.Flow.Range
import BranchTally.Proofs.Report.Checks
import BranchTally.Proofs.Report.Reading
import BranchTally.Proofs.Flow.Skipping
import BranchTally.Proofs.Report.Accounts
import BranchTally.Proofs.Runs.Demotion
import BranchTally.Proofs.Runs.Listing
import BranchTally.Proofs.Command.Stages
import BranchTally.Proofs.Flow.Descent
import BranchTally.Proofs.Flow.Sharing
import BranchTally.Proofs.Flow.Overflow
import BranchTally.Proofs.Report.Chains
import BranchTally.Proofs.Report.Positions
import BranchTally.Proofs.Report.Negation
import BranchTally.Proofs.Counters.Totals
import BranchTally.Proofs.Log.History
import BranchTally.Proofs.Dump.Keywords
import BranchTally.Proofs.Source.Content
import BranchTally.Proofs.Runs.Lines
import BranchTally.Proofs.Dump.Growth
