import OpTree.Text.Quoted
import OpTree.Text.CaseMap
import OpTree.Text.Letter
import OpTree.Number.Decimal
import OpTree.Number.Literal
import OpTree.IdSet
import OpTree.Failure
import OpTree.Tuning.File
import OpTree.Op.Code
import OpTree.Op.Flags
import OpTree.Op.Action
import OpTree.Listing.Sub
import OpTree.Value
import OpTree.Format.Directive
import OpTree.Format.Field
import OpTree.Heap
import OpTree.Op.Splice
import OpTree.Op.Linear
import OpTree.Machine.Stack
import OpTree.Arith
import OpTree.Machine.Sprintf
import OpTree.Machine.Run
import OpTree.Program
import OpTree.Command
import OpTree.Main
import OpTree.Wire
import OpTree.Build.Apply
import OpTree.Proofs.Linearized
import OpTree.Proofs.Accesses
import OpTree.Proofs.Chains
import OpTree.Proofs.Checked
import OpTree.Proofs.FusedAccess
import OpTree.Proofs.Assembled
import OpTree.Proofs.Compiled
import OpTree.Proofs.Folds
import OpTree.Proofs.Accounts
import OpTree.Proofs.Requests
import OpTree.Proofs.Unwound
import OpTree.Proofs.ReadOnly
import OpTree.Proofs.Unfinished
import OpTree.Proofs.Snapshots
import OpTree.Proofs.KidEdits
import OpTree.Proofs.Visits
import OpTree.Proofs.Postorder
import OpTree.Proofs.Ranges
import OpTree.Proofs.Attempts
import OpTree.Proofs.Words
import OpTree.Proofs.Tables
import OpTree.Proofs.Reclaiming
import OpTree.Proofs.Directives
import OpTree.Proofs.Numerals
import OpTree.Proofs.ChainLines
import OpTree.Proofs.ScalarUnits
