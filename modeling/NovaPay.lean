import NovaPay.Transaction.Recovery
import NovaPay.Transaction.Replay
import NovaPay.Ledger.Balances
import NovaPay.Settlement.Reservation
import NovaPay.Settlement.Failures
import NovaPay.Disbursement.Payments
import NovaPay.Audit.Chains
import NovaPay.Submission.Positivity
import NovaPay.Fx.Conversion
import NovaPay.History.Interleaving
import NovaPay.Transaction.Ownership
import NovaPay.Payroll.Terminal
import NovaPay.Payroll.Completion
import NovaPay.Account.Replays
import NovaPay.Account.Binding
import NovaPay.History.Pages
import NovaPay.Payroll.Canonical
import NovaPay.Transaction.Attempts
import NovaPay.Transaction.Canonical
import NovaPay.Transaction.Rotation
import NovaPay.Ledger.Canonical
import NovaPay.Ledger.Declared
import NovaPay.Ledger.Refusals
import NovaPay.Ci.Precedence
import NovaPay.Fx.Expiry
import NovaPay.Fx.Serial
import NovaPay.Account.Audits
import NovaPay.Audit.Races
import NovaPay.Audit.Sanitizer
import NovaPay.Audit.OperatorActions
import NovaPay.Account.Emails
import NovaPay.Account.Listing
import NovaPay.Account.Upstreams
