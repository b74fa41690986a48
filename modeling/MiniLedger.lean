import MiniLedger.Api.Responses
import MiniLedger.Dashboard.StatementView
import MiniLedger.Dashboard.Submission
import MiniLedger.Ledger.Audit
import MiniLedger.Ledger.AuditLoad
import MiniLedger.Ledger.BalanceFold
import MiniLedger.Ledger.ChainGrowth
import MiniLedger.Ledger.Conservation
import MiniLedger.Ledger.Deadlock
import MiniLedger.Ledger.ExactlyOnce
import MiniLedger.Ledger.Journals
import MiniLedger.Ledger.Liveness
import MiniLedger.Ledger.Overdraft
import MiniLedger.Ledger.Ownership
import MiniLedger.Ledger.Recognition
import MiniLedger.Ledger.ReversalRace
import MiniLedger.Ledger.ReverseEnds
import MiniLedger.Ledger.Serial
import MiniLedger.Ledger.StatementPages
import MiniLedger.Ledger.Tamper
import MiniLedger.Ledger.TransferEffect
import MiniLedger.Ledger.TransferEnds
