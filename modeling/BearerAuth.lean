import BearerAuth.Environment
import BearerAuth.Gateway
import BearerAuth.Grant.Callers
import BearerAuth.Json.Writer
import BearerAuth.Signal
import BearerAuth.Transport.Script
import BearerAuth.Transport.Wire
import BearerAuth.Proofs.Introspection.Decision
import BearerAuth.Proofs.Bytes
import BearerAuth.Proofs.Timeline.Interleaving
import BearerAuth.Proofs.Timeline.Brief
import BearerAuth.Proofs.Url.Print
import BearerAuth.Proofs.Grant.Key
import BearerAuth.Proofs.Grant.Pool
import BearerAuth.Proofs.Timeline.Guarantee
import BearerAuth.Proofs.Transport.Promise
import BearerAuth.Proofs.Grant.Promise
import BearerAuth.Proofs.Introspection.Route
import BearerAuth.Proofs.Introspection.Isolation
import BearerAuth.Proofs.Grant.SingleFlight
import BearerAuth.Proofs.Grant.Fault
import BearerAuth.Proofs.Grant.FailureIsolation
import BearerAuth.Proofs.Alone
import BearerAuth.Proofs.Clock
import BearerAuth.Proofs.Transport.Attempts
import BearerAuth.Proofs.Transport.Cancellation
import BearerAuth.Proofs.Grant.Ledger
import BearerAuth.Proofs.Budget
import BearerAuth.Proofs.Timeline.Deadline
import BearerAuth.Proofs.Transport.Deadline
import BearerAuth.Proofs.Grant.Deadline
import BearerAuth.Proofs.Introspection.Deadline
import BearerAuth.Proofs.Introspection.Headers
import BearerAuth.Proofs.Timeline.Shift
import BearerAuth.Proofs.Timeline.Step
import BearerAuth.Proofs.Grant.Turn
import BearerAuth.Proofs.Grant.Crowd
import BearerAuth.Proofs.Grant.Attendance
import BearerAuth.Proofs.Grant.Progress
import BearerAuth.Proofs.Grant.Without
import BearerAuth.Proofs.Grant.Orderly
import BearerAuth.Proofs.Grant.Beside
import BearerAuth.Proofs.Grant.Watching
import BearerAuth.Proofs.Grant.Bystander
import BearerAuth.Proofs.Transport.Errand
import BearerAuth.Proofs.Transport.Authorized
import BearerAuth.Proofs.Grant.Lifetime
import BearerAuth.Proofs.Introspection.Session
import BearerAuth.Proofs.Chain.Session
import BearerAuth.Proofs.Json.Reader
import BearerAuth.Proofs.Secrecy.Pairing
import BearerAuth.Proofs.Secrecy.Policy
import BearerAuth.Proofs.Secrecy.World
import BearerAuth.Proofs.Secrecy.Transport
import BearerAuth.Proofs.Secrecy.Authenticator
import BearerAuth.Proofs.Secrecy.Timeline
import BearerAuth.Proofs.Secrecy.Gateway
import BearerAuth.Proofs.Chain.Dispatch
import BearerAuth.Proofs.Chain.Validation
import BearerAuth.Proofs.Form
import BearerAuth.Proofs.Introspection.Inquiry
import BearerAuth.Proofs.Introspection.Pool
import BearerAuth.Proofs.Transport.Bound
import BearerAuth.Proofs.Introspection.Retries
import BearerAuth.Proofs.Settings.Admissible
import BearerAuth.Proofs.Json.Merge
import BearerAuth.Proofs.Settings.Null
import BearerAuth.Proofs.Json.Grammar
import BearerAuth.Proofs.Json.Tokens
import BearerAuth.Proofs.Json.Strings
import BearerAuth.Proofs.Json.Recognition
import BearerAuth.Proofs.Json.Same
import BearerAuth.Proofs.Json.RoundTrip
import BearerAuth.Proofs.Url.Scheme
import BearerAuth.Proofs.Url.Authority
import BearerAuth.Proofs.Url.Reading
import BearerAuth.Proofs.Url.RoundTrip
import BearerAuth.Proofs.Settings.RequestLine
import BearerAuth.Proofs.Signal.History
import BearerAuth.Proofs.Signal.Board
import BearerAuth.Proofs.Signal.Ledger
import BearerAuth.Proofs.Signal.Callbacks
import BearerAuth.Proofs.Settings.Changes
import BearerAuth.Proofs.Json.Paths
import BearerAuth.Proofs.Json.Surrogates
import BearerAuth.Proofs.Transport.Registers
import BearerAuth.Proofs.Introspection.Overflow
import BearerAuth.Proofs.Scope.Matching
import BearerAuth.Proofs.Scope.Broadening
import BearerAuth.Proofs.Url.Normal
import BearerAuth.Proofs.Credential.Parameter
import BearerAuth.Proofs.Credential.Cookie
import BearerAuth.Proofs.Signal.Order
import BearerAuth.Proofs.Timespan.Terms
import BearerAuth.Proofs.Timespan.Reading
import BearerAuth.Proofs.Timespan.Printing
import BearerAuth.Proofs.Form.Encoded
import BearerAuth.Proofs.Grant.TokenRequest
