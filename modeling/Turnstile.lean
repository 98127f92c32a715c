import Turnstile.Blueprint
import Turnstile.Chart.Audit
import Turnstile.Chart.Declare
import Turnstile.Chart.Drawing
import Turnstile.Json.Phase
import Turnstile.Json.State
import Turnstile.Machine.Run
import Turnstile.Proofs.Branch.Source
import Turnstile.Proofs.Chart.Drawing
import Turnstile.Proofs.Json.History
import Turnstile.Proofs.Json.State
import Turnstile.Proofs.Machine.Chain
import Turnstile.Proofs.Machine.Confined
import Turnstile.Proofs.Machine.Deferral
import Turnstile.Proofs.Machine.Derivation
import Turnstile.Proofs.Machine.Disabling
import Turnstile.Proofs.Machine.Failure
import Turnstile.Proofs.Machine.Labels
import Turnstile.Proofs.Machine.Limit
import Turnstile.Proofs.Machine.Order
import Turnstile.Proofs.Machine.Outcome
import Turnstile.Proofs.Machine.Refusal
import Turnstile.Proofs.Machine.Resumption
import Turnstile.Proofs.Machine.Termination
import Turnstile.Proofs.Machine.Verdict
