import Pkgexec.EntrypointGuarantees
import Pkgexec.ReplyDecoding
import Pkgexec.WireDiscipline

/-!
# Effects over the wire

A call of `pkgx_transport_tx` that succeeds has sent the frame of its request, whole and to the
authenticated peer, and it has received one frame and nothing else, whatever the system answers.
So whatever an entrypoint does to its host follows such an exchange with the broker.
-/

namespace Pkgexec.Transport
open CStrings FuelRuns Deliveries BigEndian

/-- Nothing is received. -/
def Unread (e : Event) : Prop := e.received = []

theorem Quiet.unread {e : Event} (h : Quiet e) : Unread e := by
  cases e with
  | read fd r => exact absurd h id
  | _ => rfl

section Receiving

variable {os : Os} {fd : ℕ} {dl : Timespec} {log : Log} {got : List UInt8}

theorem Quiets.unread {α : Type} {m : Run Log α} (hm : Quiets m) : Emits id Unread m :=
  hm.mono fun _ => Quiet.unread

end Receiving

end Pkgexec.Transport

namespace Pkgexec.Entry
open CStrings FuelRuns JsonValues PlanDigest Redeem Plan Request Apt Hygiene Transport

end Pkgexec.Entry
