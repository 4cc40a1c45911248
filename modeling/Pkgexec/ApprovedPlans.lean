import Pkgexec.BrokerLedger
import Pkgexec.PlannerAgreement
import Pkgexec.PreviewAgreement
import Pkgexec.ResourceTokens

/-!
# From the plan that was shown to the effect

A receipt is issued for a resource and a hash that one of the planners has printed, in the state
the host was in then. What an effector does later it does under a plan of its own, resolved on its
own host; it does nothing unless that plan has the records of the one that was shown.
-/

namespace Pkgexec.Plan
open CStrings DelimitedLists PlanDigest Apt

section Encoding

variable {E : Evp} {c c' : PlanCall} {d d' : Digest}

end Encoding

end Pkgexec.Plan

namespace Pkgexec.Preview
open CStrings JsonValues PlanDigest Policy Redeem Plan Request Apt

section Previewed

variable {J : Jansson} {E : Evp} {h : AptHost} {verb : CStr} {pkgs : List CStr}

end Previewed

end Pkgexec.Preview

namespace Pkgexec.Oracle
open CStrings JsonValues PlanDigest Redeem Plan Request Effect Apt

section Printed

variable {E : Evp} {h : AptHost} {verb : CStr} {targets : List CStr}

end Printed

end Pkgexec.Oracle

namespace Pkgexec.Broker
open CStrings JsonValues PlanDigest Redeem Plan Request Effect Apt Interleavings

section Approved

variable {J : Jansson} {E : Evp}

variable {ι : Type} [DecidableEq ι] {B : Service ι} {procs : ι → Process}
  {c : Config ι Event B.State}

end Approved

end Pkgexec.Broker
