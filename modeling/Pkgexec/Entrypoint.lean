import Pkgexec.ChildIsolation
import Pkgexec.EffectDiscipline
import Pkgexec.ResultChannel
import Pkgexec.StdinReader

/-!
# The entrypoints

`entrypoint.c`, built once for each verb: the course of one process through the result channel,
the uid, the request, the hygiene, the effector and the record. What libapt does to that process
while the effector runs is a parameter.
-/

namespace Pkgexec.Entry
open CStrings FuelRuns DescriptorTables JsonValues PlanDigest Plan Request Apt Hygiene

/-- What a run changes: its descriptors, its environment, the heap of its stdin reader, the
request it keeps, the host, the descriptors that were open whenever a child was started, the
chunks of its record with the file they are written to, and the messages on `stderr`. -/
structure World where
  fds : Fds
  environ : List CStr
  heap : Stdin.Log
  request : Option PkgxRequest
  host : Apt.Log
  spawning : List Fds
  results : List (Option File × List UInt8)
  stderr : List CStr

/-- The process as it is started. -/
def World.fresh (fds : Fds) (environ : List CStr) : World :=
  ⟨fds, environ, [], none, [], [], [], []⟩

/-- What libapt makes of the process that has loaded it: the environment its children get, and
the descriptors that are open when the host has come to a log. -/
structure Libapt where
  environ : List CStr → List CStr
  fds : Apt.Log → Fds → Fds

/-- What the system answers in one run; `buf` is the buffer of the record before it is filled. -/
structure EntryOs where
  channel : ChannelOs
  stdin : Stdin.Os
  scrub : ScrubOs
  null : NullOs
  cloexec : CloexecOs
  host : AptHost
  libapt : Libapt
  emit : EmitOs
  buf : CharBuf resultCap

def onFds {α : Type} : Run Fds α → Run World α := focus World.fds fun w fds => { w with fds }

def onEnviron {α : Type} : Run (List CStr) α → Run World α :=
  focus World.environ fun w environ => { w with environ }

def onHeap {α : Type} : Run Stdin.Log α → Run World α :=
  focus World.heap fun w heap => { w with heap }

def complain (message : CStr) : Run World Unit :=
  modify fun w => { w with stderr := w.stderr ++ [message] }

def keepRequest (req : PkgxRequest) : Run World Unit :=
  modify fun w => { w with request := some req }

/-- `pkgx_request_free` on the request that is kept. -/
def freeRequest : Run World Unit :=
  modify fun w => { w with request := w.request.map PkgxRequest.free }

/-- The bytes of a body; a cell that was never written holds no byte of the request. -/
def bodyBytes (block : Stdin.Block) (len : ℕ) : List UInt8 :=
  (block.take len).map fun
    | .input b => b
    | _ => 0

inductive Family where
  | txn
  | update
  | hold
  | configure
  deriving DecidableEq

/-- The call of the effector that is linked into the family. -/
def Family.effector (verb : CStr) (req : PkgxRequest) : Family → Effector
  | txn => .txn verb (req.packages.getD [])
  | update => .update (some (.lit ""))
  | hold => .hold verb (req.packages.getD [])
  | configure => .configure

structure EntrySpec where
  verb : CStr
  family : Family

/-- `ENTRY_SPECS`: the verb that is baked into each of the nine builds, and its family. -/
def entrySpecs : List EntrySpec :=
  [⟨.lit "apt.install", .txn⟩, ⟨.lit "apt.remove", .txn⟩, ⟨.lit "apt.purge", .txn⟩,
    ⟨.lit "apt.upgrade", .txn⟩, ⟨.lit "apt.dist_upgrade", .txn⟩, ⟨.lit "apt.update", .update⟩,
    ⟨.lit "apt.hold", .hold⟩, ⟨.lit "apt.unhold", .hold⟩, ⟨.lit "apt.configure", .configure⟩]

/-- What the effector is granted: the receipt and the cid of the request, and the uid. -/
def grantFor (req : PkgxRequest) (uid : UInt32) : Grant :=
  ⟨some req.effectReceipt.str, uid, req.planSchema, req.correlationId.str⟩

/-- The descriptors that are open whenever a child is started; the table was `t` at first. -/
def Libapt.spawning (lib : Libapt) (t : Fds) (before : Apt.Log) : Apt.Log → List Fds
  | [] => []
  | .child (.spawned args env) :: es =>
    lib.fds before t :: lib.spawning t (before ++ [.child (.spawned args env)]) es
  | e :: es => lib.spawning t (before ++ [e]) es

/-- The host of a process: its children inherit the environment of that process. -/
def hostIn (host : AptHost) (environ : List CStr) : AptHost :=
  { host with os := { host.os with environ } }

section Course

variable (J : Jansson) (E : Evp) (os : EntryOs)

/-- `pkgx_result_emit` on the descriptor of the results. -/
def emitResult (rfd : ℕ) (st : AptStatus) (issued : Bool) (cid detail : CStr) : Run World ℤ :=
  modifyGet fun w =>
    let r := pkgxResultEmit J st (if issued then 1 else 0) (some cid) (some detail) os.emit os.buf
    let file := (w.fds.entry rfd).map Descriptor.file
    (r.1, { w with results := w.results ++ r.2.map fun chunk => (file, chunk) })

def failResult (rfd : ℕ) (cid detail : CStr) : Run World ℤ := do
  if (← emitResult J os rfd .internal false cid detail) ≠ 0 then
    complain (.lit "result: could not emit\n")
    return 1
  else return 1

/-- Before any maintainer script runs. -/
def hygiene : Run World Bool := do
  if !(← onEnviron (pkgxScrubEnv os.scrub)) then return false
  else if !(← onFds (pkgxNullStdin os.null)) then return false
  else onFds (pkgxCloexecFrom os.cloexec 3)

/-- The effector over the broker transport; `out_cid` is zeroed before. -/
def runEffector (effector : Effector) (g : Grant) : Run World EffectOut :=
  modifyGet fun w =>
    let environ := os.libapt.environ w.environ
    let r := effector.run J E (hostIn os.host environ) g (.zero _)
    (r.1, { w with
      fds := os.libapt.fds r.2 w.fds
      environ := environ
      host := w.host ++ r.2
      spawning := w.spawning ++ os.libapt.spawning w.fds [] r.2 })

/-- From the accepted request to the exit code. -/
def performRequest (rfd : ℕ) (uid : UInt32) (req : PkgxRequest) (effector : Effector) :
    Run World ℤ := do
  if !(← hygiene os) then do
    let rc ← failResult J os rfd req.correlationId.str (.lit "hygiene")
    freeRequest
    return rc
  else do
    let out ← runEffector J E os effector (grantFor req uid)
    let emitted ← emitResult J os rfd out.status out.effectIssued out.outCid.str out.detail
    freeRequest
    if emitted ≠ 0 then do
      complain (.lit "result: could not emit\n")
      return 1
    else return if out.status = .ok ∨ out.status = .noOp then 0 else 1

/-- The body of the program; the request is read from descriptor zero with fuel. -/
def runVerb (fuel : ℕ) (verb : CStr) (effector : PkgxRequest → Effector) : Run World ℤ := do
  match ← onFds (pkgxResultChannelOpen os.channel) with
  | none => do
    complain (.lit "result: cannot isolate the result channel\n")
    return 1
  | some rfd =>
    match pkgxReadPkexecUid (getenv (← get).environ (.lit "PKEXEC_UID")) with
    | none => failResult J os rfd (.lit "") (.lit "pkexec_uid")
    | some uid =>
      match ← onHeap (Stdin.pkgxReadStdin os.stdin fuel) with
      | .error ec => failResult J os rfd (.lit "") ec
      | .ok (body, len) => do
        let parsed := pkgxParseRequest J verb (bodyBytes body len)
        onHeap (Stdin.free (Stdin.secureWipe body len))
        match parsed with
        | .error refusal => do
          keepRequest refusal.out
          failResult J os rfd (.lit "") refusal.errcode
        | .ok req => do
          keepRequest req
          performRequest J E os rfd uid req (effector req)

/-- `main` of `entrypoint.c`; the arguments are not looked at. -/
def entrypointMain (spec : EntrySpec) (_argv : List CStr) (fuel : ℕ) : Run World ℤ :=
  runVerb J E os fuel spec.verb fun req => spec.family.effector spec.verb req

end Course

end Pkgexec.Entry
