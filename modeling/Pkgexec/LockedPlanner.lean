import Pkgexec.DecimalNumerals
import Pkgexec.Effectors

/-!
# The locked planner

`plan.cc`: under the lock of dpkg the current state is mapped by the shared builders, and the
resource and the hash of the plan are printed for a driver that has a receipt issued for them.
The functions follow the source from `emit_plan` to `main`.
-/

namespace Pkgexec.Oracle
open CStrings DecimalNumerals PlanDigest Policy Plan Request Apt

/-- The exit codes the driver dispatches on. -/
inductive PlanExit where
  | ok
  | internal
  | usage
  | noop
  | refused
  deriving DecidableEq

def PlanExit.code : PlanExit → ℤ
  | ok => 0
  | internal => 1
  | usage => 2
  | noop => 3
  | refused => 4

/-- What a run writes to its two streams, one item for each statement, and how it exits. -/
structure Sheet where
  out : List (List UInt8)
  err : List (List UInt8)
  exit : PlanExit

/-- Strings written one after the other. -/
def text (parts : List CStr) : List UInt8 := parts.flatMap CStr.bytes

/-- Every statement ends its line. -/
def stream (items : List (List UInt8)) : List UInt8 := items.flatMap (· ++ [0x0a])

def fails (exit : PlanExit) (message : List CStr) : Sheet := ⟨[], [text message], exit⟩

/-- The canonical resource of a target list; `none` is the return value -1. -/
def resourceFor (targets : List CStr) : Option CStr := pkgxResource (targets.map some)

def emitPlan (resource hex : CStr) : List (List UInt8) :=
  [text [.lit "resource=", resource], text [.lit "plan_hash=", hex],
    text [.lit "note=would redeem+commit under the activation slice (not here)"]]

/-- From the mapped records on, the same in the four planners: an empty plan, what the policy
found, the resource, the digest. -/
def planRecords (verb : CStr) (count : ℕ) (refusal : Option (CStr × Option CStr))
    (resource : Option CStr) (digest : Option Digest) : Sheet :=
  let head := text [.lit "verb=", verb, .lit " resolved_records=", .ofMem (numeral count)]
  if count = 0 then ⟨[head, text [.lit "status=noop"]], [], .noop⟩
  else
    match refusal with
    | some (reason, offender) =>
      ⟨[head, text [.lit "status=refused reason=", reason, .lit " offender=", orEmpty offender]],
        [], .refused⟩
    | none =>
      match resource with
      | none => ⟨[head], [text [.lit "resource construction failed"]], .internal⟩
      | some resource =>
        match digest with
        | none => ⟨[head], [text [.lit "digest failed"]], .internal⟩
        | some d => ⟨head :: emitPlan resource d.hex, [], .ok⟩

/-- The switch on the verdict of the policy. -/
def policyReason (recs : List TxnRecord) : Option (CStr × Option CStr) :=
  match pkgxPolicyCheck recs with
  | (.ok, _) => none
  | (.notOwned, offender) => some (.lit "not_owned", offender)
  | (.held, offender) => some (.lit "held", offender)
  | (.isProtected, offender) => some (.lit "protected", offender)

/-- The ownership loop over the packages of the holders. -/
def ownedReason (packages : List CStr) : Option (CStr × Option CStr) :=
  (packages.find? pkgxIsRaptOwned).map fun p => (.lit "not_owned", some p)

section Planner

variable (E : Evp) (h : AptHost)

/-- The resolve is written out again in the source; an error is the message it prints. -/
def resolvePlan (verb : CStr) (targets : List CStr) (c : PkgCache) :
    Except (List CStr) PkgDepCache :=
  if verb = .lit "apt.upgrade" ∨ verb = .lit "apt.dist_upgrade" then
    present (h.upgrade
      (if verb = .lit "apt.dist_upgrade" then .allowEverything else .forbidRemovePackages))
      [.lit "resolve failed"]
  else do
    let marks ← (markTargets c (verb = .lit "apt.remove" ∨ verb = .lit "apt.purge")
      (verb = .lit "apt.purge") [] targets).mapError fun e =>
        [.lit "unknown package: ", orEmpty e.detail]
    present (h.resolve marks) [.lit "resolve failed"]

def planTxn (verb : CStr) (targets : List CStr) : Sheet :=
  match h.cache.pkgCache, h.cache.depCache with
  | some c, some _ =>
    match resolvePlan h verb targets c with
    | .error message => fails .internal message
    | .ok dc =>
      let recs := pkgxAptMapTxn c dc
      planRecords verb recs.length (policyReason recs) (resourceFor targets)
        (pkgxDigestPkgTxn E (some verb) recs)
  | _, _ => fails .internal [.lit "cache unavailable"]

/-- The whole source list: the empty resource token. -/
def planUpdate : Sheet :=
  match h.sources with
  | none => fails .internal [.lit "sources unreadable"]
  | some list =>
    let recs := pkgxAptMapSources E list
    planRecords (.lit "apt.update") recs.length none (some (.lit "")) (pkgxDigestUpdate E recs)

def holdMessage : HoldMapError → CStr
  | .unknown => .lit "unknown package: "
  | .invalid => .lit "not a hold subject: "

/-- The resource is over all targets, the ownership check over the changes. -/
def planHold (verb : CStr) (targets : List CStr) : Sheet :=
  match h.cache.pkgCache with
  | none => fails .internal [.lit "cache unavailable"]
  | some c =>
    match pkgxAptMapHold c targets (verb = .lit "apt.hold") with
    | .error f => fails .internal [holdMessage f.result, f.offender]
    | .ok (changes, holds) =>
      planRecords verb changes.length (ownedReason (changes.map (·.package))) (resourceFor targets)
        (pkgxDigestHold E (some verb) holds)

/-- A half-installed package leaves no plan to bind. -/
def planConfigure : Sheet :=
  match h.cache.pkgCache with
  | none => fails .internal [.lit "cache unavailable"]
  | some c =>
    match pkgxAptMapConfigure c with
    | .error name =>
      ⟨[text [.lit "verb=apt.configure status=refused reason=broken offender=", name]], [],
        .refused⟩
    | .ok (holders, cfgs) =>
      planRecords (.lit "apt.configure") cfgs.length (ownedReason (holders.map (·.package)))
        (some (.lit "pending")) (pkgxDigestConfigure E cfgs)

/-- A verb that may be planned, and whether it takes packages. -/
structure Spec where
  verb : CStr
  needsTargets : Bool

def specs : List Spec :=
  [⟨.lit "apt.install", true⟩, ⟨.lit "apt.remove", true⟩, ⟨.lit "apt.purge", true⟩,
    ⟨.lit "apt.upgrade", false⟩, ⟨.lit "apt.dist_upgrade", false⟩, ⟨.lit "apt.update", false⟩,
    ⟨.lit "apt.hold", true⟩, ⟨.lit "apt.unhold", true⟩, ⟨.lit "apt.configure", false⟩]

/-- An error is the usage that is printed. -/
def checkVerbArity (verb : CStr) (ntargets : ℕ) : Except (List CStr) Unit :=
  match specs.find? fun s => verb = s.verb with
  | none => .error [.lit "unknown verb: ", verb]
  | some s =>
    if s.needsTargets ∧ ntargets = 0 then .error [.lit "usage: ", verb, .lit " needs >=1 package"]
    else if !s.needsTargets ∧ ntargets ≠ 0 then
      .error [verb, .lit " is whole-system; it takes no packages"]
    else .ok ()

/-- `main`. A cache that is opened with its lock takes the lock first. -/
def planMain (argv : List CStr) : Sheet :=
  match argv[1]? with
  | none => fails .usage [.lit "usage: pkgexec-plan <apt.verb> [pkg ...]"]
  | some verb =>
    let targets := argv.drop 2
    match checkVerbArity verb targets.length with
    | .error message => fails .usage message
    | .ok () =>
      if !h.initConfig || !h.initSystem then fails .internal [.lit "apt init failed"]
      else if verb = .lit "apt.update" then planUpdate E h
      else if !(h.lock && h.cache.opens) then
        fails .internal [.lit "locked cache open failed (needs root on a disposable VM)"]
      else if verb = .lit "apt.hold" ∨ verb = .lit "apt.unhold" then planHold E h verb targets
      else if verb = .lit "apt.configure" then planConfigure E h
      else planTxn E h verb targets

end Planner

end Pkgexec.Oracle
