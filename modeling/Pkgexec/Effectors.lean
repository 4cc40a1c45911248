import Pkgexec.AptDescriptors
import Pkgexec.ChildSpawn
import Pkgexec.CommitGate

/-!
# The four effectors

`apt_txn.cc`, `apt_update.cc`, `apt_hold.cc` and `apt_configure.cc` with the classifiers of
`apt_status.c`. One run asks each part of libapt, dpkg and the broker at most once, so the
answers of a run are one record, and what the run does to the host is a log.
-/

namespace Pkgexec.Apt
open CStrings JsonValues PlanDigest Redeem Plan Request Effect Spawn

inductive AptStatus where
  | ok
  | noOp
  | locked
  | notOwned
  | held
  | isProtected
  | noIntent
  | resolveFailed
  | notApplied
  | commitFailed
  | broken
  | internal
  deriving DecidableEq

def pkgxTxnClassify (committerEntered executionBegan committedOk broken : Bool) : AptStatus :=
  if !committerEntered then .internal
  else if !executionBegan then .notApplied
  else if broken then .broken
  else if committedOk then .ok
  else .commitFailed

def pkgxUpdateClassify (committerEntered refreshOk indexesReadable : Bool) : AptStatus :=
  if !committerEntered then .internal
  else if refreshOk && indexesReadable then .ok
  else .commitFailed

def pkgxHoldClassify (committerEntered selectionApplied selectionMatches : Bool) : AptStatus :=
  if !committerEntered then .internal
  else if selectionApplied && selectionMatches then .ok
  else .commitFailed

structure CommitLockOutcome where
  executionBegan : Bool
  committedOk : Bool

def pkgxCommitLockHandoff (unlockInnerOk dpkgCompleted relockInnerOk : Bool) :
    CommitLockOutcome where
  executionBegan := unlockInnerOk
  committedOk := unlockInnerOk && dpkgCompleted && relockInnerOk

/-- `PKGX_DETAIL_CAP`. -/
def detailCap : ℕ := 128

def pkgxDetailSet (s : Option CStr) : CStr := .ofMem ((orEmpty s).bytes.take (detailCap - 1))

/-- A `pkgCacheFile`: whether it opens, and the two caches, which may be `NULL`. -/
structure CacheFile where
  opens : Bool
  pkgCache : Option PkgCache
  depCache : Option PkgDepCache

inductive UpgradeMode where
  | allowEverything
  | forbidRemovePackages

/-- A change asked of the resolver. -/
inductive Mark where
  | install (P : Pkg)
  | delete (P : Pkg) (purge : Bool)

inductive FetchResult where
  | continue
  | failed
  | cancelled
  deriving DecidableEq

inductive OrderResult where
  | completed
  | failed
  | incomplete
  deriving DecidableEq

/-- What libapt, dpkg and the broker answer in one run. `upgrade` and `resolve` give the dep
cache as the resolver leaves it, `fresh` is the cache opened after the attempt. -/
structure AptHost where
  initConfig : Bool
  initSystem : Bool
  lock : Bool
  listsLock : Bool
  cache : CacheFile
  sources : Option (List (Option MetaIndex))
  upgrade : UpgradeMode → Option PkgDepCache
  resolve : List Mark → Option PkgDepCache
  reply : CStr → TxReply
  commitCaches : Bool
  createPM : Bool
  pendingError : Bool
  getArchives : Bool
  fetch : FetchResult
  unLockInner : Bool
  doInstall : OrderResult
  lockInner : Bool
  listUpdate : Bool
  dpkg : Option CStr
  os : SpawnOs
  fresh : CacheFile

/-- What a run does outside its own process. -/
inductive Event where
  | transport (body : CStr)
  | stamped (marker : CStr)
  | unLockInner (ok : Bool)
  | doInstall
  | lockInner (ok : Bool)
  | listUpdate
  | child (e : SpawnEvent)

abbrev Log := List Event

abbrev Host := StateM Log

def record (es : List Event) : Host Unit := modify (· ++ es)

/-- `pkgx_transport_tx` as the effectors call it. -/
def AptHost.tx (h : AptHost) (body : CStr) : Host TxReply := do
  record [.transport body]
  return h.reply body

/-- A return before the plan step; none of them reports success. -/
structure Exit where
  status : AptStatus
  detail : Option CStr
  notOk : status ≠ .ok := by decide

def pkgxAptInit (h : AptHost) : Except Exit Unit := do
  require h.initConfig (.mk .internal (some (.lit "apt config init failed")))
  require h.initSystem (.mk .internal (some (.lit "apt system init failed")))

/-- The return value, `out_cid`, `*effect_issued` and `detail`; and what `pkgx_redeem`
returned where it was reached. -/
structure EffectOut where
  status : AptStatus
  outCid : OutCid
  effectIssued : Bool
  detail : CStr
  redeem : Option RedeemStatus

/-- The switch on the result of the plan step; `none` goes on to the gate. -/
def planStatus : PlanResult → Option AptStatus
  | .noOp => some .noOp
  | .notOwned => some .notOwned
  | .held => some .held
  | .isProtected => some .isProtected
  | .noIntent => some .noIntent
  | .internal => some .internal
  | .ok => none

/-- The status, `*effect_issued` and the detail that are read off a commit context. -/
structure Settled where
  status : AptStatus
  effectIssued : Bool
  detail : CStr

/-- How a mechanism commits: its committer over its context, the context before the gate, and
the reading of the context after it. -/
structure Mechanism (κ : Type) where
  commit : CStr → StateT κ Host ℤ
  start : κ
  settle : κ → Settled

section Effect

variable (J : Jansson) (E : Evp) (h : AptHost) (g : Grant)

/-- From the plan step to the end, the same in every effector. -/
def planAndCommit {κ : Type} (outCid : OutCid) (call : PlanCall) (M : Mechanism κ) :
    Host EffectOut := do
  let o ← call.run J E g h.tx outCid
  match planStatus o.result with
  | some status => return ⟨status, o.outCid, false, pkgxDetailSet o.detail, o.redeem⟩
  | none =>
    let r ← (pkgxEffectGate o.result (some o.outCid.str) (some M.commit)).run M.start
    let s := M.settle r.2
    return ⟨s.status, o.outCid, s.effectIssued, s.detail, o.redeem⟩

/-- An effector: a return before the plan step, or the plan step on what was mapped. -/
def effect {κ : Type} (outCid : OutCid) (prepared : Except Exit (PlanCall × Mechanism κ)) :
    Host EffectOut :=
  let outCid := pkgxCidEcho outCid (some g.expectedCid)
  match prepared with
  | .error e => return ⟨e.status, outCid, false, pkgxDetailSet e.detail, none⟩
  | .ok (call, M) => planAndCommit J E h g outCid call M

/-- The fresh scan shared by the two mechanisms that run dpkg; what cannot be verified is
broken. -/
def pkgxAptGroundTruthBroken : Bool :=
  if !h.fresh.opens then true
  else
    match h.fresh.pkgCache, h.fresh.depCache with
    | some pc, some fdc =>
      fdc.brokenCount ≠ 0 || pc.packages.any fun P => P.state ≠ .needsNothing
    | _, _ => true

structure TxnCommitCtx where
  entered : Bool
  fetched : Bool
  executionBegan : Bool
  committedOk : Bool

/-- The setup and the archive fetch, up to the hand-off. -/
def txnFetch : Bool :=
  if !h.commitCaches then false
  else if !h.createPM then false
  else if h.pendingError then false
  else if !h.getArchives then false
  else h.fetch = .continue

def txnCommit (correlationId : CStr) : StateT TxnCommitCtx Host ℤ := do
  modify fun c => { c with entered := true }
  record [.stamped (.ofMem ((CStr.lit "runix:").bytes ++ correlationId.bytes))]
  if !txnFetch h then return -1
  else do
    modify fun c => { c with fetched := true }
    record [.unLockInner h.unLockInner]
    if h.unLockInner then record [.doInstall, .lockInner h.lockInner]
    let o := pkgxCommitLockHandoff h.unLockInner (h.doInstall = .completed) h.lockInner
    modify fun c => { c with executionBegan := o.executionBegan, committedOk := o.committedOk }
    return if o.committedOk then 0 else -1

def txnSettle (cc : TxnCommitCtx) : Settled :=
  let broken := if cc.executionBegan then pkgxAptGroundTruthBroken h else false
  let st := pkgxTxnClassify cc.entered cc.executionBegan cc.committedOk broken
  { status := st
    effectIssued := cc.executionBegan
    detail := match st with
      | .ok => .lit "ok"
      | .notApplied => if cc.fetched then .lit "commit_setup" else .lit "fetch"
      | .broken => .lit "broken"
      | .commitFailed => .lit "commit"
      | _ => .lit "internal" }

/-- The loop that looks the targets up and marks them. -/
def markTargets (cache : PkgCache) (removal purge : Bool) :
    List Mark → List CStr → Except Exit (List Mark)
  | marks, [] => .ok marks
  | marks, target :: targets =>
    match cache.findPkg target with
    | none => .error (.mk .resolveFailed (some target))
    | some P =>
      markTargets cache removal purge
        (marks ++ [if removal then .delete P purge else .install P]) targets

/-- The resolved dep cache of a transaction. -/
def resolveTxn (verb : CStr) (targets : List CStr) (c : PkgCache) : Except Exit PkgDepCache :=
  if verb = .lit "apt.upgrade" ∨ verb = .lit "apt.dist_upgrade" then
    present (h.upgrade
      (if verb = .lit "apt.dist_upgrade" then .allowEverything else .forbidRemovePackages))
      (.mk .resolveFailed (some (.lit "resolve")))
  else do
    let marks ← markTargets c (verb = .lit "apt.remove" ∨ verb = .lit "apt.purge")
      (verb = .lit "apt.purge") [] targets
    present (h.resolve marks) (.mk .resolveFailed (some (.lit "resolve")))

def prepareTxn (verb : CStr) (targets : List CStr) :
    Except Exit (PlanCall × Mechanism TxnCommitCtx) := do
  pkgxAptInit h
  require (!((verb = .lit "apt.upgrade" ∨ verb = .lit "apt.dist_upgrade") ∧ targets.length ≠ 0))
    (.mk .resolveFailed (some (.lit "targets_unsupported")))
  require h.lock (.mk .locked (some (.lit "apt_locked")))
  require h.cache.opens (.mk .internal (some (.lit "cache")))
  let c ← present h.cache.pkgCache (.mk .internal (some (.lit "cache")))
  require h.cache.depCache.isSome (.mk .internal (some (.lit "cache")))
  let dc ← resolveTxn h verb targets c
  return (.txn (some verb) (pkgxAptMapTxn c dc) (targets.map some),
    { commit := txnCommit h, start := ⟨false, false, false, false⟩, settle := txnSettle h })

def pkgxAptTxnEffect (verb : CStr) (targets : List CStr) (outCid : OutCid) : Host EffectOut :=
  effect J E h g outCid (prepareTxn h verb targets)

structure UpdateCommitCtx where
  entered : Bool
  refreshOk : Bool

def updateCommit (_correlationId : CStr) : StateT UpdateCommitCtx Host ℤ := do
  record [.listUpdate]
  set (UpdateCommitCtx.mk true h.listUpdate)
  return if h.listUpdate then 0 else -1

/-- A fresh cache opens over the refreshed lists and yields a package cache. -/
def indexesReadable : Bool := h.fresh.opens && h.fresh.pkgCache.isSome

def updateSettle (cc : UpdateCommitCtx) : Settled :=
  let readable := if cc.entered then indexesReadable h else false
  let st := pkgxUpdateClassify cc.entered cc.refreshOk readable
  { status := st
    effectIssued := cc.entered
    detail := match st with
      | .ok => .lit "ok"
      | .commitFailed => if cc.refreshOk then .lit "indexes_unreadable" else .lit "refresh"
      | _ => .lit "internal" }

def prepareUpdate (resourceToken : Option CStr) :
    Except Exit (PlanCall × Mechanism UpdateCommitCtx) := do
  pkgxAptInit h
  require (orEmpty resourceToken = .empty)
    (.mk .resolveFailed (some (.lit "subset_unsupported")))
  require h.listsLock (.mk .locked (some (.lit "apt_locked")))
  let list ← present h.sources (.mk .internal (some (.lit "sources")))
  return (.update (pkgxAptMapSources E list) resourceToken,
    { commit := updateCommit h, start := ⟨false, false⟩, settle := updateSettle h })

def pkgxAptUpdateEffect (resourceToken : Option CStr) (outCid : OutCid) : Host EffectOut :=
  effect J E h g outCid (prepareUpdate E h resourceToken)

/-- The context of a committer that runs dpkg itself; `ran` is `applied` for a hold and
`ran_ok` for a configure. -/
structure DpkgCommitCtx where
  entered : Bool
  issued : Bool
  ran : Bool

def dpkgPath : CStr := h.dpkg.getD (.lit "/usr/bin/dpkg")

/-- The hand-off of the inner lock, the child, and the lock taken again. -/
def dpkgCommit (args : List CStr) (input : Option CStr) : StateT DpkgCommitCtx Host ℤ := do
  modify fun c => { c with entered := true }
  record [.unLockInner h.unLockInner]
  if !h.unLockInner then return -1
  else do
    let r := pkgxSpawnWaitEnv h.os (dpkgPath h :: args) input
      (some [.lit "DPKG_FRONTEND_LOCKED=true"])
    record (r.events.map .child)
    record [.lockInner h.lockInner]
    let ran := r.rc = 0 && h.lockInner
    modify fun c => { c with issued := r.started, ran := ran }
    return if ran then 0 else -1

def holdCommit (payload : CStr) (_correlationId : CStr) : StateT DpkgCommitCtx Host ℤ :=
  dpkgCommit h [.lit "--set-selections"] (some payload)

/-- Every changed target is read back in its intended selection from a fresh cache. -/
def selectionsMatch (changes : List PkgxHoldHolder) : Bool :=
  if !h.fresh.opens then false
  else
    match h.fresh.pkgCache with
    | none => false
    | some pc => changes.all fun change =>
      ((pc.findPkg change.package).any fun P => P.selectedState = .hold) = change.wantHold

def holdSettle (changes : List PkgxHoldHolder) (cc : DpkgCommitCtx) : Settled :=
  let matched := if cc.entered then selectionsMatch h changes else false
  let st := pkgxHoldClassify cc.entered cc.ran matched
  { status := st
    effectIssued := cc.issued
    detail := match st with
      | .ok => .lit "ok"
      | .commitFailed => if cc.ran then .lit "selection_mismatch" else .lit "set_selections"
      | _ => .lit "internal" }

/-- The lines for `dpkg --set-selections`. -/
def holdPayload (changes : List PkgxHoldHolder) : CStr :=
  .ofMem (changes.flatMap fun change =>
    change.package.bytes ++ 0x20 :: change.toState.bytes ++ [0x0a])

/-- The offender of a failed map, and the exit it leads to. -/
def HoldMapFailure.exit (f : HoldMapFailure) : Exit := .mk .resolveFailed (some f.offender)

def prepareHold (verb : CStr) (targets : List CStr) :
    Except Exit (PlanCall × Mechanism DpkgCommitCtx) := do
  pkgxAptInit h
  require h.lock (.mk .locked (some (.lit "apt_locked")))
  require h.cache.opens (.mk .internal (some (.lit "cache")))
  let c ← present h.cache.pkgCache (.mk .internal (some (.lit "cache")))
  let r ← (pkgxAptMapHold c targets (verb = .lit "apt.hold")).mapError HoldMapFailure.exit
  return (.hold (some verb) r.2 (targets.map some),
    { commit := holdCommit h (holdPayload r.1), start := ⟨false, false, false⟩,
      settle := holdSettle h r.1 })

def pkgxAptHoldEffect (verb : CStr) (targets : List CStr) (outCid : OutCid) : Host EffectOut :=
  effect J E h g outCid (prepareHold h verb targets)

def configureCommit (_correlationId : CStr) : StateT DpkgCommitCtx Host ℤ :=
  dpkgCommit h [.lit "--configure", .lit "--pending"] none

def configureSettle (cc : DpkgCommitCtx) : Settled :=
  let broken := if cc.entered then pkgxAptGroundTruthBroken h else false
  let st := pkgxTxnClassify cc.entered cc.entered cc.ran broken
  { status := st
    effectIssued := cc.issued
    detail := match st with
      | .ok => .lit "ok"
      | .broken => .lit "broken"
      | .commitFailed => .lit "configure"
      | _ => .lit "internal" }

def prepareConfigure : Except Exit (PlanCall × Mechanism DpkgCommitCtx) := do
  pkgxAptInit h
  require h.lock (.mk .locked (some (.lit "apt_locked")))
  require h.cache.opens (.mk .internal (some (.lit "cache")))
  let c ← present h.cache.pkgCache (.mk .internal (some (.lit "cache")))
  let r ← (pkgxAptMapConfigure c).mapError fun name => .mk .broken (some name)
  return (.configure r.2,
    { commit := configureCommit h, start := ⟨false, false, false⟩, settle := configureSettle h })

def pkgxAptConfigureEffect (outCid : OutCid) : Host EffectOut :=
  effect J E h g outCid (prepareConfigure h)

end Effect

end Pkgexec.Apt
