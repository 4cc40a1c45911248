import Pkgexec.BuilderDomain
import Pkgexec.EffectDiscipline

/-!
# What a status says about the host

A run that redeems its receipt reads its status off the context that the gate leaves. The
status of a transaction or a configure is compared with the database read afresh, the status of
a hold with the selections read afresh, and `PKGX_APT_COMMIT_FAILED` with the start of the
mutating step.
-/

namespace Pkgexec.Apt
open CStrings JsonValues PlanDigest Redeem Plan Request Effect Spawn

section Settles

variable {κ : Type}

/-- A run either stops short of the redemption or is read off its context behind the gate. -/
inductive Settles (J : Jansson) (E : Evp) (g : Grant)
    (prepared : Except Exit (PlanCall × Mechanism κ)) : EffectOut × Log → Prop where
  | stopped {out : EffectOut} {log : Log} (hstatus : out.status ≠ .ok)
    (hissued : out.effectIssued = false) (hredeem : out.redeem ≠ some .ok) :
    Settles J E g prepared (out, log)
  | gated {call : PlanCall} {M : Mechanism κ} {verb resource hash body : CStr} {outCid : OutCid}
    (hprepared : prepared = .ok (call, M)) (hspend : call.verdict E = .spend verb resource hash)
    (hbody : buildRequest J
      ⟨g.effectReceipt, g.principalUid, verb, resource, g.planSchema, hash⟩ = some body) :
    Settles J E g prepared
      (⟨(M.settle (M.gated g.expectedCid [.transport body]).1).status, outCid,
        (M.settle (M.gated g.expectedCid [.transport body]).1).effectIssued,
        (M.settle (M.gated g.expectedCid [.transport body]).1).detail, some .ok⟩,
        (M.gated g.expectedCid [.transport body]).2)

theorem effect_settles (J : Jansson) (E : Evp) (h : AptHost) (g : Grant) (outCid : OutCid)
    (prepared : Except Exit (PlanCall × Mechanism κ)) :
    Settles J E g prepared ((effect J E h g outCid prepared).run []) := by
  cases prepared with
  | error e => exact .stopped e.notOk rfl (by simp)
  | ok p =>
    show Settles J E g (.ok p) ((planAndCommit J E h g _ p.1 p.2).run [])
    rcases planAndCommit_cases (J := J) (E := E) (h := h) (g := g)
        (pkgxCidEcho outCid (some g.expectedCid)) p.1 p.2 with
      ⟨status, detail, hne, hrun⟩ | ⟨r, detail, log, hr, -, -, hrun⟩ |
      ⟨verb, resource, hash, body, hspend, hbody, -, -, hrun⟩
    · rw [hrun]
      exact .stopped hne rfl (by simp)
    · rw [hrun]
      exact .stopped (by simp) rfl (by simpa using hr)
    · rw [hrun]
      exact .gated rfl hspend hbody

/-- Behind the gate stands what the committer left, or the context it never saw. -/
theorem Mechanism.gated_of_run {M : Mechanism κ} {cid : CStr} {log es : Log} {left : κ}
    (hrun : ∃ rc, ((M.commit cid).run M.start).run log = pure ((rc, left), log ++ es)) :
    M.gated cid log = if pkgxCidValid (some cid) then (left, log ++ es) else (M.start, log) := by
  obtain ⟨rc, hrun⟩ := hrun
  rw [Mechanism.gated, hrun]
  rfl

end Settles

section Gated

variable (h : AptHost) (cid : CStr) (log : Log)

theorem txn_gated :
    Mechanism.gated ⟨txnCommit h, ⟨false, false, false, false⟩, txnSettle h⟩ cid log =
      if pkgxCidValid (some cid) then (txnLeft h, log ++ txnEvents h cid)
      else (⟨false, false, false, false⟩, log) :=
  Mechanism.gated_of_run (txnCommit_run h cid log)

theorem dpkg_gated (args : List CStr) (input : Option CStr) (settle : DpkgCommitCtx → Settled) :
    Mechanism.gated ⟨fun _ => dpkgCommit h args input, ⟨false, false, false⟩, settle⟩ cid log =
      if pkgxCidValid (some cid) then (dpkgLeft h args input, log ++ dpkgEvents h args input)
      else (⟨false, false, false⟩, log) :=
  Mechanism.gated_of_run (dpkgCommit_run h args input log)

theorem hold_gated (payload : CStr) (changes : List PkgxHoldHolder) :
    Mechanism.gated ⟨holdCommit h payload, ⟨false, false, false⟩, holdSettle h changes⟩ cid log =
      if pkgxCidValid (some cid) then
        (dpkgLeft h [.lit "--set-selections"] (some payload),
          log ++ dpkgEvents h [.lit "--set-selections"] (some payload))
      else (⟨false, false, false⟩, log) :=
  dpkg_gated h cid log _ _ _

theorem configure_gated :
    Mechanism.gated ⟨configureCommit h, ⟨false, false, false⟩, configureSettle h⟩ cid log =
      if pkgxCidValid (some cid) then
        (dpkgLeft h [.lit "--configure", .lit "--pending"] none,
          log ++ dpkgEvents h [.lit "--configure", .lit "--pending"] none)
      else (⟨false, false, false⟩, log) :=
  dpkg_gated h cid log _ _ _

end Gated

/-- The cache opens with both of its caches, no dependency is broken, and no package needs
anything. -/
def Verified (fresh : CacheFile) : Prop :=
  fresh.opens = true ∧ ∃ pc dc, fresh.pkgCache = some pc ∧ fresh.depCache = some dc ∧
    dc.brokenCount = 0 ∧ ∀ P ∈ pc.packages, P.state = .needsNothing

theorem pkgxAptGroundTruthBroken_eq_false_iff {h : AptHost} :
    pkgxAptGroundTruthBroken h = false ↔ Verified h.fresh := by
  rw [pkgxAptGroundTruthBroken, Verified]
  cases hopens : h.fresh.opens with
  | false => simp
  | true =>
    cases hpc : h.fresh.pkgCache with
    | none => simp
    | some pc =>
      cases hdc : h.fresh.depCache with
      | none => simp
      | some dc => simp

theorem pkgxTxnClassify_eq_ok_iff {entered began committedOk broken : Bool} :
    pkgxTxnClassify entered began committedOk broken = .ok ↔
      entered = true ∧ began = true ∧ broken = false ∧ committedOk = true := by
  cases entered <;> cases began <;> cases broken <;> cases committedOk <;> simp [pkgxTxnClassify]

theorem pkgxTxnClassify_eq_broken_iff {entered began committedOk broken : Bool} :
    pkgxTxnClassify entered began committedOk broken = .broken ↔
      entered = true ∧ began = true ∧ broken = true := by
  cases entered <;> cases began <;> cases broken <;> cases committedOk <;> simp [pkgxTxnClassify]

theorem pkgxTxnClassify_eq_commitFailed_iff {entered began committedOk broken : Bool} :
    pkgxTxnClassify entered began committedOk broken = .commitFailed ↔
      entered = true ∧ began = true ∧ broken = false ∧ committedOk = false := by
  cases entered <;> cases began <;> cases broken <;> cases committedOk <;> simp [pkgxTxnClassify]

/-- The mutating step was reached and reported completion. -/
def Effector.Completed (h : AptHost) (f : Effector) (log : Log) : Prop :=
  Reached (f.Mutates h) log ∧
    match f with
    | txn _ _ => h.doInstall = .completed
    | update _ => h.listUpdate = true
    | hold _ _ | configure => .child (.waited (some (.exited 0))) ∈ log

section Verification

variable {h : AptHost}

/-- The scan of the fresh cache, where it is made. -/
theorem scan_eq_false_iff {scanned : Bool} (hscanned : scanned = true) :
    (if scanned then pkgxAptGroundTruthBroken h else false) = false ↔ Verified h.fresh := by
  rw [if_pos hscanned]
  exact pkgxAptGroundTruthBroken_eq_false_iff

/-- A transaction that began is broken or verified. -/
theorem txnSettle_ok {cc : TxnCommitCtx} (hok : (txnSettle h cc).status = .ok) :
    Verified h.fresh ∧ cc.executionBegan = true ∧ cc.committedOk = true := by
  obtain ⟨-, hbegan, hbroken, hcommitted⟩ := pkgxTxnClassify_eq_ok_iff.mp hok
  exact ⟨(scan_eq_false_iff hbegan).mp hbroken, hbegan, hcommitted⟩

theorem configureSettle_ok {cc : DpkgCommitCtx} (hok : (configureSettle h cc).status = .ok) :
    Verified h.fresh ∧ cc.entered = true ∧ cc.ran = true := by
  obtain ⟨hentered, -, hbroken, hran⟩ := pkgxTxnClassify_eq_ok_iff.mp hok
  exact ⟨(scan_eq_false_iff hentered).mp hbroken, hentered, hran⟩

theorem scan_eq_true {scanned : Bool} (hscanned : scanned = true) (hfresh : ¬ Verified h.fresh) :
    (if scanned then pkgxAptGroundTruthBroken h else false) = true := by
  rw [← Bool.not_eq_false, scan_eq_false_iff hscanned]
  exact hfresh

/-- The committer of a transaction leaves a clean commit only behind a whole hand-off. -/
theorem txnLeft_committed (hcommitted : (txnLeft h).committedOk = true) :
    txnFetch h = true ∧ h.unLockInner = true ∧ h.doInstall = .completed ∧ h.lockInner = true := by
  cases hfetch : txnFetch h with
  | false => simp [txnLeft, hfetch] at hcommitted
  | true => simpa [txnLeft, hfetch, pkgxCommitLockHandoff, and_assoc] using hcommitted

theorem txnLeft_entered (h : AptHost) : (txnLeft h).entered = true := by
  rw [txnLeft]
  split <;> rfl

theorem dpkgLeft_ran {args : List CStr} {input : Option CStr}
    (hran : (dpkgLeft h args input).ran = true) : h.unLockInner = true ∧
      (dpkgChild h args input).rc = 0 ∧ h.lockInner = true := by
  cases hunlock : h.unLockInner with
  | false => simp [dpkgLeft, hunlock] at hran
  | true => simpa [dpkgLeft, hunlock] using hran

theorem dpkgLeft_entered (h : AptHost) (args : List CStr) (input : Option CStr) :
    (dpkgLeft h args input).entered = true := by
  rw [dpkgLeft]
  split <;> rfl

/-- Success is reported only over a verified database, after dpkg was run, reported completion
and handed the inner lock back; an issued effect over any other database is broken. -/
def ReportsDatabase (h : AptHost) (f : Effector) (run : EffectOut × Log) : Prop :=
  (run.1.status = .ok → Verified h.fresh ∧ f.Completed h run.2 ∧
    run.2.getLast? = some (.lockInner true)) ∧
  (run.1.effectIssued = true → ¬ Verified h.fresh → run.1.status = .broken)

theorem reportsDatabase_stopped {f : Effector} {out : EffectOut} {log : Log}
    (hstatus : out.status ≠ .ok) (hissued : out.effectIssued = false) :
    ReportsDatabase h f (out, log) :=
  ⟨fun hok => absurd hok hstatus, fun hi => by simp [hissued] at hi⟩

theorem txn_reportsDatabase (J : Jansson) (E : Evp) (g : Grant) (outCid : OutCid) (verb : CStr)
    (targets : List CStr) : ReportsDatabase h (.txn verb targets)
      ((Effector.txn verb targets).run J E h g outCid) := by
  have hsettles := effect_settles J E h g outCid (prepareTxn h verb targets)
  rw [Effector.run, pkgxAptTxnEffect]
  generalize (effect J E h g outCid (prepareTxn h verb targets)).run [] = run at *
  cases hsettles with
  | stopped hstatus hissued => exact reportsDatabase_stopped hstatus hissued
  | gated hprepared =>
    obtain rfl := Effector.prepareTxn_ok hprepared
    rw [txn_gated]
    split
    · constructor
      · intro hok
        obtain ⟨hverified, -, hcommitted⟩ := txnSettle_ok hok
        obtain ⟨hfetch, hunlock, hcompleted, hlock⟩ := txnLeft_committed hcommitted
        have hevents : txnEvents h g.expectedCid =
            [.stamped (.ofMem ((CStr.lit "runix:").bytes ++ g.expectedCid.bytes)),
              .unLockInner true, .doInstall, .lockInner true] := by
          simp [txnEvents, hfetch, hunlock, hlock]
        rw [hevents]
        exact ⟨hverified, ⟨⟨.doInstall, by simp, rfl⟩, hcompleted⟩, by simp⟩
      · intro hissued hfresh
        exact pkgxTxnClassify_eq_broken_iff.mpr
          ⟨txnLeft_entered h, hissued, scan_eq_true hissued hfresh⟩
    · exact reportsDatabase_stopped (by simp [txnSettle, pkgxTxnClassify]) rfl

theorem configure_reportsDatabase (J : Jansson) (E : Evp) (g : Grant) (outCid : OutCid) :
    ReportsDatabase h .configure (Effector.configure.run J E h g outCid) := by
  have hsettles := effect_settles J E h g outCid (prepareConfigure h)
  rw [Effector.run, pkgxAptConfigureEffect]
  generalize (effect J E h g outCid (prepareConfigure h)).run [] = run at *
  cases hsettles with
  | stopped hstatus hissued => exact reportsDatabase_stopped hstatus hissued
  | @gated call M _ _ _ body _ hprepared =>
    obtain rfl := Effector.prepareConfigure_ok hprepared
    rw [configure_gated]
    split
    · constructor
      · intro hok
        obtain ⟨hverified, -, hran⟩ := configureSettle_ok hok
        obtain ⟨hunlock, hrc, hlock⟩ := dpkgLeft_ran hran
        obtain ⟨env, hspawned, hwaited⟩ := pkgxSpawnWaitEnv_ok hrc
        have hlog : [.transport body] ++ dpkgEvents h [.lit "--configure", .lit "--pending"] none =
            ([.transport body, .unLockInner true] ++ (dpkgChild h
              [.lit "--configure", .lit "--pending"] none).events.map .child) ++
                [.lockInner true] := by
          simp [dpkgEvents, hunlock, hlock]
        simp only [hlog]
        refine ⟨hverified, ⟨⟨_, ?_, env, rfl⟩, ?_⟩, List.getLast?_concat⟩
        · exact List.mem_append_left _ (List.mem_append_right _ (List.mem_map_of_mem hspawned))
        · exact List.mem_append_left _ (List.mem_append_right _ (List.mem_map_of_mem hwaited))
      · intro hissued hfresh
        have hentered := dpkgLeft_entered h [.lit "--configure", .lit "--pending"] none
        exact pkgxTxnClassify_eq_broken_iff.mpr
          ⟨hentered, hentered, scan_eq_true hentered hfresh⟩
    · exact reportsDatabase_stopped (by simp [configureSettle, pkgxTxnClassify]) rfl

end Verification

/-- A transaction or a configure reports success only over a fresh cache that opens, has no
broken dependency and no incomplete package, after dpkg was run, reported completion and the
inner lock was taken again; an issued effect over any other fresh cache is reported broken. -/
theorem ok_over_verified_database (J : Jansson) (E : Evp) (h : AptHost) (g : Grant)
    (outCid : OutCid) {f : Effector} (hf : f = .configure ∨ ∃ verb targets, f = .txn verb targets) :
    ((f.run J E h g outCid).1.status = .ok → Verified h.fresh ∧
      f.Completed h (f.run J E h g outCid).2 ∧
      (f.run J E h g outCid).2.getLast? = some (.lockInner true)) ∧
    ((f.run J E h g outCid).1.effectIssued = true → ¬ Verified h.fresh →
      (f.run J E h g outCid).1.status = .broken) := by
  rcases hf with rfl | ⟨verb, targets, rfl⟩
  · exact configure_reportsDatabase J E g outCid
  · exact txn_reportsDatabase J E g outCid verb targets

def unpackedPkg (name : CStr) : Pkg :=
  { installedPkg name with currentState := .unPacked, state := .needsConfigure }

/-- A host with one package to configure, which is configured by the attempt. -/
def unpackedHost : AptHost :=
  { willingHost (cacheOf [unpackedPkg (.lit "nginx")]) (cacheOf []) with
    fresh := ⟨true, some (cacheOf [installedPkg (.lit "nginx")]),
      some ⟨0, fun _ => ⟨false, false, false, false, false, false, none⟩⟩⟩ }

def configureNginxEvp : Evp :=
  .table [((CStr.lit "1\x1eapt.configure\x1enginx\x1famd64\x1f1.0-1\x1funpacked").bytes,
    ⟨[221, 146, 127, 208, 140, 252, 19, 237, 242, 158, 211, 231, 128, 225, 166, 211, 177, 125, 116,
      156, 196, 251, 83, 30, 28, 107, 219, 103, 202, 212, 144, 121], rfl⟩)]

theorem ok_over_verified_database_nginx :
    Verified unpackedHost.fresh ∧
    Effector.configure.Completed unpackedHost
      (Effector.configure.run replyJansson configureNginxEvp unpackedHost holdGrant (.zero _)).2 ∧
    (Effector.configure.run replyJansson configureNginxEvp unpackedHost holdGrant
      (.zero _)).2.getLast? = some (.lockInner true) :=
  (ok_over_verified_database replyJansson configureNginxEvp unpackedHost holdGrant (.zero _)
    (.inl rfl)).1 rfl

theorem pkgxHoldClassify_eq_ok_iff {entered applied matched : Bool} :
    pkgxHoldClassify entered applied matched = .ok ↔
      entered = true ∧ applied = true ∧ matched = true := by
  cases entered <;> cases applied <;> cases matched <;> simp [pkgxHoldClassify]

theorem pkgxHoldClassify_eq_commitFailed_iff {entered applied matched : Bool} :
    pkgxHoldClassify entered applied matched = .commitFailed ↔
      entered = true ∧ ¬ (applied = true ∧ matched = true) := by
  cases entered <;> cases applied <;> cases matched <;> simp [pkgxHoldClassify]

/-- The target is found in the fresh cache with its selection on hold. -/
def OnHold (fresh : PkgCache) (target : CStr) : Prop :=
  ∃ P, fresh.findPkg target = some P ∧ P.selectedState = .hold

/-- The read-back of one change compares only whether the target is on hold. -/
theorem selectionsMatch_iff {h : AptHost} {changes : List PkgxHoldHolder} :
    selectionsMatch h changes = true ↔ h.fresh.opens = true ∧ ∃ fresh,
      h.fresh.pkgCache = some fresh ∧
        ∀ change ∈ changes, OnHold fresh change.package ↔ change.wantHold = true := by
  rw [selectionsMatch]
  cases hopens : h.fresh.opens with
  | false => simp
  | true =>
    cases hpc : h.fresh.pkgCache with
    | none => simp
    | some fresh =>
      have hone (change : PkgxHoldHolder) :
          ((fresh.findPkg change.package).any fun P => P.selectedState = .hold) = true ↔
            OnHold fresh change.package := by
        rw [OnHold, Option.any_eq_true]
        simp
      have hall : (changes.all fun change =>
          ((fresh.findPkg change.package).any fun P => P.selectedState = .hold) =
            change.wantHold) = true ↔
          ∀ change ∈ changes, OnHold fresh change.package ↔ change.wantHold = true := by
        rw [List.all_eq_true]
        refine forall₂_congr fun change _ => ?_
        rw [decide_eq_true_iff, Bool.eq_iff_iff, hone]
      simpa using hall

section ReadBack

variable {J : Jansson} {E : Evp} {h : AptHost} {g : Grant} {outCid : OutCid} {verb : CStr}
  {targets : List CStr}

/-- A hold that succeeds has spent its receipt on the digest of its records, has run dpkg and
has read every change back. -/
theorem hold_ok
    (hok : ((Effector.hold verb targets).run J E h g outCid).1.status = .ok) :
    ∃ cache changes recs resource d body, h.cache.pkgCache = some cache ∧
      pkgxAptMapHold cache targets (verb = .lit "apt.hold") = .ok (changes, recs) ∧
      pkgxDigestHold E (some verb) recs = some d ∧
      buildRequest J ⟨g.effectReceipt, g.principalUid, verb, resource, g.planSchema, d.hex⟩ =
        some body ∧
      ((Effector.hold verb targets).run J E h g outCid).2.head? = some (.transport body) ∧
      selectionsMatch h changes = true := by
  have hsettles := effect_settles J E h g outCid (prepareHold h verb targets)
  rw [Effector.run, pkgxAptHoldEffect] at *
  generalize (effect J E h g outCid (prepareHold h verb targets)).run [] = run at *
  cases hsettles with
  | stopped hstatus => exact absurd hok hstatus
  | @gated call M verb' resource hash body _ hprepared hspend hbody =>
    obtain ⟨cache, changes, recs, hcache, hmap, rfl, rfl⟩ := Effector.prepareHold_ok hprepared
    obtain ⟨-, -, rfl, -, d, hd, rfl⟩ := PlanCall.verdict_eq_spend_iff.mp hspend
    have hclassify := pkgxHoldClassify_eq_ok_iff.mp hok
    obtain ⟨hentered, -, hmatched⟩ := hclassify
    rw [if_pos hentered] at hmatched
    refine ⟨cache, changes, recs, resource, d, body, hcache, hmap, hd, hbody, ?_, hmatched⟩
    rw [hold_gated]
    split <;> rfl

end ReadBack

/-- The package of a record is found in the fresh cache in the state that was digested. -/
def ReadBack (fresh : PkgCache) (r : HoldRecord) : Prop :=
  ∃ P, fresh.findPkg (orEmpty r.package) = some P ∧
    selectionWord P.selectedState = orEmpty r.toState

/-- A successful hold was read back in the digested state for every record. A successful unhold
was read back with no record on hold. -/
theorem selections_read_back {J : Jansson} {E : Evp} {h : AptHost} {g : Grant} {outCid : OutCid}
    {verb : CStr} {targets : List CStr}
    (hok : ((Effector.hold verb targets).run J E h g outCid).1.status = .ok) :
    ∃ cache changes recs resource d body fresh, h.cache.pkgCache = some cache ∧
      pkgxAptMapHold cache targets (verb = .lit "apt.hold") = .ok (changes, recs) ∧
      pkgxDigestHold E (some verb) recs = some d ∧
      buildRequest J ⟨g.effectReceipt, g.principalUid, verb, resource, g.planSchema, d.hex⟩ =
        some body ∧
      ((Effector.hold verb targets).run J E h g outCid).2.head? = some (.transport body) ∧
      h.fresh.opens = true ∧ h.fresh.pkgCache = some fresh ∧
      (verb = .lit "apt.hold" → ∀ r ∈ recs, ReadBack fresh r) ∧
      (verb ≠ .lit "apt.hold" → ∀ r ∈ recs, ¬ OnHold fresh (orEmpty r.package)) := by
  obtain ⟨cache, changes, recs, resource, d, body, hcache, hmap, hd, hbody, hlog, hmatched⟩ :=
    hold_ok hok
  obtain ⟨hopens, fresh, hfresh, hread⟩ := selectionsMatch_iff.mp hmatched
  obtain ⟨hrecs, -⟩ := pkgxAptMapHold_ok hmap
  refine ⟨cache, changes, recs, resource, d, body, fresh, hcache, hmap, hd, hbody, hlog, hopens,
    hfresh, ?_, ?_⟩
  · intro hverb r hr
    obtain ⟨change, hchange, rfl⟩ := List.mem_map.mp (hrecs ▸ hr)
    obtain ⟨-, hto, hwant⟩ := mem_changes hmap hchange
    obtain ⟨P, hP, hstate⟩ := (hread change hchange).mpr (by simp [hwant, hverb])
    refine ⟨P, hP, ?_⟩
    show selectionWord P.selectedState = change.toState
    rw [hto, hstate]
    simp [hverb, toState, selectionWord]
  · intro hverb r hr honhold
    obtain ⟨change, hchange, rfl⟩ := List.mem_map.mp (hrecs ▸ hr)
    obtain ⟨-, -, hwant⟩ := mem_changes hmap hchange
    have hheld : change.wantHold = true := (hread change hchange).mp honhold
    rw [hwant] at hheld
    exact hverb (of_decide_eq_true hheld)

theorem selections_read_back_nginx : ∃ fresh, nginxHost.fresh.pkgCache = some fresh ∧
    OnHold fresh (.lit "nginx") := by
  have hok : ((Effector.hold (.lit "apt.hold") [.lit "nginx"]).run replyJansson holdNginxEvp
      nginxHost holdGrant (.zero _)).1.status = .ok := rfl
  obtain ⟨cache, changes, recs, -, -, -, fresh, hcache, hmap, -, -, -, -, hfresh, hhold, -⟩ :=
    selections_read_back hok
  obtain rfl : cacheOf [installedPkg (.lit "nginx")] = cache := Option.some.inj hcache
  obtain rfl : [⟨some (.lit "nginx"), some (.lit "install"), some (.lit "hold")⟩] = recs :=
    (Prod.mk.inj (Except.ok.inj hmap)).2
  obtain ⟨P, hP, hstate⟩ := hhold rfl _ (List.mem_singleton.mpr rfl)
  refine ⟨fresh, hfresh, P, hP, ?_⟩
  revert hstate
  cases P.selectedState <;> decide

/-- A host on which `nginx` is on hold, with the given packages after the attempt. -/
def heldHost (after : List Pkg) : AptHost :=
  willingHost (cacheOf [{ installedPkg (.lit "nginx") with selectedState := .hold }])
    (cacheOf after)

def unholdNginxEvp : Evp :=
  .table [((CStr.lit "1\x1eapt.unhold\x1enginx\x1fhold\x1finstall").bytes,
    ⟨[232, 150, 45, 150, 90, 255, 11, 142, 66, 25, 27, 153, 31, 253, 137, 16, 75, 148, 218, 195,
      220, 192, 180, 202, 36, 63, 84, 241, 29, 127, 123, 147], rfl⟩)]

def unholdRecord : HoldRecord := ⟨some (.lit "nginx"), some (.lit "hold"), some (.lit "install")⟩

/-- The package is gone after the attempt, or selected for removal, and the unhold succeeds. -/
theorem unhold_unconfirmed :
    ((Effector.hold (.lit "apt.unhold") [.lit "nginx"]).run replyJansson unholdNginxEvp
      (heldHost []) holdGrant (.zero _)).1.status = .ok ∧
    ((Effector.hold (.lit "apt.unhold") [.lit "nginx"]).run replyJansson unholdNginxEvp
      (heldHost [{ installedPkg (.lit "nginx") with selectedState := .deInstall }]) holdGrant
      (.zero _)).1.status = .ok ∧
    pkgxAptMapHold (cacheOf [{ installedPkg (.lit "nginx") with selectedState := .hold }])
        [.lit "nginx"] false =
      .ok ([⟨.lit "nginx", .lit "hold", .lit "install", false⟩], [unholdRecord]) ∧
    ¬ ReadBack (cacheOf []) unholdRecord ∧
    ¬ ReadBack (cacheOf [{ installedPkg (.lit "nginx") with selectedState := .deInstall }])
      unholdRecord := by
  refine ⟨rfl, rfl, rfl, ?_, ?_⟩
  · rintro ⟨P, hP, -⟩
    cases hP
  · rintro ⟨P, hP, hstate⟩
    obtain rfl := Option.some.inj hP
    exact absurd hstate (by decide)

/-- The inner lock is handed over, and every call up to the start of the child succeeds. -/
structure HandsOver (h : AptHost) (piped : Bool) : Prop where
  unLockInner : h.unLockInner = true
  envAlloc : h.os.envAlloc = true
  actionsInit : h.os.actionsInit = true
  redirect : piped = true → h.os.pipe = true ∧ h.os.addDup2 = true ∧ h.os.addCloseRead = true ∧
    h.os.addCloseWrite = true
  spawn : h.os.spawn = true

/-- Where a failed commit implies a started one: always for a transaction and an update, for a
hold if its child starts, for a configure if its child starts or the scan finds the database
broken. -/
def Effector.FailsStarted (h : AptHost) : Effector → Prop
  | txn _ _ | update _ => True
  | hold _ _ => HandsOver h true
  | configure => HandsOver h false ∨ ¬ Verified h.fresh

section FailedCommit

variable {h : AptHost}

theorem dpkgLeft_issued_iff {args : List CStr} {input : Option CStr} :
    (dpkgLeft h args input).issued = true ↔ HandsOver h input.isSome := by
  cases hunlock : h.unLockInner with
  | false =>
    refine iff_of_false (by simp [dpkgLeft, hunlock]) ?_
    intro hover
    exact absurd hover.unLockInner (by simp [hunlock])
  | true =>
    have hissued : (dpkgLeft h args input).issued = (dpkgChild h args input).started := by
      simp [dpkgLeft, hunlock]
    rw [hissued, dpkgChild, pkgxSpawnWaitEnv_started_iff (List.cons_ne_nil _ _)]
    constructor
    · intro hstarts
      have henv : h.os.envAlloc = true := by
        by_contra hne
        have hstart := hstarts.env
        simp [childEnv, buildChildEnv, hne] at hstart
      exact ⟨hunlock, henv, hstarts.actionsInit, hstarts.redirect, hstarts.spawn⟩
    · intro hover
      exact ⟨by simp [childEnv, buildChildEnv, hover.envAlloc], hover.actionsInit, hover.redirect,
        hover.spawn⟩

/-- A child that was not started did not run. -/
theorem dpkgLeft_ran_issued {args : List CStr} {input : Option CStr}
    (hissued : (dpkgLeft h args input).issued = false) : (dpkgLeft h args input).ran = false := by
  rw [Bool.eq_false_iff]
  intro hran
  obtain ⟨hunlock, hrc, -⟩ := dpkgLeft_ran hran
  have hstarted : (dpkgChild h args input).started = false := by
    simpa [dpkgLeft, hunlock] using hissued
  rcases pkgxSpawnWaitEnv_cases h.os (dpkgPath h :: args) input
    (some [.lit "DPKG_FRONTEND_LOCKED=true"]) with hfailed | ⟨hstart, -⟩
  · rw [dpkgChild, hfailed] at hrc
    simp at hrc
  · rw [dpkgChild, hstart] at hstarted
    simp at hstarted

/-- The property read off a settled context: a failed commit is an issued one. -/
def Settled.FailsIssued (s : Settled) : Prop := s.status = .commitFailed → s.effectIssued = true

theorem txnSettle_failsIssued (cc : TxnCommitCtx) : (txnSettle h cc).FailsIssued := by
  intro hstatus
  obtain ⟨-, hbegan, -⟩ := pkgxTxnClassify_eq_commitFailed_iff.mp hstatus
  exact hbegan

theorem updateSettle_failsIssued (cc : UpdateCommitCtx) : (updateSettle h cc).FailsIssued := by
  intro hstatus
  show cc.entered = true
  by_contra hentered
  simp [updateSettle, pkgxUpdateClassify, hentered] at hstatus

theorem holdSettle_failsIssued_iff {args : List CStr} {input : Option CStr}
    {changes : List PkgxHoldHolder} :
    (holdSettle h changes (dpkgLeft h args input)).FailsIssued ↔ HandsOver h input.isSome := by
  rw [← @dpkgLeft_issued_iff h args input]
  constructor
  · intro hfails
    by_contra hissued
    have hran := dpkgLeft_ran_issued (Bool.eq_false_iff.mpr hissued)
    refine hissued (hfails (pkgxHoldClassify_eq_commitFailed_iff.mpr ?_))
    exact ⟨dpkgLeft_entered h args input, by simp [hran]⟩
  · exact fun hissued _ => hissued

theorem configureSettle_failsIssued_iff {args : List CStr} {input : Option CStr} :
    (configureSettle h (dpkgLeft h args input)).FailsIssued ↔
      HandsOver h input.isSome ∨ ¬ Verified h.fresh := by
  rw [← @dpkgLeft_issued_iff h args input]
  have hentered := dpkgLeft_entered h args input
  constructor
  · intro hfails
    by_contra hneither
    obtain ⟨hissued, hverified⟩ := not_or.mp hneither
    have hran := dpkgLeft_ran_issued (Bool.eq_false_iff.mpr hissued)
    refine hissued (hfails (pkgxTxnClassify_eq_commitFailed_iff.mpr ?_))
    exact ⟨hentered, hentered, (scan_eq_false_iff hentered).mpr (not_not.mp hverified), hran⟩
  · rintro (hissued | hverified)
    · exact fun _ => hissued
    · intro hstatus
      obtain ⟨-, -, hbroken, -⟩ := pkgxTxnClassify_eq_commitFailed_iff.mp hstatus
      exact absurd ((scan_eq_false_iff hentered).mp hbroken) hverified

/-- A run that redeemed its receipt fails issued exactly if its context behind the gate does. -/
theorem failsIssued_of_settles {J : Jansson} {E : Evp} {g : Grant} {κ : Type}
    {prepared : Except Exit (PlanCall × Mechanism κ)} {run : EffectOut × Log} {C : Prop}
    (hsettles : Settles J E g prepared run) (hredeem : run.1.redeem = some .ok)
    (hgated : ∀ call M log, prepared = .ok (call, M) →
      ((M.settle (M.gated g.expectedCid log).1).FailsIssued ↔ C)) :
    (run.1.status = .commitFailed → run.1.effectIssued = true) ↔ C := by
  cases hsettles with
  | stopped _ _ hne => exact absurd hredeem hne
  | gated hprepared => exact hgated _ _ _ hprepared

theorem failsIssued_iff (J : Jansson) (E : Evp) (g : Grant) (outCid : OutCid) (f : Effector)
    (hredeem : (f.run J E h g outCid).1.redeem = some .ok) :
    ((f.run J E h g outCid).1.status = .commitFailed →
        (f.run J E h g outCid).1.effectIssued = true) ↔
      (pkgxCidValid (some g.expectedCid) = true → f.FailsStarted h) := by
  cases f with
  | txn verb targets =>
    refine failsIssued_of_settles (effect_settles J E h g outCid _) hredeem ?_
    intro call M log hprepared
    obtain rfl := Effector.prepareTxn_ok hprepared
    exact iff_of_true (txnSettle_failsIssued _) fun _ => trivial
  | update token =>
    refine failsIssued_of_settles (effect_settles J E h g outCid _) hredeem ?_
    intro call M log hprepared
    obtain rfl := Effector.prepareUpdate_ok hprepared
    exact iff_of_true (updateSettle_failsIssued _) fun _ => trivial
  | hold verb targets =>
    refine failsIssued_of_settles (effect_settles J E h g outCid _) hredeem ?_
    intro call M log hprepared
    obtain ⟨-, changes, -, -, -, -, rfl⟩ := Effector.prepareHold_ok hprepared
    rw [hold_gated]
    split
    · rename_i hcid
      rw [forall_prop_of_true hcid]
      exact holdSettle_failsIssued_iff
    · rename_i hcid
      refine iff_of_true ?_ fun hvalid => absurd hvalid hcid
      simp [Settled.FailsIssued, holdSettle, pkgxHoldClassify]
  | configure =>
    refine failsIssued_of_settles (effect_settles J E h g outCid _) hredeem ?_
    intro call M log hprepared
    obtain rfl := Effector.prepareConfigure_ok hprepared
    rw [configure_gated]
    split
    · rename_i hcid
      rw [forall_prop_of_true hcid]
      exact configureSettle_failsIssued_iff
    · rename_i hcid
      refine iff_of_true ?_ fun hvalid => absurd hvalid hcid
      simp [Settled.FailsIssued, configureSettle, pkgxTxnClassify]

end FailedCommit

/-- In a run that redeemed its receipt, `PKGX_APT_COMMIT_FAILED` means that the mutating step
was reached exactly if the gate stays closed or a failed commit implies a started one. -/
theorem commit_failed_reached_iff (J : Jansson) (E : Evp) (h : AptHost) (g : Grant)
    (outCid : OutCid) (f : Effector) (hredeem : (f.run J E h g outCid).1.redeem = some .ok) :
    ((¬ Reached (f.Mutates h) (f.run J E h g outCid).2 →
        (f.run J E h g outCid).1.status ≠ .commitFailed) ↔
      (pkgxCidValid (some g.expectedCid) = true → f.FailsStarted h)) ∧
    (((f.run J E h g outCid).1.status = .commitFailed →
        (f.run J E h g outCid).1.effectIssued = true) ↔
      (pkgxCidValid (some g.expectedCid) = true → f.FailsStarted h)) := by
  have hissued := failsIssued_iff J E g outCid f hredeem
  refine ⟨?_, hissued⟩
  rw [← hissued, ← f.issued_iff_reached J E h g outCid]
  exact not_imp_not

/-- The hold of `nginx` on the given host. -/
def holdNginx (h : AptHost) : EffectOut × Log :=
  (Effector.hold (.lit "apt.hold") [.lit "nginx"]).run replyJansson holdNginxEvp h holdGrant
    (.zero _)

/-- On a host where dpkg exits with an error the commit fails, and it was issued. -/
def failingHost : AptHost :=
  { nginxHost with os := { nginxHost.os with waits := [.child (.exited 1)] } }

theorem commit_failed_reached_failing :
    (holdNginx failingHost).1.status = .commitFailed ∧
      (holdNginx failingHost).1.effectIssued = true := by
  have hfails := (commit_failed_reached_iff replyJansson holdNginxEvp failingHost holdGrant
    (.zero _) (.hold (.lit "apt.hold") [.lit "nginx"]) rfl).2.mpr fun _ =>
      ⟨rfl, rfl, rfl, fun _ => ⟨rfl, rfl, rfl, rfl⟩, rfl⟩
  exact ⟨rfl, hfails rfl⟩

/-- The hand-off of the inner lock is refused: dpkg is never run, and the commit failed. -/
theorem commit_failed_unstarted :
    (holdNginx { nginxHost with unLockInner := false }).1.redeem = some .ok ∧
    (holdNginx { nginxHost with unLockInner := false }).1.status = .commitFailed ∧
    (holdNginx { nginxHost with unLockInner := false }).1.effectIssued = false ∧
    ¬ Reached ((Effector.hold (.lit "apt.hold") [.lit "nginx"]).Mutates
        { nginxHost with unLockInner := false })
      (holdNginx { nginxHost with unLockInner := false }).2 := by
  refine ⟨rfl, rfl, rfl, ?_⟩
  rw [holdNginx, ← Effector.issued_iff_reached]
  exact Bool.false_ne_true

end Pkgexec.Apt
