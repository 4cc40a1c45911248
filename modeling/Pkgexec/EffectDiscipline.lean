import Pkgexec.EffectCourses
import Pkgexec.RecordDecoding

/-!
# What an effector reports

Over whole runs of the four effectors: `*effect_issued` is honest and agrees with the status,
and `out_cid` is either the cid of the request or empty.
-/

namespace Pkgexec.Apt
open CStrings JsonValues PlanDigest Redeem Plan Request Effect Spawn

/-- A call of one of the four effectors. -/
inductive Effector where
  | txn (verb : CStr) (targets : List CStr)
  | update (resourceToken : Option CStr)
  | hold (verb : CStr) (targets : List CStr)
  | configure

namespace Effector

def run (J : Jansson) (E : Evp) (h : AptHost) (g : Grant) (outCid : OutCid) :
    Effector → EffectOut × Log
  | txn verb targets => (pkgxAptTxnEffect J E h g verb targets outCid).run []
  | update token => (pkgxAptUpdateEffect J E h g token outCid).run []
  | hold verb targets => (pkgxAptHoldEffect J E h g verb targets outCid).run []
  | configure => (pkgxAptConfigureEffect J E h g outCid).run []

/-- The mutating step of the mechanism. -/
def Mutates (h : AptHost) : Effector → Event → Prop
  | txn _ _, e => e = .doInstall
  | update _, e => e = .listUpdate
  | hold _ _, e => Spawns h [.lit "--set-selections"] e
  | configure, e => Spawns h [.lit "--configure", .lit "--pending"] e

theorem not_mutates_transport (h : AptHost) (f : Effector) (body : CStr) :
    ¬ f.Mutates h (.transport body) := by
  cases f <;> simp [Mutates, Spawns]

theorem prepareTxn_ok {h : AptHost} {verb : CStr} {targets : List CStr} {call : PlanCall}
    {M : Mechanism TxnCommitCtx} (hp : prepareTxn h verb targets = .ok (call, M)) :
    M = ⟨txnCommit h, ⟨false, false, false, false⟩, txnSettle h⟩ := by
  simp only [prepareTxn, bind_eq_ok, pure, Except.pure, Except.ok.injEq, Prod.mk.injEq] at hp
  obtain ⟨-, -, -, -, -, -, -, -, -, -, -, -, -, -, -, rfl⟩ := hp
  rfl

theorem prepareUpdate_ok {E : Evp} {h : AptHost} {token : Option CStr} {call : PlanCall}
    {M : Mechanism UpdateCommitCtx} (hp : prepareUpdate E h token = .ok (call, M)) :
    M = ⟨updateCommit h, ⟨false, false⟩, updateSettle h⟩ := by
  simp only [prepareUpdate, bind_eq_ok, pure, Except.pure, Except.ok.injEq, Prod.mk.injEq] at hp
  obtain ⟨-, -, -, -, -, -, -, -, -, rfl⟩ := hp
  rfl

theorem prepareHold_ok {h : AptHost} {verb : CStr} {targets : List CStr} {call : PlanCall}
    {M : Mechanism DpkgCommitCtx} (hp : prepareHold h verb targets = .ok (call, M)) :
    ∃ cache changes recs, h.cache.pkgCache = some cache ∧
      pkgxAptMapHold cache targets (verb = .lit "apt.hold") = .ok (changes, recs) ∧
      call = .hold (some verb) recs (targets.map some) ∧
      M = ⟨holdCommit h (holdPayload changes), ⟨false, false, false⟩, holdSettle h changes⟩ := by
  simp only [prepareHold, bind_eq_ok, present_eq_ok, pure, Except.pure, Except.ok.injEq,
    Prod.mk.injEq] at hp
  obtain ⟨-, -, -, -, -, -, cache, hcache, r, hmap, hcall, hM⟩ := hp
  refine ⟨cache, r.1, r.2, hcache, ?_, hcall.symm, hM.symm⟩
  cases hr : pkgxAptMapHold cache targets (verb = .lit "apt.hold") with
  | error e =>
    rw [hr] at hmap
    cases hmap
  | ok p =>
    rw [hr] at hmap
    obtain rfl := Except.ok.inj hmap
    rfl

theorem prepareConfigure_ok {h : AptHost} {call : PlanCall} {M : Mechanism DpkgCommitCtx}
    (hp : prepareConfigure h = .ok (call, M)) :
    M = ⟨configureCommit h, ⟨false, false, false⟩, configureSettle h⟩ := by
  simp only [prepareConfigure, bind_eq_ok, pure, Except.pure, Except.ok.injEq,
    Prod.mk.injEq] at hp
  obtain ⟨-, -, -, -, -, -, -, -, -, -, -, rfl⟩ := hp
  rfl

theorem prepareTxn_lawful {h : AptHost} {verb : CStr} {targets : List CStr} {call : PlanCall}
    {M : Mechanism TxnCommitCtx} (hp : prepareTxn h verb targets = .ok (call, M)) :
    M.Lawful ((txn verb targets).Mutates h) :=
  prepareTxn_ok hp ▸ txnCommit_lawful h

theorem prepareUpdate_lawful {E : Evp} {h : AptHost} {token : Option CStr} {call : PlanCall}
    {M : Mechanism UpdateCommitCtx} (hp : prepareUpdate E h token = .ok (call, M)) :
    M.Lawful ((update token).Mutates h) :=
  prepareUpdate_ok hp ▸ updateCommit_lawful h

theorem prepareHold_lawful {h : AptHost} {verb : CStr} {targets : List CStr} {call : PlanCall}
    {M : Mechanism DpkgCommitCtx} (hp : prepareHold h verb targets = .ok (call, M)) :
    M.Lawful ((hold verb targets).Mutates h) := by
  obtain ⟨cache, changes, recs, -, -, -, rfl⟩ := prepareHold_ok hp
  exact holdCommit_lawful h (holdPayload changes) changes

theorem prepareConfigure_lawful {h : AptHost} {call : PlanCall} {M : Mechanism DpkgCommitCtx}
    (hp : prepareConfigure h = .ok (call, M)) : M.Lawful (configure.Mutates h) :=
  prepareConfigure_ok hp ▸ configureCommit_lawful h

/-- Every run of an effector takes one of the three courses. -/
theorem run_course (J : Jansson) (E : Evp) (h : AptHost) (g : Grant) (outCid : OutCid)
    (f : Effector) :
    Course J h g (pkgxCidEcho outCid (some g.expectedCid)) (f.Mutates h)
      (f.run J E h g outCid) := by
  cases f with
  | txn verb targets => exact effect_course (fun _ _ => prepareTxn_lawful) outCid
  | update token => exact effect_course (fun _ _ => prepareUpdate_lawful) outCid
  | hold verb targets => exact effect_course (fun _ _ => prepareHold_lawful) outCid
  | configure => exact effect_course (fun _ _ => prepareConfigure_lawful) outCid

/-- `*effect_issued` is set exactly when the mutating step was reached. -/
theorem issued_iff_reached (J : Jansson) (E : Evp) (h : AptHost) (g : Grant) (outCid : OutCid)
    (f : Effector) :
    (f.run J E h g outCid).1.effectIssued = true ↔
      Reached (f.Mutates h) (f.run J E h g outCid).2 := by
  have hcourse := f.run_course J E h g outCid
  generalize f.run J E h g outCid = run at *
  cases hcourse with
  | unspent hstatus => simp [Reached]
  | @unredeemed r detail log hr hout hlog =>
    have hnot : ¬ Reached (f.Mutates h) log := by
      rintro ⟨e, he, hstep⟩
      obtain ⟨body, rfl⟩ := hlog e he
      exact f.not_mutates_transport h body hstep
    simp [hnot]
  | redeemed hbody hreply hlen hes =>
    exact hes.issued_iff.trans (reached_cons_iff (f.not_mutates_transport h _) _).symm

end Effector

/-- `*effect_issued` is set exactly when the mutating step was reached, which for a transaction
is `DoInstall` after a successful hand-off. It then follows a redemption with a matching reply,
`out_cid` is the cid of the request, and the status is one of three; a successful status
implies it, and every other status excludes it. -/
theorem effect_issued_honest (J : Jansson) (E : Evp) (h : AptHost) (g : Grant) (outCid : OutCid)
    (f : Effector) :
    ((f.run J E h g outCid).1.effectIssued = true ↔
      Reached (f.Mutates h) (f.run J E h g outCid).2) ∧
    HandedOff (f.run J E h g outCid).2 ∧
    ((f.run J E h g outCid).1.effectIssued = true →
      (∃ verb resource hash body es, buildRequest J
          ⟨g.effectReceipt, g.principalUid, verb, resource, g.planSchema, hash⟩ = some body ∧
        (f.run J E h g outCid).2 = .transport body :: es ∧
        Redeems J g.expectedCid (h.reply body) ∧ Reached (f.Mutates h) es) ∧
      (f.run J E h g outCid).1.outCid.str = g.expectedCid) ∧
    ((f.run J E h g outCid).1.status = .ok → (f.run J E h g outCid).1.effectIssued = true) ∧
    ((f.run J E h g outCid).1.effectIssued = true →
      (f.run J E h g outCid).1.status ∈ [AptStatus.ok, .commitFailed, .broken]) ∧
    ((f.run J E h g outCid).1.status ∈ [AptStatus.noOp, .locked, .notOwned, .held, .isProtected,
        .noIntent, .resolveFailed, .notApplied, .internal] →
      (f.run J E h g outCid).1.effectIssued = false) := by
  refine ⟨f.issued_iff_reached J E h g outCid, ?_⟩
  have hcourse := f.run_course J E h g outCid
  generalize f.run J E h g outCid = run at *
  cases hcourse with
  | unspent hstatus =>
    exact ⟨handedOff_of_notMem (by simp), by simp, fun h => absurd h hstatus, by simp, by simp⟩
  | @unredeemed r detail log hr hout hlog =>
    have hinstall : HandedOff log := by
      apply handedOff_of_notMem
      intro hmem
      obtain ⟨body, hbody⟩ := hlog _ hmem
      cases hbody
    exact ⟨hinstall, by simp, by simp, by simp, by simp⟩
  | @redeemed verb resource hash body s es hbody hreply hlen hes =>
    have hissued : s.effectIssued = true → s.status ∈ [AptStatus.ok, .commitFailed, .broken] := by
      simpa using hes.status_of_issued
    refine ⟨hes.handedOff.cons (by simp), ?_, hes.issued_of_ok, hissued, ?_⟩
    · intro hi
      refine ⟨⟨verb, resource, hash, body, es, hbody, rfl, hreply, hes.issued_iff.mp hi⟩, ?_⟩
      exact CharBuf.str_ofStr (by omega)
    · intro hstatus
      rw [Bool.eq_false_iff]
      intro hi
      have hmem := hissued hi
      simp only [List.mem_cons, List.not_mem_nil, or_false] at hmem hstatus
      rcases hmem with hs | hs | hs <;> rw [hs] at hstatus <;> simp at hstatus

theorem str_pkgxCidEcho {cid : CStr} (hlen : cid.length = cidLen) (outCid : OutCid) :
    (pkgxCidEcho outCid (some cid)).str = cid := by
  rw [pkgxCidEcho, if_pos hlen]
  exact CharBuf.str_ofStr (by omega)

theorem settleRedeem_cleared {expectedCid : CStr} {r : RedeemOut}
    (h : r.status = .cidMismatch ∨ r.status = .protocol) :
    (settleRedeem expectedCid r).outCid.str = .empty := by
  rcases h with hs | hs <;> rw [settleRedeem, hs] <;> exact CharBuf.str_clear _

theorem settleRedeem_refused {expectedCid : CStr} {r : RedeemOut} (h : r.status = .refused)
    (hlen : expectedCid.length = cidLen) :
    (settleRedeem expectedCid r).outCid.str = expectedCid := by
  rw [settleRedeem, h]
  exact str_pkgxCidEcho hlen _

/-- With a cid of the right length, `out_cid` is that cid or empty, and it is empty exactly
where `pkgx_redeem` could not tell the outcome; no effect is then issued. In every other run
`out_cid` is the cid of the request. -/
theorem cid_discipline (J : Jansson) (E : Evp) (h : AptHost) (g : Grant) (outCid : OutCid)
    (f : Effector) (hlen : g.expectedCid.length = cidLen) :
    ((f.run J E h g outCid).1.outCid.str = g.expectedCid ∨
      (f.run J E h g outCid).1.outCid.str = .empty) ∧
    ((f.run J E h g outCid).1.outCid.str = .empty ↔
      (f.run J E h g outCid).1.redeem = some .cidMismatch ∨
        (f.run J E h g outCid).1.redeem = some .protocol) ∧
    ((f.run J E h g outCid).1.outCid.str = .empty →
      (f.run J E h g outCid).1.status = .noIntent ∧
        (f.run J E h g outCid).1.effectIssued = false) ∧
    ((f.run J E h g outCid).1.redeem = none ∨
        (f.run J E h g outCid).1.redeem = some .refused ∨
        (f.run J E h g outCid).1.redeem = some .ok →
      (f.run J E h g outCid).1.outCid.str = g.expectedCid) := by
  have hne : g.expectedCid ≠ .empty := by
    intro he
    rw [he] at hlen
    exact absurd hlen (by decide)
  have hcourse := f.run_course J E h g outCid
  generalize f.run J E h g outCid = run at *
  cases hcourse with
  | unspent hstatus => simp [str_pkgxCidEcho hlen, hne]
  | @unredeemed r detail log hr hout hlog =>
    cases hs : r.status with
    | ok => exact absurd hs hr
    | refused => simp [settleRedeem_refused hs hlen, hne]
    | cidMismatch => simp [settleRedeem_cleared (.inl hs)]
    | protocol => simp [settleRedeem_cleared (.inr hs)]
  | redeemed hbody hreply _ hes =>
    have hstr : (CharBuf.ofStr (cidLen + 1) g.expectedCid).str = g.expectedCid :=
      CharBuf.str_ofStr (by omega)
    simp [hstr, hne]

/-- A cache that finds its packages by name, with or without their architecture. -/
def cacheOf (packages : List Pkg) : PkgCache where
  packages := packages
  findPkg target := packages.find? fun P =>
    target.bytes = P.name.bytes ∨ target.bytes = P.name.bytes ++ colon :: P.arch.bytes

def installedPkg (name : CStr) : Pkg where
  name := name
  arch := .lit "amd64"
  currentVer := some ⟨.lit "1.0-1", .optional⟩
  selectedState := .install
  currentState := .installed
  essential := false
  important := false
  state := .needsNothing

def brokerCid : CStr := .lit "17000000000000000000-0123456789abcdef"

def holdGrant : Grant := ⟨some (.lit "0123456789abcdef0123456789abcdef"), 1000, 1, brokerCid⟩

def redeemedReply : Json := .object (okMembers brokerCid)

theorem redeemedReply_clean : redeemedReply.Clean := by
  refine .object (by decide) ?_
  intro m hm
  simp only [okMembers, List.mem_cons, List.not_mem_nil, or_false] at hm
  rcases hm with rfl | rfl | rfl
  · exact .boolean true
  · exact .boolean true
  · exact .string brokerCid.noNul

/-- A host on which every call succeeds; after the attempt the selections are those of
`fresh`. -/
def willingHost (cache fresh : PkgCache) : AptHost where
  initConfig := true
  initSystem := true
  lock := true
  listsLock := true
  cache := ⟨true, some cache, none⟩
  sources := some []
  upgrade _ := none
  resolve _ := none
  reply _ := ⟨0, some redeemedReply.compact⟩
  commitCaches := true
  createPM := true
  pendingError := false
  getArchives := true
  fetch := .continue
  unLockInner := true
  doInstall := .completed
  lockInner := true
  listUpdate := true
  dpkg := none
  os := ⟨[], true, true, true, true, true, true, true, true, [.wrote 4096], true,
    [.child (.exited 0)]⟩
  fresh := ⟨true, some fresh, none⟩

def nginxHost : AptHost :=
  willingHost (cacheOf [installedPkg (.lit "nginx")])
    (cacheOf [{ installedPkg (.lit "nginx") with selectedState := .hold }])

def holdNginxEvp : Evp :=
  .table [((CStr.lit "1\x1eapt.hold\x1enginx\x1finstall\x1fhold").bytes,
    ⟨[117, 111, 241, 145, 7, 21, 92, 165, 217, 135, 146, 174, 202, 149, 56, 203, 130, 161, 227,
      149, 251, 167, 119, 206, 182, 154, 71, 95, 119, 39, 119, 18], rfl⟩)]

def replyJansson : Jansson :=
  janssonTable [(redeemedReply.compact, redeemedReply)]
    (by simpa using redeemedReply_clean)

/-- The receipt of this run is redeemed, so the cid of the request is reported. -/
theorem cid_discipline_hold_nginx :
    ((Effector.hold (.lit "apt.hold") [.lit "nginx"]).run replyJansson holdNginxEvp nginxHost
      holdGrant (.zero _)).1.outCid.str = brokerCid :=
  (cid_discipline replyJansson holdNginxEvp nginxHost holdGrant (.zero _)
    (.hold (.lit "apt.hold") [.lit "nginx"]) (by decide)).2.2.2 (.inr (.inr rfl))

example : ((Effector.hold (.lit "apt.hold") [.lit "nginx"]).run replyJansson holdNginxEvp nginxHost
      holdGrant (.zero _)).1.status = .ok := rfl

end Pkgexec.Apt
