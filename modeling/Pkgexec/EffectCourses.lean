import Pkgexec.Effectors

/-!
# Courses of an effector run

Every run of an effector takes one of three courses: it returns with the receipt unspent, it
fails to redeem the receipt, or it redeems it and goes on to the gate. What a mechanism may do
behind the gate is stated once, as a law of its committer.
-/

namespace Pkgexec.Apt
open CStrings JsonValues PlanDigest Redeem Plan Request Effect Spawn

/-- An event of the given kind is in the log. -/
def Reached (step : Event → Prop) (log : Log) : Prop := ∃ e ∈ log, step e

theorem reached_cons_iff {step : Event → Prop} {e : Event} (he : ¬ step e) (log : Log) :
    Reached step (e :: log) ↔ Reached step log := by
  simp [Reached, he]

/-- `DoInstall` is called only after a successful `UnLockInner`. -/
def HandedOff (log : Log) : Prop :=
  ∀ pre post, log = pre ++ .doInstall :: post → .unLockInner true ∈ pre

theorem handedOff_of_notMem {log : Log} (h : .doInstall ∉ log) : HandedOff log := by
  rintro pre post rfl
  exact absurd (by simp) h

theorem HandedOff.cons {e : Event} {log : Log} (he : e ≠ .doInstall) (h : HandedOff log) :
    HandedOff (e :: log) := by
  intro pre post hlog
  cases pre with
  | nil => exact absurd (List.cons.inj hlog).1 he
  | cons x pre => exact List.mem_cons_of_mem _ (h pre post (List.cons.inj hlog).2)

/-- What is read off the context agrees with the events of the commit. -/
structure Commits (step : Event → Prop) (es : Log) (s : Settled) : Prop where
  issued_iff : s.effectIssued = true ↔ Reached step es
  status_of_issued : s.effectIssued = true →
    s.status = .ok ∨ s.status = .commitFailed ∨ s.status = .broken
  issued_of_ok : s.status = .ok → s.effectIssued = true
  handedOff : HandedOff es

/-- The law of a mechanism: both the context before the gate and the one its committer leaves
are read honestly, and the committer only adds to the log. -/
structure Mechanism.Lawful {κ : Type} (M : Mechanism κ) (step : Event → Prop) : Prop where
  refused : Commits step [] (M.settle M.start)
  committed : ∀ cid log, ∃ rc cc es,
    ((M.commit cid).run M.start).run log = pure ((rc, cc), log ++ es) ∧
      Commits step es (M.settle cc)

@[simp] theorem record_run (es log : Log) : (record es).run log = pure ((), log ++ es) := rfl

section Committers

variable (h : AptHost)

/-- Nothing is issued and nothing has been done. -/
theorem Commits.idle {step : Event → Prop} {es : Log} {s : Settled} (hes : ∀ e ∈ es, ¬ step e)
    (hinstall : .doInstall ∉ es) (hissued : s.effectIssued = false) (hstatus : s.status ≠ .ok) :
    Commits step es s where
  issued_iff := by simpa [hissued, Reached] using hes
  status_of_issued := by simp [hissued]
  issued_of_ok := fun hok => absurd hok hstatus
  handedOff := handedOff_of_notMem hinstall

/-- The step is reached and reported. -/
theorem Commits.issued {step : Event → Prop} {es : Log} {s : Settled} (hes : Reached step es)
    (hinstall : HandedOff es) (hissued : s.effectIssued = true)
    (hstatus : s.status = .ok ∨ s.status = .commitFailed ∨ s.status = .broken) :
    Commits step es s where
  issued_iff := by simp [hissued, hes]
  status_of_issued := fun _ => hstatus
  issued_of_ok := fun _ => hissued
  handedOff := hinstall

theorem pkgxTxnClassify_began (committedOk broken : Bool) :
    pkgxTxnClassify true true committedOk broken = .ok ∨
      pkgxTxnClassify true true committedOk broken = .commitFailed ∨
      pkgxTxnClassify true true committedOk broken = .broken := by
  cases committedOk <;> cases broken <;> simp [pkgxTxnClassify]

theorem pkgxTxnClassify_ok {entered began committedOk broken : Bool}
    (h : pkgxTxnClassify entered began committedOk broken = .ok) : committedOk = true := by
  revert h
  cases entered <;> cases began <;> cases committedOk <;> cases broken <;> simp [pkgxTxnClassify]

theorem pkgxHoldClassify_entered (applied matches_ : Bool) :
    pkgxHoldClassify true applied matches_ = .ok ∨
      pkgxHoldClassify true applied matches_ = .commitFailed := by
  cases applied <;> cases matches_ <;> simp [pkgxHoldClassify]

/-- The context that the committer of a transaction leaves. -/
def txnLeft : TxnCommitCtx :=
  if !txnFetch h then ⟨true, false, false, false⟩
  else
    let o := pkgxCommitLockHandoff h.unLockInner (h.doInstall = .completed) h.lockInner
    ⟨true, true, o.executionBegan, o.committedOk⟩

/-- What the committer of a transaction adds to the log. -/
def txnEvents (cid : CStr) : Log :=
  .stamped (.ofMem ((CStr.lit "runix:").bytes ++ cid.bytes)) ::
    if !txnFetch h then []
    else .unLockInner h.unLockInner ::
      if h.unLockInner then [.doInstall, .lockInner h.lockInner] else []

theorem txnCommit_run (cid : CStr) (log : Log) : ∃ rc,
    ((txnCommit h cid).run ⟨false, false, false, false⟩).run log =
      pure ((rc, txnLeft h), log ++ txnEvents h cid) := by
  cases hfetch : txnFetch h with
  | false =>
    refine ⟨-1, ?_⟩
    simp [txnCommit, txnLeft, txnEvents, hfetch]
  | true =>
    refine ⟨if (txnLeft h).committedOk then 0 else -1, ?_⟩
    cases hunlock : h.unLockInner <;>
      simp [txnCommit, txnLeft, txnEvents, hfetch, hunlock, pkgxCommitLockHandoff]

theorem txnCommit_lawful :
    Mechanism.Lawful ⟨txnCommit h, ⟨false, false, false, false⟩, txnSettle h⟩ (· = .doInstall) where
  refused := by
    apply Commits.idle
    · simp
    · simp
    · rfl
    · simp [txnSettle, pkgxTxnClassify]
  committed := by
    intro cid log
    obtain ⟨rc, hrun⟩ := txnCommit_run h cid log
    refine ⟨rc, txnLeft h, txnEvents h cid, hrun, ?_⟩
    by_cases hinstall : txnFetch h = true ∧ h.unLockInner = true
    · obtain ⟨hfetch, hunlock⟩ := hinstall
      have hleft : txnLeft h = ⟨true, true, true, (h.doInstall = .completed) && h.lockInner⟩ := by
        simp [txnLeft, hfetch, hunlock, pkgxCommitLockHandoff]
      have hevents : txnEvents h cid =
          [.stamped (.ofMem ((CStr.lit "runix:").bytes ++ cid.bytes)), .unLockInner true,
            .doInstall, .lockInner h.lockInner] := by
        simp [txnEvents, hfetch, hunlock]
      rw [hleft, hevents]
      apply Commits.issued
      · exact ⟨.doInstall, by simp, rfl⟩
      · intro pre post hlog
        rcases pre with _ | ⟨x, _ | ⟨y, pre⟩⟩
        · simp at hlog
        · simp at hlog
        · simp only [List.cons_append, List.cons.injEq] at hlog
          simp [← hlog.2.1]
      · rfl
      · exact pkgxTxnClassify_began _ _
    · have hbegan : (txnLeft h).executionBegan = false := by
        cases hfetch : txnFetch h <;> cases hunlock : h.unLockInner <;>
          simp_all [txnLeft, pkgxCommitLockHandoff]
      have hnot : .doInstall ∉ txnEvents h cid := by
        cases hfetch : txnFetch h <;> cases hunlock : h.unLockInner <;> simp_all [txnEvents]
      apply Commits.idle
      · exact fun e he hstep => hnot (hstep ▸ he)
      · exact hnot
      · exact hbegan
      · simp only [txnSettle, hbegan]
        cases (txnLeft h).entered <;> simp [pkgxTxnClassify]

theorem updateCommit_lawful :
    Mechanism.Lawful ⟨updateCommit h, ⟨false, false⟩, updateSettle h⟩ (· = .listUpdate) where
  refused := by
    apply Commits.idle
    · simp
    · simp
    · rfl
    · simp [updateSettle, pkgxUpdateClassify]
  committed := by
    intro cid log
    refine ⟨_, ⟨true, h.listUpdate⟩, [.listUpdate], rfl, ?_⟩
    apply Commits.issued
    · exact ⟨.listUpdate, by simp, rfl⟩
    · exact handedOff_of_notMem (by simp)
    · rfl
    · cases hl : h.listUpdate <;> cases hr : indexesReadable h <;>
        simp [updateSettle, pkgxUpdateClassify, hr]

/-- The start of a dpkg child with the given arguments. -/
def Spawns (args : List CStr) (e : Event) : Prop :=
  ∃ env, e = .child (.spawned (dpkgPath h :: args) env)

section Dpkg

variable (args : List CStr) (input : Option CStr)

/-- The one call of the spawn helper. -/
def dpkgChild : SpawnOut :=
  pkgxSpawnWaitEnv h.os (dpkgPath h :: args) input (some [.lit "DPKG_FRONTEND_LOCKED=true"])

/-- The context that a committer which runs dpkg leaves. -/
def dpkgLeft : DpkgCommitCtx :=
  if !h.unLockInner then ⟨true, false, false⟩
  else ⟨true, (dpkgChild h args input).started,
    (dpkgChild h args input).rc = 0 && h.lockInner⟩

/-- What a committer which runs dpkg adds to the log. -/
def dpkgEvents : Log :=
  .unLockInner h.unLockInner ::
    if !h.unLockInner then []
    else (dpkgChild h args input).events.map .child ++ [.lockInner h.lockInner]

theorem dpkgCommit_run (log : Log) : ∃ rc,
    ((dpkgCommit h args input).run ⟨false, false, false⟩).run log =
      pure ((rc, dpkgLeft h args input), log ++ dpkgEvents h args input) := by
  cases hunlock : h.unLockInner with
  | false =>
    refine ⟨-1, ?_⟩
    simp [dpkgCommit, dpkgLeft, dpkgEvents, hunlock]
  | true =>
    refine ⟨if (dpkgChild h args input).rc = 0 ∧ h.lockInner = true then 0 else -1, ?_⟩
    simp [dpkgCommit, dpkgLeft, dpkgEvents, ← dpkgChild.eq_def, hunlock]

end Dpkg

/-- A committer that runs dpkg is lawful where its context is read as `*effect_issued` and a
status that reports success only for a child that ran. -/
theorem dpkgCommit_lawful {args : List CStr} {input : Option CStr}
    {settle : DpkgCommitCtx → Settled} (hissued : ∀ cc, (settle cc).effectIssued = cc.issued)
    (hidle : ∀ entered, (settle ⟨entered, false, false⟩).status ≠ .ok)
    (hstatus : ∀ ran, (settle ⟨true, true, ran⟩).status = .ok ∨
      (settle ⟨true, true, ran⟩).status = .commitFailed ∨
      (settle ⟨true, true, ran⟩).status = .broken) :
    Mechanism.Lawful ⟨fun _ => dpkgCommit h args input, ⟨false, false, false⟩, settle⟩
      (Spawns h args) where
  refused := by
    apply Commits.idle
    · simp
    · simp
    · exact hissued _
    · exact hidle false
  committed := by
    intro cid log
    obtain ⟨rc, hrun⟩ := dpkgCommit_run h args input log
    refine ⟨rc, dpkgLeft h args input, dpkgEvents h args input, hrun, ?_⟩
    cases hunlock : h.unLockInner with
    | false =>
      simp only [dpkgLeft, dpkgEvents, hunlock]
      apply Commits.idle
      · simp [Spawns]
      · simp
      · exact hissued _
      · exact hidle true
    | true =>
      simp only [dpkgLeft, dpkgEvents, hunlock]
      rcases pkgxSpawnWaitEnv_cases h.os (dpkgPath h :: args) input
        (some [.lit "DPKG_FRONTEND_LOCKED=true"]) with hfailed | ⟨hstarted, env, rest, hevents, -⟩
      · rw [dpkgChild, hfailed]
        apply Commits.idle
        · simp [Spawns]
        · simp
        · exact hissued _
        · exact hidle true
      · rw [dpkgChild, hevents, hstarted]
        apply Commits.issued
        · exact ⟨.child (.spawned (dpkgPath h :: args) env), by simp, env, rfl⟩
        · exact handedOff_of_notMem (by simp)
        · exact hissued _
        · exact hstatus _

theorem holdCommit_lawful (payload : CStr) (changes : List PkgxHoldHolder) :
    Mechanism.Lawful ⟨holdCommit h payload, ⟨false, false, false⟩, holdSettle h changes⟩
      (Spawns h [.lit "--set-selections"]) := by
  apply dpkgCommit_lawful
  · exact fun _ => rfl
  · intro entered
    cases entered <;> simp [holdSettle, pkgxHoldClassify]
  · intro ran
    exact (pkgxHoldClassify_entered ran _).imp_right .inl

theorem configureCommit_lawful :
    Mechanism.Lawful ⟨configureCommit h, ⟨false, false, false⟩, configureSettle h⟩
      (Spawns h [.lit "--configure", .lit "--pending"]) := by
  apply dpkgCommit_lawful
  · exact fun _ => rfl
  · intro entered hok
    exact absurd (pkgxTxnClassify_ok hok) (by simp)
  · exact fun ran => pkgxTxnClassify_began ran _

end Committers

/-- How a run can go. `echoed` is `out_cid` as the entry of the effector leaves it. -/
inductive Course (J : Jansson) (h : AptHost) (g : Grant) (echoed : OutCid)
    (step : Event → Prop) : EffectOut × Log → Prop where
  /-- A return before the plan step, or a plan step that settles the plan by itself. -/
  | unspent {status : AptStatus} {detail : CStr} (hstatus : status ≠ .ok) :
    Course J h g echoed step (⟨status, echoed, false, detail, none⟩, [])
  /-- The redemption fails. -/
  | unredeemed {r : RedeemOut} {detail : CStr} {log : Log} (hr : r.status ≠ .ok)
    (hout : r.outCid = echoed) (hlog : ∀ e ∈ log, ∃ body, e = .transport body) :
    Course J h g echoed step
      (⟨.noIntent, (settleRedeem g.expectedCid r).outCid, false, detail, some r.status⟩, log)
  /-- The broker redeems the receipt, and the mechanism goes on to the gate. -/
  | redeemed {verb resource hash body : CStr} {s : Settled} {es : Log}
    (hbody : buildRequest J
      ⟨g.effectReceipt, g.principalUid, verb, resource, g.planSchema, hash⟩ = some body)
    (hreply : Redeems J g.expectedCid (h.reply body))
    (hlen : g.expectedCid.length = cidLen) (hes : Commits step es s) :
    Course J h g echoed step
      (⟨s.status, .ofStr _ g.expectedCid, s.effectIssued, s.detail, some .ok⟩,
        .transport body :: es)

section Courses

variable {J : Jansson} {E : Evp} {h : AptHost} {g : Grant} {step : Event → Prop} {κ : Type}
  {M : Mechanism κ}

/-- The context and the log behind the gate: the committer runs for a cid that matches its
grammar. -/
def Mechanism.gated (M : Mechanism κ) (cid : CStr) (log : Log) : κ × Log :=
  if pkgxCidValid (some cid) then
    let r : (ℤ × κ) × Log := ((M.commit cid).run M.start).run log
    (r.1.2, r.2)
  else (M.start, log)

/-- The gate behind a plan that went well. -/
theorem gate_run (M : Mechanism κ) (cid : CStr) (log : Log) :
    ∃ status, ((pkgxEffectGate .ok (some cid) (some M.commit)).run M.start).run log =
      pure ((status, (M.gated cid log).1), (M.gated cid log).2) := by
  cases hcid : pkgxCidValid (some cid) with
  | false =>
    refine ⟨.commitFailed, ?_⟩
    simp [pkgxEffectGate, Mechanism.gated, hcid]
  | true =>
    obtain ⟨r, hr⟩ : ∃ r : (ℤ × κ) × Log, ((M.commit cid).run M.start).run log = pure r := ⟨_, rfl⟩
    have hgated : M.gated cid log = (r.1.2, r.2) := by
      rw [Mechanism.gated, if_pos hcid, hr]
      rfl
    refine ⟨if r.1.1 ≠ 0 then .commitFailed else .ok, ?_⟩
    rw [hgated]
    simp [pkgxEffectGate, hcid, hr]

/-- A lawful mechanism only adds to the log. -/
theorem Mechanism.Lawful.gated (hM : M.Lawful step) (cid : CStr) (log : Log) :
    ∃ es, (M.gated cid log).2 = log ++ es ∧ Commits step es (M.settle (M.gated cid log).1) := by
  cases hcid : pkgxCidValid (some cid) with
  | false =>
    refine ⟨[], ?_⟩
    simpa [Mechanism.gated, hcid] using hM.refused
  | true =>
    obtain ⟨rc, cc, es, hrun, hes⟩ := hM.committed cid log
    refine ⟨es, ?_⟩
    rw [Mechanism.gated, if_pos hcid, hrun]
    exact ⟨rfl, hes⟩

theorem planStatus_settled {result : PlanResult} (h : result ≠ .ok) :
    ∃ status, planStatus result = some status ∧ status ≠ .ok := by
  cases result <;> simp_all [planStatus]

/-- A plan that is settled without the broker is reported as such. -/
theorem planAndCommit_settled {call : PlanCall} {result : PlanResult} {detail : Option CStr}
    (hv : call.verdict E = .settled result detail) (echoed : OutCid) (M : Mechanism κ) :
    ∃ status, status ≠ .ok ∧ (planAndCommit J E h g echoed call M).run [] =
      pure (⟨status, echoed, false, pkgxDetailSet detail, none⟩, []) := by
  obtain ⟨status, hstatus, hne⟩ := planStatus_settled (PlanCall.verdict_settled hv).1
  refine ⟨status, hne, ?_⟩
  simp [planAndCommit, PlanCall.run_settled hv, hstatus]

/-- The three courses, with what lies behind the gate left to the mechanism. -/
theorem planAndCommit_cases (echoed : OutCid) (call : PlanCall) (M : Mechanism κ) :
    (∃ status detail, status ≠ .ok ∧ (planAndCommit J E h g echoed call M).run [] =
      pure (⟨status, echoed, false, detail, none⟩, [])) ∨
    (∃ (r : RedeemOut) (detail : CStr) (log : Log), r.status ≠ .ok ∧ r.outCid = echoed ∧
      (∀ e ∈ log, ∃ body, e = .transport body) ∧ (planAndCommit J E h g echoed call M).run [] =
        pure (⟨.noIntent, (settleRedeem g.expectedCid r).outCid, false, detail, some r.status⟩,
          log)) ∨
    (∃ verb resource hash body, call.verdict E = .spend verb resource hash ∧
      buildRequest J
        ⟨g.effectReceipt, g.principalUid, verb, resource, g.planSchema, hash⟩ = some body ∧
      Redeems J g.expectedCid (h.reply body) ∧ g.expectedCid.length = cidLen ∧
      (planAndCommit J E h g echoed call M).run [] =
        pure (⟨(M.settle (M.gated g.expectedCid [.transport body]).1).status,
          .ofStr _ g.expectedCid,
          (M.settle (M.gated g.expectedCid [.transport body]).1).effectIssued,
          (M.settle (M.gated g.expectedCid [.transport body]).1).detail, some .ok⟩,
          (M.gated g.expectedCid [.transport body]).2)) := by
  cases hv : call.verdict E with
  | settled result detail =>
    obtain ⟨status, hne, hrun⟩ := planAndCommit_settled hv echoed M
    exact .inl ⟨status, _, hne, hrun⟩
  | spend verb resource hash =>
    cases hb : buildRequest J
        ⟨g.effectReceipt, g.principalUid, verb, resource, g.planSchema, hash⟩ with
    | none =>
      have hrun : (planAndCommit J E h g echoed call M).run [] =
          pure (⟨.noIntent, echoed.clear, false, pkgxDetailSet (some (.lit "protocol")),
            some .protocol⟩, []) := by
        simp [planAndCommit, PlanCall.run_spend hv, hb, planStatus]
      exact .inr (.inl ⟨⟨.protocol, .lit "protocol", echoed⟩, _, [], by simp, rfl, by simp, hrun⟩)
    | some body =>
      obtain ⟨r, hr⟩ : ∃ r, r = classifyReply J g.expectedCid echoed (h.reply body) := ⟨_, rfl⟩
      have hplan : StateT.run (call.run J E g h.tx echoed) [] =
          pure (settleRedeem g.expectedCid r, [.transport body]) := by
        rw [PlanCall.run_spend hv, hb, hr]
        rfl
      rcases classifyReply_outCid J g.expectedCid echoed (h.reply body) with
        ⟨hstatus, hout⟩ | ⟨hstatus, hout⟩
      · obtain ⟨hreply, hlen⟩ := classifyReply_ok_iff.mp hstatus
        rw [← hr] at hstatus hout
        have hstr : (CharBuf.ofStr (cidLen + 1) g.expectedCid).str = g.expectedCid :=
          CharBuf.str_ofStr (by omega)
        obtain ⟨status, hgate⟩ := gate_run M g.expectedCid [.transport body]
        refine .inr (.inr ⟨verb, resource, hash, body, rfl, hb, hreply, hlen, ?_⟩)
        simp [planAndCommit, hplan, settleRedeem, hstatus, hout, planStatus, hstr, hgate]
      · rw [← hr] at hstatus hout
        have hrun : (planAndCommit J E h g echoed call M).run [] =
            pure (⟨.noIntent, (settleRedeem g.expectedCid r).outCid, false,
              pkgxDetailSet (some r.code), some r.status⟩, [.transport body]) := by
          rw [planAndCommit, StateT.run_bind, hplan, settleRedeem_failed hstatus]
          rfl
        exact .inr (.inl ⟨r, _, _, hstatus, hout, by simp, hrun⟩)

theorem planAndCommit_course (hM : M.Lawful step) (echoed : OutCid) (call : PlanCall) :
    Course J h g echoed step ((planAndCommit J E h g echoed call M).run []) := by
  rcases planAndCommit_cases (J := J) (E := E) (h := h) (g := g) echoed call M with
    ⟨status, detail, hne, hrun⟩ | ⟨r, detail, log, hr, hout, hlog, hrun⟩ |
    ⟨verb, resource, hash, body, -, hb, hreply, hlen, hrun⟩
  · rw [hrun]
    exact .unspent hne
  · rw [hrun]
    exact .unredeemed hr hout hlog
  · obtain ⟨es, hlog, hes⟩ := hM.gated g.expectedCid [.transport body]
    rw [hrun, hlog]
    exact .redeemed hb hreply hlen hes

/-- An effector whose mechanism is lawful takes one of the three courses. -/
theorem effect_course {prepared : Except Exit (PlanCall × Mechanism κ)}
    (hM : ∀ call M, prepared = .ok (call, M) → M.Lawful step) (outCid : OutCid) :
    Course J h g (pkgxCidEcho outCid (some g.expectedCid)) step
      ((effect J E h g outCid prepared).run []) := by
  cases prepared with
  | error e => exact .unspent e.notOk
  | ok p => exact planAndCommit_course (hM p.1 p.2 rfl) _ p.1

end Courses

end Pkgexec.Apt
