import Pkgexec.EffectOutcomes

/-!
# What an effector spends

An effector asks the broker once at most, for the plan it has resolved and with the receipt it
was granted, and goes on only where the reply redeems it. Behind the gate nothing is sent, and
the only program that is started is dpkg.
-/

namespace Pkgexec.Apt
open CStrings JsonValues PlanDigest Redeem Plan Request Effect Spawn

/-- The environment of a dpkg child. -/
def dpkgEnv (h : AptHost) : List CStr := .lit "DPKG_FRONTEND_LOCKED=true" :: h.os.environ

/-- What may happen once the gate is open: no request to the broker, and no child but dpkg with
one of two command lines. -/
def BehindGate (h : AptHost) : Event → Prop
  | .transport _ => False
  | .child (.spawned argv env) => env = dpkgEnv h ∧
    (argv = [dpkgPath h, .lit "--set-selections"] ∨
      argv = [dpkgPath h, .lit "--configure", .lit "--pending"])
  | _ => True

/-- Whatever the gate lets through keeps to that. -/
def Mechanism.Confined {κ : Type} (M : Mechanism κ) (h : AptHost) : Prop :=
  ∀ cid log, ∃ es, (M.gated cid log).2 = log ++ es ∧ ∀ e ∈ es, BehindGate h e

section Confined

variable {h : AptHost}

/-- A child gets the arguments it is started with and the environment that was built. -/
theorem spawned_env {os : SpawnOs} {argv args env : List CStr} {input : Option CStr}
    {extraEnv : Option (List CStr)}
    (hmem : .spawned args env ∈ (pkgxSpawnWaitEnv os argv input extraEnv).events) :
    args = argv ∧ childEnv os extraEnv = some env := by
  by_cases hstarts : argv ≠ [] ∧ os.Starts input extraEnv
  · obtain ⟨env', henv⟩ := Option.isSome_iff_exists.mp hstarts.2.env
    rcases pkgxSpawnWaitEnv_cases os argv input extraEnv with hfailed | ⟨-, env₁, rest, hev, hrest⟩
    · rw [hfailed] at hmem
      exact absurd hmem List.not_mem_nil
    · rw [hev] at hmem
      rcases List.mem_cons.mp hmem with heq | hmem
      · obtain ⟨rfl, rfl⟩ := SpawnEvent.spawned.inj heq
        refine ⟨rfl, ?_⟩
        have hargv : args.isEmpty = false := by simpa using hstarts.1
        simp only [pkgxSpawnWaitEnv, hargv, henv, Bool.false_eq_true, if_false] at hev
        rw [henv, Option.some_inj]
        split at hev
        · cases hev
        split at hev
        · cases hev
        split at hev
        · cases hev
        split at hev
        · cases hev
        · exact (SpawnEvent.spawned.inj (List.cons.inj hev).1).2
      · exact absurd (hrest _ hmem) (by simp [SpawnEvent.isSpawned])
  · rcases pkgxSpawnWaitEnv_course os argv input extraEnv with ⟨h, -⟩ | ⟨-, hrun⟩
    · exact absurd h hstarts
    · rw [hrun] at hmem
      exact absurd hmem List.not_mem_nil

theorem behindGate_txnEvents (cid : CStr) : ∀ e ∈ txnEvents h cid, BehindGate h e := by
  intro e he
  rw [txnEvents] at he
  rcases List.mem_cons.mp he with rfl | he
  · trivial
  cases hfetch : txnFetch h with
  | false => simp [hfetch] at he
  | true =>
    simp only [hfetch, Bool.not_true, Bool.false_eq_true, if_false] at he
    rcases List.mem_cons.mp he with rfl | he
    · trivial
    · split at he
      · simp only [List.mem_cons, List.not_mem_nil, or_false] at he
        rcases he with rfl | rfl <;> trivial
      · exact absurd he List.not_mem_nil

theorem behindGate_dpkgEvents {args : List CStr} (input : Option CStr)
    (hargs : args = [.lit "--set-selections"] ∨ args = [.lit "--configure", .lit "--pending"]) :
    ∀ e ∈ dpkgEvents h args input, BehindGate h e := by
  intro e he
  rw [dpkgEvents] at he
  rcases List.mem_cons.mp he with rfl | he
  · trivial
  split at he
  · exact absurd he List.not_mem_nil
  rcases List.mem_append.mp he with he | he
  · obtain ⟨e', he', rfl⟩ := List.mem_map.mp he
    cases e' with
    | spawned argv env =>
      obtain ⟨rfl, henv⟩ := spawned_env he'
      refine ⟨?_, hargs.imp (by rintro rfl; rfl) (by rintro rfl; rfl)⟩
      rw [childEnv, buildChildEnv] at henv
      split at henv
      · exact (Option.some_inj.mp henv).symm
      · cases henv
    | sigpipeIgnored => trivial
    | wrote chunk => trivial
    | sigpipeRestored ok => trivial
    | waited status => trivial
  · rw [List.mem_singleton.mp he]
    trivial

/-- A committer that runs behind the gate or not at all. -/
theorem Mechanism.confined_of_gated {κ : Type} {M : Mechanism κ} (left : κ) (events : CStr → Log)
    (hgated : ∀ cid log, M.gated cid log =
      if pkgxCidValid (some cid) then (left, log ++ events cid) else (M.start, log))
    (hevents : ∀ cid, ∀ e ∈ events cid, BehindGate h e) : M.Confined h := by
  intro cid log
  rw [hgated]
  split
  · exact ⟨events cid, rfl, hevents cid⟩
  · exact ⟨[], by simp, by simp⟩

theorem prepareTxn_confined {verb : CStr} {targets : List CStr} {call : PlanCall}
    {M : Mechanism TxnCommitCtx} (hp : prepareTxn h verb targets = .ok (call, M)) :
    M.Confined h := by
  rw [Effector.prepareTxn_ok hp]
  exact Mechanism.confined_of_gated _ _ (txn_gated h) behindGate_txnEvents

theorem prepareUpdate_confined {E : Evp} {token : Option CStr} {call : PlanCall}
    {M : Mechanism UpdateCommitCtx} (hp : prepareUpdate E h token = .ok (call, M)) :
    M.Confined h := by
  rw [Effector.prepareUpdate_ok hp]
  refine Mechanism.confined_of_gated ⟨true, h.listUpdate⟩ (fun _ => [.listUpdate])
    (fun cid log => Mechanism.gated_of_run ⟨_, rfl⟩) fun _ e he => ?_
  rw [List.mem_singleton.mp he]
  trivial

theorem prepareHold_confined {verb : CStr} {targets : List CStr} {call : PlanCall}
    {M : Mechanism DpkgCommitCtx} (hp : prepareHold h verb targets = .ok (call, M)) :
    M.Confined h := by
  obtain ⟨-, changes, -, -, -, -, hM⟩ := Effector.prepareHold_ok hp
  rw [hM]
  exact Mechanism.confined_of_gated _ (fun _ => _) (fun cid log => hold_gated h cid log _ _)
    fun _ => behindGate_dpkgEvents _ (.inl rfl)

theorem prepareConfigure_confined {call : PlanCall} {M : Mechanism DpkgCommitCtx}
    (hp : prepareConfigure h = .ok (call, M)) : M.Confined h := by
  rw [Effector.prepareConfigure_ok hp]
  exact Mechanism.confined_of_gated _ (fun _ => _) (configure_gated h)
    fun _ => behindGate_dpkgEvents _ (.inr rfl)

end Confined

/-- The plan step that an effector prepares. -/
def Effector.planned (E : Evp) (h : AptHost) : Effector → Except Exit PlanCall
  | txn verb targets => (prepareTxn h verb targets).map Prod.fst
  | update token => (prepareUpdate E h token).map Prod.fst
  | hold verb targets => (prepareHold h verb targets).map Prod.fst
  | configure => (prepareConfigure h).map Prod.fst

/-- The request is for the operation, the resource and the hash of the plan, with the receipt
and the uid of the grant. -/
structure Spending (J : Jansson) (E : Evp) (g : Grant) (planned : Except Exit PlanCall)
    (verb resource hash body : CStr) : Prop where
  plan : ∃ call, planned = .ok call ∧ call.verdict E = .spend verb resource hash
  request : buildRequest J
    ⟨g.effectReceipt, g.principalUid, verb, resource, g.planSchema, hash⟩ = some body

/-- Why nothing is sent: there is no plan, it is settled without the broker, or the request for
it cannot be built. -/
inductive Unsent (J : Jansson) (E : Evp) (g : Grant) : Except Exit PlanCall → AptStatus → Prop where
  | failed (e : Exit) : Unsent J E g (.error e) e.status
  | settled {call : PlanCall} {result : PlanResult} {detail : Option CStr} {status : AptStatus}
    (hverdict : call.verdict E = .settled result detail)
    (hstatus : planStatus result = some status) : Unsent J E g (.ok call) status
  | unbuilt {call : PlanCall} {verb resource hash : CStr}
    (hverdict : call.verdict E = .spend verb resource hash)
    (hbody : buildRequest J
      ⟨g.effectReceipt, g.principalUid, verb, resource, g.planSchema, hash⟩ = none) :
    Unsent J E g (.ok call) .noIntent

/-- How a run of an effector spends its receipt. -/
inductive Spends (J : Jansson) (E : Evp) (h : AptHost) (g : Grant) (step : Event → Prop)
    (planned : Except Exit PlanCall) : EffectOut × Log → Prop where
  | unsent {out : EffectOut} (hunsent : Unsent J E g planned out.status)
    (hissued : out.effectIssued = false) : Spends J E h g step planned (out, [])
  | refused {out : EffectOut} {verb resource hash body : CStr}
    (hspending : Spending J E g planned verb resource hash body)
    (hstatus : out.status = .noIntent) (hissued : out.effectIssued = false) :
    Spends J E h g step planned (out, [.transport body])
  | redeemed {verb resource hash body : CStr} {s : Settled} {es : Log}
    (hspending : Spending J E g planned verb resource hash body)
    (hreply : Redeems J g.expectedCid (h.reply body)) (hlen : g.expectedCid.length = cidLen)
    (hes : Commits step es s) (hconfined : ∀ e ∈ es, BehindGate h e) :
    Spends J E h g step planned
      (⟨s.status, .ofStr _ g.expectedCid, s.effectIssued, s.detail, some .ok⟩,
        .transport body :: es)

section Spends

variable {J : Jansson} {E : Evp} {h : AptHost} {g : Grant} {step : Event → Prop} {κ : Type}

theorem Unsent.of_error {e : Exit} {status : AptStatus} (h : Unsent J E g (.error e) status) :
    status = e.status := by
  cases h
  rfl

theorem Unsent.of_ok {call : PlanCall} {status : AptStatus} (h : Unsent J E g (.ok call) status) :
    (∃ result detail, call.verdict E = .settled result detail ∧ planStatus result = some status) ∨
      ∃ verb resource hash, call.verdict E = .spend verb resource hash ∧
        buildRequest J
          ⟨g.effectReceipt, g.principalUid, verb, resource, g.planSchema, hash⟩ = none ∧
        status = .noIntent := by
  cases h with
  | settled hverdict hstatus => exact .inl ⟨_, _, hverdict, hstatus⟩
  | unbuilt hverdict hbody => exact .inr ⟨_, _, _, hverdict, hbody, rfl⟩

theorem Unsent.not_ok {planned : Except Exit PlanCall} {status : AptStatus}
    (h : Unsent J E g planned status) : status ≠ .ok := by
  cases h with
  | failed e => exact e.notOk
  | settled hverdict hstatus =>
    obtain ⟨status', hstatus', hne⟩ := planStatus_settled (PlanCall.verdict_settled hverdict).1
    rw [hstatus, Option.some_inj] at hstatus'
    exact hstatus' ▸ hne
  | unbuilt hverdict hbody => simp

/-- Success is an effect, and an effect is reported in one of three ways. -/
theorem Spends.status {planned : Except Exit PlanCall} {run : EffectOut × Log}
    (hrun : Spends J E h g step planned run) :
    (run.1.status = .ok → run.1.effectIssued = true) ∧ (run.1.effectIssued = true →
      run.1.status = .ok ∨ run.1.status = .commitFailed ∨ run.1.status = .broken) := by
  cases hrun with
  | unsent hunsent hissued => simp [hunsent.not_ok, hissued]
  | refused hspending hstatus hissued => simp [hstatus, hissued]
  | redeemed hspending hreply hlen hes hconfined => exact ⟨hes.issued_of_ok, hes.status_of_issued⟩

/-- A run of a prepared plan: settled by itself, or spent. -/
theorem Spends.of_planned {call : PlanCall} {run : EffectOut × Log}
    (hs : Spends J E h g step (.ok call) run) :
    (∃ result detail, call.verdict E = .settled result detail ∧
        planStatus result = some run.1.status ∧ run.2 = []) ∨
      ∃ verb resource hash, call.verdict E = .spend verb resource hash ∧
        (buildRequest J ⟨g.effectReceipt, g.principalUid, verb, resource, g.planSchema, hash⟩ =
            none ∧ run.1.status = .noIntent ∧ run.2 = [] ∨
          ∃ body es, buildRequest J
            ⟨g.effectReceipt, g.principalUid, verb, resource, g.planSchema, hash⟩ = some body ∧
              run.2 = .transport body :: es) := by
  cases hs with
  | unsent hunsent hissued =>
    rcases hunsent.of_ok with ⟨result, detail, hverdict, hstatus⟩ |
      ⟨verb, resource, hash, hverdict, hbody, hstatus⟩
    · exact .inl ⟨result, detail, hverdict, hstatus, rfl⟩
    · exact .inr ⟨verb, resource, hash, hverdict, .inl ⟨hbody, hstatus, rfl⟩⟩
  | refused hspending hstatus hissued =>
    obtain ⟨call', hcall, hverdict⟩ := hspending.plan
    cases hcall
    exact .inr ⟨_, _, _, hverdict, .inr ⟨_, [], hspending.request, rfl⟩⟩
  | redeemed hspending hreply hlen hes hconfined =>
    obtain ⟨call', hcall, hverdict⟩ := hspending.plan
    cases hcall
    exact .inr ⟨_, _, _, hverdict, .inr ⟨_, _, hspending.request, rfl⟩⟩

theorem Spends.of_error {e : Exit} {run : EffectOut × Log}
    (hs : Spends J E h g step (.error e) run) :
    run.1.status = e.status ∧ run.2 = [] := by
  cases hs with
  | unsent hunsent hissued => exact ⟨hunsent.of_error, rfl⟩
  | refused hspending | redeemed hspending =>
    obtain ⟨call, hcall, -⟩ := hspending.plan
    cases hcall

theorem planAndCommit_spends {call : PlanCall} {M : Mechanism κ} (hlawful : M.Lawful step)
    (hconfined : M.Confined h) (echoed : OutCid) :
    Spends J E h g step (.ok call) ((planAndCommit J E h g echoed call M).run []) := by
  cases hv : call.verdict E with
  | settled result detail =>
    obtain ⟨status, hstatus, -⟩ := planStatus_settled (PlanCall.verdict_settled hv).1
    have hrun : (planAndCommit J E h g echoed call M).run [] =
        pure (⟨status, echoed, false, pkgxDetailSet detail, none⟩, []) := by
      simp [planAndCommit, PlanCall.run_settled hv, hstatus]
    rw [hrun]
    exact .unsent (.settled hv hstatus) rfl
  | spend verb resource hash =>
    cases hb : buildRequest J
        ⟨g.effectReceipt, g.principalUid, verb, resource, g.planSchema, hash⟩ with
    | none =>
      have hrun : (planAndCommit J E h g echoed call M).run [] =
          pure (⟨.noIntent, echoed.clear, false, pkgxDetailSet (some (.lit "protocol")),
            some .protocol⟩, []) := by
        simp [planAndCommit, PlanCall.run_spend hv, hb, planStatus]
      rw [hrun]
      exact .unsent (.unbuilt hv hb) rfl
    | some body =>
      have hspending : Spending J E g (.ok call) verb resource hash body := ⟨⟨call, rfl, hv⟩, hb⟩
      obtain ⟨r, hr⟩ : ∃ r, r = classifyReply J g.expectedCid echoed (h.reply body) := ⟨_, rfl⟩
      have hplan : StateT.run (call.run J E g h.tx echoed) [] =
          pure (settleRedeem g.expectedCid r, [.transport body]) := by
        rw [PlanCall.run_spend hv, hb, hr]
        rfl
      by_cases hok : r.status = .ok
      · obtain ⟨hreply, hlen⟩ := classifyReply_ok_iff.mp (hr ▸ hok)
        have hout : r.outCid = .ofStr _ g.expectedCid := by
          rcases classifyReply_outCid J g.expectedCid echoed (h.reply body) with ⟨-, h⟩ | ⟨h, -⟩
          · rw [hr, h]
          · exact absurd (hr ▸ hok) h
        have hstr : (CharBuf.ofStr (cidLen + 1) g.expectedCid).str = g.expectedCid :=
          CharBuf.str_ofStr (by omega)
        obtain ⟨status, hgate⟩ := gate_run M g.expectedCid [.transport body]
        obtain ⟨es, hlog, hes⟩ := hlawful.gated g.expectedCid [.transport body]
        obtain ⟨es', hlog', hes'⟩ := hconfined g.expectedCid [.transport body]
        obtain rfl : es = es' := List.append_cancel_left (hlog.symm.trans hlog')
        have hrun : (planAndCommit J E h g echoed call M).run [] =
            pure (⟨(M.settle (M.gated g.expectedCid [.transport body]).1).status,
              .ofStr _ g.expectedCid,
              (M.settle (M.gated g.expectedCid [.transport body]).1).effectIssued,
              (M.settle (M.gated g.expectedCid [.transport body]).1).detail, some .ok⟩,
              .transport body :: es) := by
          simp [planAndCommit, hplan, settleRedeem, hok, hout, planStatus, hstr, hgate, hlog]
        rw [hrun]
        exact .redeemed hspending hreply hlen hes hes'
      · have hrun : (planAndCommit J E h g echoed call M).run [] =
            pure (⟨.noIntent, (settleRedeem g.expectedCid r).outCid, false,
              pkgxDetailSet (some r.code), some r.status⟩, [.transport body]) := by
          rw [planAndCommit, StateT.run_bind, hplan, settleRedeem_failed hok]
          rfl
        rw [hrun]
        exact .refused hspending rfl rfl

theorem effect_spends {prepared : Except Exit (PlanCall × Mechanism κ)}
    (hlawful : ∀ call M, prepared = .ok (call, M) → M.Lawful step)
    (hconfined : ∀ call M, prepared = .ok (call, M) → M.Confined h) (outCid : OutCid) :
    Spends J E h g step (prepared.map Prod.fst) ((effect J E h g outCid prepared).run []) := by
  cases prepared with
  | error e => exact .unsent (.failed e) rfl
  | ok p => exact planAndCommit_spends (hlawful p.1 p.2 rfl) (hconfined p.1 p.2 rfl) _

/-- Every run of an effector asks the broker once at most, for the plan it has prepared. -/
theorem Effector.run_spends (J : Jansson) (E : Evp) (h : AptHost) (g : Grant) (outCid : OutCid)
    (f : Effector) :
    Spends J E h g (f.Mutates h) (f.planned E h) (f.run J E h g outCid) := by
  cases f with
  | txn verb targets =>
    exact effect_spends (fun _ _ => prepareTxn_lawful) (fun _ _ => prepareTxn_confined) outCid
  | update token =>
    exact effect_spends (fun _ _ => prepareUpdate_lawful) (fun _ _ => prepareUpdate_confined) outCid
  | hold verb targets =>
    exact effect_spends (fun _ _ => prepareHold_lawful) (fun _ _ => prepareHold_confined) outCid
  | configure =>
    exact effect_spends (fun _ _ => prepareConfigure_lawful) (fun _ _ => prepareConfigure_confined)
      outCid

end Spends

/-- The operation of an effector. -/
def Effector.verb : Effector → CStr
  | txn verb _ => verb
  | update _ => .lit "apt.update"
  | hold verb _ => verb
  | configure => .lit "apt.configure"

/-- The resource that an effector names to the broker. -/
def Effector.resource : Effector → Option CStr
  | txn _ targets => pkgxResource (targets.map some)
  | update token => some (orEmpty token)
  | hold _ targets => pkgxResource (targets.map some)
  | configure => some (.lit "pending")

theorem planned_eq_ok {κ : Type} {prepared : Except Exit (PlanCall × κ)} {call : PlanCall}
    (h : prepared.map Prod.fst = .ok call) : ∃ M, prepared = .ok (call, M) := by
  cases prepared with
  | error e => cases h
  | ok p => exact ⟨p.2, congrArg Except.ok (Prod.ext (Except.ok.inj h) rfl)⟩

/-- The plan steps of an effector, over whatever its builder has mapped. -/
inductive Effector.Plans (E : Evp) (h : AptHost) : Effector → PlanCall → Prop where
  | txn {verb : CStr} {targets : List CStr} {c : PkgCache} {dc : PkgDepCache}
    (hcache : h.cache.pkgCache = some c) (hresolve : resolveTxn h verb targets c = .ok dc) :
    Plans E h (txn verb targets) (.txn (some verb) (pkgxAptMapTxn c dc) (targets.map some))
  | update {token : Option CStr} {list : List (Option MetaIndex)}
    (hsources : h.sources = some list) :
    Plans E h (update token) (.update (pkgxAptMapSources E list) token)
  | hold {verb : CStr} {targets : List CStr} {c : PkgCache} {changes : List PkgxHoldHolder}
    {recs : List HoldRecord} (hcache : h.cache.pkgCache = some c)
    (hmap : pkgxAptMapHold c targets (verb = .lit "apt.hold") = .ok (changes, recs)) :
    Plans E h (hold verb targets) (.hold (some verb) recs (targets.map some))
  | configure {c : PkgCache} {holders : List PkgxCfgHolder} {cfgs : List CfgRecord}
    (hcache : h.cache.pkgCache = some c)
    (hmap : pkgxAptMapConfigure c = .ok (holders, cfgs)) : Plans E h configure (.configure cfgs)

theorem Effector.plans_of_planned {E : Evp} {h : AptHost} {f : Effector} {call : PlanCall}
    (hf : f.planned E h = .ok call) : f.Plans E h call := by
  cases f with
  | txn verb targets =>
    obtain ⟨M, hp⟩ := planned_eq_ok hf
    simp only [prepareTxn, bind_eq_ok, present_eq_ok, pure, Except.pure, Except.ok.injEq,
      Prod.mk.injEq] at hp
    obtain ⟨-, -, -, -, -, -, -, -, c, hcache, -, -, dc, hresolve, rfl, -⟩ := hp
    exact .txn hcache hresolve
  | update token =>
    obtain ⟨M, hp⟩ := planned_eq_ok hf
    simp only [prepareUpdate, bind_eq_ok, present_eq_ok, pure, Except.pure, Except.ok.injEq,
      Prod.mk.injEq] at hp
    obtain ⟨-, -, -, -, -, -, list, hsources, rfl, -⟩ := hp
    exact .update hsources
  | hold verb targets =>
    obtain ⟨M, hp⟩ := planned_eq_ok hf
    obtain ⟨c, changes, recs, hcache, hmap, rfl, -⟩ := Effector.prepareHold_ok hp
    exact .hold hcache hmap
  | configure =>
    obtain ⟨M, hp⟩ := planned_eq_ok hf
    simp only [prepareConfigure, bind_eq_ok, present_eq_ok, pure, Except.pure, Except.ok.injEq,
      Prod.mk.injEq] at hp
    obtain ⟨-, -, -, -, -, -, c, hcache, ⟨holders, cfgs⟩, hmap, rfl, -⟩ := hp
    cases hr : pkgxAptMapConfigure c with
    | error name =>
      rw [hr] at hmap
      cases hmap
    | ok p =>
      rw [hr] at hmap
      exact .configure hcache (hr.trans (congrArg Except.ok (Except.ok.inj hmap)))

/-- The plan step is for the operation and the targets of the effector. -/
theorem Effector.planned_ok {E : Evp} {h : AptHost} {f : Effector} {call : PlanCall}
    (hf : f.planned E h = .ok call) : call.verb = f.verb ∧ call.resource = f.resource := by
  cases plans_of_planned hf with
  | txn hcache hresolve => exact ⟨rfl, rfl⟩
  | update hsources => exact ⟨rfl, rfl⟩
  | hold hcache hmap => exact ⟨rfl, rfl⟩
  | configure hcache hmap => exact ⟨rfl, rfl⟩

/-- The broker is asked for the operation and the resource of the effector. -/
theorem Spending.operation {J : Jansson} {E : Evp} {h : AptHost} {g : Grant} {f : Effector}
    {verb resource hash body : CStr}
    (hspending : Spending J E g (f.planned E h) verb resource hash body) :
    verb = f.verb ∧ f.resource = some resource := by
  obtain ⟨call, hcall, hspend⟩ := hspending.plan
  obtain ⟨-, -, rfl, hresource, -⟩ := PlanCall.verdict_eq_spend_iff.mp hspend
  obtain ⟨hverb, hres⟩ := Effector.planned_ok hcall
  exact ⟨hverb, hres ▸ hresource⟩

end Pkgexec.Apt
