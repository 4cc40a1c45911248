import Pkgexec.PlanSteps
import Pkgexec.ReplyClassification
import Pkgexec.RequestParsing

/-!
# The commit gate

A plan step followed by `pkgx_effect_gate`, run against a scripted broker and a scripted
committer that remember what they were handed. The receipt is spent at most once and only on
the plan that was checked, and the committer runs exactly on an authorised plan.
-/

namespace Pkgexec.Effect
open CStrings JsonValues PlanDigest Policy Redeem Plan Request

inductive EffectStatus where
  | ok
  | noOp
  | refused
  | commitFailed
  deriving DecidableEq

/-- The only path to a commit. -/
def pkgxEffectGate {m : Type → Type} [Monad m] (pr : PlanResult) (validatedCid : Option CStr)
    (commit : Option (CStr → m ℤ)) : m EffectStatus :=
  match pr with
  | .ok =>
    match commit, validatedCid with
    | some commit, some cid =>
      if !pkgxCidValid (some cid) then pure .commitFailed
      else do
        let rc ← commit cid
        pure (if rc ≠ 0 then .commitFailed else .ok)
    | _, _ => pure .commitFailed
  | .noOp => pure .noOp
  | _ => pure .refused

/-- What the broker has been sent and what the committer has been handed. -/
structure Host where
  sent : List CStr
  committed : List CStr

/-- The behaviour of the broker and of the committer, given everything so far. -/
structure Script where
  reply : Host → CStr → TxReply
  commitRc : Host → CStr → ℤ

def Script.tx (s : Script) (body : CStr) : StateM Host TxReply :=
  fun w => (s.reply w body, { w with sent := w.sent ++ [body] })

def Script.commit (s : Script) (cid : CStr) : StateM Host ℤ :=
  fun w => (s.commitRc w cid, { w with committed := w.committed ++ [cid] })

section Runs

variable (J : Jansson) (E : Evp) (g : Grant) (s : Script) (outCid : OutCid) (c : PlanCall)

/-- The plan step alone. -/
def planStep (w : Host) : PlanOut × Host := (c.run J E g s.tx outCid).run w

/-- The plan step and the gate on its result and its `out_cid`. -/
def planThenGate (w : Host) : EffectStatus × Host :=
  StateT.run (m := Id) (do
    let o ← c.run J E g s.tx outCid
    pkgxEffectGate o.result (some o.outCid.str) (some s.commit)) w

/-- The request the receipt would be spent with. -/
def requestFor (resource hash : CStr) : RedeemReq :=
  ⟨g.effectReceipt, g.principalUid, c.verb, resource, g.planSchema, hash⟩

end Runs

variable {J : Jansson} {E : Evp} {g : Grant} {s : Script} {outCid : OutCid} {c : PlanCall}
  {w : Host}

/-- A plan step that settles the plan leaves the world alone. -/
theorem planStep_settled {result : PlanResult} {detail : Option CStr}
    (h : c.verdict E = .settled result detail) :
    planStep J E g s outCid c w = (⟨result, outCid, detail, none⟩, w) := by
  rw [planStep, PlanCall.run_settled h]
  rfl

/-- A plan step that spends the receipt sends one body, if it can be built. -/
theorem planStep_spend {verb resource hash : CStr}
    (h : c.verdict E = .spend verb resource hash) :
    planStep J E g s outCid c w =
      match buildRequest J (requestFor g c resource hash) with
      | none => (⟨.noIntent, outCid.clear, some (.lit "protocol"), some .protocol⟩, w)
      | some body =>
        (settleRedeem g.expectedCid (classifyReply J g.expectedCid outCid (s.reply w body)),
          { w with sent := w.sent ++ [body] }) := by
  obtain ⟨-, -, rfl, -, -⟩ := PlanCall.verdict_eq_spend_iff.mp h
  rw [planStep, PlanCall.run_spend h, ← requestFor]
  cases buildRequest J (requestFor g c resource hash) <;> rfl

/-- A refused plan never spends the receipt, and a spent receipt is bound to the plan that
was checked: the transport is called at most once, only on a non-empty plan that passed its
policy and whose resource and digest were built, and with exactly that request. -/
theorem receipt_bound_to_plan (J : Jansson) (E : Evp) (g : Grant) (s : Script) (outCid : OutCid)
    (c : PlanCall) (w : Host) :
    ((planStep J E g s outCid c w).2.sent = w.sent ∧
        (planStep J E g s outCid c w).1.result ≠ .ok) ∨
      ∃ receipt resource d, c.NonEmpty ∧ c.PolicyPasses ∧ g.effectReceipt = some receipt ∧
        c.resource = some resource ∧ c.digest E = some d ∧
        (planStep J E g s outCid c w).2.sent = w.sent ++
          [J.dumps (.object [(.lit "type", .string (CStr.lit "redeem_receipt").bytes),
            (.lit "effect_receipt", .string receipt.bytes),
            (.lit "principal_uid", .integer g.principalUid.toNat),
            (.lit "effect", .object [(.lit "operation", .string c.verb.bytes),
              (.lit "resource", .string resource.bytes),
              (.lit "plan_schema", .integer g.planSchema),
              (.lit "plan_hash", .string d.hex.bytes)])])] := by
  cases hv : c.verdict E with
  | settled result detail =>
    rw [planStep_settled hv]
    exact .inl ⟨rfl, (PlanCall.verdict_settled hv).1⟩
  | spend verb resource hash =>
    obtain ⟨hne, hpolicy, -, hres, d, hd, rfl⟩ := PlanCall.verdict_eq_spend_iff.mp hv
    rw [planStep_spend hv]
    cases hb : buildRequest J (requestFor g c resource d.hex) with
    | none => exact .inl ⟨rfl, by simp⟩
    | some body =>
      obtain ⟨receipt, hreceipt, -, -, -, -, hbody⟩ := buildRequest_eq_some_iff.mp hb
      refine .inr ⟨receipt, resource, d, hne, hpolicy, hreceipt, hres, hd, ?_⟩
      rw [← hbody]
      rfl

/-- The plan is authorised: it is non-empty, it passes its policy, its resource and digest are
constructed, the broker answered the request for exactly this plan by redeeming the receipt
under the expected cid, and that cid matches its grammar. -/
structure Authorised (J : Jansson) (E : Evp) (g : Grant) (s : Script) (c : PlanCall)
    (w : Host) : Prop where
  nonEmpty : c.NonEmpty
  policy : c.PolicyPasses
  exchange : ∃ resource d body, c.resource = some resource ∧ c.digest E = some d ∧
    buildRequest J (requestFor g c resource d.hex) = some body ∧
    Redeems J g.expectedCid (s.reply w body)
  cid : CidGrammar g.expectedCid

/-- The gate on the outcome of a plan step. -/
theorem planThenGate_eq :
    planThenGate J E g s outCid c w =
      StateT.run (m := Id) (pkgxEffectGate (planStep J E g s outCid c w).1.result
        (some (planStep J E g s outCid c w).1.outCid.str) (some s.commit))
        (planStep J E g s outCid c w).2 := rfl

/-- No result but `PKGX_PLAN_OK` reaches the committer. -/
theorem gate_closed {pr : PlanResult} (h : pr ≠ .ok) (cid : Option CStr)
    (commit : Option (CStr → StateM Host ℤ)) (w : Host) :
    (StateT.run (m := Id) (pkgxEffectGate pr cid commit) w).2 = w ∧
      (StateT.run (m := Id) (pkgxEffectGate pr cid commit) w).1 ≠ .ok := by
  cases pr with
  | ok => exact absurd rfl h
  | _ => exact ⟨rfl, by simp [pkgxEffectGate]⟩

/-- A malformed cid does not reach the committer either. -/
theorem gate_malformed {cid : CStr} (h : pkgxCidValid (some cid) = false)
    (commit : CStr → StateM Host ℤ) (w : Host) :
    StateT.run (m := Id) (pkgxEffectGate .ok (some cid) (some commit)) w = (.commitFailed, w) := by
  simp only [pkgxEffectGate, h]
  rfl

theorem gate_open {cid : CStr} (h : pkgxCidValid (some cid) = true) (w : Host) :
    StateT.run (m := Id) (pkgxEffectGate .ok (some cid) (some s.commit)) w =
      (if s.commitRc w cid ≠ 0 then .commitFailed else .ok,
        { w with committed := w.committed ++ [cid] }) := by
  simp only [pkgxEffectGate, h]
  rfl

/-- A plan that was settled before the exchange is not authorised. -/
theorem not_authorised_of_settled {result : PlanResult} {detail : Option CStr}
    (hv : c.verdict E = .settled result detail) : ¬ Authorised J E g s c w := by
  intro h
  obtain ⟨resource, d, -, hres, hd, -, -⟩ := h.exchange
  have hspend : c.verdict E = .spend c.verb resource d.hex :=
    PlanCall.verdict_eq_spend_iff.mpr ⟨h.nonEmpty, h.policy, rfl, hres, d, hd, rfl⟩
  rw [hv] at hspend
  cases hspend

/-- What is left to authorise once the plan itself has passed. -/
theorem authorised_iff_of_spend {verb resource hash : CStr}
    (hv : c.verdict E = .spend verb resource hash) :
    Authorised J E g s c w ↔
      ∃ body, buildRequest J (requestFor g c resource hash) = some body ∧
        Redeems J g.expectedCid (s.reply w body) ∧ CidGrammar g.expectedCid := by
  obtain ⟨hne, hpolicy, rfl, hres, d, hd, rfl⟩ := PlanCall.verdict_eq_spend_iff.mp hv
  constructor
  · intro h
    obtain ⟨resource', d', body, hres', hd', hb, hreply⟩ := h.exchange
    rw [hres, Option.some.injEq] at hres'
    rw [hd, Option.some.injEq] at hd'
    subst resource' d'
    exact ⟨body, hb, hreply, h.cid⟩
  · rintro ⟨body, hb, hreply, hcid⟩
    exact ⟨hne, hpolicy, ⟨resource, d, body, hres, hd, hb, hreply⟩, hcid⟩

/-- The gate on what the broker has answered: it opens on a redemption under a cid that matches
its grammar. -/
theorem gate_on_reply (reply : TxReply) (w : Host) :
    let o := settleRedeem g.expectedCid (classifyReply J g.expectedCid outCid reply)
    let gate := StateT.run (m := Id)
      (pkgxEffectGate o.result (some o.outCid.str) (some s.commit)) w
    (Redeems J g.expectedCid reply ∧ CidGrammar g.expectedCid) ∧
        gate.2.committed = w.committed ++ [g.expectedCid] ∨
      ¬ (Redeems J g.expectedCid reply ∧ CidGrammar g.expectedCid) ∧
        gate.2.committed = w.committed ∧ gate.1 ≠ .ok := by
  intro o gate
  rcases classifyReply_outCid J g.expectedCid outCid reply with ⟨hstatus, hout⟩ | ⟨hstatus, -⟩
  · obtain ⟨hreply, hlen⟩ := classifyReply_ok_iff.mp hstatus
    have hsettle : o = ⟨.ok, .ofStr _ g.expectedCid, some (.lit "ok"), some .ok⟩ := by
      simp only [o, settleRedeem, hstatus, hout]
    have hstr : (CharBuf.ofStr (cidLen + 1) g.expectedCid).str = g.expectedCid :=
      CharBuf.str_ofStr (by omega)
    simp only [gate, hsettle, hstr]
    cases hcid : pkgxCidValid (some g.expectedCid) with
    | true =>
      rw [gate_open hcid]
      exact .inl ⟨⟨hreply, pkgxCidValid_iff.mp hcid⟩, rfl⟩
    | false =>
      rw [gate_malformed hcid]
      refine .inr ⟨?_, rfl, by simp⟩
      rintro ⟨-, hgrammar⟩
      rw [pkgxCidValid_iff.mpr hgrammar] at hcid
      cases hcid
  · obtain ⟨hworld, hgate⟩ := gate_closed (settleRedeem_ok_iff.not.mpr hstatus)
      (some o.outCid.str) (some s.commit) w
    refine .inr ⟨?_, congrArg Host.committed hworld, hgate⟩
    rintro ⟨hreply, hgrammar⟩
    have hlen := pkgxCidValid_length (pkgxCidValid_iff.mpr hgrammar)
    exact hstatus (classifyReply_ok_iff.mpr ⟨hreply, hlen⟩)

/-- The committer runs exactly on an authorised plan, once, under the expected cid. -/
theorem commit_gate (J : Jansson) (E : Evp) (g : Grant) (s : Script) (outCid : OutCid)
    (c : PlanCall) (w : Host) :
    (Authorised J E g s c w ∧
        (planThenGate J E g s outCid c w).2.committed = w.committed ++ [g.expectedCid]) ∨
      (¬ Authorised J E g s c w ∧ (planThenGate J E g s outCid c w).2.committed = w.committed ∧
        (planThenGate J E g s outCid c w).1 ≠ .ok) := by
  rw [planThenGate_eq]
  cases hv : c.verdict E with
  | settled result detail =>
    rw [planStep_settled hv]
    obtain ⟨hworld, hstatus⟩ := gate_closed (PlanCall.verdict_settled hv).1
      (some outCid.str) (some s.commit) w
    exact .inr ⟨not_authorised_of_settled hv, congrArg Host.committed hworld, hstatus⟩
  | spend verb resource hash =>
    rw [authorised_iff_of_spend hv, planStep_spend hv]
    cases hb : buildRequest J (requestFor g c resource hash) with
    | none =>
      obtain ⟨hworld, hstatus⟩ := gate_closed (show PlanResult.noIntent ≠ .ok by simp)
        (some outCid.clear.str) (some s.commit) w
      refine .inr ⟨?_, congrArg Host.committed hworld, hstatus⟩
      rintro ⟨body, hbody, -⟩
      cases hbody
    | some body =>
      have hbody (p : CStr → Prop) : (∃ body', some body = some body' ∧ p body') ↔ p body := by
        simp
      rw [hbody]
      exact gate_on_reply (s.reply w body) { w with sent := w.sent ++ [body] }

end Pkgexec.Effect
