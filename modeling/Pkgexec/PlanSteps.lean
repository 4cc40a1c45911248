import Pkgexec.RecordKinds
import Pkgexec.OwnershipPolicy
import Pkgexec.ReceiptRedemption

/-!
# Plan steps

The four plan functions of `plan.c`. Each settles the plan by itself or spends the receipt
on one verb, resource and hash; `PlanCall.verdict` says which, and every run of a plan
function is its verdict carried out.
-/

namespace Pkgexec.Plan
open CStrings JsonValues PlanDigest Policy Redeem

inductive PlanResult where
  | ok
  | noOp
  | notOwned
  | held
  | isProtected
  | noIntent
  | internal
  deriving DecidableEq

/-- The return value, `out_cid` and `*detail`. Beside them, what `pkgx_redeem` returned where
it was reached. -/
structure PlanOut where
  result : PlanResult
  outCid : OutCid
  detail : Option CStr
  redeem : Option RedeemStatus

/-- The arguments that every plan function hands to `redeem_tail`. -/
structure Grant where
  effectReceipt : Option CStr
  principalUid : UInt32
  planSchema : ℤ
  expectedCid : CStr

/-- The end of `redeem_tail`: a refusal is a known outcome and echoes the request's cid, an
unknown outcome clears it. -/
def settleRedeem (expectedCid : CStr) (r : RedeemOut) : PlanOut :=
  match r.status with
  | .ok => ⟨.ok, r.outCid, some (.lit "ok"), some .ok⟩
  | .refused => ⟨.noIntent, pkgxCidEcho r.outCid (some expectedCid), some r.code, some .refused⟩
  | .cidMismatch => ⟨.noIntent, r.outCid.clear, some r.code, some .cidMismatch⟩
  | .protocol => ⟨.noIntent, r.outCid.clear, some r.code, some .protocol⟩

section Steps

variable {m : Type → Type} [Monad m] (J : Jansson) (E : Evp) (g : Grant)
  (tx : CStr → m TxReply) (outCid : OutCid)

def redeemTail (verb resource hash : CStr) : m PlanOut := do
  let req : RedeemReq :=
    ⟨g.effectReceipt, g.principalUid, verb, resource, g.planSchema, hash⟩
  let r ← pkgxRedeem J req g.expectedCid tx outCid
  pure (settleRedeem g.expectedCid r)

/-- The encoder has refused a `NULL` verb before it is used. -/
def pkgxPlanAndRedeem (verb : Option CStr) (recs : List TxnRecord)
    (targets : List (Option CStr)) : m PlanOut :=
  if recs.isEmpty then pure ⟨.noOp, outCid, some (.lit "no_op"), none⟩
  else
    match pkgxPolicyCheck recs with
    | (.notOwned, offender) => pure ⟨.notOwned, outCid, offender, none⟩
    | (.held, offender) => pure ⟨.held, outCid, offender, none⟩
    | (.isProtected, offender) => pure ⟨.isProtected, outCid, offender, none⟩
    | (.ok, _) =>
      match pkgxResource targets with
      | none => pure ⟨.internal, outCid, some (.lit ""), none⟩
      | some resource =>
        match pkgxDigestPkgTxn E verb recs with
        | none => pure ⟨.internal, outCid, some (.lit ""), none⟩
        | some d => redeemTail J g tx outCid (orEmpty verb) resource d.hex

/-- No package policy: a source refresh installs and removes nothing. -/
def pkgxPlanAndRedeemUpdate (srcs : List SrcRecord) (resourceToken : Option CStr) : m PlanOut :=
  if srcs.isEmpty then pure ⟨.noOp, outCid, some (.lit "no_op"), none⟩
  else
    match pkgxDigestUpdate E srcs with
    | none => pure ⟨.internal, outCid, some (.lit ""), none⟩
    | some d => redeemTail J g tx outCid (.lit "apt.update") (orEmpty resourceToken) d.hex

def pkgxPlanAndRedeemHold (verb : Option CStr) (holds : List HoldRecord)
    (targets : List (Option CStr)) : m PlanOut :=
  if holds.isEmpty then pure ⟨.noOp, outCid, some (.lit "no_op"), none⟩
  else
    match holds.find? fun h => pkgxIsRaptOwned (orEmpty h.package) with
    | some h => pure ⟨.notOwned, outCid, h.package, none⟩
    | none =>
      match pkgxResource targets with
      | none => pure ⟨.internal, outCid, some (.lit ""), none⟩
      | some resource =>
        match pkgxDigestHold E verb holds with
        | none => pure ⟨.internal, outCid, some (.lit ""), none⟩
        | some d => redeemTail J g tx outCid (orEmpty verb) resource d.hex

def pkgxPlanAndRedeemConfigure (cfgs : List CfgRecord) : m PlanOut :=
  if cfgs.isEmpty then pure ⟨.noOp, outCid, some (.lit "no_op"), none⟩
  else
    match cfgs.find? fun c => pkgxIsRaptOwned (orEmpty c.package) with
    | some c => pure ⟨.notOwned, outCid, c.package, none⟩
    | none =>
      match pkgxDigestConfigure E cfgs with
      | none => pure ⟨.internal, outCid, some (.lit ""), none⟩
      | some d => redeemTail J g tx outCid (.lit "apt.configure") (.lit "pending") d.hex

end Steps

/-- A call of one of the four plan functions. -/
inductive PlanCall where
  | txn (verb : Option CStr) (recs : List TxnRecord) (targets : List (Option CStr))
  | update (srcs : List SrcRecord) (resourceToken : Option CStr)
  | hold (verb : Option CStr) (holds : List HoldRecord) (targets : List (Option CStr))
  | configure (cfgs : List CfgRecord)

/-- The plan is settled without the broker, or the receipt is spent on it. -/
inductive Verdict where
  | settled (result : PlanResult) (detail : Option CStr)
  | spend (verb resource hash : CStr)

namespace PlanCall

def run {m : Type → Type} [Monad m] (J : Jansson) (E : Evp) (g : Grant) (tx : CStr → m TxReply)
    (outCid : OutCid) : PlanCall → m PlanOut
  | txn verb recs targets => pkgxPlanAndRedeem J E g tx outCid verb recs targets
  | update srcs token => pkgxPlanAndRedeemUpdate J E g tx outCid srcs token
  | hold verb holds targets => pkgxPlanAndRedeemHold J E g tx outCid verb holds targets
  | configure cfgs => pkgxPlanAndRedeemConfigure J E g tx outCid cfgs

/-- The operation the receipt would be spent on. -/
def verb : PlanCall → CStr
  | txn verb _ _ => orEmpty verb
  | update _ _ => .lit "apt.update"
  | hold verb _ _ => orEmpty verb
  | configure _ => .lit "apt.configure"

/-- The canonical resource: of the targets, the given token, or `pending`. -/
def resource : PlanCall → Option CStr
  | txn _ _ targets => pkgxResource targets
  | update _ token => some (orEmpty token)
  | hold _ _ targets => pkgxResource targets
  | configure _ => some (.lit "pending")

/-- The schema-1 digest of the records. -/
def digest (E : Evp) : PlanCall → Option Digest
  | txn verb recs _ => pkgxDigestPkgTxn E verb recs
  | update srcs _ => pkgxDigestUpdate E srcs
  | hold verb holds _ => pkgxDigestHold E verb holds
  | configure cfgs => pkgxDigestConfigure E cfgs

/-- The resolved plan has at least one record. -/
def NonEmpty : PlanCall → Prop
  | txn _ recs _ => recs ≠ []
  | update srcs _ => srcs ≠ []
  | hold _ holds _ => holds ≠ []
  | configure cfgs => cfgs ≠ []

/-- No record violates the policy of the mechanism. -/
def PolicyPasses : PlanCall → Prop
  | txn _ recs _ =>
    ∀ r ∈ recs, ownedRecord r = false ∧ heldRecord r = false ∧ protectedRecord r = false
  | update _ _ => True
  | hold _ holds _ => ∀ h ∈ holds, pkgxIsRaptOwned (orEmpty h.package) = false
  | configure cfgs => ∀ c ∈ cfgs, pkgxIsRaptOwned (orEmpty c.package) = false

/-- What the policy finds, before anything is built. -/
def refusal : PlanCall → Option (PlanResult × Option CStr)
  | txn _ recs _ =>
    match pkgxPolicyCheck recs with
    | (.notOwned, offender) => some (.notOwned, offender)
    | (.held, offender) => some (.held, offender)
    | (.isProtected, offender) => some (.isProtected, offender)
    | (.ok, _) => none
  | update _ _ => none
  | hold _ holds _ =>
    (holds.find? fun h => pkgxIsRaptOwned (orEmpty h.package)).map fun h => (.notOwned, h.package)
  | configure cfgs =>
    (cfgs.find? fun c => pkgxIsRaptOwned (orEmpty c.package)).map fun c => (.notOwned, c.package)

def isEmpty : PlanCall → Bool
  | txn _ recs _ => recs.isEmpty
  | update srcs _ => srcs.isEmpty
  | hold _ holds _ => holds.isEmpty
  | configure cfgs => cfgs.isEmpty

/-- The order of the checks: empty plan, policy, resource, digest. -/
def verdict (E : Evp) (c : PlanCall) : Verdict :=
  if c.isEmpty then .settled .noOp (some (.lit "no_op"))
  else
    match c.refusal with
    | some (result, offender) => .settled result offender
    | none =>
      match c.resource, c.digest E with
      | some resource, some d => .spend c.verb resource d.hex
      | _, _ => .settled .internal (some (.lit ""))

theorem isEmpty_eq_false_iff {c : PlanCall} : c.isEmpty = false ↔ c.NonEmpty := by
  cases c <;> simp [isEmpty, NonEmpty]

theorem refusal_eq_none_iff {c : PlanCall} : c.refusal = none ↔ c.PolicyPasses := by
  cases c with
  | txn verb recs targets =>
    rw [PolicyPasses, ← pkgxPolicyCheck_ok_iff, refusal]
    cases h : pkgxPolicyCheck recs with
    | mk result offender => cases result <;> simp
  | update srcs token => simp [refusal, PolicyPasses]
  | hold verb holds targets => simp [refusal, PolicyPasses]
  | configure cfgs => simp [refusal, PolicyPasses]

/-- The policy refuses with one of its own results. -/
theorem refusal_result {c : PlanCall} {result : PlanResult} {offender : Option CStr}
    (h : c.refusal = some (result, offender)) :
    result = .notOwned ∨ result = .held ∨ result = .isProtected := by
  cases c with
  | txn verb recs targets =>
    rw [refusal] at h
    cases hp : pkgxPolicyCheck recs with
    | mk r o => cases r <;> simp_all
  | update srcs token => simp [refusal] at h
  | hold verb holds targets =>
    obtain ⟨_, -, heq⟩ := Option.map_eq_some_iff.mp h
    exact .inl (Prod.mk.inj heq).1.symm
  | configure cfgs =>
    obtain ⟨_, -, heq⟩ := Option.map_eq_some_iff.mp h
    exact .inl (Prod.mk.inj heq).1.symm

/-- The receipt is spent exactly on a non-empty plan that passes its policy and whose
resource and digest can be built. -/
theorem verdict_eq_spend_iff {E : Evp} {c : PlanCall} {verb resource hash : CStr} :
    c.verdict E = .spend verb resource hash ↔
      c.NonEmpty ∧ c.PolicyPasses ∧ c.verb = verb ∧ c.resource = some resource ∧
        ∃ d, c.digest E = some d ∧ d.hex = hash := by
  rw [← isEmpty_eq_false_iff, ← refusal_eq_none_iff, verdict]
  cases c.isEmpty with
  | true => simp
  | false =>
    cases c.refusal with
    | some r => simp
    | none =>
      cases c.resource with
      | none => simp
      | some res =>
        cases c.digest E with
        | none => simp
        | some d => simp

theorem verdict_settled {E : Evp} {c : PlanCall} {result : PlanResult} {detail : Option CStr}
    (h : c.verdict E = .settled result detail) : result ≠ .ok ∧ result ≠ .noIntent := by
  rw [verdict] at h
  cases he : c.isEmpty with
  | true =>
    simp only [he, if_true, Verdict.settled.injEq] at h
    rw [← h.1]
    exact ⟨by simp, by simp⟩
  | false =>
    rw [he] at h
    cases hr : c.refusal with
    | some r =>
      obtain ⟨r, o⟩ := r
      simp only [hr, Bool.false_eq_true, if_false, Verdict.settled.injEq] at h
      obtain ⟨rfl, -⟩ := h
      rcases refusal_result hr with rfl | rfl | rfl <;> simp
    | none =>
      cases hres : c.resource <;> cases hd : c.digest E <;> simp [hr, hres, hd] at h <;>
        simp [← h.1]

/-- Every plan function carries out its verdict. -/
theorem run_eq {m : Type → Type} [Monad m] (J : Jansson) (E : Evp) (g : Grant)
    (tx : CStr → m TxReply) (outCid : OutCid) (c : PlanCall) :
    c.run J E g tx outCid =
      match c.verdict E with
      | .settled result detail => pure ⟨result, outCid, detail, none⟩
      | .spend verb resource hash => redeemTail J g tx outCid verb resource hash := by
  cases c with
  | txn verb recs targets =>
    cases recs with
    | nil => rfl
    | cons r rs =>
      cases hp : pkgxPolicyCheck (r :: rs) with
      | mk result offender =>
        cases result <;> cases hr : pkgxResource targets <;>
          cases hd : pkgxDigestPkgTxn E verb (r :: rs) <;>
          simp [run, pkgxPlanAndRedeem, verdict, isEmpty, refusal, resource, digest,
            PlanCall.verb, hp, hr, hd]
  | update srcs token =>
    cases srcs with
    | nil => rfl
    | cons s ss =>
      cases hd : pkgxDigestUpdate E (s :: ss) <;>
        simp [run, pkgxPlanAndRedeemUpdate, verdict, isEmpty, refusal, resource, digest,
          PlanCall.verb, hd]
  | hold verb holds targets =>
    cases holds with
    | nil => rfl
    | cons h hs =>
      cases ho : (h :: hs).find? fun h => pkgxIsRaptOwned (orEmpty h.package) <;>
        cases hr : pkgxResource targets <;> cases hd : pkgxDigestHold E verb (h :: hs) <;>
        simp only [run, pkgxPlanAndRedeemHold, verdict, isEmpty, refusal, resource, digest,
          PlanCall.verb, ho, hr, hd, List.isEmpty_cons, Bool.false_eq_true, if_false,
          Option.map_some, Option.map_none]
  | configure cfgs =>
    cases cfgs with
    | nil => rfl
    | cons c cs =>
      cases ho : (c :: cs).find? fun c => pkgxIsRaptOwned (orEmpty c.package) <;>
        cases hd : pkgxDigestConfigure E (c :: cs) <;>
        simp only [run, pkgxPlanAndRedeemConfigure, verdict, isEmpty, refusal, resource, digest,
          PlanCall.verb, ho, hd, List.isEmpty_cons, Bool.false_eq_true, if_false,
          Option.map_some, Option.map_none]

end PlanCall

/-- `redeem_tail` is at most one call of the transport, followed by a pure reading. -/
theorem redeemTail_eq {m : Type → Type} [Monad m] [LawfulMonad m] (J : Jansson) (g : Grant)
    (tx : CStr → m TxReply) (outCid : OutCid) (verb resource hash : CStr) :
    redeemTail J g tx outCid verb resource hash =
      match buildRequest J
        ⟨g.effectReceipt, g.principalUid, verb, resource, g.planSchema, hash⟩ with
      | none =>
        pure ⟨.noIntent, outCid.clear, some (.lit "protocol"), some .protocol⟩
      | some body =>
        tx body >>= fun reply =>
          pure (settleRedeem g.expectedCid (classifyReply J g.expectedCid outCid reply)) := by
  rw [redeemTail, pkgxRedeem]
  cases buildRequest J ⟨g.effectReceipt, g.principalUid, verb, resource, g.planSchema, hash⟩ with
  | none => simp [settleRedeem]
  | some body => simp

section Verdicts

variable {m : Type → Type} [Monad m] {J : Jansson} {E : Evp} {g : Grant}
  {tx : CStr → m TxReply} {outCid : OutCid} {c : PlanCall}

theorem PlanCall.run_settled {result : PlanResult} {detail : Option CStr}
    (h : c.verdict E = .settled result detail) :
    c.run J E g tx outCid = pure ⟨result, outCid, detail, none⟩ := by
  rw [run_eq, h]

theorem PlanCall.run_spend [LawfulMonad m] {verb resource hash : CStr}
    (h : c.verdict E = .spend verb resource hash) :
    c.run J E g tx outCid =
      match buildRequest J
        ⟨g.effectReceipt, g.principalUid, verb, resource, g.planSchema, hash⟩ with
      | none => pure ⟨.noIntent, outCid.clear, some (.lit "protocol"), some .protocol⟩
      | some body =>
        tx body >>= fun reply =>
          pure (settleRedeem g.expectedCid (classifyReply J g.expectedCid outCid reply)) := by
  rw [run_eq, h]
  exact redeemTail_eq J g tx outCid verb resource hash

end Verdicts

/-- A redemption that fails leaves the plan without an intent. -/
theorem settleRedeem_failed {expectedCid : CStr} {r : RedeemOut} (h : r.status ≠ .ok) :
    settleRedeem expectedCid r =
      ⟨.noIntent, (settleRedeem expectedCid r).outCid, some r.code, some r.status⟩ := by
  rw [settleRedeem]
  cases hs : r.status with
  | ok => exact absurd hs h
  | refused => rfl
  | cidMismatch => rfl
  | protocol => rfl

/-- The result of a settled redemption. -/
theorem settleRedeem_ok_iff {expectedCid : CStr} {r : RedeemOut} :
    (settleRedeem expectedCid r).result = .ok ↔ r.status = .ok := by
  rw [settleRedeem]
  cases r.status <;> simp

theorem settleRedeem_result (expectedCid : CStr) (r : RedeemOut) :
    (settleRedeem expectedCid r).result = .ok ∨
      (settleRedeem expectedCid r).result = .noIntent := by
  rw [settleRedeem]
  cases r.status <;> simp

/-- A result that no redemption gives is the verdict on the plan. -/
theorem PlanCall.result_eq_iff {σ : Type} {J : Jansson} {E : Evp} {g : Grant}
    {tx : CStr → StateM σ TxReply} {outCid : OutCid} {c : PlanCall} {w : σ} {result : PlanResult}
    (hok : result ≠ .ok) (hintent : result ≠ .noIntent) :
    PlanOut.result (Prod.fst (StateT.run (m := Id) (c.run J E g tx outCid) w)) = result ↔
      ∃ detail, c.verdict E = .settled result detail := by
  cases hv : c.verdict E with
  | settled r d =>
    rw [run_settled hv]
    show r = result ↔ ∃ detail, Verdict.settled r d = .settled result detail
    simp
  | spend verb resource hash =>
    refine iff_of_false ?_ (by simp)
    rw [run_spend hv]
    cases buildRequest J ⟨g.effectReceipt, g.principalUid, verb, resource, g.planSchema, hash⟩ with
    | none => exact fun h => hintent h.symm
    | some body =>
      intro h
      rcases settleRedeem_result g.expectedCid (classifyReply J g.expectedCid outCid
        ((tx body).run w : TxReply × σ).1) with hr | hr
      · exact hok (h.symm.trans hr)
      · exact hintent (h.symm.trans hr)

end Pkgexec.Plan
