import Pkgexec.HoldOwnership
import Pkgexec.PreviewPlanner
import Pkgexec.RequestSchema
import Pkgexec.TargetGrammar

/-!
# The preview and the effector agree

What the preview prints for the builders' output is the verdict of the plan step on it: `ok`
with exactly the resource and hash the receipt would be spent on, `no_op` for an empty plan,
and a refusal with the same offender.
-/

namespace Pkgexec.Preview
open CStrings JsonValues PlanDigest Policy Redeem Plan Request Effect Apt

def HasStatus (p : Printed) (status : CStr) : Prop :=
  p.get (.lit "status") = some (.string status.bytes)

/-- The printed object says `ok` for this verb, resource and hash. -/
structure PrintsPlan (p : Printed) (verb resource hash : CStr) : Prop where
  status : HasStatus p (.lit "ok")
  verb : p.get (.lit "verb") = some (.string verb.bytes)
  resource : p.get (.lit "resource") = some (.string resource.bytes)
  planHash : p.get (.lit "plan_hash") = some (.string hash.bytes)

/-- The status a policy refusal is printed with. -/
def refusalStatus : PlanResult → CStr
  | .notOwned => .lit "package_not_owned"
  | .held => .lit "held"
  | .isProtected => .lit "protected_package"
  | _ => .lit "internal"

def refusalText (r : PlanResult × Option CStr) : CStr × Option CStr := (refusalStatus r.1, r.2)

theorem policyRefusal_eq (verb : Option CStr) (recs : List TxnRecord)
    (targets : List (Option CStr)) :
    policyRefusal recs = (PlanCall.txn verb recs targets).refusal.map refusalText := by
  rw [policyRefusal, PlanCall.refusal]
  cases pkgxPolicyCheck recs with
  | mk result offender => cases result <;> rfl

theorem ownedRefusal_hold (verb : Option CStr) (changes : List PkgxHoldHolder)
    (targets : List (Option CStr)) :
    ownedRefusal (changes.map (·.package)) =
      (PlanCall.hold verb (changes.map PkgxHoldHolder.record) targets).refusal.map refusalText := by
  rw [ownedRefusal, PlanCall.refusal, List.find?_map, List.find?_map]
  simp only [Option.map_map]
  rfl

theorem ownedRefusal_configure (holders : List PkgxCfgHolder) :
    ownedRefusal (holders.map (·.package)) =
      (PlanCall.configure (holders.map PkgxCfgHolder.record)).refusal.map refusalText := by
  rw [ownedRefusal, PlanCall.refusal, List.find?_map, List.find?_map]
  simp only [Option.map_map]
  rfl

section Plan

variable {J : Jansson} {E : Evp} {c : PlanCall} {pkgs : List CStr} {resource : CStr}
  {kind : RecKind}

/-- The preview of a plan. -/
def printPlan (J : Jansson) (E : Evp) (c : PlanCall) (pkgs : List CStr) (resource : CStr)
    (kind : RecKind) : Printed :=
  previewRecords J c.verb pkgs resource c.isEmpty (c.refusal.map refusalText) (c.digest E) kind

/-- What is known of the strings of a plan that are printed. -/
structure Printable (E : Evp) (c : PlanCall) (resource : CStr) : Prop where
  resource_eq : c.resource = some resource
  verb_ascii : Jansson.Ascii c.verb
  resource_ascii : Jansson.Ascii resource
  hex_ascii : ∀ d, c.digest E = some d → Jansson.Ascii d.hex

theorem emit_hasStatus_iff {status status' : CStr} (h : Jansson.Ascii status) {verb : Option CStr}
    {packages : List CStr} {resource planHash : Option CStr} {records : Option Json}
    {detail : Option CStr} :
    HasStatus (emit J status verb packages resource planHash records detail) status' ↔
      status = status' := by
  rw [HasStatus, emit_status, J.string_of_ascii h]
  simp [CStr.ext_iff]

theorem refusalStatus_ascii (result : PlanResult) : Jansson.Ascii (refusalStatus result) := by
  cases result <;> simp only [refusalStatus] <;> decide

/-- What is printed, beside the verdict: an empty plan, a digest that cannot be built, a plan
that is in order, a refusal. -/
theorem printPlan_cases (h : Printable E c resource) :
    (printPlan J E c pkgs resource kind =
        emit J (.lit "no_op") (some c.verb) pkgs (some resource) none none none ∧
      ∃ detail, c.verdict E = .settled .noOp detail) ∨
    (printPlan J E c pkgs resource kind = emit J (.lit "internal") (some c.verb) pkgs
        (some resource) none none (some (.lit "digest")) ∧
      ∃ result detail, result ≠ .noOp ∧ c.verdict E = .settled result detail) ∨
    (∃ d records, c.digest E = some d ∧ printPlan J E c pkgs resource kind =
        emit J (.lit "ok") (some c.verb) pkgs (some resource) (some d.hex) records none ∧
      c.verdict E = .spend c.verb resource d.hex) ∨
    ∃ hash records result offender, printPlan J E c pkgs resource kind =
        emit J (refusalStatus result) (some c.verb) pkgs (some resource) hash records offender ∧
      (result = .notOwned ∨ result = .held ∨ result = .isProtected) ∧
        c.verdict E = .settled result offender := by
  simp only [printPlan, PlanCall.verdict, h.resource_eq]
  unfold previewRecords
  cases c.isEmpty with
  | true => exact .inl ⟨rfl, _, rfl⟩
  | false =>
    cases hd : c.digest E with
    | none =>
      refine .inr (.inl ⟨rfl, ?_⟩)
      cases hr : c.refusal with
      | none => exact ⟨.internal, _, by simp, rfl⟩
      | some refusal =>
        obtain ⟨result, offender⟩ := refusal
        refine ⟨result, offender, ?_, rfl⟩
        rcases PlanCall.refusal_result hr with rfl | rfl | rfl <;> simp
    | some d =>
      cases hr : c.refusal with
      | none => exact .inr (.inr (.inl ⟨d, _, rfl, rfl, rfl⟩))
      | some refusal =>
        obtain ⟨result, offender⟩ := refusal
        exact .inr (.inr (.inr ⟨_, _, result, offender, rfl, PlanCall.refusal_result hr, rfl⟩))

/-- The statuses of the four cases are told apart. -/
theorem refusalStatus_ne {result : PlanResult}
    (h : result = .notOwned ∨ result = .held ∨ result = .isProtected) :
    refusalStatus result ≠ .lit "ok" ∧ refusalStatus result ≠ .lit "no_op" ∧
      refusalStatus result ≠ .lit "internal" := by
  rcases h with rfl | rfl | rfl <;> decide

theorem refusalStatus_inj {r r' : PlanResult} (h : r = .notOwned ∨ r = .held ∨ r = .isProtected)
    (h' : r' = .notOwned ∨ r' = .held ∨ r' = .isProtected)
    (heq : refusalStatus r = refusalStatus r') : r = r' := by
  rcases h with rfl | rfl | rfl <;> rcases h' with rfl | rfl | rfl <;>
    first
      | rfl
      | exact absurd heq (by decide)

/-- `ok` is printed exactly with the resource and hash the receipt would be spent on. -/
theorem printsPlan_iff (h : Printable E c resource) {r hash : CStr} :
    PrintsPlan (printPlan J E c pkgs resource kind) c.verb r hash ↔
      c.verdict E = .spend c.verb r hash := by
  rcases printPlan_cases h with ⟨hp, detail, hv⟩ | ⟨hp, result, detail, -, hv⟩ |
    ⟨d, records, hd, hp, hv⟩ | ⟨hash', records, result, offender, hp, hresult, hv⟩ <;> rw [hp, hv]
  · refine iff_of_false (fun hp => ?_) (by simp)
    exact absurd ((emit_hasStatus_iff (by decide)).mp hp.status) (by decide)
  · refine iff_of_false (fun hp => ?_) (by simp)
    exact absurd ((emit_hasStatus_iff (by decide)).mp hp.status) (by decide)
  · simp only [Verdict.spend.injEq, true_and]
    constructor
    · intro hp
      have hres := hp.resource
      have hhash := hp.planHash
      rw [emit_resource, stringOrNull, J.string_of_ascii h.resource_ascii] at hres
      rw [emit_planHash, stringOrNull, J.string_of_ascii (h.hex_ascii d hd)] at hhash
      simpa [CStr.ext_iff] using And.intro hres hhash
    · rintro ⟨rfl, rfl⟩
      refine ⟨(emit_hasStatus_iff (by decide)).mpr rfl, ?_, ?_, ?_⟩
      · rw [emit_verb, stringOrNull, J.string_of_ascii h.verb_ascii]
      · rw [emit_resource, stringOrNull, J.string_of_ascii h.resource_ascii]
      · rw [emit_planHash, stringOrNull, J.string_of_ascii (h.hex_ascii d hd)]
  · refine iff_of_false (fun hp => ?_) (by simp)
    have hstatus := (emit_hasStatus_iff (refusalStatus_ascii result)).mp hp.status
    exact (refusalStatus_ne hresult).1 hstatus

/-- `no_op` is printed exactly for an empty plan. -/
theorem printsNoOp_iff (h : Printable E c resource) :
    HasStatus (printPlan J E c pkgs resource kind) (.lit "no_op") ↔
      ∃ detail, c.verdict E = .settled .noOp detail := by
  rcases printPlan_cases h with ⟨hp, detail, hv⟩ | ⟨hp, result, detail, hne, hv⟩ |
    ⟨d, records, hd, hp, hv⟩ | ⟨hash', records, result, offender, hp, hresult, hv⟩ <;> rw [hp, hv]
  · exact iff_of_true ((emit_hasStatus_iff (by decide)).mpr rfl) ⟨_, rfl⟩
  · refine iff_of_false (fun hp => ?_) (by simpa using hne)
    exact absurd ((emit_hasStatus_iff (by decide)).mp hp) (by decide)
  · refine iff_of_false (fun hp => ?_) (by simp)
    exact absurd ((emit_hasStatus_iff (by decide)).mp hp) (by decide)
  · refine iff_of_false (fun hp => ?_) ?_
    · exact (refusalStatus_ne hresult).2.1
        ((emit_hasStatus_iff (refusalStatus_ascii result)).mp hp)
    · rcases hresult with rfl | rfl | rfl <;> simp

/-- A printed refusal is the refusal of the plan, with its offender. -/
theorem verdict_of_printsRefusal (h : Printable E c resource) {result : PlanResult}
    {offender : CStr} (hresult : result = .notOwned ∨ result = .held ∨ result = .isProtected)
    (hstatus : HasStatus (printPlan J E c pkgs resource kind) (refusalStatus result))
    (hdetail : (printPlan J E c pkgs resource kind).get (.lit "detail") =
      some (.string offender.bytes)) :
    c.verdict E = .settled result (some offender) := by
  have hne := refusalStatus_ne hresult
  rcases printPlan_cases h with ⟨hp, detail, hv⟩ | ⟨hp, r, detail, -, hv⟩ |
    ⟨d, records, hd, hp, hv⟩ | ⟨hash', records, r, p, hp, hr, hv⟩ <;> rw [hp] at hstatus hdetail
  · exact absurd ((emit_hasStatus_iff (by decide)).mp hstatus).symm hne.2.1
  · exact absurd ((emit_hasStatus_iff (by decide)).mp hstatus).symm hne.2.2
  · exact absurd ((emit_hasStatus_iff (by decide)).mp hstatus).symm hne.1
  · obtain rfl := refusalStatus_inj hr hresult
      ((emit_hasStatus_iff (refusalStatus_ascii r)).mp hstatus)
    rw [emit_detail] at hdetail
    cases p with
    | none => simp [stringOrNull] at hdetail
    | some p =>
      simp only [stringOrNull, Jansson.string] at hdetail
      split at hdetail
      · simp only [Option.some.injEq, Json.string.injEq] at hdetail
        rw [hv, CStr.ext hdetail]
      · simp at hdetail

end Plan

/-- The transport is called once, with the request for this verb, resource and hash. -/
def CallsWith (J : Jansson) (g : Grant) (verb resource hash : CStr) (sent sent' : List CStr) :
    Prop :=
  ∃ body, buildRequest J
      ⟨g.effectReceipt, g.principalUid, verb, resource, g.planSchema, hash⟩ = some body ∧
    sent' = sent ++ [body]

/-- A printed request tells its resource and hash. -/
theorem buildRequest_inj {J : Jansson} (hcompact : ∀ v, J.dumps v = .ofMem v.compact)
    {receipt : Option CStr} {uid : UInt32} {schema : ℤ} {verb r r' h h' body : CStr}
    (hb : buildRequest J ⟨receipt, uid, verb, r, schema, h⟩ = some body)
    (hb' : buildRequest J ⟨receipt, uid, verb, r', schema, h'⟩ = some body) :
    r = r' ∧ h = h' := by
  have hrequest := buildRequest_injective hcompact hb hb'
  simp only [RedeemReq.mk.injEq, true_and] at hrequest
  exact hrequest

section Step

variable {J : Jansson} {E : Evp} {g : Grant} {s : Script} {outCid : OutCid} {c : PlanCall}
  {w : Effect.Host} {resource : CStr} {receipt : CStr}

/-- The transport is called exactly with the resource and hash of the verdict. -/
theorem callsWith_iff (hcompact : ∀ v, J.dumps v = .ofMem v.compact)
    (h : Printable E c resource) (hg : g.effectReceipt = some receipt)
    (hreceipt : Jansson.Ascii receipt) {r hash : CStr} :
    CallsWith J g c.verb r hash w.sent (planStep J E g s outCid c w).2.sent ↔
      c.verdict E = .spend c.verb r hash := by
  cases hv : c.verdict E with
  | settled result detail =>
    rw [planStep_settled hv]
    refine iff_of_false ?_ (by simp)
    rintro ⟨body, -, hsent⟩
    simp at hsent
  | spend verb resource' hash' =>
    obtain ⟨-, -, rfl, hres, d, hd, rfl⟩ := PlanCall.verdict_eq_spend_iff.mp hv
    rw [h.resource_eq, Option.some.injEq] at hres
    subst resource'
    have hok : ∀ t : CStr, Jansson.Ascii t → J.stringOk t.bytes = true := fun t ht =>
      (J.stringOk_iff _).mpr ht.wellFormed
    have hbuilt : buildRequest J (requestFor g c resource d.hex) =
        some (J.dumps ((requestFor g c resource d.hex).json receipt)) :=
      buildRequest_eq_some_iff.mpr ⟨receipt, hg, hok _ hreceipt, hok _ h.verb_ascii,
        hok _ h.resource_ascii, hok _ (h.hex_ascii d hd), rfl⟩
    rw [planStep_spend hv, hbuilt]
    simp only [Verdict.spend.injEq, true_and]
    constructor
    · rintro ⟨body, hbody, hsent⟩
      obtain rfl : body = J.dumps ((requestFor g c resource d.hex).json receipt) := by
        simpa using (List.append_cancel_left hsent).symm
      exact buildRequest_inj hcompact hbuilt hbody
    · rintro ⟨rfl, rfl⟩
      exact ⟨_, hbuilt, rfl⟩

theorem planStep_noOp_iff :
    (planStep J E g s outCid c w).1.result = .noOp ↔
      ∃ detail, c.verdict E = .settled .noOp detail :=
  PlanCall.result_eq_iff (by simp) (by simp)

end Step

/-- What the shared builders hand to the preview and to the effector. -/
inductive Built where
  | txn (recs : List TxnRecord)
  | update (recs : List SrcRecord)
  | hold (changes : Except HoldMapFailure (List PkgxHoldHolder))
  | configure (holders : Except CStr (List PkgxCfgHolder))

namespace Built

/-- The mechanism is that of the verb. -/
def For (verb : CStr) : Built → Prop
  | txn _ => verb ∈ txnVerbs
  | update _ => verb = .lit "apt.update"
  | hold _ => verb ∈ holdVerbs
  | configure _ => verb = .lit "apt.configure"

/-- The preview from the builders' output on. -/
def preview (J : Jansson) (E : Evp) (verb : CStr) (pkgs : List CStr) : Built → Printed
  | txn recs =>
    match computeResource pkgs with
    | none => emit J (.lit "internal") (some verb) pkgs none none none (some (.lit "resource"))
    | some resource => previewTxnRecords J E verb pkgs resource recs
  | update recs => previewUpdateRecords J E recs
  | hold changes =>
    match computeResource pkgs with
    | none => emit J (.lit "internal") (some verb) pkgs none none none (some (.lit "resource"))
    | some resource =>
      previewHoldMapped J E verb pkgs resource
        (changes.map fun cs => (cs, cs.map PkgxHoldHolder.record))
  | configure holders =>
    previewConfigureMapped J E (holders.map fun hs => (hs, hs.map PkgxCfgHolder.record))

/-- The call of the plan step, unless the map has failed. -/
def call (verb : CStr) (targets : List CStr) : Built → Option PlanCall
  | txn recs => some (.txn (some verb) recs (targets.map some))
  | update recs => some (.update recs (some (.lit "")))
  | hold (.error _) => none
  | hold (.ok changes) =>
    some (.hold (some verb) (changes.map PkgxHoldHolder.record) (targets.map some))
  | configure (.error _) => none
  | configure (.ok holders) => some (.configure (holders.map PkgxCfgHolder.record))

/-- The plan step on the builders' output; without a call nothing happens. -/
def step (J : Jansson) (E : Evp) (g : Grant) (s : Script) (outCid : OutCid) (verb : CStr)
    (targets : List CStr) (b : Built) (w : Effect.Host) : Option PlanOut × Effect.Host :=
  match b.call verb targets with
  | none => (none, w)
  | some c => (some (planStep J E g s outCid c w).1, (planStep J E g s outCid c w).2)

end Built

/-- The printed object and the plan step tell the same. -/
structure Agrees (J : Jansson) (g : Grant) (verb : CStr) (w : Effect.Host) (p : Printed)
    (step : Option PlanOut × Effect.Host) : Prop where
  ok_iff : ∀ resource hash, PrintsPlan p verb resource hash ↔
    CallsWith J g verb resource hash w.sent step.2.sent
  noOp_iff : HasStatus p (.lit "no_op") ↔ step.1.map PlanOut.result = some .noOp
  refused : ∀ result offender, result = .notOwned ∨ result = .held ∨ result = .isProtected →
    HasStatus p (refusalStatus result) →
    p.get (.lit "detail") = some (.string offender.bytes) →
    step.1.map (fun o => (o.result, o.detail)) = some (result, some offender) ∧ step.2 = w

section Agreement

variable {J : Jansson} {E : Evp} {g : Grant} {s : Script} {outCid : OutCid} {w : Effect.Host}
  {receipt : CStr}

/-- A preview of a plan agrees with the plan step on it. -/
theorem agrees_of_call {c : PlanCall} {resource : CStr} {pkgs : List CStr} {kind : RecKind}
    (hcompact : ∀ v, J.dumps v = .ofMem v.compact) (h : Printable E c resource)
    (hg : g.effectReceipt = some receipt) (hreceipt : Jansson.Ascii receipt) :
    Agrees J g c.verb w (printPlan J E c pkgs resource kind)
      (some (planStep J E g s outCid c w).1, (planStep J E g s outCid c w).2) where
  ok_iff r hash := (printsPlan_iff h).trans (callsWith_iff hcompact h hg hreceipt).symm
  noOp_iff := by
    have hstep : (planStep J E g s outCid c w).1.result = .noOp ↔ _ := planStep_noOp_iff
    rw [printsNoOp_iff h, ← hstep]
    simp
  refused := by
    intro result offender hresult hstatus hdetail
    have hv := verdict_of_printsRefusal h hresult hstatus hdetail
    rw [planStep_settled hv]
    exact ⟨rfl, rfl⟩

/-- A preview that reports a failed map agrees with a plan step that is not run. -/
theorem agrees_of_failure {status verb : CStr} {v : Option CStr} {pkgs : List CStr}
    {resource detail : Option CStr} (hascii : Jansson.Ascii status)
    (hok : status ≠ .lit "ok") (hnoOp : status ≠ .lit "no_op")
    (hrefusal : ∀ result, result = .notOwned ∨ result = .held ∨ result = .isProtected →
      status ≠ refusalStatus result) :
    Agrees J g verb w (emit J status v pkgs resource none none detail) (none, w) where
  ok_iff r hash := by
    refine iff_of_false (fun hp => hok ((emit_hasStatus_iff hascii).mp hp.status)) ?_
    rintro ⟨body, -, hsent⟩
    simp at hsent
  noOp_iff := iff_of_false (fun hp => hnoOp ((emit_hasStatus_iff hascii).mp hp)) (by simp)
  refused := fun result _ hresult hstatus _ =>
    absurd ((emit_hasStatus_iff hascii).mp hstatus) (hrefusal result hresult)

end Agreement

theorem ascii_pkgxSha256Hex {E : Evp} {data : List UInt8} {hex : CStr}
    (h : pkgxSha256Hex E data = some hex) : Jansson.Ascii hex := by
  obtain ⟨md, -, rfl⟩ := Option.map_eq_some_iff.mp h
  have hdigit : ∀ i, (hx.getD i 0).toNat < 0x80 := by
    intro i
    rw [List.getD_eq_getElem?_getD]
    cases hi : hx[i]? with
    | none => simp
    | some b =>
      have hall : Jansson.Ascii (CStr.lit "0123456789abcdef") := by decide
      exact hall b (List.mem_of_getElem? hi)
  intro b hb
  have hmem := List.takeWhile_subset _ hb
  simp only [List.mem_flatMap, List.mem_cons, List.not_mem_nil, or_false] at hmem
  obtain ⟨x, -, rfl | rfl⟩ := hmem
  · exact hdigit _
  · exact hdigit _

theorem ascii_digest {E : Evp} {c : PlanCall} {d : Digest} (h : c.digest E = some d) :
    Jansson.Ascii d.hex := by
  cases c with
  | txn verb recs targets =>
    obtain ⟨v, -, -, henc⟩ := pkgxDigestPkgTxn_eq_some_iff.mp h
    exact ascii_pkgxSha256Hex henc.hex
  | update srcs token => exact ascii_pkgxSha256Hex (pkgxDigestUpdate_eq_some_iff.mp h).hex
  | hold verb holds targets =>
    obtain ⟨v, -, -, henc⟩ := pkgxDigestHold_eq_some_iff.mp h
    exact ascii_pkgxSha256Hex henc.hex
  | configure cfgs => exact ascii_pkgxSha256Hex (pkgxDigestConfigure_eq_some_iff.mp h).hex

/-- The grant of an accepted request. -/
def grantOf (req : PkgxRequest) (uid : UInt32) : Grant :=
  ⟨some req.effectReceipt.str, uid, req.planSchema, req.correlationId.str⟩

/-- A target list that one of the two parsers has accepted. -/
def AcceptedList (J : Jansson) (names : List CStr) : Prop :=
  (∃ verb body req, pkgxParseRequest J verb body = .ok req ∧ req.packages = some names) ∨
    ∃ body req, pkgxParsePreviewRequest J body = .ok req ∧ req.packages = some names

theorem AcceptedList.targetsOk {J : Jansson} {names : List CStr} (h : AcceptedList J names) :
    TargetsOk names := by
  rcases h with ⟨verb, body, req, hreq, hnames⟩ | ⟨body, req, hreq, hnames⟩
  · obtain ⟨names', hacc⟩ := pkgxParseRequest_ok hreq
    obtain rfl : names = names' := Option.some.inj (hnames.symm.trans hacc.packages)
    exact hacc.targets
  · obtain ⟨verb, names', ms, -, -, hok, rfl⟩ := pkgxParsePreviewRequest_eq_ok_iff.mp hreq
    obtain rfl : names' = names := Option.some.inj hnames
    exact hok.targets

/-- For every verb and every target list that the parsers accept, and whatever the builders
hand to both sides, the preview and the plan step agree. -/
theorem preview_agrees {J : Jansson} (E : Evp) (hcompact : ∀ v, J.dumps v = .ofMem v.compact)
    {body : List UInt8} {req : PkgxRequest} {verb : CStr} {names : List CStr}
    (hrequest : pkgxParseRequest J verb body = .ok req) (hnames : AcceptedList J names)
    {b : Built} (hb : b.For verb) (uid : UInt32) (s : Script) (outCid : OutCid)
    (w : Effect.Host) :
    Agrees J (grantOf req uid) verb w (b.preview J E verb names)
      (b.step J E (grantOf req uid) s outCid verb names w) := by
  obtain ⟨_, hacc⟩ := pkgxParseRequest_ok hrequest
  have htargets := hnames.targetsOk
  have hreceipt := ascii_of_isLcHex hacc.receipt
  have hres : computeResource names = some (targetText names) := htargets.resource
  cases b with
  | txn recs =>
    have hprint : Printable E (.txn (some verb) recs (names.map some)) (targetText names) :=
      ⟨htargets.resource, (by decide : ∀ v ∈ txnVerbs, Jansson.Ascii v) verb hb,
        htargets.ascii_targetText, fun _ hd => ascii_digest hd⟩
    have hshown : (Built.txn recs).preview J E verb names =
        printPlan J E (.txn (some verb) recs (names.map some)) names (targetText names) .txn := by
      simp only [Built.preview, hres, previewTxnRecords, printPlan,
        ← policyRefusal_eq (some verb) recs (names.map some)]
      rfl
    rw [hshown]
    exact agrees_of_call hcompact hprint rfl hreceipt
  | update recs =>
    obtain rfl : verb = .lit "apt.update" := hb
    have hprint : Printable E (.update recs (some (.lit ""))) (.lit "") :=
      ⟨rfl, by simp only [PlanCall.verb]; decide, by decide, fun _ hd => ascii_digest hd⟩
    exact agrees_of_call hcompact hprint rfl hreceipt
  | hold changes =>
    cases changes with
    | error f =>
      have hshown : (Built.hold (.error f)).preview J E verb names =
          emit J (.lit "resolve_failed") (some verb) names (some (targetText names)) none none
            (some f.offender) := by
        simp only [Built.preview, hres]
        rfl
      rw [hshown]
      refine agrees_of_failure (by decide) (by decide) (by decide) ?_
      rintro result (rfl | rfl | rfl) <;> decide
    | ok changes =>
      have hprint : Printable E (.hold (some verb) (changes.map PkgxHoldHolder.record)
          (names.map some)) (targetText names) :=
        ⟨htargets.resource, (by decide : ∀ v ∈ holdVerbs, Jansson.Ascii v) verb hb,
          htargets.ascii_targetText, fun _ hd => ascii_digest hd⟩
      have hshown : (Built.hold (.ok changes)).preview J E verb names =
          printPlan J E (.hold (some verb) (changes.map PkgxHoldHolder.record) (names.map some))
            names (targetText names) .hold := by
        simp only [Built.preview, hres, printPlan,
          ← ownedRefusal_hold (some verb) changes (names.map some), PlanCall.isEmpty,
          List.isEmpty_map]
        rfl
      rw [hshown]
      exact agrees_of_call hcompact hprint rfl hreceipt
  | configure holders =>
    obtain rfl : verb = .lit "apt.configure" := hb
    cases holders with
    | error name =>
      refine agrees_of_failure (by decide) (by decide) (by decide) ?_
      rintro result (rfl | rfl | rfl) <;> decide
    | ok holders =>
      have hprint : Printable E (.configure (holders.map PkgxCfgHolder.record)) (.lit "pending") :=
        ⟨rfl, by simp only [PlanCall.verb]; decide, by decide, fun _ hd => ascii_digest hd⟩
      have hshown : (Built.configure (.ok holders)).preview J E (.lit "apt.configure") names =
          printPlan J E (.configure (holders.map PkgxCfgHolder.record)) [] (.lit "pending")
            .cfg := by
        simp only [Built.preview, printPlan, ← ownedRefusal_configure holders]
        rfl
      rw [hshown]
      exact agrees_of_call hcompact hprint rfl hreceipt

/-- The preview of a hold of `r-base-core:amd64` and the plan step agree. -/
theorem preview_agrees_hold_arch :
    ∃ req, pkgxParseRequest rBaseJansson (.lit "apt.hold") rBaseRequest.compact = .ok req ∧
      Agrees rBaseJansson (grantOf req 1000) (.lit "apt.hold") ⟨[], []⟩
        ((Built.hold (.ok [rBaseChange rBaseTarget])).preview rBaseJansson rBaseEvp
          (.lit "apt.hold") [rBaseTarget])
        ((Built.hold (.ok [rBaseChange rBaseTarget])).step rBaseJansson rBaseEvp
          (grantOf req 1000) ⟨fun _ _ => ⟨0, some redeemedReply.compact⟩, fun _ _ => 0⟩ (.zero _)
          (.lit "apt.hold") [rBaseTarget] ⟨[], []⟩) := by
  obtain ⟨req, hreq, hnames⟩ := rBaseRequest_accepted
  refine ⟨req, hreq, preview_agrees rBaseEvp (fun _ => rfl) hreq (.inl ⟨_, _, req, hreq, hnames⟩)
    ?_ 1000 _ _ _⟩
  exact List.mem_cons_self

/-- What the builders hand over for a request on a host, if it gets so far. -/
def builtBy (h : AptHost) (E : Evp) (verb : CStr) (names : List CStr) : Option Built :=
  if verb = .lit "apt.update" then h.sources.map fun list => .update (pkgxAptMapSources E list)
  else
    h.cache.pkgCache.bind fun c =>
      if verb = .lit "apt.hold" ∨ verb = .lit "apt.unhold" then
        some (.hold ((pkgxAptMapHold c names (verb = .lit "apt.hold")).map Prod.fst))
      else if verb = .lit "apt.configure" then
        some (.configure ((pkgxAptMapConfigure c).map Prod.fst))
      else
        h.cache.depCache.bind fun _ =>
          (resolveTxn h verb names c).toOption.map fun dc => .txn (pkgxAptMapTxn c dc)

theorem pkgxAptMapHold_map (c : PkgCache) (names : List CStr) (hold : Bool) :
    ((pkgxAptMapHold c names hold).map Prod.fst).map
      (fun cs => (cs, cs.map PkgxHoldHolder.record)) = pkgxAptMapHold c names hold := by
  rw [pkgxAptMapHold]
  cases mapHoldLoop c hold [] names <;> rfl

theorem pkgxAptMapConfigure_map (c : PkgCache) :
    ((pkgxAptMapConfigure c).map Prod.fst).map
      (fun hs => (hs, hs.map PkgxCfgHolder.record)) = pkgxAptMapConfigure c := by
  rw [pkgxAptMapConfigure]
  cases mapConfigureLoop [] c.packages <;> rfl

/-- The whole preview of an accepted request is the preview of what is built for it. -/
theorem previewMain_eq {J : Jansson} {E : Evp} {h : AptHost} {body : List UInt8}
    {req : PkgxPreviewRequest} {names : List CStr} {b : Built}
    (hreq : pkgxParsePreviewRequest J body = .ok req) (hnames : req.packages = some names)
    (hconfig : h.initConfig = true) (hsystem : h.initSystem = true) (hopens : h.cache.opens = true)
    (hb : builtBy h E req.verb.str names = some b) :
    previewMain J E h body = b.preview J E req.verb.str names := by
  have htargets := AcceptedList.targetsOk (J := J) (.inr ⟨body, req, hreq, hnames⟩)
  have hres : computeResource names = some (targetText names) := htargets.resource
  simp only [previewMain, hreq, hnames, hconfig, hsystem, hopens, Option.getD_some, Bool.not_true,
    Bool.or_self, Bool.false_eq_true, if_false]
  rw [builtBy] at hb
  by_cases hupdate : req.verb.str = .lit "apt.update"
  · rw [if_pos hupdate] at hb ⊢
    obtain ⟨list, hlist, rfl⟩ := Option.map_eq_some_iff.mp hb
    rw [previewUpdate, hlist]
    rfl
  rw [if_neg hupdate] at hb ⊢
  obtain ⟨c, hc, hb⟩ := Option.bind_eq_some_iff.mp hb
  by_cases hhold : req.verb.str = .lit "apt.hold" ∨ req.verb.str = .lit "apt.unhold"
  · rw [if_pos hhold] at hb ⊢
    obtain rfl := Option.some.inj hb
    simp only [previewHold, hres, hc, Built.preview, pkgxAptMapHold_map]
  rw [if_neg hhold] at hb ⊢
  by_cases hconfigure : req.verb.str = .lit "apt.configure"
  · rw [if_pos hconfigure] at hb ⊢
    obtain rfl := Option.some.inj hb
    simp only [previewConfigure, hc, Built.preview, pkgxAptMapConfigure_map]
  rw [if_neg hconfigure] at hb ⊢
  obtain ⟨dc₀, hdc₀, hb⟩ := Option.bind_eq_some_iff.mp hb
  obtain ⟨dc, hdc, rfl⟩ := Option.map_eq_some_iff.mp hb
  simp only [previewTxn, hres, hc, hdc₀, Built.preview]
  cases hr : resolveTxn h req.verb.str names c with
  | error e => simp [hr, Except.toOption] at hdc
  | ok dc' =>
    obtain rfl : dc' = dc := by simpa [hr, Except.toOption] using hdc
    rfl

end Pkgexec.Preview
