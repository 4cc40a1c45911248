import Pkgexec.JsonReading

/-!
# Receipt redemption

The redeem client of `redeem.c`: one request body, one call of the injected transport, and a
strict reading of the reply. The transport runs in any monad, so that the same client serves
a scripted transport and the socket transport.
-/

namespace Pkgexec.Redeem
open CStrings JsonValues

/-- `PKGX_CID_LEN`. -/
def cidLen : ℕ := 37

/-- `char out_cid[PKGX_CID_LEN + 1]`. -/
abbrev OutCid := CharBuf (cidLen + 1)

structure RedeemReq where
  effectReceipt : Option CStr
  principalUid : UInt32
  operation : CStr
  resource : CStr
  planSchema : ℤ
  planHash : CStr

inductive RedeemStatus where
  | ok
  | refused
  | cidMismatch
  | protocol
  deriving DecidableEq

/-- The return value of the transport and `*resp`. -/
structure TxReply where
  rc : ℤ
  resp : Option (List UInt8)

def redeemErrors : List CStr :=
  [.lit "receipt_invalid", .lit "receipt_expired", .lit "receipt_redeemed",
    .lit "receipt_mismatch", .lit "receipt_unauthorized", .lit "receipt_actor_mismatch",
    .lit "rate_limited", .lit "persist_failed"]

def knownError (code : CStr) : Option CStr := redeemErrors.find? (code = ·)

/-- No member outside `allowed`. -/
def onlyKeys (o : Json) (allowed : List CStr) : Bool :=
  o.members.all fun m => allowed.any (m.1 = ·)

/-- `none` is `NULL`: some value could not be made or set. -/
def buildRequest (J : Jansson) (r : RedeemReq) : Option CStr := do
  let o ← J.setEach [(.lit "type", J.string (.lit "redeem_receipt")),
    (.lit "effect_receipt", r.effectReceipt.bind J.string),
    (.lit "principal_uid", some (.integer r.principalUid.toNat))]
  let eff ← J.setEach [(.lit "operation", J.string r.operation),
    (.lit "resource", J.string r.resource),
    (.lit "plan_schema", some (.integer r.planSchema)),
    (.lit "plan_hash", J.string r.planHash)]
  let o ← J.setNew o (.lit "effect") (some (.object eff))
  some (J.dumps (.object o))

/-- The return value, `*code` and `out_cid`. -/
structure RedeemOut where
  status : RedeemStatus
  code : CStr
  outCid : OutCid

def okKeys : List CStr := [.lit "ok", .lit "correlation_id", .lit "persisted"]

def errKeys : List CStr := [.lit "ok", .lit "error", .lit "message"]

/-- The reading of a parsed reply. -/
def classifyRoot (root : Json) (expectedCid : CStr) (outCid : OutCid) : RedeemOut :=
  let done : RedeemOut := ⟨.protocol, .lit "protocol", outCid⟩
  if !Json.isObject (some root) then done
  else
    let jok := root.objectGet (.lit "ok")
    if !Json.isBoolean jok then done
    else if Json.isTrue jok then
      if !onlyKeys root okKeys || !Json.isTrue (root.objectGet (.lit "persisted")) then done
      else
        match Json.stringValue (root.objectGet (.lit "correlation_id")) with
        | none => done
        | some cid =>
          if cid.length ≠ cidLen ∨ cid ≠ expectedCid then
            ⟨.cidMismatch, .lit "cid_mismatch", outCid⟩
          else ⟨.ok, .lit "ok", .ofStr _ cid⟩
    else if !onlyKeys root errKeys || !Json.isString (root.objectGet (.lit "message")) then done
    else
      match (Json.stringValue (root.objectGet (.lit "error"))).bind knownError with
      | none => done
      | some known => ⟨.refused, known, outCid⟩

def classifyReply (J : Jansson) (expectedCid : CStr) (outCid : OutCid) (reply : TxReply) :
    RedeemOut :=
  match if reply.rc ≠ 0 then none else reply.resp with
  | none => ⟨.protocol, .lit "transport", outCid⟩
  | some resp =>
    match J.loadb resp with
    | none => ⟨.protocol, .lit "protocol", outCid⟩
    | some root => classifyRoot root expectedCid outCid

def pkgxRedeem {m : Type → Type} [Monad m] (J : Jansson) (req : RedeemReq) (expectedCid : CStr)
    (tx : CStr → m TxReply) (outCid : OutCid) : m RedeemOut :=
  match buildRequest J req with
  | none => pure ⟨.protocol, .lit "protocol", outCid⟩
  | some body => do
    let reply ← tx body
    pure (classifyReply J expectedCid outCid reply)

def pkgxCidEcho (outCid : OutCid) : Option CStr → OutCid
  | none => outCid.clear
  | some cid => if cid.length = cidLen then .ofStr _ cid else outCid.clear

/-- The object a request denotes. -/
def RedeemReq.json (r : RedeemReq) (receipt : CStr) : Json :=
  .object [(.lit "type", .string (CStr.lit "redeem_receipt").bytes),
    (.lit "effect_receipt", .string receipt.bytes),
    (.lit "principal_uid", .integer r.principalUid.toNat),
    (.lit "effect", .object [(.lit "operation", .string r.operation.bytes),
      (.lit "resource", .string r.resource.bytes),
      (.lit "plan_schema", .integer r.planSchema),
      (.lit "plan_hash", .string r.planHash.bytes)])]

theorem noNul_requestText (r : RedeemReq) (receipt : CStr) :
    (0 : UInt8) ∉ (r.json receipt).compact := by
  have hstring : ∀ s : CStr, (0 : UInt8) ∉ (Json.string s.bytes).compact := fun s => by
    rw [Json.compact_string]
    exact Json.noNul_quoted s.noNul
  apply Json.noNul_object
  intro m hm
  simp only [List.mem_cons, List.not_mem_nil, or_false] at hm
  rcases hm with rfl | rfl | rfl | rfl
  · exact hstring _
  · exact hstring _
  · exact Json.noNul_integer _
  · apply Json.noNul_object
    intro m hm
    simp only [List.mem_cons, List.not_mem_nil, or_false] at hm
    rcases hm with rfl | rfl | rfl | rfl
    · exact hstring _
    · exact hstring _
    · exact Json.noNul_integer _
    · exact hstring _

/-- A body is built exactly when every string of it is UTF-8, and it is then the printed
request object. -/
theorem buildRequest_eq_some_iff {J : Jansson} {r : RedeemReq} {body : CStr} :
    buildRequest J r = some body ↔ ∃ receipt, r.effectReceipt = some receipt ∧
      J.stringOk receipt.bytes = true ∧ J.stringOk r.operation.bytes = true ∧
      J.stringOk r.resource.bytes = true ∧ J.stringOk r.planHash.bytes = true ∧
      J.dumps (r.json receipt) = body := by
  have houter : ∀ v : Option Json, J.setEach [(.lit "type", J.string (.lit "redeem_receipt")),
      (.lit "effect_receipt", v), (.lit "principal_uid", some (.integer r.principalUid.toNat))] =
      v.map fun v => [(.lit "type", .string (CStr.lit "redeem_receipt").bytes),
        (.lit "effect_receipt", v), (.lit "principal_uid", .integer r.principalUid.toNat)] := by
    intro v
    rw [J.setEach_of_names (by simp only [List.map_cons, List.map_nil]; decide),
      J.string_of_ascii (by decide)]
    cases v <;> rfl
  have hinner : ∀ u v w : Option Json, J.setEach [(.lit "operation", u), (.lit "resource", v),
      (.lit "plan_schema", some (.integer r.planSchema)), (.lit "plan_hash", w)] =
      u.bind fun u => v.bind fun v => w.map fun w => [(.lit "operation", u), (.lit "resource", v),
        (.lit "plan_schema", .integer r.planSchema), (.lit "plan_hash", w)] := by
    intro u v w
    rw [J.setEach_of_names (by simp only [List.map_cons, List.map_nil]; decide)]
    cases u <;> cases v <;> cases w <;> rfl
  have heffect : ∀ u v w : Json, J.setNew [(.lit "type", u), (.lit "effect_receipt", v),
      (.lit "principal_uid", w)] (.lit "effect") = Option.map fun e =>
        [(.lit "type", u), (.lit "effect_receipt", v), (.lit "principal_uid", w),
          (.lit "effect", e)] := by
    intro u v w
    funext e
    cases e with
    | none => rfl
    | some e => exact J.setNew_of_new e (Jansson.Ascii.wellFormed (by decide)) (by simp; decide)
  obtain ⟨receipt, uid, operation, resource, schema, hash⟩ := r
  simp only [buildRequest, houter, hinner, Option.bind_eq_bind]
  cases receipt with
  | none => simp
  | some receipt =>
    simp only [Option.bind_some, Jansson.string, RedeemReq.json]
    by_cases h₁ : J.stringOk receipt.bytes <;> by_cases h₂ : J.stringOk operation.bytes <;>
      by_cases h₃ : J.stringOk resource.bytes <;> by_cases h₄ : J.stringOk hash.bytes <;>
      simp [h₁, h₂, h₃, h₄, heffect]

theorem realFree_request (r : RedeemReq) (receipt : CStr) : (r.json receipt).RealFree := by
  refine .object fun m hm => ?_
  simp only [List.mem_cons, List.not_mem_nil, or_false] at hm
  rcases hm with rfl | rfl | rfl | rfl
  · exact .string _
  · exact .string _
  · exact .integer _
  · refine .object fun m hm => ?_
    simp only [List.mem_cons, List.not_mem_nil, or_false] at hm
    rcases hm with rfl | rfl | rfl | rfl
    · exact .string _
    · exact .string _
    · exact .integer _
    · exact .string _

/-- The body says everything that was asked: no two requests have one body. -/
theorem buildRequest_injective {J : Jansson} (hcompact : ∀ v, J.dumps v = .ofMem v.compact)
    {r r' : RedeemReq} {body : CStr} (h : buildRequest J r = some body)
    (h' : buildRequest J r' = some body) : r = r' := by
  obtain ⟨receipt, hreceipt, -, -, -, -, hbody⟩ := buildRequest_eq_some_iff.mp h
  obtain ⟨receipt', hreceipt', -, -, -, -, hbody'⟩ := buildRequest_eq_some_iff.mp h'
  rw [hcompact] at hbody hbody'
  have htext := congrArg CStr.bytes (hbody.trans hbody'.symm)
  rw [CStr.ofMem_of_noNul (noNul_requestText _ _), CStr.ofMem_of_noNul (noNul_requestText _ _)]
    at htext
  have hjson := Json.compact_injective (realFree_request r receipt) (realFree_request r' receipt')
    htext
  simp only [RedeemReq.json, Json.object.injEq, List.cons.injEq, Prod.mk.injEq, true_and,
    Json.string.injEq, Json.integer.injEq, and_true, Int.natCast_inj, UInt32.toNat_inj] at hjson
  obtain ⟨htoken, huid, hoperation, hresource, hschema, hhash⟩ := hjson
  obtain ⟨receipt₁, uid, operation, resource, schema, hash⟩ := r
  obtain ⟨receipt₂, uid', operation', resource', schema', hash'⟩ := r'
  dsimp only at hreceipt hreceipt' huid hoperation hresource hschema hhash
  rw [hreceipt, hreceipt', CStr.ext htoken, huid, CStr.ext hoperation, CStr.ext hresource, hschema,
    CStr.ext hhash]

/-- The members of the reply that redeems a receipt under `cid`. -/
def okMembers (cid : CStr) : List (CStr × Json) :=
  [(.lit "ok", .boolean true), (.lit "persisted", .boolean true),
    (.lit "correlation_id", .string cid.bytes)]

/-- The transport succeeded with exactly the object
`{ok: true, persisted: true, correlation_id: cid}`. -/
def Redeems (J : Jansson) (cid : CStr) (reply : TxReply) : Prop :=
  reply.rc = 0 ∧ ∃ resp ms, reply.resp = some resp ∧ J.loadb resp = some (.object ms) ∧
    ms.Perm (okMembers cid)

theorem okMembers_keys (cid : CStr) :
    (okMembers cid).map Prod.fst = [.lit "ok", .lit "persisted", .lit "correlation_id"] := rfl

theorem stringValue_eq_some_iff {v : Option Json} {cid : CStr}
    (hclean : ∀ j, v = some j → j.Clean) :
    Json.stringValue v = some cid ↔ v = some (.string cid.bytes) := by
  cases v with
  | none => simp [Json.stringValue]
  | some j =>
    cases hclean j rfl with
    | string hnul =>
      simp only [Json.stringValue, Option.some.injEq, Json.string.injEq, CStr.ext_iff,
        CStr.ofMem_of_noNul hnul]
    | _ => simp [Json.stringValue]

/-- `out_cid` is written only on success, with the expected cid. -/
theorem classifyRoot_outCid (root : Json) (cid : CStr) (out : OutCid) :
    ((classifyRoot root cid out).status = .ok ∧ (classifyRoot root cid out).outCid = .ofStr _ cid) ∨
      ((classifyRoot root cid out).status ≠ .ok ∧ (classifyRoot root cid out).outCid = out) := by
  rw [classifyRoot]
  dsimp only
  split
  · exact .inr ⟨by simp, rfl⟩
  split
  · exact .inr ⟨by simp, rfl⟩
  split
  · split
    · exact .inr ⟨by simp, rfl⟩
    split
    · exact .inr ⟨by simp, rfl⟩
    split
    · exact .inr ⟨by simp, rfl⟩
    · rename_i h
      rw [not_or, not_not, not_not] at h
      exact .inl ⟨rfl, by rw [h.2]⟩
  · split
    · exact .inr ⟨by simp, rfl⟩
    split
    · exact .inr ⟨by simp, rfl⟩
    · exact .inr ⟨by simp, rfl⟩

theorem classifyReply_outCid (J : Jansson) (cid : CStr) (out : OutCid) (reply : TxReply) :
    ((classifyReply J cid out reply).status = .ok ∧
        (classifyReply J cid out reply).outCid = .ofStr _ cid) ∨
      ((classifyReply J cid out reply).status ≠ .ok ∧
        (classifyReply J cid out reply).outCid = out) := by
  rw [classifyReply]
  split
  · exact .inr ⟨by simp, rfl⟩
  · split
    · exact .inr ⟨by simp, rfl⟩
    · exact classifyRoot_outCid _ cid out

end Pkgexec.Redeem
