import Pkgexec.ReceiptRedemption

/-!
# The classification of redeem replies

Two shapes of a reply mean something, the granting object and the refusing object with a known
code. What the client returns is decided by the shape alone; everything else is a protocol
error.
-/

namespace Pkgexec.Redeem
open CStrings JsonValues

/-- The members of a refusal. -/
def errMembers (code message : CStr) : List (CStr × Json) :=
  [(.lit "ok", .boolean false), (.lit "error", .string code.bytes),
    (.lit "message", .string message.bytes)]

theorem okMembers_nodup (c : CStr) : ((okMembers c).map Prod.fst).Nodup := by
  rw [okMembers_keys]
  decide

theorem errMembers_nodup (code message : CStr) :
    ((errMembers code message).map Prod.fst).Nodup := by
  have hkeys : (errMembers code message).map Prod.fst = errKeys := rfl
  rw [hkeys]
  decide

theorem exists_stringValue {v : Option Json} (h : Json.isString v = true) :
    ∃ s, Json.stringValue v = some s := by
  cases v with
  | none => simp [Json.isString] at h
  | some v =>
    cases v with
    | string mem => exact ⟨.ofMem mem, rfl⟩
    | _ => simp [Json.isString] at h

theorem eq_false_of_boolean {v : Option Json} (h : Json.isBoolean v = true)
    (hfalse : Json.isTrue v = false) : v = some (.boolean false) := by
  cases v with
  | none => simp [Json.isBoolean] at h
  | some v =>
    cases v with
    | boolean b =>
      rw [Json.isTrue_boolean] at hfalse
      rw [hfalse]
    | _ => simp [Json.isBoolean] at h

theorem onlyKeys_object_iff {ms : List (CStr × Json)} {allowed : List CStr} :
    onlyKeys (.object ms) allowed = true ↔ ∀ m ∈ ms, m.1 ∈ allowed := by
  simp [onlyKeys, Json.members]

theorem knownError_eq_some_iff {code known : CStr} :
    knownError code = some known ↔ known = code ∧ code ∈ redeemErrors := by
  rw [knownError]
  constructor
  · intro h
    have hcode := List.find?_some h
    obtain rfl : code = known := of_decide_eq_true hcode
    exact ⟨rfl, List.mem_of_find?_eq_some h⟩
  · rintro ⟨rfl, hmem⟩
    cases hfind : redeemErrors.find? (known = ·) with
    | none => exact absurd (List.find?_eq_none.mp hfind known hmem) (by simp)
    | some found =>
      have hfound := List.find?_some hfind
      obtain rfl : known = found := of_decide_eq_true hfound
      rfl

section Shapes

variable {ms : List (CStr × Json)} {cid : CStr} {out : OutCid}

/-- A grant is accepted under the expected cid and nothing else. -/
theorem classifyRoot_of_ok {c : CStr} (hperm : ms.Perm (okMembers c)) :
    classifyRoot (.object ms) cid out = if c.length ≠ cidLen ∨ c ≠ cid then
      ⟨.cidMismatch, .lit "cid_mismatch", out⟩ else ⟨.ok, .lit "ok", .ofStr _ c⟩ := by
  have hget := Json.objectGet_of_perm (okMembers_nodup c) hperm
  have hok : (Json.object ms).objectGet (.lit "ok") = some (.boolean true) := hget _
  have hpersisted : (Json.object ms).objectGet (.lit "persisted") = some (.boolean true) := hget _
  have hcid : (Json.object ms).objectGet (.lit "correlation_id") = some (.string c.bytes) := hget _
  have honly : onlyKeys (.object ms) okKeys = true := by
    rw [onlyKeys_object_iff]
    intro m hm
    have hmem := hperm.mem_iff.mp hm
    simp only [okMembers, List.mem_cons, List.not_mem_nil, or_false] at hmem
    rcases hmem with rfl | rfl | rfl <;> simp [okKeys]
  simp [classifyRoot, hok, hpersisted, hcid, honly, Json.isObject, Json.isBoolean,
    Json.stringValue]

/-- A refusal is passed on if its code is one of the closed set. -/
theorem classifyRoot_of_err {code message : CStr} (hperm : ms.Perm (errMembers code message)) :
    classifyRoot (.object ms) cid out = if code ∈ redeemErrors then
      ⟨.refused, code, out⟩ else ⟨.protocol, .lit "protocol", out⟩ := by
  have hget := Json.objectGet_of_perm (errMembers_nodup code message) hperm
  have hok : (Json.object ms).objectGet (.lit "ok") = some (.boolean false) := hget _
  have herror : (Json.object ms).objectGet (.lit "error") = some (.string code.bytes) := hget _
  have hmessage : (Json.object ms).objectGet (.lit "message") = some (.string message.bytes) :=
    hget _
  have honly : onlyKeys (.object ms) errKeys = true := by
    rw [onlyKeys_object_iff]
    intro m hm
    exact (hperm.map Prod.fst).mem_iff.mp (List.mem_map_of_mem hm)
  have hknown : knownError code = if code ∈ redeemErrors then some code else none := by
    split
    · exact knownError_eq_some_iff.mpr ⟨rfl, ‹_›⟩
    · rename_i hmem
      rw [Option.eq_none_iff_forall_ne_some]
      exact fun known h => hmem (knownError_eq_some_iff.mp h).2
  simp only [classifyRoot, hok, herror, hmessage, honly, Json.isObject, Json.isBoolean,
    Json.isTrue, Json.isString, Json.stringValue, CStr.ofMem_bytes, Option.bind_some, hknown]
  by_cases hmem : code ∈ redeemErrors <;> simp [hmem]

section Checks

variable (hkeys : (ms.map Prod.fst).Nodup)

include hkeys

/-- The checks of a grant leave nothing else in the object. -/
theorem perm_okMembers {c : CStr} (honly : onlyKeys (.object ms) okKeys = true)
    (hok : (Json.object ms).objectGet (.lit "ok") = some (.boolean true))
    (hpersisted : (Json.object ms).objectGet (.lit "persisted") = some (.boolean true))
    (hcid : (Json.object ms).objectGet (.lit "correlation_id") = some (.string c.bytes)) :
    ms.Perm (okMembers c) := by
  refine KeyedLists.perm_of_only_keys hkeys (okMembers_nodup c) ?_ ?_
  · intro m hm
    have hmem := onlyKeys_object_iff.mp honly m hm
    simp only [okKeys, List.mem_cons, List.not_mem_nil, or_false] at hmem
    rcases hmem with hk | hk | hk <;> simp [okMembers, hk]
  · intro w hw
    simp only [okMembers, List.mem_cons, List.not_mem_nil, or_false] at hw
    rcases hw with rfl | rfl | rfl
    · exact hok
    · exact hpersisted
    · exact hcid

theorem perm_errMembers {code message : CStr} (honly : onlyKeys (.object ms) errKeys = true)
    (hok : (Json.object ms).objectGet (.lit "ok") = some (.boolean false))
    (herror : (Json.object ms).objectGet (.lit "error") = some (.string code.bytes))
    (hmessage : (Json.object ms).objectGet (.lit "message") = some (.string message.bytes)) :
    ms.Perm (errMembers code message) := by
  refine KeyedLists.perm_of_only_keys hkeys (errMembers_nodup code message) ?_ ?_
  · exact onlyKeys_object_iff.mp honly
  · intro w hw
    simp only [errMembers, List.mem_cons, List.not_mem_nil, or_false] at hw
    rcases hw with rfl | rfl | rfl
    · exact hok
    · exact herror
    · exact hmessage

end Checks

/-- Any reply that is not a protocol error has one of the two shapes. -/
theorem shape_of_classifyRoot {root : Json} (hroot : root.Clean)
    (h : (classifyRoot root cid out).status ≠ .protocol) :
    ∃ ms, root = .object ms ∧
      ((∃ c, ms.Perm (okMembers c)) ∨ ∃ code message, ms.Perm (errMembers code message)) := by
  cases hroot with
  | @object ms hkeys hclean =>
    refine ⟨ms, rfl, ?_⟩
    have hget : ∀ k v, (Json.object ms).objectGet k = some v → v.Clean := fun k v hv =>
      hclean _ (KeyedLists.mem_of_valueAt hv)
    have hstring {k s : CStr} (hs : Json.stringValue ((Json.object ms).objectGet k) = some s) :
        (Json.object ms).objectGet k = some (.string s.bytes) :=
      (stringValue_eq_some_iff (hget k)).mp hs
    simp only [classifyRoot, Json.isObject, Bool.not_true, Bool.false_eq_true, if_false] at h
    split at h
    · exact absurd rfl h
    · rename_i hboolean
      split at h
      · rename_i htrue
        split at h
        · exact absurd rfl h
        · rename_i hkeep
          simp only [Bool.or_eq_true, Bool.not_eq_true', not_or, Bool.not_eq_false] at hkeep
          cases hc : Json.stringValue ((Json.object ms).objectGet (.lit "correlation_id")) with
          | none => simp [hc] at h
          | some c =>
            exact .inl ⟨c, perm_okMembers hkeys hkeep.1 (Json.isTrue_iff.mp htrue)
              (Json.isTrue_iff.mp hkeep.2) (hstring hc)⟩
      · rename_i hfalse
        split at h
        · exact absurd rfl h
        · rename_i hkeep
          simp only [Bool.or_eq_true, Bool.not_eq_true', not_or, Bool.not_eq_false] at hkeep
          obtain ⟨message, hmessage⟩ := exists_stringValue hkeep.2
          have hok : (Json.object ms).objectGet (.lit "ok") = some (.boolean false) :=
            eq_false_of_boolean (by simpa using hboolean) (by simpa using hfalse)
          cases he : Json.stringValue ((Json.object ms).objectGet (.lit "error")) with
          | none => simp [he] at h
          | some code =>
            exact .inr ⟨code, message,
              perm_errMembers hkeys hkeep.1 hok (hstring he) (hstring hmessage)⟩
  | _ => simp [classifyRoot, Json.isObject] at h

end Shapes

/-- The transport succeeded with exactly the object `{ok: false, error: code, message}`. -/
def Refuses (J : Jansson) (code : CStr) (reply : TxReply) : Prop :=
  reply.rc = 0 ∧ ∃ resp ms message, reply.resp = some resp ∧ J.loadb resp = some (.object ms) ∧
    ms.Perm (errMembers code message)

section Outcomes

variable {J : Jansson} {cid : CStr} {out : OutCid} {reply : TxReply}

theorem classifyReply_of_redeems {c : CStr} (h : Redeems J c reply) :
    classifyReply J cid out reply = if c.length ≠ cidLen ∨ c ≠ cid then
      ⟨.cidMismatch, .lit "cid_mismatch", out⟩ else ⟨.ok, .lit "ok", .ofStr _ c⟩ := by
  obtain ⟨hrc, resp, ms, hresp, hload, hperm⟩ := h
  simp only [classifyReply, hrc, hresp, hload, ne_eq, not_true_eq_false, if_false]
  exact classifyRoot_of_ok hperm

theorem classifyReply_of_refuses {code : CStr} (h : Refuses J code reply) :
    classifyReply J cid out reply = if code ∈ redeemErrors then
      ⟨.refused, code, out⟩ else ⟨.protocol, .lit "protocol", out⟩ := by
  obtain ⟨hrc, resp, ms, message, hresp, hload, hperm⟩ := h
  simp only [classifyReply, hrc, hresp, hload, ne_eq, not_true_eq_false, if_false]
  exact classifyRoot_of_err hperm

theorem shape_of_classifyReply (h : (classifyReply J cid out reply).status ≠ .protocol) :
    (∃ c, Redeems J c reply) ∨ ∃ code, Refuses J code reply := by
  rw [classifyReply] at h
  by_cases hrc : reply.rc = 0
  · cases hresp : reply.resp with
    | none => simp [hrc, hresp] at h
    | some resp =>
      cases hload : J.loadb resp with
      | none => simp [hrc, hresp, hload] at h
      | some root =>
        simp only [hrc, hresp, hload, ne_eq, not_true_eq_false, if_false] at h
        obtain ⟨ms, rfl, ⟨c, hperm⟩ | ⟨code, message, hperm⟩⟩ :=
          shape_of_classifyRoot (J.loadb_clean resp root hload) h
        · exact .inl ⟨c, hrc, resp, ms, hresp, hload, hperm⟩
        · exact .inr ⟨code, hrc, resp, ms, message, hresp, hload, hperm⟩
  · simp [hrc] at h

theorem classifyReply_ok_iff : (classifyReply J cid out reply).status = .ok ↔
    Redeems J cid reply ∧ cid.length = cidLen := by
  constructor
  · intro h
    rcases shape_of_classifyReply (by rw [h]; simp) with ⟨c, hc⟩ | ⟨code, hcode⟩
    · rw [classifyReply_of_redeems hc] at h
      split at h
      · cases h
      · rename_i hsame
        rw [not_or, not_not, not_not] at hsame
        obtain ⟨hlen, rfl⟩ := hsame
        exact ⟨hc, hlen⟩
    · rw [classifyReply_of_refuses hcode] at h
      split at h <;> cases h
  · rintro ⟨hc, hlen⟩
    rw [classifyReply_of_redeems hc, if_neg (by simp [hlen])]

theorem classifyReply_cidMismatch_iff : (classifyReply J cid out reply).status = .cidMismatch ↔
    ∃ c, Redeems J c reply ∧ (c.length ≠ cidLen ∨ c ≠ cid) := by
  constructor
  · intro h
    rcases shape_of_classifyReply (by rw [h]; simp) with ⟨c, hc⟩ | ⟨code, hcode⟩
    · refine ⟨c, hc, ?_⟩
      by_contra hsame
      rw [classifyReply_of_redeems hc, if_neg hsame] at h
      cases h
    · rw [classifyReply_of_refuses hcode] at h
      split at h <;> cases h
  · rintro ⟨c, hc, hdiff⟩
    rw [classifyReply_of_redeems hc, if_pos hdiff]

theorem classifyReply_refused_iff {code : CStr} :
    ((classifyReply J cid out reply).status = .refused ∧
        (classifyReply J cid out reply).code = code) ↔
      code ∈ redeemErrors ∧ Refuses J code reply := by
  constructor
  · rintro ⟨h, hcode⟩
    rcases shape_of_classifyReply (by rw [h]; simp) with ⟨c, hc⟩ | ⟨code', hc⟩
    · rw [classifyReply_of_redeems hc] at h
      split at h <;> cases h
    · rw [classifyReply_of_refuses hc] at h hcode
      split at h
      · rename_i hmem
        rw [if_pos hmem] at hcode
        obtain rfl : code' = code := hcode
        exact ⟨hmem, hc⟩
      · cases h
  · rintro ⟨hmem, hc⟩
    rw [classifyReply_of_refuses hc, if_pos hmem]
    exact ⟨rfl, rfl⟩

theorem classifyReply_protocol_iff : (classifyReply J cid out reply).status = .protocol ↔
    (∀ c, ¬ Redeems J c reply) ∧ ∀ code ∈ redeemErrors, ¬ Refuses J code reply := by
  constructor
  · intro h
    constructor
    · intro c hc
      rw [classifyReply_of_redeems hc] at h
      split at h <;> cases h
    · intro code hmem hcode
      rw [classifyReply_of_refuses hcode, if_pos hmem] at h
      cases h
  · rintro ⟨hgrant, hrefuse⟩
    by_contra h
    rcases shape_of_classifyReply h with ⟨c, hc⟩ | ⟨code, hcode⟩
    · exact hgrant c hc
    · rw [classifyReply_of_refuses hcode] at h
      split at h
      · rename_i hmem
        exact hrefuse code hmem hcode
      · exact h rfl

end Outcomes

/-- The reply the client gets, if its request body could be built: `P` holds of it. -/
def Answered (J : Jansson) (req : RedeemReq) (tx : CStr → TxReply) (P : TxReply → Prop) : Prop :=
  ∃ body, buildRequest J req = some body ∧ P (tx body)

/-- The client's four outcomes, each exactly on its shape of reply, and `out_cid` written only
on success. -/
theorem redeem_reply_classified (J : Jansson) (req : RedeemReq) (cid : CStr)
    (tx : CStr → TxReply) (out : OutCid) :
    let r : RedeemOut := Id.run (pkgxRedeem J req cid (fun body => pure (tx body)) out)
    (r.status = .ok ↔ Answered J req tx fun reply => Redeems J cid reply ∧ cid.length = cidLen) ∧
    (r.status = .cidMismatch ↔ Answered J req tx fun reply =>
      ∃ c, Redeems J c reply ∧ (c.length ≠ cidLen ∨ c ≠ cid)) ∧
    (∀ code, r.status = .refused ∧ r.code = code ↔
      Answered J req tx fun reply => code ∈ redeemErrors ∧ Refuses J code reply) ∧
    (r.status = .protocol ↔ ¬ Answered J req tx fun reply =>
      (∃ c, Redeems J c reply) ∨ ∃ code ∈ redeemErrors, Refuses J code reply) ∧
    (r.status = .ok → r.outCid = .ofStr _ cid) ∧ (r.status ≠ .ok → r.outCid = out) := by
  dsimp only [Id.run]
  cases hbuild : buildRequest J req with
  | none =>
    have hnot (P : TxReply → Prop) : ¬ Answered J req tx P := by
      rintro ⟨body, hbody, -⟩
      rw [hbuild] at hbody
      cases hbody
    have hrun : pkgxRedeem J req cid (fun body => (pure (tx body) : Id TxReply)) out =
        ⟨.protocol, .lit "protocol", out⟩ := by
      rw [pkgxRedeem, hbuild]
      rfl
    simp [hrun, hnot]
  | some body =>
    have hiff (P : TxReply → Prop) : Answered J req tx P ↔ P (tx body) := by
      simp [Answered, hbuild]
    have hrun : pkgxRedeem J req cid (fun body => (pure (tx body) : Id TxReply)) out =
        classifyReply J cid out (tx body) := by
      rw [pkgxRedeem, hbuild]
      rfl
    rw [hrun]
    simp only [hiff]
    refine ⟨classifyReply_ok_iff, classifyReply_cidMismatch_iff, fun _ =>
      classifyReply_refused_iff, ?_, ?_⟩
    · rw [classifyReply_protocol_iff]
      push Not
      rfl
    · rcases classifyReply_outCid J cid out (tx body) with ⟨hok, hcid⟩ | ⟨hne, hcid⟩
      · exact ⟨fun _ => hcid, fun h => absurd hok h⟩
      · exact ⟨fun h => absurd h hne, fun _ => hcid⟩

end Pkgexec.Redeem
