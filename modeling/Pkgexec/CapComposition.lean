import Pkgexec.BrokerTransport
import Pkgexec.BuilderDomain
import Pkgexec.EffectDiscipline
import Pkgexec.JsonLengths
import Pkgexec.RequestSchema
import Pkgexec.TargetGrammar

/-!
# The caps compose

No single limit keeps a redeem request within a frame: 256 names of 256 bytes would not fit.
An accepted request is itself at most 64 KiB, and each name in it costs more there than it
costs in the resource of the redeem request, so many names leave room and few names are short.
-/

namespace Pkgexec.Transport
open CStrings FuelRuns

section Accepting

variable (os : Os) (fd : ℕ) (dl : Timespec)

/-- The outcome is not a refusal of the size. -/
def SizeAccepted (out : TxOut) : Prop := out.err ≠ some (.lit "request_size")

theorem sizeAccepted_failed {err : CStr} (h : err ≠ .lit "request_size") :
    SizeAccepted (failed err) := fun he => h (Option.some.inj he)

theorem closing_sizeAccepted {err : CStr} (h : err ≠ .lit "request_size") :
    Returns SizeAccepted (closing fd err) :=
  Returns.after fun _ => .pure (sizeAccepted_failed h)

theorem readError_ne (rr : ℤ) : readError rr ≠ .lit "request_size" := by
  rw [readError]
  split
  · decide
  · split <;> decide

theorem receiveFrame_sizeAccepted (n : ℕ) : Returns SizeAccepted (receiveFrame os fd dl n) := by
  refine Returns.after ?_
  rintro ⟨rr, rhdr⟩
  dsimp only
  split
  · exact closing_sizeAccepted fd (readError_ne rr)
  split
  · exact closing_sizeAccepted fd (by decide)
  split
  · exact closing_sizeAccepted fd (by decide)
  refine Returns.after fun allocated => ?_
  split
  · exact closing_sizeAccepted fd (by decide)
  refine Returns.after ?_
  rintro ⟨rr, body⟩
  dsimp only
  split
  · exact closing_sizeAccepted fd (readError_ne rr)
  · exact Returns.after fun _ => .pure (by simp [SizeAccepted])

theorem exchange_sizeAccepted (t : PkgxTransport) (req : List UInt8) (n : ℕ) :
    Returns SizeAccepted (exchange os fd dl t req n) := by
  refine Returns.after fun cred => ?_
  cases cred with
  | none => exact closing_sizeAccepted fd (by decide)
  | some uid =>
    dsimp only
    split
    · exact closing_sizeAccepted fd (by decide)
    · refine Returns.after fun wr => ?_
      split
      · refine closing_sizeAccepted fd ?_
        split <;> decide
      · exact receiveFrame_sizeAccepted os fd dl n

/-- A connection that fails says why, and it is not the size. -/
def Connected (r : Except CStr ℕ) : Prop := r ≠ .error (.lit "request_size")

theorem connected_ok : Connected (.ok fd) := by simp [Connected]

theorem connected_error {err : CStr} (h : err ≠ .lit "request_size") :
    Connected (.error err) := by simpa [Connected] using h

theorem connectLoop_connected (n : ℕ) : Returns Connected (connectLoop os dl n) := by
  induction n with
  | zero => exact .failure
  | succ n ih =>
    rw [connectLoop]
    refine Returns.after fun made => ?_
    split
    · exact .pure (connected_error (by decide))
    refine Returns.after fun r => ?_
    split
    · exact .pure (connected_ok _)
    split
    · refine Returns.after fun wr => ?_
      split
      · refine Returns.after fun so => ?_
        split
        · exact .pure (connected_ok _)
        · exact Returns.after fun _ => .pure (connected_error (by decide))
      · refine Returns.after fun _ => .pure (connected_error ?_)
        split <;> decide
    split
    · refine Returns.after fun _ => Returns.after fun left => ?_
      split
      · exact .pure (connected_error (by decide))
      · exact Returns.after fun _ => ih
    · exact Returns.after fun _ => .pure (connected_error (by decide))

theorem connectDeadline_connected (path : Option CStr) (n : ℕ) :
    Returns Connected (connectDeadline os dl path n) := by
  cases path with
  | none => exact .pure (connected_error (by decide))
  | some path =>
    rw [connectDeadline]
    split
    · exact .pure (connected_error (by decide))
    · exact connectLoop_connected os dl n

/-- A body that is not empty and fits a frame is never refused for its size. -/
theorem pkgxTransportTx_sizeAccepted (t : PkgxTransport) {req : List UInt8} (hne : req ≠ [])
    (hfits : req.length ≤ frameMaxBody) (n : ℕ) :
    Returns SizeAccepted (pkgxTransportTx os t (some req) n) := by
  have hsize : ¬ (req.length = 0 ∨ req.length > frameMaxBody) := by
    have hpos := List.length_pos_of_ne_nil hne
    omega
  rw [pkgxTransportTx]
  dsimp only
  rw [if_neg hsize]
  refine Returns.after fun now => ?_
  split
  · exact .pure (sizeAccepted_failed (by decide))
  refine Returns.bind (connectDeadline_connected os _ _ n) fun r hr => ?_
  split
  · exact .pure (sizeAccepted_failed fun he => hr (he ▸ rfl))
  · exact exchange_sizeAccepted os _ _ t req n

end Accepting

end Pkgexec.Transport

namespace Pkgexec.Request
open CStrings JsonValues PlanDigest DelimitedLists Redeem Plan Apt Transport FuelRuns

def nameBytes (names : List CStr) : ℕ := (names.map fun s => s.bytes.length).sum

/-- The names with a comma between them. -/
theorem length_targetText (names : List CStr) :
    (targetText names).bytes.length = nameBytes names + (names.length - 1) := by
  have hsum : ((qsort names).map fun s => s.bytes.length).sum = nameBytes names :=
    ((qsort_perm names).map fun s => s.bytes.length).sum_eq
  rw [targetText_bytes, itemsText_eq, length_join, List.map_map, List.length_map,
    (qsort_perm names).length_eq, ← hsum]
  rfl

/-- The names with quotes around them and a comma between them, in brackets. -/
theorem length_jsonNames_ge (names : List CStr) :
    nameBytes names + 2 * names.length + (names.length - 1) + 2 ≤
      (jsonNames names).compact.length := by
  have hsum : nameBytes names + 2 * names.length ≤
      (names.map fun s => (Json.quoted s.bytes).length).sum := by
    rw [nameBytes]
    induction names with
    | nil => simp
    | cons s names ih =>
      have hs := Json.length_le_length_quoted s.bytes
      simp only [List.map_cons, List.sum_cons, List.length_cons]
      omega
  have hlen : (jsonNames names).compact.length =
      (names.map fun s => (Json.quoted s.bytes).length).sum + (names.length - 1) + 2 := by
    simp [jsonNames, Json.length_compact_array, Json.compact_string, Function.comp_def]
  omega

theorem length_requestMembers_ge {rcpt cid : CStr} {t : ℤ} (h : RequestOk rcpt cid t) (p : Json) :
    155 + p.compact.length ≤
      (Json.object (requestMembers rcpt cid t p)).compact.length := by
  have hrcpt := Json.length_le_length_quoted rcpt.bytes
  have hcid := Json.length_le_length_quoted cid.bytes
  have hrcptLen : rcpt.bytes.length = 32 := (isLcHex_iff.mp h.receipt).1
  have hcidLen : cid.bytes.length = 37 := pkgxCidValid_length (pkgxCidValid_iff.mpr h.cid)
  obtain ⟨n, rfl⟩ := Int.eq_ofNat_of_zero_le h.timeout.1
  have htimeout := Json.length_compact_natCast_pos n
  have hschema : (Json.integer 1).compact.length = 1 := by decide
  have hkeys : (allowed.map fun k => (Json.quoted k.bytes).length).sum = 69 := by decide
  rw [Json.length_compact_object_keys allowed (requestMembers_keys rcpt cid n p), hkeys]
  simp only [requestMembers, List.map_cons, List.map_nil, List.sum_cons, List.sum_nil,
    List.length_cons, List.length_nil, Json.compact_string, hschema]
  omega

theorem plain_of_nameByte {c : UInt8} (h : nameByte c = true ∨ c = colon) : Json.Plain c := by
  have hcontrol : ∀ c : UInt8, 32 ≤ c.toNat → ¬ c < 0x20 := fun c hc hlt => by
    have hlt' : c.toNat < 32 := hlt
    omega
  rcases nameByte_cases h with rfl | h | h | rfl | rfl | rfl
  · decide
  · refine ⟨?_, ?_, hcontrol c (by omega)⟩ <;> rintro rfl <;> revert h <;> decide
  · refine ⟨?_, ?_, hcontrol c (by omega)⟩ <;> rintro rfl <;> revert h <;> decide
  · decide
  · decide
  · decide

theorem plain_of_hexDigit {c : UInt8} (h : isHexDigit c = true) : Json.Plain c := by
  have hrange := hexDigit_range h
  have hcontrol : ¬ c < 0x20 := fun hlt => by
    have hlt' : c.toNat < 32 := hlt
    omega
  refine ⟨?_, ?_, hcontrol⟩ <;> rintro rfl <;> revert hrange <;> decide

theorem plain_targetText {names : List CStr} (h : TargetsOk names) :
    ∀ b ∈ (targetText names).bytes, Json.Plain b := by
  intro b hb
  rw [targetText_bytes, itemsText_eq] at hb
  rcases mem_join hb with rfl | ⟨p, hp, hbp⟩
  · decide
  · obtain ⟨s, hs, rfl⟩ := List.mem_map.mp hp
    exact plain_of_nameByte (nameOk_bytes (h.each s ((qsort_perm names).mem_iff.mp hs)) b hbp)

/-- The member names of a redeem request. -/
def redeemKeys : List CStr :=
  [.lit "type", .lit "effect_receipt", .lit "principal_uid", .lit "effect"]

/-- The member names of the effect in it. -/
def effectKeys : List CStr :=
  [.lit "operation", .lit "resource", .lit "plan_schema", .lit "plan_hash"]

/-- The redeem request without its resource takes at most 255 bytes. -/
theorem length_redeemText_le (uid : UInt32) {receipt verb resource hash : CStr}
    (hreceipt : isLcHex receipt receiptHexlen = true)
    (hverb : verb ∈ wholeVerbs ∨ verb ∈ targetVerbs)
    (hresource : ∀ b ∈ resource.bytes, Json.Plain b) (hhash : isLcHex hash 64 = true) :
    ((RedeemReq.json ⟨some receipt, uid, verb, resource, 1, hash⟩ receipt).compact).length ≤
      255 + resource.bytes.length := by
  have hexPlain : ∀ {s : CStr} {n : ℕ}, isLcHex s n = true → (Json.quoted s.bytes).length = n + 2 :=
    fun {s n} hs => by
      rw [Json.length_quoted_of_plain fun b hb => plain_of_hexDigit ((isLcHex_iff.mp hs).2 b hb)]
      exact congrArg (· + 2) (isLcHex_iff.mp hs).1
  have hreceiptLen := hexPlain hreceipt
  have hhashLen := hexPlain hhash
  have hresourceLen := Json.length_quoted_of_plain hresource
  have hverbLen : (Json.quoted verb.bytes).length ≤ 18 := by
    have hall : ∀ v ∈ wholeVerbs ++ targetVerbs, (Json.quoted v.bytes).length ≤ 18 := by decide
    exact hall verb (List.mem_append.mpr hverb)
  have huid : (Json.integer uid.toNat).compact.length ≤ 10 :=
    Json.length_compact_natCast_le (by decide) (lt_trans uid.toNat_lt (by decide))
  have hschema : (Json.integer 1).compact.length = 1 := by decide
  have htype : (Json.quoted (CStr.lit "redeem_receipt").bytes).length = 16 := by decide
  have hkeys : (redeemKeys.map fun k => (Json.quoted k.bytes).length).sum = 45 := by decide
  have heffectKeys : (effectKeys.map fun k => (Json.quoted k.bytes).length).sum = 45 := by decide
  rw [RedeemReq.json, Json.length_compact_object_keys redeemKeys rfl, hkeys]
  simp only [List.map_cons, List.map_nil, List.sum_cons, List.sum_nil, List.length_cons,
    List.length_nil, Json.compact_string, htype, hreceiptLen]
  rw [Json.length_compact_object_keys effectKeys rfl, heffectKeys]
  simp only [List.map_cons, List.map_nil, List.sum_cons, List.sum_nil, List.length_cons,
    List.length_nil, Json.compact_string, hschema, hhashLen, hresourceLen, receiptHexlen]
  omega

section Hold

variable {cache : PkgCache} {names : List CStr} {hold : Bool} {changes : List PkgxHoldHolder}
  {recs : List HoldRecord}

/-- The records of acceptable names are few and short. -/
theorem holdEncodings_le (htargets : TargetsOk names)
    (hmap : pkgxAptMapHold cache names hold = .ok (changes, recs)) :
    recs.length ≤ maxPackages ∧ ∀ r ∈ recs, (holdShape.enc r).bytes.length ≤ maxName + 16 := by
  have hclosed := pkgxAptMapHold_closed hmap
  obtain ⟨hrecs, hpackages⟩ := pkgxAptMapHold_ok hmap
  constructor
  · obtain ⟨-, hchanges, -⟩ := pkgxAptMapHold_eq_ok_iff.mp hmap
    rw [hrecs, hchanges, List.length_map]
    exact (List.length_filterMap_le _ _).trans htargets.length_le
  · intro r hr
    obtain ⟨change, hchange, rfl⟩ := List.mem_map.mp (hrecs ▸ hr)
    have hname := length_le_of_nameOk
      (htargets.each _ ((hpackages change.package).mp (List.mem_map_of_mem hchange)).1)
    have hstates : ∀ s ∈ holdStates, s.bytes.length ≤ 7 := by decide
    have hfrom : change.fromState.bytes.length ≤ 7 := hstates _ (hclosed _ hr).fromState
    have hto : change.toState.bytes.length ≤ 7 := hstates _ (hclosed _ hr).toState
    rw [holdShape.enc_bytes, length_join]
    simp only [holdShape, PkgxHoldHolder.record, text, orEmpty_some, List.map_cons, List.map_nil,
      List.sum_cons, List.sum_nil, List.length_cons, List.length_nil]
    omega

/-- The digest of a hold of acceptable names fails only with the hash. -/
theorem pkgxDigestHold_isSome {E : Evp} (hsha : ∀ data, (E.sha256 data).isSome = true)
    {verb : CStr} (hverb : verb ∈ holdVerbs) (htargets : TargetsOk names)
    (hmap : pkgxAptMapHold cache names hold = .ok (changes, recs)) :
    ∃ d, pkgxDigestHold E (some verb) recs = some d := by
  obtain ⟨hcount, hlen⟩ := holdEncodings_le htargets hmap
  obtain ⟨hrecs, hpackages⟩ := pkgxAptMapHold_ok hmap
  have hok : ∀ r ∈ recs, r.Ok := by
    intro r hr
    obtain ⟨change, hchange, rfl⟩ := List.mem_map.mp (hrecs ▸ hr)
    have hname := htargets.each _ ((hpackages change.package).mp (List.mem_map_of_mem hchange)).1
    have hclosed := pkgxAptMapHold_closed hmap _ hr
    exact ⟨hclosed.fromState, hclosed.toState, fieldOk_of_nameOk hname⟩
  have hfits : (EncoderCall.hold (some verb) recs).canonBytes.length ≤ maxCanon := by
    have hpiece : ∀ p ∈ (qsort (recs.map holdShape.enc)).map CStr.bytes,
        p.length ≤ maxName + 16 := by
      intro p hp
      obtain ⟨s, hs, rfl⟩ := List.mem_map.mp hp
      obtain ⟨r, hr, rfl⟩ := List.mem_map.mp ((qsort_perm _).mem_iff.mp hs)
      exact hlen r hr
    have hjoin := length_join_le rs hpiece
    rw [List.length_map, (qsort_perm _).length_eq, List.length_map] at hjoin
    have hcap : maxPackages * (maxName + 16 + 1) + 19 ≤ maxCanon := by decide
    have hmul : recs.length * (maxName + 16 + 1) ≤ maxPackages * (maxName + 16 + 1) :=
      Nat.mul_le_mul_right _ hcount
    have hverbLen : verb.bytes.length ≤ 16 := by
      have hall : ∀ v ∈ holdVerbs, v.bytes.length ≤ 16 := by decide
      exact hall verb hverb
    rw [EncoderCall.canonBytes]
    simp only [EncoderCall.encodings, EncoderCall.verb, orEmpty_some, List.length_cons,
      List.length_append]
    omega
  obtain ⟨md, hmd⟩ := Option.isSome_iff_exists.mp
    (hsha (EncoderCall.hold (some verb) recs).canonBytes)
  obtain ⟨hex, hhex⟩ : ∃ hex,
      pkgxSha256Hex E (EncoderCall.hold (some verb) recs).canonBytes = some hex := by
    rw [pkgxSha256Hex, hmd]
    exact ⟨_, rfl⟩
  exact ⟨⟨hex, _⟩, EncoderCall.run_eq_some_iff (c := .hold (some verb) recs) |>.mpr
    ⟨⟨hverb, hok⟩, hfits, hhex, rfl⟩⟩

end Hold

/-- A plan whose resource and digest are built is not an internal error. -/
theorem verdict_ne_internal {E : Evp} {c : PlanCall} {resource : CStr} {d : Digest}
    (hresource : c.resource = some resource) (hdigest : c.digest E = some d)
    (detail : Option CStr) : c.verdict E ≠ .settled .internal detail := by
  rw [PlanCall.verdict]
  split
  · simp
  split
  · rename_i result offender hrefusal
    rcases PlanCall.refusal_result hrefusal with rfl | rfl | rfl <;> simp
  · rw [hresource, hdigest]
    simp

/-- The resource of a request that was read whole leaves room for the rest of the frame: with
49 names or more the request itself pays for it, and fewer names are too short. -/
theorem resource_fits {J : Jansson} {verb : CStr} {body : List UInt8} {req : PkgxRequest}
    (hread : body.length ≤ maxStdin) (hparse : pkgxParseRequest J verb body = .ok req)
    (hlength : ∀ v, J.loadb body = some v → v.compact.length ≤ body.length) :
    ∃ names, req.packages = some names ∧ TargetsOk names ∧
      (verb ∈ wholeVerbs ∨ verb ∈ targetVerbs) ∧
      255 + (targetText names).bytes.length ≤ frameMaxBody := by
  obtain ⟨rcpt, cid, t, names, ms, hload, hperm, hok, hpackages, rfl⟩ :=
    pkgxParseRequest_eq_ok_iff.mp hparse
  refine ⟨names, rfl, hpackages.targets, hpackages.arity.imp And.left And.left, ?_⟩
  have hbody := hlength _ hload
  rw [Json.length_compact_object_of_perm hperm] at hbody
  have hmembers := length_requestMembers_ge hok (jsonNames names)
  have hnames := length_jsonNames_ge names
  have hresource := length_targetText names
  have hshort : nameBytes names ≤ names.length * maxName := by
    rw [nameBytes]
    refine (List.sum_le_card_nsmul _ maxName ?_).trans (by simp)
    intro n hn
    obtain ⟨s, hs, rfl⟩ := List.mem_map.mp hn
    exact length_le_of_nameOk (hpackages.targets.each s hs)
  simp only [maxStdin, maxName, frameMaxBody] at *
  omega

/-- An accepted request can be redeemed: its resource is built, the redeem request fits a frame
and is never refused for its size, and a hold of its packages is never an internal error. -/
theorem caps_compose {J : Jansson} {E : Evp} {verb : CStr} {body : List UInt8} {req : PkgxRequest}
    (hread : body.length ≤ maxStdin) (hparse : pkgxParseRequest J verb body = .ok req)
    (hcompact : ∀ v, J.dumps v = .ofMem v.compact)
    (hlength : ∀ v, J.loadb body = some v → v.compact.length ≤ body.length)
    (hsha : ∀ data, (E.sha256 data).isSome = true) :
    ∃ names resource, req.packages = some names ∧
      pkgxResource (names.map some) = some resource ∧
      (∀ receipt uid hash, isLcHex receipt receiptHexlen = true → isLcHex hash 64 = true →
        ∃ text, buildRequest J ⟨some receipt, uid, verb, resource, 1, hash⟩ = some text ∧
          text.bytes.length ≤ frameMaxBody ∧
          ∀ os t n, Returns SizeAccepted (pkgxTransportTx os t (some text.bytes) n)) ∧
      ∀ cache hold changes recs, verb ∈ holdVerbs →
        pkgxAptMapHold cache names hold = .ok (changes, recs) →
        (∃ d, pkgxDigestHold E (some verb) recs = some d) ∧
        ∀ (σ : Type) (tx : CStr → StateM σ TxReply) g outCid w,
          PlanOut.result (Prod.fst (StateT.run (m := Id) (pkgxPlanAndRedeemHold J E g tx outCid
            (some verb) recs (names.map some)) w)) ≠ .internal := by
  obtain ⟨names, hnames, htargets, hverb, hfits⟩ := resource_fits hread hparse hlength
  have hresource := htargets.resource
  refine ⟨names, targetText names, hnames, hresource, ?_, ?_⟩
  · intro receipt uid hash hreceipt hhash
    have hverbAscii : Jansson.Ascii verb := by
      have hall : ∀ v ∈ wholeVerbs ++ targetVerbs, Jansson.Ascii v := by decide
      exact hall verb (List.mem_append.mpr hverb)
    have hutf8 : ∀ {s : CStr}, Jansson.Ascii s → J.stringOk s.bytes = true :=
      fun hs => (J.stringOk_iff _).mpr hs.wellFormed
    have hbuilt : buildRequest J ⟨some receipt, uid, verb, targetText names, 1, hash⟩ = some _ :=
      buildRequest_eq_some_iff.mpr ⟨receipt, rfl, hutf8 (ascii_of_isLcHex hreceipt),
        hutf8 hverbAscii, hutf8 htargets.ascii_targetText, hutf8 (ascii_of_isLcHex hhash), rfl⟩
    have htext : (J.dumps (RedeemReq.json ⟨some receipt, uid, verb, targetText names, 1, hash⟩
        receipt)).bytes =
          (RedeemReq.json ⟨some receipt, uid, verb, targetText names, 1, hash⟩
            receipt).compact := by
      rw [hcompact]
      exact CStr.ofMem_of_noNul (noNul_requestText _ _)
    have hlen := length_redeemText_le uid hreceipt hverb (plain_targetText htargets) hhash
    rw [← htext] at hlen
    refine ⟨_, hbuilt, hlen.trans hfits, fun os t n => ?_⟩
    refine pkgxTransportTx_sizeAccepted os t ?_ (hlen.trans hfits) n
    rw [htext, RedeemReq.json, Json.compact_object]
    exact List.cons_ne_nil _ _
  · intro cache hold changes recs hhold hmap
    obtain ⟨d, hd⟩ := pkgxDigestHold_isSome hsha hhold htargets hmap
    refine ⟨⟨d, hd⟩, fun σ tx g outCid w hinternal => ?_⟩
    obtain ⟨c, hc⟩ : ∃ c, c = PlanCall.hold (some verb) recs (names.map some) := ⟨_, rfl⟩
    have hcResource : c.resource = some (targetText names) := hc ▸ hresource
    have hcDigest : c.digest E = some d := hc ▸ hd
    obtain ⟨detail, hverdict⟩ : ∃ detail, c.verdict E = .settled .internal detail :=
      hc ▸ (PlanCall.result_eq_iff (by simp) (by simp)).mp hinternal
    exact verdict_ne_internal hcResource hcDigest detail hverdict

/-- A hash that never fails and is right where it is known. -/
def totalEvp (E : Evp) : Evp where
  sha256 data := some ((E.sha256 data).getD (.zero _))

def nginxHash : CStr := .lit "756ff19107155ca5d98792aeca9538cb82a1e395fba777ceb69a475f77277712"

set_option maxRecDepth 4000 in
theorem caps_compose_hold_nginx :
    (∃ text, buildRequest holdBodies
        ⟨some sampleReceipt, 1000, .lit "apt.hold", .lit "nginx", 1, nginxHash⟩ = some text ∧
      text.bytes.length ≤ frameMaxBody) ∧
    ∃ d, pkgxDigestHold (totalEvp holdNginxEvp) (some (.lit "apt.hold"))
      [⟨some (.lit "nginx"), some (.lit "install"), some (.lit "hold")⟩] = some d := by
  have hlength : ∀ v, holdBodies.loadb holdRequest.compact = some v →
      v.compact.length ≤ holdRequest.compact.length := by
    intro v hv
    obtain rfl : holdRequest = v := Option.some.inj hv
    exact le_rfl
  have hread : holdRequest.compact.length ≤ maxStdin := by decide
  obtain ⟨names, resource, hnames, hresource, hredeem, hhold⟩ :=
    caps_compose (E := totalEvp holdNginxEvp) hread holdRequest_accepted (fun _ => rfl) hlength
      fun _ => rfl
  obtain rfl : [.lit "nginx"] = names := Option.some.inj hnames
  obtain rfl : .lit "nginx" = resource := Option.some.inj hresource
  obtain ⟨text, htext, hlen, -⟩ := hredeem sampleReceipt 1000 nginxHash (by decide) (by decide)
  have hmap : pkgxAptMapHold (cacheOf [installedPkg (.lit "nginx")]) [.lit "nginx"] true =
      .ok ([⟨.lit "nginx", .lit "install", .lit "hold", true⟩],
        [⟨some (.lit "nginx"), some (.lit "install"), some (.lit "hold")⟩]) := rfl
  exact ⟨⟨text, htext, hlen⟩, (hhold _ _ _ _ (by decide) hmap).1⟩

end Pkgexec.Request
