import Pkgexec.Effectors
import Pkgexec.JsonLengths
import Pkgexec.RecordDecoding

/-!
# The result channel

`result.c`: the record an entrypoint writes for its caller, and the copy of the detail that goes
into it. The copy is cut by bytes, and a string with a split code point cannot be printed, so the
record of a long detail depends on where the cut falls.
-/

namespace Pkgexec.Apt
open CStrings JsonValues Utf8Encoding PlanDigest Request Spawn

def pkgxStatusName : AptStatus → CStr
  | .ok => .lit "ok"
  | .noOp => .lit "no_op"
  | .locked => .lit "apt_locked"
  | .notOwned => .lit "package_not_owned"
  | .held => .lit "held"
  | .isProtected => .lit "protected_package"
  | .noIntent => .lit "no_intent"
  | .resolveFailed => .lit "resolve_failed"
  | .notApplied => .lit "not_applied"
  | .commitFailed => .lit "operation_failed"
  | .broken => .lit "dpkg_broken"
  | .internal => .lit "internal"

/-- `pkgx_detail_set` with its buffer, which may be null. -/
def pkgxDetailSetOut (detail : Option (CharBuf detailCap)) (s : Option CStr) :
    Option (CharBuf detailCap) :=
  detail.map fun d => d.overwrite (pkgxDetailSet s)

section Serializer

variable (J : Jansson) (st : AptStatus) (effectIssued : ℤ) (correlationId detail : Option CStr)

/-- The members in the order they are set; a string that is not UTF-8 is `NULL`. -/
def resultMembers : List (CStr × Option Json) :=
  [(.lit "status", J.string (pkgxStatusName st)),
    (.lit "effect_issued", some (.boolean (effectIssued ≠ 0))),
    (.lit "correlation_id", J.string (orEmpty correlationId)),
    (.lit "detail", J.string (orEmpty detail))]

/-- `pkgx_result_json` on a buffer that is not null. The source sets every member before it looks
at the failures; the record is the same when the first one ends it. -/
def resultJson {outlen : ℕ} (out : CharBuf outlen) : ℤ × CharBuf outlen :=
  if outlen = 0 then (-1, out)
  else
    match J.setEach (resultMembers J st effectIssued correlationId detail) with
    | none => (-1, out)
    | some ms =>
      let s := J.dumps (.object ms)
      if s.length + 1 > outlen then (-1, out) else (s.length, out.overwrite s)

def pkgxResultJson {outlen : ℕ} : Option (CharBuf outlen) → ℤ × Option (CharBuf outlen)
  | none => (-1, none)
  | some out =>
    let r := resultJson J st effectIssued correlationId detail out
    (r.1, some r.2)

/-- `sizeof buf` in `pkgx_result_emit`. -/
def resultCap : ℕ := 512

/-- What the system answers while a record is written. -/
structure EmitOs where
  ignoreSigpipe : Bool
  writes : List WriteResult
  restoreSigpipe : Bool

/-- `pkgx_result_emit` with the chunks it writes; `buf` is its buffer before it is filled. -/
def pkgxResultEmit (os : EmitOs) (buf : CharBuf resultCap) : ℤ × List (List UInt8) :=
  let r := resultJson J st effectIssued correlationId detail buf
  if r.1 < 0 then (-1, [])
  else
    let total := r.1.toNat + 1
    let line := (r.2.mem.set r.1.toNat 0x0a).take total
    if !os.ignoreSigpipe then (-1, [])
    else
      let w := writeLoop os.writes line
      (if w.2.isEmpty && os.restoreSigpipe then 0 else -1, w.1)

end Serializer

theorem pkgxDetailSet_bytes (s : CStr) :
    (pkgxDetailSet (some s)).bytes = s.bytes.take (detailCap - 1) :=
  CStr.ofMem_of_noNul fun h0 => s.noNul (List.mem_of_mem_take h0)

theorem pkgxDetailSet_length_lt (s : CStr) : (pkgxDetailSet (some s)).length < detailCap := by
  rw [CStr.length, pkgxDetailSet_bytes, List.length_take, detailCap]
  omega

/-- The buffer holds a readable beginning of `s`. -/
structure Excerpt (s : CStr) (detail : CharBuf detailCap) : Prop where
  terminated : (0 : UInt8) ∈ detail.mem
  wellFormed : WellFormed detail.str.bytes
  front : detail.str.bytes <+: s.bytes
  length_le : detail.str.length ≤ 127

/-- No control characters, which would be printed as longer escapes. -/
def ControlFree (s : CStr) : Prop := ∀ b ∈ s.bytes, ¬ b < 0x20

instance (s : CStr) : Decidable (ControlFree s) :=
  List.decidableBAll (fun b : UInt8 => ¬ b < 0x20) s.bytes

theorem ControlFree.pkgxDetailSet {s : CStr} (h : ControlFree s) :
    ControlFree (pkgxDetailSet (some s)) :=
  fun b hb => h b (List.mem_of_mem_take (pkgxDetailSet_bytes s ▸ hb))

/-- The cut falls before a continuation byte. -/
def SplitsCodePoint (s : CStr) : Prop :=
  ∃ b, s.bytes[detailCap - 1]? = some b ∧ Continuation b

theorem not_splits_of_short {s : CStr} (h : s.length < detailCap) : ¬ SplitsCodePoint s := by
  rintro ⟨b, hb, -⟩
  obtain ⟨hlt, -⟩ := List.getElem?_eq_some_iff.mp hb
  rw [CStr.length] at h
  omega

/-- The copy of a well-formed string is well formed unless it is cut within a code point. -/
theorem wellFormed_pkgxDetailSet_iff {s : CStr} (h : WellFormed s.bytes) :
    WellFormed (pkgxDetailSet (some s)).bytes ↔ ¬ SplitsCodePoint s := by
  rw [pkgxDetailSet_bytes, h.take_iff, SplitsCodePoint]
  push Not
  rfl

theorem excerpt_overwrite_iff {s : CStr} (detail : CharBuf detailCap) :
    Excerpt s (detail.overwrite (pkgxDetailSet (some s))) ↔
      WellFormed (pkgxDetailSet (some s)).bytes := by
  have hlen := pkgxDetailSet_length_lt s
  have hstr := detail.str_overwrite hlen
  constructor
  · intro h
    rw [← hstr]
    exact h.wellFormed
  · intro h
    refine ⟨?_, by rwa [hstr], ?_, ?_⟩
    · rw [detail.mem_overwrite hlen]
      simp
    · rw [hstr, pkgxDetailSet_bytes]
      exact List.take_prefix _ _
    · rw [hstr]
      exact Nat.le_of_lt_succ hlen

section Record

variable {J : Jansson} {st : AptStatus} {effectIssued : ℤ} {cid detail : CStr}

theorem ascii_pkgxStatusName (st : AptStatus) : Jansson.Ascii (pkgxStatusName st) := by
  cases st <;> decide

/-- The members of a record. -/
def recordMembers (st : AptStatus) (effectIssued : ℤ) (cid detail : CStr) : List (CStr × Json) :=
  [(.lit "status", .string (pkgxStatusName st).bytes),
    (.lit "effect_issued", .boolean (effectIssued ≠ 0)),
    (.lit "correlation_id", .string cid.bytes), (.lit "detail", .string detail.bytes)]

def recordKeys : List CStr :=
  [.lit "status", .lit "effect_issued", .lit "correlation_id", .lit "detail"]

theorem recordMembers_keys (st : AptStatus) (effectIssued : ℤ) (cid detail : CStr) :
    (recordMembers st effectIssued cid detail).map Prod.fst = recordKeys := rfl

theorem names_resultMembers :
    Jansson.Names ((resultMembers J st effectIssued (some cid) (some detail)).map Prod.fst) := by
  show Jansson.Names recordKeys
  decide

theorem setEach_resultMembers (hcid : WellFormed cid.bytes) (hdetail : WellFormed detail.bytes) :
    J.setEach (resultMembers J st effectIssued (some cid) (some detail)) =
      some (recordMembers st effectIssued cid detail) := by
  rw [J.setEach_of_names names_resultMembers, resultMembers,
    J.string_of_ascii (ascii_pkgxStatusName st), orEmpty_some, orEmpty_some,
    J.string_of_wellFormed hcid, J.string_of_wellFormed hdetail]
  rfl

/-- A detail that is not UTF-8 takes the whole record with it. -/
theorem setEach_resultMembers_none (hdetail : ¬ WellFormed detail.bytes) :
    J.setEach (resultMembers J st effectIssued (some cid) (some detail)) = none := by
  have hnull : J.string detail = none := by
    rw [Jansson.string, if_neg fun hok => hdetail ((J.stringOk_iff _).mp hok)]
  rw [J.setEach_of_names names_resultMembers, resultMembers,
    J.string_of_ascii (ascii_pkgxStatusName st), orEmpty_some, orEmpty_some, hnull]
  cases J.string cid <;> rfl

theorem resultJson_none (hdetail : ¬ WellFormed detail.bytes) {outlen : ℕ} (out : CharBuf outlen) :
    resultJson J st effectIssued (some cid) (some detail) out = (-1, out) := by
  rw [resultJson, setEach_resultMembers_none hdetail]
  exact ite_self _

theorem length_quoted_statusName (st : AptStatus) :
    (Json.quoted (pkgxStatusName st).bytes).length ≤ 19 := by
  cases st <;> decide

/-- Even when every byte of the detail is escaped, the record leaves room in the buffer. -/
theorem length_record_lt (hcid : ControlFree cid) (hcidLen : cid.length ≤ 37)
    (hdetail : ControlFree detail) (hdetailLen : detail.length < detailCap) :
    (Json.object (recordMembers st effectIssued cid detail)).compact.length < resultCap - 1 := by
  have hstatus := length_quoted_statusName st
  have hquotedCid := Json.length_quoted_le hcid
  have hquotedDetail := Json.length_quoted_le hdetail
  have hissued : (Json.boolean (effectIssued ≠ 0)).compact.length ≤ 5 := by
    cases decide (effectIssued ≠ 0) <;> decide
  have hkeys : (recordKeys.map fun k => (Json.quoted k.bytes).length).sum = 47 := by decide
  rw [CStr.length] at hcidLen hdetailLen
  rw [Json.length_compact_object_keys recordKeys (recordMembers_keys st effectIssued cid detail),
    hkeys]
  simp only [recordMembers, List.map_cons, List.map_nil, List.sum_cons, List.sum_nil,
    List.length_cons, List.length_nil, Json.compact_string, detailCap, resultCap] at *
  omega

theorem noNul_record :
    (0 : UInt8) ∉ (Json.object (recordMembers st effectIssued cid detail)).compact := by
  refine Json.noNul_object fun m hm => ?_
  simp only [recordMembers, List.mem_cons, List.not_mem_nil, or_false] at hm
  rcases hm with rfl | rfl | rfl | rfl
  · rw [Json.compact_string]
    exact Json.noNul_quoted (pkgxStatusName st).noNul
  · cases decide (effectIssued ≠ 0) <;> decide
  · rw [Json.compact_string]
    exact Json.noNul_quoted cid.noNul
  · rw [Json.compact_string]
    exact Json.noNul_quoted detail.noNul

/-- The printed record. -/
def recordText (st : AptStatus) (effectIssued : ℤ) (cid detail : CStr) : CStr :=
  ⟨(Json.object (recordMembers st effectIssued cid detail)).compact, noNul_record⟩

/-- The record of a readable detail is stored whole. -/
theorem resultJson_some (hcompact : ∀ v, J.dumps v = .ofMem v.compact)
    (hcid : WellFormed cid.bytes) (hdetail : WellFormed detail.bytes)
    (hfits : (recordText st effectIssued cid detail).length < resultCap - 1)
    (out : CharBuf resultCap) :
    resultJson J st effectIssued (some cid) (some detail) out =
      (((recordText st effectIssued cid detail).length : ℤ),
        out.overwrite (recordText st effectIssued cid detail)) := by
  have htext : J.dumps (.object (recordMembers st effectIssued cid detail)) =
      recordText st effectIssued cid detail := by
    rw [hcompact]
    exact CStr.ofMem_bytes (recordText st effectIssued cid detail)
  rw [resultJson, setEach_resultMembers hcid hdetail]
  simp only [htext]
  rw [if_neg (by decide), if_neg (by omega)]

/-- A detail that cannot be printed leaves the channel empty. -/
theorem pkgxResultEmit_none (hdetail : ¬ WellFormed detail.bytes) (os : EmitOs)
    (buf : CharBuf resultCap) :
    pkgxResultEmit J st effectIssued (some cid) (some detail) os buf = (-1, []) := by
  rw [pkgxResultEmit, resultJson_none hdetail]
  rfl

theorem line_overwrite {text : CStr} (h : text.length < resultCap) (buf : CharBuf resultCap) :
    ((buf.overwrite text).mem.set text.length 0x0a).take (text.length + 1) =
      text.bytes ++ [0x0a] := by
  rw [buf.mem_overwrite h, CStr.length, List.set_append_right _ _ (Nat.le_refl _), Nat.sub_self,
    List.set_cons_zero, List.take_length_add_append]
  rfl

/-- With a record in the buffer only the system decides: what is written is a beginning of the
line, and zero says that it is all of it. -/
theorem pkgxResultEmit_some {os : EmitOs} {buf : CharBuf resultCap} {text : CStr}
    (hjson : resultJson J st effectIssued (some cid) (some detail) buf =
      ((text.length : ℤ), buf.overwrite text)) (hfits : text.length < resultCap - 1) :
    (pkgxResultEmit J st effectIssued (some cid) (some detail) os buf).2.flatten <+:
        text.bytes ++ [0x0a] ∧
      ((pkgxResultEmit J st effectIssued (some cid) (some detail) os buf).1 = 0 →
        (pkgxResultEmit J st effectIssued (some cid) (some detail) os buf).2.flatten =
          text.bytes ++ [0x0a]) := by
  have hwritten := writeLoop_append os.writes (text.bytes ++ [0x0a])
  have hcap : text.length < resultCap := Nat.lt_of_lt_of_le hfits (Nat.sub_le _ _)
  rw [pkgxResultEmit, hjson]
  simp only [Int.toNat_natCast, line_overwrite hcap buf]
  rw [if_neg (by omega)]
  split
  · exact ⟨List.nil_prefix, by simp⟩
  · refine ⟨⟨_, hwritten⟩, fun hzero => ?_⟩
    split at hzero
    · rename_i hall
      rw [List.isEmpty_iff.mp ((Bool.and_eq_true _ _).mp hall).1, List.append_nil] at hwritten
      exact hwritten
    · simp at hzero

end Record

/-- A correlation id as the entrypoints have it: none yet, or one that was validated. -/
def CidField (cid : CStr) : Prop := cid = .empty ∨ pkgxCidValid (some cid) = true

theorem CidField.bytes {cid : CStr} (h : CidField cid) :
    ∀ b ∈ cid.bytes, 0x20 ≤ b.toNat ∧ b.toNat < 0x80 := by
  rcases h with rfl | h
  · simp
  obtain ⟨ds, hs, hbytes, -, hds, -, hhs⟩ := pkgxCidValid_iff.mp h
  intro b hb
  rw [hbytes, List.mem_append, List.mem_cons] at hb
  rcases hb with hb | rfl | hb
  · have hhex : isHexDigit b = true := by simp [isHexDigit, hds b hb]
    have hrange := hexDigit_range hhex
    omega
  · decide
  · have hrange := hexDigit_range (hhs b hb)
    omega

theorem CidField.length_le {cid : CStr} (h : CidField cid) : cid.length ≤ 37 := by
  rcases h with rfl | h
  · exact Nat.zero_le _
  · exact (pkgxCidValid_length h).le

theorem CidField.controlFree {cid : CStr} (h : CidField cid) : ControlFree cid := by
  intro b hb hlt
  have hlt' : b.toNat < 32 := hlt
  have hge := (h.bytes b hb).1
  omega

theorem CidField.wellFormed {cid : CStr} (h : CidField cid) : WellFormed cid.bytes :=
  Jansson.Ascii.wellFormed fun b hb => (h.bytes b hb).2

/-- With a validated id and no control characters every record fits. -/
theorem recordText_fits (st : AptStatus) (effectIssued : ℤ) {cid detail : CStr}
    (hcid : CidField cid) (hdetail : ControlFree detail) (hlen : detail.length < detailCap) :
    (recordText st effectIssued cid detail).length < resultCap - 1 :=
  length_record_lt hcid.controlFree hcid.length_le hdetail hlen

section Detail

variable {J : Jansson} {cid s : CStr}

/-- A copied detail is readable and its record is serialised exactly when the copy was not cut
within a code point. -/
theorem detail_reported_iff (hcompact : ∀ v, J.dumps v = .ofMem v.compact)
    (st : AptStatus) (effectIssued : ℤ) (hcid : CidField cid)
    (hutf8 : WellFormed s.bytes) (hcontrol : ControlFree s)
    (detail : CharBuf detailCap) (buf : CharBuf resultCap) :
    (∃ d, pkgxDetailSetOut (some detail) (some s) = some d ∧ Excerpt s d ∧
        0 ≤ (pkgxResultJson J st effectIssued (some cid) (some d.str) (some buf)).1) ↔
      ¬ SplitsCodePoint s := by
  have hlen := pkgxDetailSet_length_lt s
  rw [← wellFormed_pkgxDetailSet_iff hutf8]
  constructor
  · rintro ⟨d, hd, hexcerpt, -⟩
    obtain rfl := Option.some.inj hd
    exact (excerpt_overwrite_iff detail).mp hexcerpt
  · intro hwell
    refine ⟨_, rfl, (excerpt_overwrite_iff detail).mpr hwell, ?_⟩
    have hfits := recordText_fits st effectIssued hcid hcontrol.pkgxDetailSet hlen
    rw [detail.str_overwrite hlen, pkgxResultJson,
      resultJson_some hcompact hcid.wellFormed hwell hfits]
    exact Int.natCast_nonneg _

/-- What reaches the caller: nothing after a cut within a code point, whatever was done to the
host, and otherwise a beginning of the line, all of it where the return value is zero. -/
theorem emitted_detail (hcompact : ∀ v, J.dumps v = .ofMem v.compact) (st : AptStatus)
    (effectIssued : ℤ) (hcid : CidField cid) (hutf8 : WellFormed s.bytes) (hcontrol : ControlFree s)
    (os : EmitOs) (buf : CharBuf resultCap) :
    let emitted :=
      pkgxResultEmit J st effectIssued (some cid) (some (pkgxDetailSet (some s))) os buf
    let line := (recordText st effectIssued cid (pkgxDetailSet (some s))).bytes ++ [0x0a]
    (SplitsCodePoint s → emitted = (-1, [])) ∧
      (¬ SplitsCodePoint s → emitted.2.flatten <+: line ∧
        (emitted.1 = 0 → emitted.2.flatten = line)) := by
  have hiff := wellFormed_pkgxDetailSet_iff hutf8
  constructor
  · intro hsplits
    exact pkgxResultEmit_none (fun hwell => hiff.mp hwell hsplits) os buf
  · intro hwhole
    have hfits := recordText_fits st effectIssued hcid hcontrol.pkgxDetailSet
      (pkgxDetailSet_length_lt s)
    exact pkgxResultEmit_some
      (resultJson_some hcompact hcid.wellFormed (hiff.mpr hwhole) hfits buf) hfits

end Detail

def committedCid : CStr := .lit "00000000001700000001-0123456789abcdef"

/-- The name of an offending package is short and is reported. -/
theorem detail_reported_canary :
    ∃ d, pkgxDetailSetOut (some (.zero _)) (some (.lit "r-cornball-canary")) = some d ∧
      Excerpt (.lit "r-cornball-canary") d ∧
        0 ≤ (pkgxResultJson (janssonTable [] (by simp)) .notOwned 0 (some committedCid)
          (some d.str) (some (.zero resultCap))).1 :=
  (detail_reported_iff (fun _ => rfl) .notOwned 0 (.inr (by decide)) (by decide) (by decide)
    (.zero _) (.zero _)).mpr (not_splits_of_short (by decide))

/-- A letter of two bytes in the last place of the buffer. -/
def accented : CStr := .ofMem (List.replicate 126 0x61 ++ [0xc3, 0xa9])

set_option maxRecDepth 2000 in
/-- The commit has broken the database, and the record that would say so is not written. -/
theorem detail_split_unreported :
    CidField committedCid ∧ WellFormed accented.bytes ∧ ControlFree accented ∧
      ∃ d, pkgxDetailSetOut (some (.zero _)) (some accented) = some d ∧ ¬ Excerpt accented d ∧
        pkgxResultJson (janssonTable [] (by simp)) .broken 1 (some committedCid) (some d.str)
          (some (.zero resultCap)) = (-1, some (.zero resultCap)) := by
  have hutf8 : WellFormed accented.bytes := by decide
  have hcut : ¬ WellFormed (pkgxDetailSet (some accented)).bytes := fun hwell =>
    (wellFormed_pkgxDetailSet_iff hutf8).mp hwell ⟨0xa9, by decide, by decide⟩
  refine ⟨.inr (by decide), hutf8, by decide, _, rfl, ?_, ?_⟩
  · rwa [excerpt_overwrite_iff]
  · rw [CharBuf.str_overwrite _ (pkgxDetailSet_length_lt accented), pkgxResultJson,
      resultJson_none hcut]

end Pkgexec.Apt
