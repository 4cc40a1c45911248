import Pkgexec.CanonicalPlans

/-!
# The domain of the encoders

The encoders with their output parameters. A call succeeds exactly on its domain, as long as
the canonical bytes fit the cap; it writes nothing unless it succeeds; and whether it succeeds
does not depend on the order in which records or list elements are passed.
-/

namespace Pkgexec.PlanDigest
open CStrings DelimitedLists

/-- `*canon` and `*canon_len`. -/
structure CanonOut where
  canon : Option (List UInt8)
  canonLen : ℕ

/-- `out_hex`, and the canonical outputs unless the caller passes `NULL`. -/
structure DigestOuts where
  outHex : CharBuf 65
  canonOut : Option CanonOut

/-- What `finalize` writes once nothing can fail any more. -/
def DigestOuts.written (outs : DigestOuts) (hex : CStr) (canon : List UInt8) : DigestOuts where
  outHex := .ofStr _ hex
  canonOut := outs.canonOut.map fun _ => ⟨some canon, canon.length⟩

/-- The return value and the outputs that go with a result. -/
def returned (outs : DigestOuts) : Option Digest → ℤ × DigestOuts
  | none => (-1, outs)
  | some d => (0, outs.written d.hex d.canon)

/-- `finalize` with its output parameters. -/
def finalizeOut (E : Evp) (verb : CStr) (recs : List CStr) (outs : DigestOuts) :
    ℤ × DigestOuts :=
  returned outs (finalize E verb recs)

def pkgxDigestPkgTxnOut (E : Evp) (verb : Option CStr) (recs : List TxnRecord)
    (outs : DigestOuts) : ℤ × DigestOuts :=
  match verb with
  | none => (-1, outs)
  | some verb =>
    if !inSet verb txnVerbs then (-1, outs)
    else
      match recs.mapM pkgTxnRecord with
      | none => (-1, outs)
      | some built => finalizeOut E verb built outs

def pkgxDigestConfigureOut (E : Evp) (recs : List CfgRecord) (outs : DigestOuts) :
    ℤ × DigestOuts :=
  match recs.mapM cfgRecord with
  | none => (-1, outs)
  | some built => finalizeOut E (.lit "apt.configure") built outs

def pkgxDigestHoldOut (E : Evp) (verb : Option CStr) (recs : List HoldRecord)
    (outs : DigestOuts) : ℤ × DigestOuts :=
  match verb with
  | none => (-1, outs)
  | some verb =>
    if !inSet verb holdVerbs then (-1, outs)
    else
      match recs.mapM holdRecord with
      | none => (-1, outs)
      | some built => finalizeOut E verb built outs

def pkgxDigestUpdateOut (E : Evp) (recs : List SrcRecord) (outs : DigestOuts) :
    ℤ × DigestOuts :=
  match recs.mapM srcRecord with
  | none => (-1, outs)
  | some built => finalizeOut E (.lit "apt.update") built outs

/-- A call of one of the four encoders with its output parameters. -/
def EncoderCall.runOut (E : Evp) (outs : DigestOuts) : EncoderCall → ℤ × DigestOuts
  | pkgTxn verb recs => pkgxDigestPkgTxnOut E verb recs outs
  | configure recs => pkgxDigestConfigureOut E recs outs
  | hold verb recs => pkgxDigestHoldOut E verb recs outs
  | update recs => pkgxDigestUpdateOut E recs outs

/-- The records are built first, and a failure there is a failure of the call. -/
theorem built_eq {ρ : Type} (f : ρ → Option CStr) (E : Evp) (verb : CStr) (recs : List ρ)
    (outs : DigestOuts) :
    (match recs.mapM f with
      | none => (-1, outs)
      | some built => finalizeOut E verb built outs) =
      returned outs (recs.mapM f >>= finalize E verb) := by
  cases recs.mapM f with
  | none => rfl
  | some built => rfl

namespace EncoderCall

theorem runOut_eq (E : Evp) (outs : DigestOuts) (c : EncoderCall) :
    c.runOut E outs = returned outs (c.run E) := by
  cases c with
  | pkgTxn verb recs =>
    cases verb with
    | none => rfl
    | some v =>
      rw [runOut, run, pkgxDigestPkgTxnOut, pkgxDigestPkgTxn]
      cases inSet v txnVerbs with
      | false => rfl
      | true => exact built_eq pkgTxnRecord E v recs outs
  | configure recs => exact built_eq cfgRecord E _ recs outs
  | hold verb recs =>
    cases verb with
    | none => rfl
    | some v =>
      rw [runOut, run, pkgxDigestHoldOut, pkgxDigestHold]
      cases inSet v holdVerbs with
      | false => rfl
      | true => exact built_eq holdRecord E v recs outs
  | update recs => exact built_eq srcRecord E _ recs outs

/-- The encoded records, in the order passed. -/
def encodings : EncoderCall → List CStr
  | pkgTxn _ recs => recs.map txnShape.enc
  | configure recs => recs.map cfgShape.enc
  | hold _ recs => recs.map holdShape.enc
  | update recs => recs.map srcShape.enc

/-- The canonical byte string that the call denotes. -/
def canonBytes (c : EncoderCall) : List UInt8 :=
  0x31 :: rs :: (c.verb.bytes ++ rs :: join rs ((qsort c.encodings).map CStr.bytes))

/-- A call succeeds exactly on its domain, if the canonical bytes fit and can be hashed. -/
theorem run_eq_some_iff {E : Evp} {c : EncoderCall} {d : Digest} :
    c.run E = some d ↔ (c.verb ∈ c.kind.verbs ∧ c.RecordsOk) ∧ c.canonBytes.length ≤ maxCanon ∧
      pkgxSha256Hex E c.canonBytes = some d.hex ∧ d.canon = c.canonBytes := by
  have hshape {ρ : Type} (S : RecordShape ρ) (v : CStr) (recs : List ρ) :
      Encodes S E v recs d ↔ (∀ r ∈ recs, S.Ok r) ∧ (S.canon v recs).length ≤ maxCanon ∧
        pkgxSha256Hex E (S.canon v recs) = some d.hex ∧ d.canon = S.canon v recs :=
    ⟨fun h => ⟨h.ok, h.fits, h.hex, h.canon⟩, fun h => ⟨h.1, h.2.1, h.2.2.1, h.2.2.2⟩⟩
  have hnone : CStr.empty ∉ txnVerbs ∧ CStr.empty ∉ holdVerbs := by decide
  rw [and_assoc]
  cases c with
  | pkgTxn verb recs =>
    rw [run, pkgxDigestPkgTxn_eq_some_iff]
    constructor
    · rintro ⟨v, rfl, hv, henc⟩
      exact ⟨hv, (hshape _ _ _).mp henc⟩
    · rintro ⟨hv, henc⟩
      cases verb with
      | none => exact absurd hv hnone.1
      | some v => exact ⟨v, rfl, hv, (hshape txnShape v recs).mpr henc⟩
  | configure recs =>
    rw [run, pkgxDigestConfigure_eq_some_iff]
    constructor
    · intro henc
      exact ⟨List.mem_singleton_self _, (hshape _ _ _).mp henc⟩
    · rintro ⟨-, henc⟩
      exact (hshape cfgShape _ recs).mpr henc
  | hold verb recs =>
    rw [run, pkgxDigestHold_eq_some_iff]
    constructor
    · rintro ⟨v, rfl, hv, henc⟩
      exact ⟨hv, (hshape _ _ _).mp henc⟩
    · rintro ⟨hv, henc⟩
      cases verb with
      | none => exact absurd hv hnone.2
      | some v => exact ⟨v, rfl, hv, (hshape holdShape v recs).mpr henc⟩
  | update recs =>
    rw [run, pkgxDigestUpdate_eq_some_iff]
    constructor
    · intro henc
      exact ⟨List.mem_singleton_self _, (hshape _ _ _).mp henc⟩
    · rintro ⟨-, henc⟩
      exact (hshape srcShape _ recs).mpr henc

end EncoderCall

/-- The same record with its flags in another order. -/
structure TxnRecord.Reordered (r r' : TxnRecord) : Prop where
  flags : r.flags.Perm r'.flags
  rest : r' = { r with flags := r'.flags }

/-- The same source with its components and its options in another order. -/
structure SrcRecord.Reordered (r r' : SrcRecord) : Prop where
  components : r.components.Perm r'.components
  opts : r.opts.Perm r'.opts
  rest : r' = { r with components := r'.components, opts := r'.opts }

/-- The same call with its records, and the elements of their lists, in another order. -/
inductive EncoderCall.Reordered : EncoderCall → EncoderCall → Prop where
  | pkgTxn (verb) {xs ys zs : List TxnRecord} (hperm : xs.Perm ys)
      (h : List.Forall₂ TxnRecord.Reordered ys zs) : Reordered (.pkgTxn verb xs) (.pkgTxn verb zs)
  | configure {xs ys : List CfgRecord} (hperm : xs.Perm ys) :
      Reordered (.configure xs) (.configure ys)
  | hold (verb) {xs ys : List HoldRecord} (hperm : xs.Perm ys) :
      Reordered (.hold verb xs) (.hold verb ys)
  | update {xs ys zs : List SrcRecord} (hperm : xs.Perm ys)
      (h : List.Forall₂ SrcRecord.Reordered ys zs) : Reordered (.update xs) (.update zs)

theorem itemsText_perm {xs ys : List CStr} (h : xs.Perm ys) : itemsText xs = itemsText ys := by
  have hsort : qsort xs = qsort ys := (insertionSort_eq_iff BytewiseLe bytewiseLe_antisymm).mpr h
  rw [itemsText_eq, itemsText_eq, hsort]

theorem ItemsOk.perm {allowed : Option (List CStr)} {xs ys : List (Option CStr)}
    (h : xs.Perm ys) (hx : ItemsOk allowed xs) : ItemsOk allowed ys where
  fields s hs := hx.fields s (h.mem_iff.mpr hs)
  inDomain set hset s hs := hx.inDomain set hset s (h.mem_iff.mpr hs)
  nodup := (h.map orEmpty).nodup_iff.mp hx.nodup

theorem OptsOk.perm {allowed : List CStr} {xs ys : List (Option CStr × Option CStr)}
    (h : xs.Perm ys) (hx : OptsOk allowed xs) : OptsOk allowed ys where
  fields kv hkv := hx.fields kv (h.mem_iff.mpr hkv)
  inDomain kv hkv := hx.inDomain kv (h.mem_iff.mpr hkv)
  nodup := ((h.map optPair).map Prod.fst).nodup_iff.mp hx.nodup

theorem TxnRecord.Reordered.symm {r r' : TxnRecord} (h : r.Reordered r') : r'.Reordered r := by
  obtain ⟨hflags, hr⟩ := h
  refine ⟨hflags.symm, ?_⟩
  rw [hr]

theorem TxnRecord.Reordered.ok {r r' : TxnRecord} (h : r.Reordered r') (hr : r.Ok) : r'.Ok := by
  obtain ⟨hflags, h'⟩ := h
  rw [h']
  exact ⟨hr.action, hr.package, hr.architecture, hr.fromVersion, hr.toVersion, hr.flags.perm hflags⟩

theorem TxnRecord.Reordered.enc {r r' : TxnRecord} (h : r.Reordered r') :
    txnShape.enc r = txnShape.enc r' := by
  obtain ⟨hflags, h'⟩ := h
  have hfields : txnShape.fields r = txnShape.fields r' := by
    rw [h']
    simp [txnShape, itemsText_perm (hflags.map orEmpty)]
  rw [RecordShape.enc, RecordShape.enc, hfields]

theorem SrcRecord.Reordered.symm {r r' : SrcRecord} (h : r.Reordered r') : r'.Reordered r := by
  obtain ⟨hcomps, hopts, hr⟩ := h
  refine ⟨hcomps.symm, hopts.symm, ?_⟩
  rw [hr]

theorem SrcRecord.Reordered.ok {r r' : SrcRecord} (h : r.Reordered r') (hr : r.Ok) : r'.Ok := by
  obtain ⟨hcomps, hopts, h'⟩ := h
  rw [h']
  exact ⟨hr.uri, hr.suite, hr.components.perm hcomps, hr.opts.perm hopts⟩

theorem optsText_perm {xs ys : List (CStr × CStr)} (h : xs.Perm ys) :
    optsText xs = optsText ys := by
  rw [optsText_eq, optsText_eq, itemsText_perm (h.map _)]

theorem SrcRecord.Reordered.enc {r r' : SrcRecord} (h : r.Reordered r') :
    srcShape.enc r = srcShape.enc r' := by
  obtain ⟨hcomps, hopts, h'⟩ := h
  have hfields : srcShape.fields r = srcShape.fields r' := by
    rw [h']
    simp [srcShape, itemsText_perm (hcomps.map orEmpty), optsText_perm (hopts.map optPair)]
  rw [RecordShape.enc, RecordShape.enc, hfields]

section Pointwise

variable {α β : Type} {R : α → α → Prop} {xs ys : List α}

theorem map_eq_of_forall₂ {f : α → β} (hR : ∀ a b, R a b → f a = f b)
    (h : List.Forall₂ R xs ys) : xs.map f = ys.map f := by
  induction h with
  | nil => rfl
  | cons hab _ ih => rw [List.map_cons, List.map_cons, hR _ _ hab, ih]

theorem forall_mem_of_forall₂ {P : α → Prop} (hR : ∀ a b, R a b → P a → P b)
    (h : List.Forall₂ R xs ys) (hxs : ∀ x ∈ xs, P x) : ∀ y ∈ ys, P y := by
  induction h with
  | nil => simp
  | cons hab _ ih =>
    obtain ⟨ha, hrest⟩ := List.forall_mem_cons.mp hxs
    exact List.forall_mem_cons.mpr ⟨hR _ _ hab ha, ih hrest⟩

end Pointwise

namespace EncoderCall.Reordered

variable {c c' : EncoderCall}

theorem verb_eq (h : c.Reordered c') : c.verb = c'.verb := by
  cases h <;> rfl

theorem kind_eq (h : c.Reordered c') : c.kind = c'.kind := by
  cases h <;> rfl

theorem recordsOk (h : c.Reordered c') : c.RecordsOk ↔ c'.RecordsOk := by
  cases h with
  | pkgTxn verb hperm hall =>
    constructor
    · intro hok
      exact forall_mem_of_forall₂ (fun _ _ h => h.ok) hall fun r hr => hok r (hperm.mem_iff.mpr hr)
    · intro hok r hr
      exact forall_mem_of_forall₂ (fun _ _ h => h.symm.ok) hall.flip hok r (hperm.mem_iff.mp hr)
  | configure hperm | hold verb hperm =>
    exact ⟨fun hok r hr => hok r (hperm.mem_iff.mpr hr),
      fun hok r hr => hok r (hperm.mem_iff.mp hr)⟩
  | update hperm hall =>
    constructor
    · intro hok
      exact forall_mem_of_forall₂ (fun _ _ h => h.ok) hall fun r hr => hok r (hperm.mem_iff.mpr hr)
    · intro hok r hr
      exact forall_mem_of_forall₂ (fun _ _ h => h.symm.ok) hall.flip hok r (hperm.mem_iff.mp hr)

theorem encodings_perm (h : c.Reordered c') : c.encodings.Perm c'.encodings := by
  cases h with
  | pkgTxn verb hperm hall =>
    have hmap := map_eq_of_forall₂ (fun _ _ h => TxnRecord.Reordered.enc h) hall
    exact (hperm.map _).trans (.of_eq hmap)
  | configure hperm => exact hperm.map _
  | hold verb hperm => exact hperm.map _
  | update hperm hall =>
    have hmap := map_eq_of_forall₂ (fun _ _ h => SrcRecord.Reordered.enc h) hall
    exact (hperm.map _).trans (.of_eq hmap)

theorem canonBytes_eq (h : c.Reordered c') : c.canonBytes = c'.canonBytes := by
  have hsort : qsort c.encodings = qsort c'.encodings :=
    (insertionSort_eq_iff BytewiseLe bytewiseLe_antisymm).mpr h.encodings_perm
  rw [canonBytes, canonBytes, h.verb_eq, hsort]

theorem run_eq (h : c.Reordered c') (E : Evp) : c.run E = c'.run E := by
  apply Option.ext
  intro d
  rw [run_eq_some_iff, run_eq_some_iff, h.verb_eq, h.kind_eq, h.recordsOk, h.canonBytes_eq]

end EncoderCall.Reordered

/-- The verb belongs to the encoder and every record to its domain. -/
def EncoderCall.InDomain (c : EncoderCall) : Prop := c.verb ∈ c.kind.verbs ∧ c.RecordsOk

/-- On success the outputs are the hash and the canonical bytes of the call, otherwise they are
what they were. -/
theorem encoder_accepts_exactly {E : Evp} {c : EncoderCall} (outs : DigestOuts)
    (hsha : (pkgxSha256Hex E c.canonBytes).isSome) :
    ((c.runOut E outs).1 = 0 ↔ c.InDomain ∧ c.canonBytes.length ≤ maxCanon) ∧
    ((c.runOut E outs).1 = 0 → ∃ (sorted : List CStr) (hex : CStr),
      sorted.Perm c.encodings ∧ sorted.Pairwise (fun a b => a.bytes ≤ b.bytes) ∧
      c.canonBytes = 0x31 :: rs :: (c.verb.bytes ++ rs :: join rs (sorted.map CStr.bytes)) ∧
      pkgxSha256Hex E c.canonBytes = some hex ∧
      (c.runOut E outs).2 = outs.written hex c.canonBytes) ∧
    ((c.runOut E outs).1 ≠ 0 → c.runOut E outs = (-1, outs)) ∧
    ∀ c', c.Reordered c' → c'.runOut E outs = c.runOut E outs := by
  obtain ⟨hex, hhex⟩ := Option.isSome_iff_exists.mp hsha
  have hrun (d : Digest) := EncoderCall.run_eq_some_iff (E := E) (c := c) (d := d)
  rw [EncoderCall.runOut_eq]
  refine ⟨?_, ?_, ?_, ?_⟩
  · cases hc : c.run E with
    | none =>
      refine iff_of_false (by simp [returned]) ?_
      rintro ⟨hdom, hfits⟩
      have hsome := (hrun ⟨hex, c.canonBytes⟩).mpr ⟨hdom, hfits, hhex, rfl⟩
      rw [hc] at hsome
      cases hsome
    | some d =>
      obtain ⟨hdom, hfits, -, -⟩ := (hrun d).mp hc
      exact iff_of_true rfl ⟨hdom, hfits⟩
  · intro hzero
    refine ⟨qsort c.encodings, hex, qsort_perm _, ?_, rfl, hhex, ?_⟩
    · exact (qsort_sorted c.encodings).imp fun h => bytewiseLe_iff.mp h
    · cases hc : c.run E with
      | none => simp [hc, returned] at hzero
      | some d =>
        obtain ⟨-, -, hd, hcanon⟩ := (hrun d).mp hc
        rw [hhex] at hd
        rw [returned, hcanon, Option.some.inj hd]
  · intro hne
    cases hc : c.run E with
    | none => rfl
    | some d => simp [hc, returned] at hne
  · intro c' h
    rw [EncoderCall.runOut_eq, h.run_eq]

/-- The digest of the install of two packages, written over zeroed outputs. -/
theorem encoder_accepts_exactly_install_multi :
    (installMultiCall.runOut installMultiEvp ⟨.zero _, some ⟨none, 0⟩⟩).1 = 0 ↔
      installMultiCall.InDomain ∧ installMultiCall.canonBytes.length ≤ maxCanon :=
  (encoder_accepts_exactly ⟨.zero _, some ⟨none, 0⟩⟩ (by decide)).1

end Pkgexec.PlanDigest
