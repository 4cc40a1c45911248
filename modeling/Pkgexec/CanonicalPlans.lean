import Pkgexec.RecordKinds
import Pkgexec.KeyedLists
import Mathlib.Data.Finset.Dedup
import Mathlib.Data.Multiset.Basic

/-!
# The canonical bytes are a complete invariant of the plan

A plan is its verb and the bag of its records, where `NULL` is the empty string, a flag or
component list is its set and an option list is the map it defines. Two successful encoder
calls write the same canonical bytes exactly when they are calls on the same plan.
-/

namespace Pkgexec.PlanDigest
open CStrings DelimitedLists

/-- A record up to what its meaning forgets. -/
inductive NormalRecord where
  | pkgTxn (package architecture action fromVersion toVersion : CStr) (flags : Finset CStr)
  | configure (package architecture currentVersion state : CStr)
  | hold (package fromState toState : CStr)
  | update (uri suite : CStr) (components : Finset CStr) (opts : CStr → Option CStr)

/-- The set of a `NULL`-tolerant list. -/
def itemSet (items : List (Option CStr)) : Finset CStr := (items.map orEmpty).toFinset

def TxnRecord.norm (r : TxnRecord) : NormalRecord :=
  .pkgTxn (orEmpty r.package) (orEmpty r.architecture) (orEmpty r.action)
    (orEmpty r.fromVersion) (orEmpty r.toVersion) (itemSet r.flags)

def CfgRecord.norm (r : CfgRecord) : NormalRecord :=
  .configure (orEmpty r.package) (orEmpty r.architecture) (orEmpty r.currentVersion)
    (orEmpty r.state)

def HoldRecord.norm (r : HoldRecord) : NormalRecord :=
  .hold (orEmpty r.package) (orEmpty r.fromState) (orEmpty r.toState)

def SrcRecord.norm (r : SrcRecord) : NormalRecord :=
  .update (orEmpty r.uri) (orEmpty r.suite) (itemSet r.components)
    (KeyedLists.valueAt (r.opts.map optPair))

theorem text_eq_iff {a b : Option CStr} : text a = text b ↔ orEmpty a = orEmpty b :=
  CStr.ext_iff.symm

/-- Non-empty items: what keeps the empty list and the list of one empty item apart. -/
def NonEmptyItems (items : List (Option CStr)) : Prop := ∀ s ∈ items, orEmpty s ≠ .empty

theorem itemsText_eq_iff {allowed : Option (List CStr)} {xs ys : List (Option CStr)}
    (hx : ItemsOk allowed xs) (hy : ItemsOk allowed ys) (hx' : NonEmptyItems xs)
    (hy' : NonEmptyItems ys) :
    itemsText (xs.map orEmpty) = itemsText (ys.map orEmpty) ↔ itemSet xs = itemSet ys := by
  have hpieces : ∀ t ∈ xs.map orEmpty ++ ys.map orEmpty,
      comma ∉ t.bytes ∧ t.bytes ≠ [] := by
    intro t ht
    rw [← List.map_append] at ht
    obtain ⟨s, hs, rfl⟩ := List.mem_map.mp ht
    have hfield : fieldOk s = true ∧ orEmpty s ≠ .empty := by
      rcases List.mem_append.mp hs with hs | hs
      · exact ⟨hx.fields s hs, hx' s hs⟩
      · exact ⟨hy.fields s hs, hy' s hs⟩
    exact ⟨notMem_text (by decide) hfield.1, CStr.eq_empty_iff.not.mp hfield.2⟩
  have hperm : itemsText (xs.map orEmpty) = itemsText (ys.map orEmpty) ↔
      (xs.map orEmpty).Perm (ys.map orEmpty) :=
    serialise_eq_iff_perm BytewiseLe CStr.bytes bytewiseLe_antisymm (fun _ _ => CStr.ext)
      (fun t ht => (hpieces t ht).1) (fun t ht => (hpieces t ht).2) fun _ _ _ _ h => h
  rw [hperm, perm_iff_mem_iff hx.nodup hy.nodup, itemSet, itemSet, Finset.ext_iff]
  simp only [List.mem_toFinset]

theorem kvPair_inj {k v k' v' : CStr} (hk : equals ∉ k.bytes) (hk' : equals ∉ k'.bytes)
    (h : kvPair k v = kvPair k' v') : (k, v) = (k', v') := by
  have hbytes := congrArg CStr.bytes h
  rw [kvPair_bytes, kvPair_bytes] at hbytes
  obtain ⟨hkey, hval⟩ := append_cons_inj hk hk' hbytes
  rw [CStr.ext hkey, CStr.ext hval]

theorem optsText_eq_iff {allowed : List CStr} {xs ys : List (Option CStr × Option CStr)}
    (hx : OptsOk allowed xs) (hy : OptsOk allowed ys) :
    optsText (xs.map optPair) = optsText (ys.map optPair) ↔
      KeyedLists.valueAt (xs.map optPair) = KeyedLists.valueAt (ys.map optPair) := by
  have hpieces : ∀ p ∈ xs.map optPair ++ ys.map optPair,
      equals ∉ p.1.bytes ∧ comma ∉ (kvPair p.1 p.2).bytes := by
    intro p hp
    rw [← List.map_append] at hp
    obtain ⟨kv, hkv, rfl⟩ := List.mem_map.mp hp
    have hfields : fieldOk kv.1 = true ∧ fieldOk kv.2 = true := by
      rcases List.mem_append.mp hkv with hkv | hkv
      · exact hx.fields kv hkv
      · exact hy.fields kv hkv
    refine ⟨notMem_text (by decide) hfields.1, ?_⟩
    rw [kvPair_bytes, List.mem_append, List.mem_cons, not_or, not_or]
    exact ⟨notMem_text (by decide) hfields.1, by decide, notMem_text (by decide) hfields.2⟩
  have hne : ∀ p ∈ xs.map optPair ++ ys.map optPair, (kvPair p.1 p.2).bytes ≠ [] := by
    intro p _
    rw [kvPair_bytes]
    simp
  have hperm : optsText (xs.map optPair) = optsText (ys.map optPair) ↔
      (xs.map optPair).Perm (ys.map optPair) :=
    serialise_eq_iff_perm BytewiseLe CStr.bytes bytewiseLe_antisymm (fun _ _ => CStr.ext)
      (fun p hp => (hpieces p hp).2) hne
      fun p hp q hq => kvPair_inj (hpieces p hp).1 (hpieces q hq).1
  rw [hperm]
  exact KeyedLists.perm_iff_valueAt_eq hx.nodup hy.nodup

theorem flags_nonEmpty {items : List (Option CStr)} (h : ItemsOk (some flagSet) items) :
    NonEmptyItems items := by
  intro s hs
  have hset : ∀ f ∈ flagSet, f ≠ .empty := by decide
  exact hset _ (h.inDomain flagSet rfl s hs)

theorem txn_fields_eq_iff {a b : TxnRecord} (ha : a.Ok) (hb : b.Ok) :
    txnShape.fields a = txnShape.fields b ↔ a.norm = b.norm := by
  have hflags := itemsText_eq_iff ha.flags hb.flags (flags_nonEmpty ha.flags)
    (flags_nonEmpty hb.flags)
  simp [txnShape, TxnRecord.norm, text_eq_iff, hflags]

theorem cfg_fields_eq_iff {a b : CfgRecord} :
    cfgShape.fields a = cfgShape.fields b ↔ a.norm = b.norm := by
  simp [cfgShape, CfgRecord.norm, text_eq_iff]

theorem hold_fields_eq_iff {a b : HoldRecord} :
    holdShape.fields a = holdShape.fields b ↔ a.norm = b.norm := by
  simp [holdShape, HoldRecord.norm, text_eq_iff]

theorem src_fields_eq_iff {a b : SrcRecord} (ha : a.Ok) (hb : b.Ok)
    (hac : NonEmptyItems a.components) (hbc : NonEmptyItems b.components) :
    srcShape.fields a = srcShape.fields b ↔ a.norm = b.norm := by
  have hcomps := itemsText_eq_iff ha.components hb.components hac hbc
  have hopts := optsText_eq_iff ha.opts hb.opts
  simp [srcShape, SrcRecord.norm, text_eq_iff, hcomps, hopts]

namespace RecordShape

variable {ρ : Type} (S : RecordShape ρ)

/-- On accepted records, equal bodies are equal bags of normal forms. -/
theorem body_eq_iff {norm : ρ → NormalRecord} {P : ρ → Prop} {xs ys : List ρ}
    (hnorm : ∀ a b, P a → P b → (S.fields a = S.fields b ↔ norm a = norm b))
    (hok : ∀ r ∈ xs ++ ys, S.Ok r) (hP : ∀ r ∈ xs ++ ys, P r) :
    S.body xs = S.body ys ↔
      (xs.map norm : Multiset NormalRecord) = (ys.map norm : Multiset NormalRecord) := by
  rw [Multiset.coe_eq_coe]
  refine serialise_eq_iff BytewiseLe CStr.bytes bytewiseLe_antisymm (fun _ _ => CStr.ext)
    (fun r hr => S.rs_notMem_enc (hok r hr)) (fun r _ => S.enc_ne_nil r) ?_
  intro a ha b hb
  rw [S.enc_eq_iff (hok a ha) (hok b hb), hnorm a b (hP a ha) (hP b hb)]

end RecordShape

inductive EncoderKind where
  | pkgTxn
  | configure
  | hold
  | update
  deriving DecidableEq

/-- The verbs each encoder takes. -/
def EncoderKind.verbs : EncoderKind → List CStr
  | pkgTxn => txnVerbs
  | configure => [.lit "apt.configure"]
  | hold => holdVerbs
  | update => [.lit "apt.update"]

/-- No verb is taken by two encoders. -/
theorem EncoderKind.eq_of_mem_verbs {k k' : EncoderKind} {v : CStr} (h : v ∈ k.verbs)
    (h' : v ∈ k'.verbs) : k = k' := by
  have hall : ∀ v ∈ k.verbs, v ∈ k'.verbs → k = k' := by
    cases k <;> cases k' <;> decide
  exact hall v h h'

/-- A call of one of the four encoders. -/
inductive EncoderCall where
  | pkgTxn (verb : Option CStr) (recs : List TxnRecord)
  | configure (recs : List CfgRecord)
  | hold (verb : Option CStr) (recs : List HoldRecord)
  | update (recs : List SrcRecord)

namespace EncoderCall

def run (E : Evp) : EncoderCall → Option Digest
  | pkgTxn verb recs => pkgxDigestPkgTxn E verb recs
  | configure recs => pkgxDigestConfigure E recs
  | hold verb recs => pkgxDigestHold E verb recs
  | update recs => pkgxDigestUpdate E recs

/-- The operation the call digests. -/
def verb : EncoderCall → CStr
  | pkgTxn verb _ => orEmpty verb
  | configure _ => .lit "apt.configure"
  | hold verb _ => orEmpty verb
  | update _ => .lit "apt.update"

/-- The bag of normalised records. -/
def records : EncoderCall → Multiset NormalRecord
  | pkgTxn _ recs => recs.map TxnRecord.norm
  | configure recs => recs.map CfgRecord.norm
  | hold _ recs => recs.map HoldRecord.norm
  | update recs => recs.map SrcRecord.norm

/-- What the source builder guarantees: every component of an update is non-empty. -/
def ComponentsNonEmpty : EncoderCall → Prop
  | update recs => ∀ r ∈ recs, NonEmptyItems r.components
  | _ => True

def kind : EncoderCall → EncoderKind
  | pkgTxn _ _ => .pkgTxn
  | configure _ => .configure
  | hold _ _ => .hold
  | update _ => .update

/-- Every record is in the domain of the encoder that is called. -/
def RecordsOk : EncoderCall → Prop
  | pkgTxn _ recs => ∀ r ∈ recs, r.Ok
  | configure recs => ∀ r ∈ recs, r.Ok
  | hold _ recs => ∀ r ∈ recs, r.Ok
  | update recs => ∀ r ∈ recs, r.Ok

def body : EncoderCall → List UInt8
  | pkgTxn _ recs => txnShape.body recs
  | configure recs => cfgShape.body recs
  | hold _ recs => holdShape.body recs
  | update recs => srcShape.body recs

/-- What every successful call has in common. -/
theorem run_eq_some {E : Evp} {c : EncoderCall} {d : Digest} (h : c.run E = some d) :
    c.verb ∈ c.kind.verbs ∧ c.RecordsOk ∧
      d.canon = 0x31 :: rs :: (c.verb.bytes ++ rs :: c.body) := by
  cases c with
  | pkgTxn verb recs =>
    obtain ⟨v, rfl, hv, henc⟩ := pkgxDigestPkgTxn_eq_some_iff.mp h
    exact ⟨hv, henc.ok, henc.canon⟩
  | configure recs =>
    have henc := pkgxDigestConfigure_eq_some_iff.mp h
    exact ⟨by simp [verb, kind, EncoderKind.verbs], henc.ok, henc.canon⟩
  | hold verb recs =>
    obtain ⟨v, rfl, hv, henc⟩ := pkgxDigestHold_eq_some_iff.mp h
    exact ⟨hv, henc.ok, henc.canon⟩
  | update recs =>
    have henc := pkgxDigestUpdate_eq_some_iff.mp h
    exact ⟨by simp [verb, kind, EncoderKind.verbs], henc.ok, henc.canon⟩

theorem rs_notMem_verb {c : EncoderCall} (h : c.verb ∈ c.kind.verbs) : rs ∉ c.verb.bytes := by
  have hall : ∀ v ∈ txnVerbs ++ holdVerbs ++ [.lit "apt.configure", .lit "apt.update"],
      rs ∉ v.bytes := by decide
  apply hall
  cases c <;> simp_all [kind, EncoderKind.verbs]

/-- For calls of the same encoder, equal bodies are equal bags of records. -/
theorem body_eq_iff {c c' : EncoderCall} (hc : c.RecordsOk) (hc' : c'.RecordsOk)
    (hcomps : c.ComponentsNonEmpty) (hcomps' : c'.ComponentsNonEmpty)
    (hkind : c.kind = c'.kind) : c.body = c'.body ↔ c.records = c'.records := by
  cases c with
  | pkgTxn v xs =>
    cases c' with
    | pkgTxn w ys =>
      have hall := List.forall_mem_append.mpr ⟨hc, hc'⟩
      exact txnShape.body_eq_iff (fun a b => txn_fields_eq_iff) hall hall
    | configure ys | hold w ys | update ys => exact absurd hkind (by simp [kind])
  | configure xs =>
    cases c' with
    | configure ys =>
      have hall := List.forall_mem_append.mpr ⟨hc, hc'⟩
      exact cfgShape.body_eq_iff (fun a b _ _ => cfg_fields_eq_iff) hall hall
    | pkgTxn w ys | hold w ys | update ys => exact absurd hkind (by simp [kind])
  | hold v xs =>
    cases c' with
    | hold w ys =>
      have hall := List.forall_mem_append.mpr ⟨hc, hc'⟩
      exact holdShape.body_eq_iff (fun a b _ _ => hold_fields_eq_iff) hall hall
    | pkgTxn w ys | configure ys | update ys => exact absurd hkind (by simp [kind])
  | update xs =>
    cases c' with
    | update ys =>
      have hall := List.forall_mem_append.mpr ⟨hc, hc'⟩
      have hne := List.forall_mem_append.mpr ⟨hcomps, hcomps'⟩
      refine srcShape.body_eq_iff (P := fun r => r.Ok ∧ NonEmptyItems r.components)
        (fun a b ha hb => src_fields_eq_iff ha.1 hb.1 ha.2 hb.2) hall ?_
      exact fun r hr => ⟨hall r hr, hne r hr⟩
    | pkgTxn w ys | configure ys | hold w ys => exact absurd hkind (by simp [kind])

end EncoderCall

/-- Two successful calls write the same canonical bytes exactly when their verbs and their
bags of normalised records are the same. -/
theorem canonical_bytes_complete {E E' : Evp} {c c' : EncoderCall} {d d' : Digest}
    (h : c.run E = some d) (h' : c'.run E' = some d') (hcomps : c.ComponentsNonEmpty)
    (hcomps' : c'.ComponentsNonEmpty) :
    d.canon = d'.canon ↔ c.verb = c'.verb ∧ c.records = c'.records := by
  obtain ⟨hverb, hok, hcanon⟩ := EncoderCall.run_eq_some h
  obtain ⟨hverb', hok', hcanon'⟩ := EncoderCall.run_eq_some h'
  rw [hcanon, hcanon']
  constructor
  · intro heq
    have htail := (List.cons.inj (List.cons.inj heq).2).2
    obtain ⟨hbytes, hbody⟩ := append_cons_inj (EncoderCall.rs_notMem_verb hverb)
      (EncoderCall.rs_notMem_verb hverb') htail
    have hsame : c.verb = c'.verb := CStr.ext hbytes
    have hkind := EncoderKind.eq_of_mem_verbs hverb (hsame ▸ hverb')
    exact ⟨hsame, (EncoderCall.body_eq_iff hok hok' hcomps hcomps' hkind).mp hbody⟩
  · intro heq
    obtain ⟨hsame, hrecs⟩ := heq
    have hkind := EncoderKind.eq_of_mem_verbs hverb (hsame ▸ hverb')
    have hbody := (EncoderCall.body_eq_iff hok hok' hcomps hcomps' hkind).mpr hrecs
    rw [hsame, hbody]

def nginxInstall : TxnRecord :=
  ⟨some (.lit "nginx"), some (.lit "amd64"), some (.lit "install"), none,
    some (.lit "1.24.0-1"), []⟩

def libpcreInstall : TxnRecord :=
  ⟨some (.lit "libpcre3"), some (.lit "amd64"), some (.lit "install"), some (.lit ""),
    some (.lit "2:8.39-15"), [some (.lit "auto")]⟩

def installMulti : Digest where
  hex := .lit "795492c92e4ccbaa608af619a0f9046a3d3b82cc08d6211ebef1ee82d87b4b4f"
  canon := (CStr.lit ("1\x1eapt.install\x1elibpcre3\x1famd64\x1finstall\x1f\x1f2:8.39-15\x1fauto" ++
    "\x1enginx\x1famd64\x1finstall\x1f\x1f1.24.0-1\x1f")).bytes

def installMultiEvp : Evp :=
  .table [(installMulti.canon, ⟨[121, 84, 146, 201, 46, 76, 203, 170, 96, 138, 246, 25, 160, 249,
    4, 106, 61, 59, 130, 204, 8, 214, 33, 30, 190, 241, 238, 130, 216, 123, 75, 79], rfl⟩)]

def installMultiCall : EncoderCall :=
  .pkgTxn (some (.lit "apt.install")) [nginxInstall, libpcreInstall]

def installMultiSwapped : EncoderCall :=
  .pkgTxn (some (.lit "apt.install")) [{ libpcreInstall with fromVersion := none }, nginxInstall]

/-- The order of the two records does not matter, nor whether an empty version is `NULL`. -/
theorem canonical_bytes_complete_install_multi :
    ∃ d d', installMultiCall.run installMultiEvp = some d ∧
      installMultiSwapped.run installMultiEvp = some d' ∧
      (d.canon = d'.canon ↔ installMultiCall.verb = installMultiSwapped.verb ∧
        installMultiCall.records = installMultiSwapped.records) :=
  ⟨installMulti, installMulti, rfl, rfl,
    @canonical_bytes_complete installMultiEvp installMultiEvp _ _ _ _ rfl rfl trivial trivial⟩

end Pkgexec.PlanDigest
