import Pkgexec.CanonicalPlans
import Pkgexec.JsonValues

/-!
# Decoding the canonical bytes

The splitter of `preview.cc` turns the canonical bytes of a digest back into JSON records.
It undoes the encoders on every non-empty list of accepted records.
-/

namespace Pkgexec.PlanDigest
open CStrings JsonValues DelimitedLists Utf8Encoding

/-- The loop of `split_on`; `piece` is `s[start..i)`. -/
def splitLoop (d : UInt8) : List UInt8 → List UInt8 → List (List UInt8)
  | piece, [] => [piece]
  | piece, c :: s => if c = d then piece :: splitLoop d [] s else splitLoop d (piece ++ [c]) s

/-- No pieces at all on the empty input, a trailing empty piece after a trailing delimiter. -/
def splitOn (s : List UInt8) (d : UInt8) : List (List UInt8) :=
  if s = [] then [] else splitLoop d [] s

def fld (f : List (List UInt8)) (i : ℕ) : List UInt8 := f.getD i []

def csvArray (J : Jansson) (field : List UInt8) : Json :=
  .array ((splitOn field comma).filterMap fun x => J.string (.ofMem x))

/-- A `k=v` text cut at its first `=`; without one it is all key. -/
def cutPair (kv : List UInt8) : List UInt8 × List UInt8 :=
  (kv.takeWhile (· ≠ equals), (kv.dropWhile (· ≠ equals)).drop 1)

def optionsObject (J : Jansson) (field : List UInt8) : Json :=
  .object (J.setAll ((splitOn field comma).map fun kv =>
    (.ofMem (cutPair kv).1, J.string (.ofMem (cutPair kv).2))))

inductive RecKind where
  | txn
  | cfg
  | hold
  | src

/-- The members set on one record, from its fields. -/
def recordMembers (J : Jansson) (f : List (List UInt8)) : RecKind → List (CStr × Option Json)
  | .txn => [(.lit "package", J.string (.ofMem (fld f 0))),
      (.lit "architecture", J.string (.ofMem (fld f 1))),
      (.lit "action", J.string (.ofMem (fld f 2))),
      (.lit "from_version", J.string (.ofMem (fld f 3))),
      (.lit "to_version", J.string (.ofMem (fld f 4))),
      (.lit "flags", some (csvArray J (fld f 5)))]
  | .cfg => [(.lit "package", J.string (.ofMem (fld f 0))),
      (.lit "architecture", J.string (.ofMem (fld f 1))),
      (.lit "current_version", J.string (.ofMem (fld f 2))),
      (.lit "state", J.string (.ofMem (fld f 3)))]
  | .hold => [(.lit "package", J.string (.ofMem (fld f 0))),
      (.lit "from_state", J.string (.ofMem (fld f 1))),
      (.lit "to_state", J.string (.ofMem (fld f 2)))]
  | .src => [(.lit "uri", J.string (.ofMem (fld f 0))),
      (.lit "suite", J.string (.ofMem (fld f 1))),
      (.lit "components", some (csvArray J (fld f 2))),
      (.lit "options", some (optionsObject J (fld f 3)))]

/-- `parts[0]` is the schema and `parts[1]` the verb. -/
def decodeRecords (J : Jansson) (canon : List UInt8) (kind : RecKind) : Json :=
  .array (((splitOn canon rs).drop 2).map fun part =>
    .object (J.setAll (recordMembers J (splitOn part us) kind)))

theorem splitLoop_append {d : UInt8} {p : List UInt8} (h : d ∉ p) (piece rest : List UInt8) :
    splitLoop d piece (p ++ d :: rest) = (piece ++ p) :: splitLoop d [] rest := by
  induction p generalizing piece with
  | nil => simp [splitLoop]
  | cons c p ih =>
    rw [List.mem_cons, not_or] at h
    rw [List.cons_append, splitLoop, if_neg (fun hc => h.1 hc.symm), ih h.2]
    simp

theorem splitLoop_last {d : UInt8} {p : List UInt8} (h : d ∉ p) (piece : List UInt8) :
    splitLoop d piece p = [piece ++ p] := by
  induction p generalizing piece with
  | nil => simp [splitLoop]
  | cons c p ih =>
    rw [List.mem_cons, not_or] at h
    rw [splitLoop, if_neg (fun hc => h.1 hc.symm), ih h.2]
    simp

theorem splitLoop_join {d : UInt8} {parts : List (List UInt8)} (hsep : ∀ p ∈ parts, d ∉ p)
    (hne : parts ≠ []) : splitLoop d [] (join d parts) = parts := by
  induction parts with
  | nil => exact absurd rfl hne
  | cons p ps ih =>
    have hp := hsep p (by simp)
    by_cases hps : ps = []
    · subst ps
      simpa using splitLoop_last hp []
    · rw [join_cons_of_ne_nil d p hps, splitLoop_append hp,
        ih (fun q hq => hsep q (by simp [hq])) hps]
      rfl

/-- Splitting undoes joining, unless the join cannot be told from no pieces at all. -/
theorem splitOn_join_eq {d : UInt8} {parts : List (List UInt8)} (hsep : ∀ p ∈ parts, d ∉ p)
    (hempty : parts ≠ [[]]) : splitOn (join d parts) d = parts := by
  by_cases hnil : parts = []
  · subst parts
    rfl
  · have hjoin : join d parts ≠ [] := by
      obtain ⟨p, ps, rfl⟩ := List.exists_cons_of_ne_nil hnil
      by_cases hps : ps = []
      · subst ps
        simpa using hempty
      · simp [join_cons_of_ne_nil d p hps]
    rw [splitOn, if_neg hjoin, splitLoop_join hsep hnil]

private theorem map_bytes_ne_singleton_nil {items : List CStr} (h : ∀ t ∈ items, t.bytes ≠ []) :
    items.map CStr.bytes ≠ [[]] := by
  intro heq
  have hmem : [] ∈ items.map CStr.bytes := by simp [heq]
  obtain ⟨t, ht, hnil⟩ := List.mem_map.mp hmem
  exact h t ht hnil

theorem wellFormed_text {s : Option CStr} (h : fieldOk s = true) : WellFormed (text s) :=
  ((fieldOk_iff s).mp h).2

theorem string_text (J : Jansson) {s : Option CStr} (h : fieldOk s = true) :
    J.string (.ofMem (text s)) = some (.string (text s)) := by
  rw [text, CStr.ofMem_bytes]
  exact J.string_of_wellFormed (wellFormed_text h)

/-- The sorted list of a flag or component field. -/
def itemsJson (items : List (Option CStr)) : Json :=
  .array ((qsort (items.map orEmpty)).map fun s => .string s.bytes)

theorem csvArray_itemsText (J : Jansson) {allowed : Option (List CStr)}
    {items : List (Option CStr)} (h : ItemsOk allowed items) (hne : NonEmptyItems items) :
    csvArray J (itemsText (items.map orEmpty)) = itemsJson items := by
  have hitem : ∀ t ∈ qsort (items.map orEmpty),
      comma ∉ t.bytes ∧ t.bytes ≠ [] ∧ WellFormed t.bytes := by
    intro t ht
    obtain ⟨s, hs, rfl⟩ := List.mem_map.mp (mem_qsort.mp ht)
    have hfield := h.fields s hs
    exact ⟨notMem_text (by decide) hfield, CStr.eq_empty_iff.not.mp (hne s hs),
      wellFormed_text hfield⟩
  rw [csvArray, itemsText_eq, splitOn_join_eq, itemsJson, List.filterMap_map]
  · rw [← List.filterMap_eq_map (f := fun t : CStr => Json.string t.bytes)]
    congr 1
    apply List.filterMap_congr
    intro t ht
    simpa using J.string_of_wellFormed (hitem t ht).2.2
  · intro p hp
    obtain ⟨t, ht, rfl⟩ := List.mem_map.mp hp
    exact (hitem t ht).1
  · exact map_bytes_ne_singleton_nil fun t ht => (hitem t ht).2.1

/-- The options in the order of their `k=v` texts. -/
def sortedOpts (opts : List (CStr × CStr)) : List (CStr × CStr) :=
  opts.insertionSort fun a b => BytewiseLe (kvPair a.1 a.2) (kvPair b.1 b.2)

def optsJson (opts : List (Option CStr × Option CStr)) : Json :=
  .object ((sortedOpts (opts.map optPair)).map fun kv => (kv.1, .string kv.2.bytes))

theorem cutPair_kvPair {k v : CStr} (h : equals ∉ k.bytes) :
    cutPair (kvPair k v).bytes = (k.bytes, v.bytes) := by
  have hk : ∀ c ∈ k.bytes, (decide (c ≠ equals)) = true := by
    intro c hc
    have hne : c ≠ equals := fun heq => h (heq ▸ hc)
    simpa using hne
  rw [cutPair, kvPair_bytes, List.takeWhile_append_of_pos hk, List.dropWhile_append_of_pos hk]
  simp

theorem optionsObject_optsText (J : Jansson) {allowed : List CStr}
    {opts : List (Option CStr × Option CStr)} (h : OptsOk allowed opts) :
    optionsObject J (optsText (opts.map optPair)) = optsJson opts := by
  have hsorted : qsort ((opts.map optPair).map fun kv => kvPair kv.1 kv.2) =
      (sortedOpts (opts.map optPair)).map fun kv => kvPair kv.1 kv.2 := by
    rw [qsort, sortedOpts]
    exact (List.map_insertionSort
      (fun a b : CStr × CStr => BytewiseLe (kvPair a.1 a.2) (kvPair b.1 b.2))
      BytewiseLe _ _ fun _ _ _ _ => Iff.rfl).symm
  have hopt : ∀ kv ∈ sortedOpts (opts.map optPair), equals ∉ kv.1.bytes ∧
      comma ∉ (kvPair kv.1 kv.2).bytes ∧ WellFormed kv.1.bytes ∧ WellFormed kv.2.bytes := by
    intro kv hkv
    obtain ⟨kv', hkv', rfl⟩ := List.mem_map.mp ((List.mem_insertionSort _).mp hkv)
    obtain ⟨hk, hv⟩ := h.fields kv' hkv'
    refine ⟨notMem_text (by decide) hk, ?_, wellFormed_text hk, wellFormed_text hv⟩
    rw [kvPair_bytes, List.mem_append, List.mem_cons, not_or, not_or]
    exact ⟨notMem_text (by decide) hk, by decide, notMem_text (by decide) hv⟩
  have hkeys : ((sortedOpts (opts.map optPair)).map Prod.fst).Nodup :=
    ((List.perm_insertionSort _ _).map _).nodup_iff.mpr h.nodup
  rw [optionsObject, optsText_eq, itemsText_eq, hsorted, splitOn_join_eq, optsJson]
  · rw [← J.setAll_map (fun kv => .string kv.2.bytes) hkeys fun kv hkv => (hopt kv hkv).2.2.1,
      List.map_map, List.map_map]
    congr 2
    apply List.map_congr_left
    intro kv hkv
    obtain ⟨heq, -, -, hv⟩ := hopt kv hkv
    simp [cutPair_kvPair heq, J.string_of_wellFormed hv]
  · intro p hp
    obtain ⟨t, ht, rfl⟩ := List.mem_map.mp hp
    obtain ⟨kv, hkv, rfl⟩ := List.mem_map.mp ht
    exact (hopt kv hkv).2.1
  · apply map_bytes_ne_singleton_nil
    intro t ht
    obtain ⟨kv, -, rfl⟩ := List.mem_map.mp ht
    rw [kvPair_bytes]
    simp

/-- The record a decoded transaction should be. -/
def TxnRecord.json (r : TxnRecord) : Json :=
  .object [(.lit "package", .string (text r.package)),
    (.lit "architecture", .string (text r.architecture)),
    (.lit "action", .string (text r.action)),
    (.lit "from_version", .string (text r.fromVersion)),
    (.lit "to_version", .string (text r.toVersion)),
    (.lit "flags", itemsJson r.flags)]

def CfgRecord.json (r : CfgRecord) : Json :=
  .object [(.lit "package", .string (text r.package)),
    (.lit "architecture", .string (text r.architecture)),
    (.lit "current_version", .string (text r.currentVersion)),
    (.lit "state", .string (text r.state))]

def HoldRecord.json (r : HoldRecord) : Json :=
  .object [(.lit "package", .string (text r.package)),
    (.lit "from_state", .string (text r.fromState)),
    (.lit "to_state", .string (text r.toState))]

def SrcRecord.json (r : SrcRecord) : Json :=
  .object [(.lit "uri", .string (text r.uri)),
    (.lit "suite", .string (text r.suite)),
    (.lit "components", itemsJson r.components),
    (.lit "options", optsJson r.opts)]

theorem decode_txn (J : Jansson) {r : TxnRecord} (h : r.Ok) :
    .object (J.setAll (recordMembers J (txnShape.fields r) .txn)) = r.json := by
  have hflags := csvArray_itemsText J h.flags (flags_nonEmpty h.flags)
  rw [TxnRecord.json]
  congr 1
  refine Eq.trans (congrArg J.setAll ?_) (J.setAll_of_names ?_)
  · simp [recordMembers, txnShape, fld, string_text, h.package, h.architecture,
      fieldOk_of_action h.action, h.fromVersion, h.toVersion, hflags]
  · simp only [List.map_cons, List.map_nil]
    decide

theorem decode_cfg (J : Jansson) {r : CfgRecord} (h : r.Ok) :
    .object (J.setAll (recordMembers J (cfgShape.fields r) .cfg)) = r.json := by
  rw [CfgRecord.json]
  congr 1
  refine Eq.trans (congrArg J.setAll ?_) (J.setAll_of_names ?_)
  · simp [recordMembers, cfgShape, fld, string_text, h.package, h.architecture,
      h.currentVersion, fieldOk_of_cfgState h.state]
  · simp only [List.map_cons, List.map_nil]
    decide

theorem decode_hold (J : Jansson) {r : HoldRecord} (h : r.Ok) :
    .object (J.setAll (recordMembers J (holdShape.fields r) .hold)) = r.json := by
  rw [HoldRecord.json]
  congr 1
  refine Eq.trans (congrArg J.setAll ?_) (J.setAll_of_names ?_)
  · simp [recordMembers, holdShape, fld, string_text, h.package,
      fieldOk_of_holdState h.fromState, fieldOk_of_holdState h.toState]
  · simp only [List.map_cons, List.map_nil]
    decide

theorem decode_src (J : Jansson) {r : SrcRecord} (h : r.Ok) (hne : NonEmptyItems r.components) :
    .object (J.setAll (recordMembers J (srcShape.fields r) .src)) = r.json := by
  have hcomps := csvArray_itemsText J h.components hne
  have hopts := optionsObject_optsText J h.opts
  rw [SrcRecord.json]
  congr 1
  refine Eq.trans (congrArg J.setAll ?_) (J.setAll_of_names ?_)
  · simp [recordMembers, srcShape, fld, string_text, h.uri, h.suite, hcomps, hopts]
  · simp only [List.map_cons, List.map_nil]
    decide

/-- The encoded records paired with what they should decode to, in encoding order. -/
def RecordShape.sorted {ρ : Type} (S : RecordShape ρ) (recs : List ρ) : List ρ :=
  recs.insertionSort fun a b => BytewiseLe (S.enc a) (S.enc b)

theorem RecordShape.decodeRecords_canon {ρ : Type} (S : RecordShape ρ) (J : Jansson)
    {kind : RecKind} {json : ρ → Json} {verb : CStr} {recs : List ρ} (hverb : rs ∉ verb.bytes)
    (hok : ∀ r ∈ recs, S.Ok r) (hne : recs ≠ [])
    (hjson : ∀ r ∈ recs, .object (J.setAll (recordMembers J (S.fields r) kind)) = json r) :
    decodeRecords J (S.canon verb recs) kind = .array ((S.sorted recs).map json) := by
  have hsorted : qsort (recs.map S.enc) = (S.sorted recs).map S.enc := by
    rw [qsort, RecordShape.sorted]
    exact (List.map_insertionSort (fun a b : ρ => BytewiseLe (S.enc a) (S.enc b)) BytewiseLe _ _
      fun _ _ _ _ => Iff.rfl).symm
  have hmem : ∀ r, r ∈ S.sorted recs → r ∈ recs := fun r hr => (List.mem_insertionSort _).mp hr
  have hnil : S.sorted recs ≠ [] := by
    intro h
    have hlen :=
      (List.perm_insertionSort (fun a b => BytewiseLe (S.enc a) (S.enc b)) recs).length_eq
    rw [RecordShape.sorted] at h
    rw [h] at hlen
    exact hne (List.eq_nil_of_length_eq_zero hlen.symm)
  have hcanon : S.canon verb recs =
      join rs ([0x31] :: verb.bytes :: (S.sorted recs).map fun r => (S.enc r).bytes) := by
    rw [join_cons_cons, join_cons_of_ne_nil _ _ (by simpa using hnil), RecordShape.canon,
      S.body_eq, hsorted, List.map_map]
    rfl
  have hparts : splitOn (S.canon verb recs) rs =
      [0x31] :: verb.bytes :: (S.sorted recs).map fun r => (S.enc r).bytes := by
    rw [hcanon, splitOn_join_eq _ (by simp)]
    intro p hp
    rcases List.mem_cons.mp hp with rfl | hp
    · decide
    · rcases List.mem_cons.mp hp with rfl | hp
      · exact hverb
      · obtain ⟨r, hr, rfl⟩ := List.mem_map.mp hp
        exact S.rs_notMem_enc (hok r (hmem r hr))
  rw [decodeRecords, hparts]
  congr 1
  simp only [List.drop_succ_cons, List.drop_zero, List.map_map]
  apply List.map_congr_left
  intro r hr
  have hfields : splitOn (S.enc r).bytes us = S.fields r := by
    rw [S.enc_bytes, splitOn_join_eq fun p hp => (S.separated r (hok r (hmem r hr)) p hp).1]
    intro h
    have := S.several r
    simp [h] at this
  simp only [Function.comp, hfields]
  exact hjson r (hmem r hr)

namespace EncoderCall

def recKind : EncoderCall → RecKind
  | pkgTxn _ _ => .txn
  | configure _ => .cfg
  | hold _ _ => .hold
  | update _ => .src

/-- Each record's encoding, paired with the JSON record it should decode to. -/
def entries : EncoderCall → List (CStr × Json)
  | pkgTxn _ recs => recs.map fun r => (txnShape.enc r, r.json)
  | configure recs => recs.map fun r => (cfgShape.enc r, r.json)
  | hold _ recs => recs.map fun r => (holdShape.enc r, r.json)
  | update recs => recs.map fun r => (srcShape.enc r, r.json)

end EncoderCall

private theorem RecordShape.exists_sorted_entries {ρ : Type} (S : RecordShape ρ)
    (json : ρ → Json) (recs : List ρ) :
    ∃ sorted, List.Perm sorted (recs.map fun r => (S.enc r, json r)) ∧
      sorted.Pairwise (fun a b => BytewiseLe a.1 b.1) ∧
      (S.sorted recs).map json = sorted.map Prod.snd := by
  have : Std.Total fun a b => BytewiseLe (S.enc a) (S.enc b) := ⟨fun a b => Std.Total.total _ _⟩
  have : IsTrans ρ fun a b => BytewiseLe (S.enc a) (S.enc b) :=
    ⟨fun a b c => IsTrans.trans (S.enc a) (S.enc b) (S.enc c)⟩
  refine ⟨(S.sorted recs).map fun r => (S.enc r, json r), ?_, ?_, ?_⟩
  · exact (List.perm_insertionSort _ _).map _
  · rw [List.pairwise_map]
    exact List.pairwise_insertionSort (fun a b => BytewiseLe (S.enc a) (S.enc b)) recs
  · rw [List.map_map]
    rfl

/-- Decoding the canonical bytes of a non-empty plan gives one JSON record for each record of
the plan, in the order of the encodings. -/
theorem decode_encode {E : Evp} (J : Jansson) {c : EncoderCall} {d : Digest}
    (h : c.run E = some d) (hne : c.entries ≠ []) (hcomps : c.ComponentsNonEmpty) :
    ∃ sorted, List.Perm sorted c.entries ∧ sorted.Pairwise (fun a b => BytewiseLe a.1 b.1) ∧
      decodeRecords J d.canon c.recKind = .array (sorted.map Prod.snd) := by
  obtain ⟨hverb, hok, hcanon⟩ := EncoderCall.run_eq_some h
  have hrs := EncoderCall.rs_notMem_verb hverb
  rw [hcanon]
  cases c with
  | pkgTxn v recs =>
    obtain ⟨sorted, hperm, hpair, hmap⟩ := txnShape.exists_sorted_entries TxnRecord.json recs
    refine ⟨sorted, hperm, hpair, ?_⟩
    rw [← hmap]
    exact txnShape.decodeRecords_canon J hrs hok (by simpa [EncoderCall.entries] using hne)
      fun r hr => decode_txn J (hok r hr)
  | configure recs =>
    obtain ⟨sorted, hperm, hpair, hmap⟩ := cfgShape.exists_sorted_entries CfgRecord.json recs
    refine ⟨sorted, hperm, hpair, ?_⟩
    rw [← hmap]
    exact cfgShape.decodeRecords_canon J hrs hok (by simpa [EncoderCall.entries] using hne)
      fun r hr => decode_cfg J (hok r hr)
  | hold v recs =>
    obtain ⟨sorted, hperm, hpair, hmap⟩ := holdShape.exists_sorted_entries HoldRecord.json recs
    refine ⟨sorted, hperm, hpair, ?_⟩
    rw [← hmap]
    exact holdShape.decodeRecords_canon J hrs hok (by simpa [EncoderCall.entries] using hne)
      fun r hr => decode_hold J (hok r hr)
  | update recs =>
    obtain ⟨sorted, hperm, hpair, hmap⟩ := srcShape.exists_sorted_entries SrcRecord.json recs
    refine ⟨sorted, hperm, hpair, ?_⟩
    rw [← hmap]
    exact srcShape.decodeRecords_canon J hrs hok (by simpa [EncoderCall.entries] using hne)
      fun r hr => decode_src J (hok r hr) (hcomps r hr)

/-- A library that has parsed finitely many texts and prints compactly. -/
def janssonTable (texts : List (List UInt8 × Json)) (h : ∀ t ∈ texts, t.2.Clean) : Jansson where
  loadb b := (texts.find? fun t => t.1 = b).map Prod.snd
  dumps v := .ofMem v.compact
  stringOk s := decide (WellFormed s)
  loadb_clean b v hb := by
    obtain ⟨t, ht, rfl⟩ := Option.map_eq_some_iff.mp hb
    exact h t (List.mem_of_find?_eq_some ht)
  stringOk_iff s := decide_eq_true_iff

def ubuntuSource : SrcRecord where
  uri := some (.lit "http://archive.ubuntu.com/ubuntu")
  suite := some (.lit "noble")
  components := [some (.lit "universe"), some (.lit "main")]
  opts := [(some (.lit "trusted"), some (.lit "yes")),
    (some (.lit "signed-by"), some (.lit "/usr/share/keyrings/ubuntu-archive-keyring.gpg")),
    (some (.lit "architectures"), some (.lit "amd64"))]

def updateOptsSort : Digest where
  hex := .lit "dbc0ea96ab0024d8179784b10991458904af9cd6618dcad9d44a679fdbe0692c"
  canon := (CStr.lit ("1\x1eapt.update\x1ehttp://archive.ubuntu.com/ubuntu\x1fnoble\x1f" ++
    "main,universe\x1farchitectures=amd64," ++
    "signed-by=/usr/share/keyrings/ubuntu-archive-keyring.gpg,trusted=yes")).bytes

def updateOptsSortEvp : Evp :=
  .table [(updateOptsSort.canon, ⟨[219, 192, 234, 150, 171, 0, 36, 216, 23, 151, 132, 177, 9, 145,
    69, 137, 4, 175, 156, 214, 97, 141, 202, 217, 212, 74, 103, 159, 219, 224, 105, 44], rfl⟩)]

set_option maxRecDepth 2000 in
private theorem run_updateOptsSort :
    (EncoderCall.update [ubuntuSource]).run updateOptsSortEvp = some updateOptsSort := rfl

theorem decode_encode_update_opts_sort :
    ∃ sorted, List.Perm sorted (EncoderCall.update [ubuntuSource]).entries ∧
      sorted.Pairwise (fun a b => BytewiseLe a.1 b.1) ∧
      decodeRecords (janssonTable [] (by simp)) updateOptsSort.canon .src =
        .array (sorted.map Prod.snd) := by
  refine decode_encode _ run_updateOptsSort (by simp [EncoderCall.entries]) ?_
  intro r hr s hs
  rw [List.mem_singleton.mp hr] at hs
  revert s
  decide

end Pkgexec.PlanDigest
