import Pkgexec.RecordEncodings

/-!
# The four record kinds

The domain and the fields of each record kind, and for each public encoder the exact set of
calls on which it succeeds.
-/

namespace Pkgexec.PlanDigest
open CStrings DelimitedLists Utf8Encoding

/-- What a field contributes to its record. -/
def text (s : Option CStr) : List UInt8 := (orEmpty s).bytes

theorem noNul_text (s : Option CStr) : (0 : UInt8) ∉ text s := (orEmpty s).noNul

theorem fieldOk_orEmpty (s : Option CStr) : fieldOk (some (orEmpty s)) = fieldOk s := by
  cases s <;> rfl

theorem notMem_text {c : UInt8} (hc : c ∈ reserved) {s : Option CStr} (h : fieldOk s = true) :
    c ∉ text s :=
  ((fieldOk_iff s).mp h).1 c hc

/-- A byte that no field may hold is in the text of a list only if it is the comma. -/
theorem notMem_itemsText {c : UInt8} (hc : c ∈ reserved) (hcomma : c ≠ comma)
    {allowed : Option (List CStr)} {items : List (Option CStr)} (h : ItemsOk allowed items) :
    c ∉ itemsText (items.map orEmpty) := by
  rw [itemsText_eq]
  intro hmem
  rcases mem_join hmem with hsep | ⟨p, hp, hcp⟩
  · exact hcomma hsep
  · obtain ⟨t, ht, rfl⟩ := List.mem_map.mp hp
    obtain ⟨s, hs, rfl⟩ := List.mem_map.mp (mem_qsort.mp ht)
    exact notMem_text hc (h.fields s hs) hcp

theorem notMem_optsText {c : UInt8} (hc : c ∈ reserved) (hcomma : c ≠ comma) (heq : c ≠ equals)
    {allowed : List CStr} {opts : List (Option CStr × Option CStr)} (h : OptsOk allowed opts) :
    c ∉ optsText (opts.map optPair) := by
  rw [optsText_eq, itemsText_eq]
  intro hmem
  rcases mem_join hmem with hsep | ⟨p, hp, hcp⟩
  · exact hcomma hsep
  · obtain ⟨t, ht, rfl⟩ := List.mem_map.mp hp
    obtain ⟨kv', hkv', rfl⟩ := List.mem_map.mp (mem_qsort.mp ht)
    obtain ⟨kv, hkv, rfl⟩ := List.mem_map.mp hkv'
    obtain ⟨hk, hv⟩ := h.fields kv hkv
    rw [kvPair_bytes, List.mem_append, List.mem_cons] at hcp
    rcases hcp with hck | hce | hcv
    · exact notMem_text hc hk hck
    · exact heq hce
    · exact notMem_text hc hv hcv

theorem noNul_optsText (opts : List (CStr × CStr)) : (0 : UInt8) ∉ optsText opts := by
  rw [optsText_eq]
  exact noNul_itemsText _

private theorem text_separated {s : Option CStr} (h : fieldOk s = true) :
    us ∉ text s ∧ rs ∉ text s :=
  ⟨notMem_text (by decide) h, notMem_text (by decide) h⟩

/-- A value of a closed domain is a valid field. -/
theorem fieldOk_of_mem {set : List CStr} (hset : ∀ a ∈ set, fieldOk (some a) = true)
    {s : Option CStr} (h : orEmpty s ∈ set) : fieldOk s = true :=
  fieldOk_orEmpty s ▸ hset _ h

theorem fieldOk_of_action {s : Option CStr} (h : orEmpty s ∈ actions) :
    fieldOk s = true :=
  fieldOk_of_mem (by decide) h

theorem fieldOk_of_cfgState {s : Option CStr} (h : orEmpty s ∈ cfgStates) :
    fieldOk s = true :=
  fieldOk_of_mem (by decide) h

theorem fieldOk_of_holdState {s : Option CStr} (h : orEmpty s ∈ holdStates) :
    fieldOk s = true :=
  fieldOk_of_mem (by decide) h

structure TxnRecord.Ok (r : TxnRecord) : Prop where
  action : orEmpty r.action ∈ actions
  package : fieldOk r.package = true
  architecture : fieldOk r.architecture = true
  fromVersion : fieldOk r.fromVersion = true
  toVersion : fieldOk r.toVersion = true
  flags : ItemsOk (some flagSet) r.flags

def txnShape : RecordShape TxnRecord where
  Ok := TxnRecord.Ok
  fields r := [text r.package, text r.architecture, text r.action, text r.fromVersion,
    text r.toVersion, itemsText (r.flags.map orEmpty)]
  noNul r := by simp [noNul_text, noNul_itemsText]
  separated r h := by
    have hflags : us ∉ itemsText (r.flags.map orEmpty) ∧ rs ∉ itemsText (r.flags.map orEmpty) :=
      ⟨notMem_itemsText (by decide) (by decide) h.flags,
        notMem_itemsText (by decide) (by decide) h.flags⟩
    simp [text_separated h.package, text_separated h.architecture,
      text_separated (fieldOk_of_action h.action), text_separated h.fromVersion,
      text_separated h.toVersion, hflags]
  several _ := by simp

theorem pkgTxnRecord_builds : txnShape.Builds pkgTxnRecord := by
  intro r s
  have hlist : (itemsText (r.flags.map orEmpty)).length ≤ (txnShape.enc r).length :=
    txnShape.length_field_le_enc (by simp [txnShape])
  rw [pkgTxnRecord]
  by_cases haction : orEmpty r.action ∈ actions
  · rw [if_pos (inSet_iff.mpr haction)]
    cases hflags : joinSorted r.flags true (some flagSet) with
    | error e =>
      refine iff_of_false (by simp) ?_
      rintro ⟨hok, hlen, -⟩
      have hjoin := joinSorted_eq_ok_iff.mpr ⟨hok.flags, by omega, rfl⟩
      simp [hflags] at hjoin
    | ok flags =>
      obtain ⟨hitems, -, rfl⟩ := joinSorted_eq_ok_iff.mp hflags
      apply txnShape.addPieces_builds
      · simp [Piece.bytes, txnShape, join_cons, text, CStr.ofMem_of_noNul (noNul_itemsText _)]
      · simp only [List.forall_mem_cons, Piece.ok, List.not_mem_nil, true_and, and_true,
          false_imp_iff, implies_true]
        constructor
        · rintro ⟨hpkg, harch, -, hfrom, hto⟩
          exact ⟨haction, hpkg, harch, hfrom, hto, hitems⟩
        · intro h
          exact ⟨h.package, h.architecture, fieldOk_of_action h.action, h.fromVersion,
            h.toVersion⟩
  · rw [if_neg (inSet_iff.not.mpr haction)]
    refine iff_of_false (by simp) ?_
    rintro ⟨hok, -⟩
    exact haction hok.action

structure CfgRecord.Ok (r : CfgRecord) : Prop where
  state : orEmpty r.state ∈ cfgStates
  package : fieldOk r.package = true
  architecture : fieldOk r.architecture = true
  currentVersion : fieldOk r.currentVersion = true

def cfgShape : RecordShape CfgRecord where
  Ok := CfgRecord.Ok
  fields r := [text r.package, text r.architecture, text r.currentVersion, text r.state]
  noNul r := by simp [noNul_text]
  separated r h := by
    simp [text_separated h.package, text_separated h.architecture,
      text_separated h.currentVersion, text_separated (fieldOk_of_cfgState h.state)]
  several _ := by simp

theorem cfgRecord_builds : cfgShape.Builds cfgRecord := by
  intro r s
  rw [cfgRecord]
  by_cases hstate : orEmpty r.state ∈ cfgStates
  · rw [if_pos (inSet_iff.mpr hstate)]
    apply cfgShape.addPieces_builds
    · simp [Piece.bytes, cfgShape, join_cons, text]
    · simp only [List.forall_mem_cons, Piece.ok, List.not_mem_nil, true_and, and_true,
        false_imp_iff, implies_true]
      constructor
      · rintro ⟨hpkg, harch, hversion, -⟩
        exact ⟨hstate, hpkg, harch, hversion⟩
      · intro h
        exact ⟨h.package, h.architecture, h.currentVersion, fieldOk_of_cfgState h.state⟩
  · rw [if_neg (inSet_iff.not.mpr hstate)]
    refine iff_of_false (by simp) ?_
    rintro ⟨hok, -⟩
    exact hstate hok.state

structure HoldRecord.Ok (r : HoldRecord) : Prop where
  fromState : orEmpty r.fromState ∈ holdStates
  toState : orEmpty r.toState ∈ holdStates
  package : fieldOk r.package = true

def holdShape : RecordShape HoldRecord where
  Ok := HoldRecord.Ok
  fields r := [text r.package, text r.fromState, text r.toState]
  noNul r := by simp [noNul_text]
  separated r h := by
    simp [text_separated h.package, text_separated (fieldOk_of_holdState h.fromState),
      text_separated (fieldOk_of_holdState h.toState)]
  several _ := by simp

theorem holdRecord_builds : holdShape.Builds holdRecord := by
  intro r s
  rw [holdRecord]
  by_cases hstates : orEmpty r.fromState ∈ holdStates ∧ orEmpty r.toState ∈ holdStates
  · rw [if_pos (by simpa using hstates)]
    apply holdShape.addPieces_builds
    · simp [Piece.bytes, holdShape, join_cons, text]
    · simp only [List.forall_mem_cons, Piece.ok, List.not_mem_nil, true_and, and_true,
        false_imp_iff, implies_true]
      constructor
      · rintro ⟨hpkg, -⟩
        exact ⟨hstates.1, hstates.2, hpkg⟩
      · intro h
        exact ⟨h.package, fieldOk_of_holdState h.fromState, fieldOk_of_holdState h.toState⟩
  · rw [if_neg (by simpa using hstates)]
    refine iff_of_false (by simp) ?_
    rintro ⟨hok, -⟩
    exact hstates ⟨hok.fromState, hok.toState⟩

structure SrcRecord.Ok (r : SrcRecord) : Prop where
  uri : fieldOk r.uri = true
  suite : fieldOk r.suite = true
  components : ItemsOk none r.components
  opts : OptsOk updOptKeys r.opts

def srcShape : RecordShape SrcRecord where
  Ok := SrcRecord.Ok
  fields r := [text r.uri, text r.suite, itemsText (r.components.map orEmpty),
    optsText (r.opts.map optPair)]
  noNul r := by simp [noNul_text, noNul_itemsText, noNul_optsText]
  separated r h := by
    have hcomps : us ∉ itemsText (r.components.map orEmpty) ∧
        rs ∉ itemsText (r.components.map orEmpty) :=
      ⟨notMem_itemsText (by decide) (by decide) h.components,
        notMem_itemsText (by decide) (by decide) h.components⟩
    have hopts : us ∉ optsText (r.opts.map optPair) ∧ rs ∉ optsText (r.opts.map optPair) :=
      ⟨notMem_optsText (by decide) (by decide) (by decide) h.opts,
        notMem_optsText (by decide) (by decide) (by decide) h.opts⟩
    simp [text_separated h.uri, text_separated h.suite, hcomps, hopts]
  several _ := by simp

theorem srcRecord_builds : srcShape.Builds srcRecord := by
  intro r s
  have hcomps : (itemsText (r.components.map orEmpty)).length ≤ (srcShape.enc r).length :=
    srcShape.length_field_le_enc (by simp [srcShape])
  have hopts : (optsText (r.opts.map optPair)).length ≤ (srcShape.enc r).length :=
    srcShape.length_field_le_enc (by simp [srcShape])
  rw [srcRecord]
  cases hc : joinSorted r.components true none with
  | error e =>
    refine iff_of_false (by simp) ?_
    rintro ⟨hok, hlen, -⟩
    have hjoin := joinSorted_eq_ok_iff.mpr ⟨hok.components, by omega, rfl⟩
    simp [hc] at hjoin
  | ok comps =>
    obtain ⟨hcok, -, rfl⟩ := joinSorted_eq_ok_iff.mp hc
    cases ho : joinSortedKv r.opts updOptKeys with
    | error e =>
      refine iff_of_false (by simp) ?_
      rintro ⟨hok, hlen, -⟩
      have hjoin := joinSortedKv_eq_ok_iff.mpr ⟨hok.opts, by omega, rfl⟩
      simp [ho] at hjoin
    | ok opts =>
      obtain ⟨hook, -, rfl⟩ := joinSortedKv_eq_ok_iff.mp ho
      apply srcShape.addPieces_builds
      · simp [Piece.bytes, srcShape, join_cons, text, CStr.ofMem_of_noNul (noNul_itemsText _),
          CStr.ofMem_of_noNul (noNul_optsText _)]
      · simp only [List.forall_mem_cons, Piece.ok, List.not_mem_nil, true_and, and_true,
          false_imp_iff, implies_true]
        constructor
        · rintro ⟨huri, hsuite⟩
          exact ⟨huri, hsuite, hcok, hook⟩
        · intro h
          exact ⟨h.uri, h.suite⟩

private theorem txnVerb_fieldOk : ∀ v ∈ txnVerbs, fieldOk (some v) = true := by decide

private theorem holdVerb_fieldOk : ∀ v ∈ holdVerbs, fieldOk (some v) = true := by decide

theorem pkgxDigestPkgTxn_eq_some_iff {E : Evp} {verb : Option CStr} {recs : List TxnRecord}
    {d : Digest} : pkgxDigestPkgTxn E verb recs = some d ↔
      ∃ v, verb = some v ∧ v ∈ txnVerbs ∧ Encodes txnShape E v recs d := by
  cases verb with
  | none => simp [pkgxDigestPkgTxn]
  | some v =>
    rw [pkgxDigestPkgTxn]
    by_cases hv : v ∈ txnVerbs
    · rw [if_pos (inSet_iff.mpr hv)]
      have h : (recs.mapM pkgTxnRecord).bind (finalize E v) = some d ↔ _ :=
        pkgTxnRecord_builds.encodes_iff E (txnVerb_fieldOk v hv)
      simpa [hv] using h
    · simp [hv]

theorem pkgxDigestHold_eq_some_iff {E : Evp} {verb : Option CStr} {recs : List HoldRecord}
    {d : Digest} : pkgxDigestHold E verb recs = some d ↔
      ∃ v, verb = some v ∧ v ∈ holdVerbs ∧ Encodes holdShape E v recs d := by
  cases verb with
  | none => simp [pkgxDigestHold]
  | some v =>
    rw [pkgxDigestHold]
    by_cases hv : v ∈ holdVerbs
    · rw [if_pos (inSet_iff.mpr hv)]
      have h : (recs.mapM holdRecord).bind (finalize E v) = some d ↔ _ :=
        holdRecord_builds.encodes_iff E (holdVerb_fieldOk v hv)
      simpa [hv] using h
    · simp [hv]

theorem pkgxDigestConfigure_eq_some_iff {E : Evp} {recs : List CfgRecord} {d : Digest} :
    pkgxDigestConfigure E recs = some d ↔ Encodes cfgShape E (.lit "apt.configure") recs d :=
  cfgRecord_builds.encodes_iff E (by decide)

theorem pkgxDigestUpdate_eq_some_iff {E : Evp} {recs : List SrcRecord} {d : Digest} :
    pkgxDigestUpdate E recs = some d ↔ Encodes srcShape E (.lit "apt.update") recs d :=
  srcRecord_builds.encodes_iff E (by decide)

/-- The resource of a target list. -/
theorem pkgxResource_eq_some_iff {targets : List (Option CStr)} {s : CStr} :
    pkgxResource targets = some s ↔ ItemsOk none targets ∧
      (itemsText (targets.map orEmpty)).length + 1 ≤ maxCanon ∧
        s = .ofMem (itemsText (targets.map orEmpty)) := by
  rw [← joinSorted_eq_ok_iff, pkgxResource]
  cases joinSorted targets true none <;> simp

end Pkgexec.PlanDigest
