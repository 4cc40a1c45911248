import Pkgexec.AptDescriptors
import Pkgexec.EncoderDomain

/-!
# Builders and encoders

The record builders enumerate their source without loss or duplication, and their vocabulary
is the encoders': a record that a builder makes can be refused for the bytes of one of its
values, but for no closed domain.
-/

namespace Pkgexec.PlanDigest
open CStrings

/-- The checks of `pkg_txn_record` against a closed set, and for repeated flags. -/
structure TxnRecord.Closed (r : TxnRecord) : Prop where
  action : orEmpty r.action ∈ actions
  flags : ∀ s ∈ r.flags, orEmpty s ∈ flagSet
  nodup : (r.flags.map orEmpty).Nodup

def CfgRecord.Closed (r : CfgRecord) : Prop := orEmpty r.state ∈ cfgStates

structure HoldRecord.Closed (r : HoldRecord) : Prop where
  fromState : orEmpty r.fromState ∈ holdStates
  toState : orEmpty r.toState ∈ holdStates

structure SrcRecord.Closed (r : SrcRecord) : Prop where
  components : (r.components.map orEmpty).Nodup
  keys : ∀ kv ∈ r.opts, orEmpty kv.1 ∈ updOptKeys
  nodup : ((r.opts.map optPair).map Prod.fst).Nodup

/-- The values of a record that come from outside. -/
def TxnRecord.values (r : TxnRecord) : List (Option CStr) :=
  [r.package, r.architecture, r.fromVersion, r.toVersion]

def CfgRecord.values (r : CfgRecord) : List (Option CStr) :=
  [r.package, r.architecture, r.currentVersion]

def HoldRecord.values (r : HoldRecord) : List (Option CStr) := [r.package]

def SrcRecord.values (r : SrcRecord) : List (Option CStr) :=
  r.uri :: r.suite :: (r.components ++ r.opts.map Prod.snd)

def ValuesOk (values : List (Option CStr)) : Prop := ∀ s ∈ values, fieldOk s = true

theorem TxnRecord.ok_iff {r : TxnRecord} : r.Ok ↔ r.Closed ∧ ValuesOk r.values := by
  constructor
  · intro h
    refine ⟨⟨h.action, h.flags.inDomain _ rfl, h.flags.nodup⟩, ?_⟩
    simp [ValuesOk, values, h.package, h.architecture, h.fromVersion, h.toVersion]
  · rintro ⟨hclosed, hvalues⟩
    simp only [ValuesOk, values, List.forall_mem_cons, List.not_mem_nil, false_imp_iff,
      implies_true, and_true] at hvalues
    obtain ⟨hpkg, harch, hfrom, hto⟩ := hvalues
    refine ⟨hclosed.action, hpkg, harch, hfrom, hto, ?_, ?_, hclosed.nodup⟩
    · intro s hs
      exact fieldOk_of_mem (by decide) (hclosed.flags s hs)
    · rintro _ ⟨⟩
      exact hclosed.flags

theorem CfgRecord.ok_iff {r : CfgRecord} : r.Ok ↔ r.Closed ∧ ValuesOk r.values := by
  constructor
  · intro h
    refine ⟨h.state, ?_⟩
    simp [ValuesOk, values, h.package, h.architecture, h.currentVersion]
  · rintro ⟨hclosed, hvalues⟩
    simp only [ValuesOk, values, List.forall_mem_cons, List.not_mem_nil, false_imp_iff,
      implies_true, and_true] at hvalues
    exact ⟨hclosed, hvalues.1, hvalues.2.1, hvalues.2.2⟩

theorem HoldRecord.ok_iff {r : HoldRecord} : r.Ok ↔ r.Closed ∧ ValuesOk r.values := by
  constructor
  · intro h
    exact ⟨⟨h.fromState, h.toState⟩, by simp [ValuesOk, values, h.package]⟩
  · rintro ⟨hclosed, hvalues⟩
    exact ⟨hclosed.fromState, hclosed.toState, hvalues _ (by simp [values])⟩

theorem SrcRecord.ok_iff {r : SrcRecord} : r.Ok ↔ r.Closed ∧ ValuesOk r.values := by
  constructor
  · intro h
    refine ⟨⟨h.components.nodup, h.opts.inDomain, h.opts.nodup⟩, ?_⟩
    simp only [ValuesOk, values, List.forall_mem_cons, List.forall_mem_append, List.forall_mem_map]
    exact ⟨h.uri, h.suite, h.components.fields, fun kv hkv => (h.opts.fields kv hkv).2⟩
  · rintro ⟨hclosed, hvalues⟩
    simp only [ValuesOk, values, List.forall_mem_cons, List.forall_mem_append,
      List.forall_mem_map] at hvalues
    obtain ⟨huri, hsuite, hcomps, hvals⟩ := hvalues
    refine ⟨huri, hsuite, ⟨hcomps, ?_, hclosed.components⟩, ?_, hclosed.keys, hclosed.nodup⟩
    · rintro _ ⟨⟩
    intro kv hkv
    exact ⟨fieldOk_of_mem (by decide) (hclosed.keys kv hkv), hvals kv hkv⟩

namespace EncoderCall

/-- Every record passes the closed-domain checks of the encoder that is called. -/
def Closed : EncoderCall → Prop
  | pkgTxn _ recs => ∀ r ∈ recs, r.Closed
  | configure recs => ∀ r ∈ recs, r.Closed
  | hold _ recs => ∀ r ∈ recs, r.Closed
  | update recs => ∀ r ∈ recs, r.Closed

/-- Every value in the records passes `field_ok`. -/
def FieldsOk : EncoderCall → Prop
  | pkgTxn _ recs => ∀ r ∈ recs, ValuesOk r.values
  | configure recs => ∀ r ∈ recs, ValuesOk r.values
  | hold _ recs => ∀ r ∈ recs, ValuesOk r.values
  | update recs => ∀ r ∈ recs, ValuesOk r.values

theorem recordsOk_iff {c : EncoderCall} : c.RecordsOk ↔ c.Closed ∧ c.FieldsOk := by
  cases c with
  | pkgTxn verb recs => simp only [RecordsOk, Closed, FieldsOk, TxnRecord.ok_iff, forall₂_and]
  | configure recs => simp only [RecordsOk, Closed, FieldsOk, CfgRecord.ok_iff, forall₂_and]
  | hold verb recs => simp only [RecordsOk, Closed, FieldsOk, HoldRecord.ok_iff, forall₂_and]
  | update recs => simp only [RecordsOk, Closed, FieldsOk, SrcRecord.ok_iff, forall₂_and]

/-- What is left to refuse a call whose records pass their closed domains. -/
theorem run_eq_none_iff {E : Evp} {c : EncoderCall} (hverb : c.verb ∈ c.kind.verbs)
    (hclosed : c.Closed) : c.run E = none ↔
      ¬ c.FieldsOk ∨ maxCanon < c.canonBytes.length ∨ pkgxSha256Hex E c.canonBytes = none := by
  have hdom : c.verb ∈ c.kind.verbs ∧ c.RecordsOk ↔ c.FieldsOk := by
    simp [hverb, recordsOk_iff, hclosed]
  constructor
  · intro hnone
    by_contra h
    simp only [not_or, not_not, not_lt] at h
    obtain ⟨hfields, hfits, hsha⟩ := h
    obtain ⟨hex, hhex⟩ := Option.ne_none_iff_exists'.mp hsha
    have hsome : c.run E = some ⟨hex, c.canonBytes⟩ :=
      run_eq_some_iff.mpr ⟨hdom.mpr hfields, hfits, hhex, rfl⟩
    exact absurd (hnone.symm.trans hsome) (by simp)
  · intro h
    rw [Option.eq_none_iff_forall_ne_some]
    intro d hd
    obtain ⟨hrecs, hfits, hhex, -⟩ := run_eq_some_iff.mp hd
    rcases h with h | h | h
    · exact h (hdom.mp hrecs)
    · omega
    · simp [h] at hhex

end EncoderCall

end Pkgexec.PlanDigest

namespace Pkgexec.Apt
open CStrings PlanDigest

/-- A filter-map is one result for each member that has one, in order. -/
theorem forall₂_filterMap {α β : Type} {f : α → Option β} {p : α → Bool} {R : α → β → Prop}
    (hp : ∀ a, p a = (f a).isSome) (hR : ∀ a b, f a = some b → R a b) (xs : List α) :
    List.Forall₂ R (xs.filter p) (xs.filterMap f) := by
  induction xs with
  | nil => exact .nil
  | cons x xs ih =>
    cases hx : f x with
    | none =>
      have hpx : p x = false := by rw [hp, hx, Option.isSome_none]
      rw [List.filter_cons_of_neg (by simp [hpx]), List.filterMap_cons_none hx]
      exact ih
    | some y =>
      have hpx : p x = true := by rw [hp, hx, Option.isSome_some]
      rw [List.filter_cons_of_pos hpx, List.filterMap_cons_some hx]
      exact .cons (hR x y hx) ih

/-- The package is marked for a change. -/
def marked (st : StateCache) : Bool := st.delete || st.newInstall || st.upgrade || st.downgrade

theorem marked_eq (st : StateCache) : marked st = (txnAction st).isSome := by
  obtain ⟨delete, purge, newInstall, upgrade, downgrade, auto, instVer⟩ := st
  cases delete <;> cases newInstall <;> cases upgrade <;> cases downgrade <;>
    simp [marked, txnAction]

/-- The record of a marked package. -/
structure TxnDescribes (dc : PkgDepCache) (P : Pkg) (r : TxnRecord) : Prop where
  package : r.package = some P.name
  architecture : r.architecture = some P.arch
  action : r.action = txnAction (dc.stateOf P)
  fromVersion : r.fromVersion = some (verStr P.currentVer)
  toVersion : r.toVersion = some (verStr (dc.stateOf P).instVer)

theorem txnRecord_describes {dc : PkgDepCache} {P : Pkg} {r : TxnRecord}
    (h : txnRecord P (dc.stateOf P) = some r) : TxnDescribes dc P r := by
  obtain ⟨action, haction, rfl⟩ := Option.map_eq_some_iff.mp h
  exact ⟨rfl, rfl, haction.symm, rfl, rfl⟩

theorem txnAction_mem {st : StateCache} {action : CStr} (h : txnAction st = some action) :
    action ∈ actions := by
  rw [txnAction] at h
  split at h
  · obtain rfl := Option.some.inj h
    split <;> decide
  split at h
  · obtain rfl := Option.some.inj h
    decide
  split at h
  · obtain rfl := Option.some.inj h
    decide
  split at h
  · obtain rfl := Option.some.inj h
    decide
  · cases h

theorem txnFlags_closed (P : Pkg) (st : StateCache) :
    (∀ s ∈ txnFlags P st, s ∈ flagSet) ∧ (txnFlags P st).Nodup := by
  have hall : ∀ hold auto essential protect : Bool, ∀ flags : List CStr,
      flags = (if hold then [.lit "hold"] else []) ++ (if auto then [.lit "auto"] else []) ++
        (if essential then [.lit "essential"] else []) ++
        (if protect then [.lit "protected"] else []) →
      (∀ s ∈ flags, s ∈ flagSet) ∧ flags.Nodup := by
    rintro hold auto essential protect _ rfl
    revert hold auto essential protect
    decide
  apply hall (P.selectedState = .hold) st.auto P.essential (isRequired P st || P.important)
  simp only [txnFlags, decide_eq_true_eq]

theorem txnRecord_closed {P : Pkg} {st : StateCache} {r : TxnRecord}
    (h : txnRecord P st = some r) : r.Closed := by
  obtain ⟨action, haction, rfl⟩ := Option.map_eq_some_iff.mp h
  obtain ⟨hflags, hnodup⟩ := txnFlags_closed P st
  refine ⟨txnAction_mem haction, ?_, ?_⟩
  · simpa using hflags
  · simpa [Function.comp_def] using hnodup

/-- The selection of a target differs from the requested one. -/
def differs (cache : PkgCache) (hold : Bool) (target : CStr) : Bool :=
  (cache.findPkg target).any fun P => selectionWord P.selectedState ≠ toState hold

theorem differs_eq (cache : PkgCache) (hold : Bool) (target : CStr) :
    differs cache hold target = (holdChange cache hold target).isSome := by
  rw [differs, holdChange]
  cases cache.findPkg target with
  | none => rfl
  | some P =>
    rw [Option.any_some, Option.bind_some]
    split <;> simp_all

/-- The record of a target that changes. -/
structure HoldDescribes (cache : PkgCache) (hold : Bool) (target : CStr) (r : HoldRecord) :
    Prop where
  package : r.package = some target
  fromState : ∃ P, cache.findPkg target = some P ∧
    r.fromState = some (selectionWord P.selectedState)
  toState : r.toState = some (toState hold)

theorem holdChange_describes {cache : PkgCache} {hold : Bool} {target : CStr} {r : HoldRecord}
    (h : (holdChange cache hold target).map PkgxHoldHolder.record = some r) :
    HoldDescribes cache hold target r := by
  obtain ⟨change, hchange, rfl⟩ := Option.map_eq_some_iff.mp h
  obtain ⟨P, hP, -, rfl⟩ := holdChange_eq_some_iff.mp hchange
  exact ⟨rfl, ⟨P, hP, rfl⟩, rfl⟩

/-- A computation fails exactly if it does not succeed. -/
theorem exists_error_iff {ε α : Type} {x : Except ε α} : (∃ e, x = .error e) ↔ ∀ a, x ≠ .ok a := by
  cases x <;> simp

theorem pkgxAptMapHold_error_iff {cache : PkgCache} {targets : List CStr} {hold : Bool} :
    (∃ e, pkgxAptMapHold cache targets hold = .error e) ↔ ∃ t ∈ targets, ¬ HoldSubject cache t := by
  rw [exists_error_iff]
  constructor
  · intro h
    by_contra hall
    push Not at hall
    exact h _ (pkgxAptMapHold_eq_ok_iff.mpr ⟨hall, rfl, rfl⟩)
  · rintro ⟨t, ht, hnot⟩ ⟨changes, recs⟩ hok
    exact hnot ((pkgxAptMapHold_eq_ok_iff.mp hok).1 t ht)

theorem holdRecords_closed {cache : PkgCache} {hold : Bool} {target : CStr} {r : HoldRecord}
    (hsubject : HoldSubject cache target) (h : HoldDescribes cache hold target r) : r.Closed := by
  obtain ⟨P, hP, hstate⟩ := hsubject
  obtain ⟨Q, hQ, hfrom⟩ := h.fromState
  obtain rfl : P = Q := Option.some.inj (hP.symm.trans hQ)
  constructor
  · rw [hfrom, orEmpty_some]
    rcases hstate with hstate | hstate <;> rw [hstate] <;> decide
  · rw [h.toState, orEmpty_some]
    cases hold <;> decide

/-- The records of the hold map pass the closed domains of the encoder. -/
theorem pkgxAptMapHold_closed {cache : PkgCache} {targets : List CStr} {hold : Bool}
    {changes : List PkgxHoldHolder} {recs : List HoldRecord}
    (hmap : pkgxAptMapHold cache targets hold = .ok (changes, recs)) : ∀ r ∈ recs, r.Closed := by
  obtain ⟨hsubjects, rfl, rfl⟩ := pkgxAptMapHold_eq_ok_iff.mp hmap
  rw [List.map_filterMap]
  intro r hr
  obtain ⟨t, ht, htr⟩ := List.mem_filterMap.mp hr
  exact holdRecords_closed (hsubjects t ht) (holdChange_describes htr)

/-- The states that `dpkg --configure --pending` acts on. -/
def pendingStates : List CurrentState :=
  [.unPacked, .halfConfigured, .triggersAwaited, .triggersPending]

theorem pendingState_isSome (s : CurrentState) :
    (pendingState s).isSome = decide (s ∈ pendingStates) := by
  cases s <;> decide

theorem pendingState_mem {s : CurrentState} {word : CStr} (h : pendingState s = some word) :
    word ∈ cfgStates := by
  cases s with
  | unPacked | halfConfigured | triggersAwaited | triggersPending =>
    obtain rfl := Option.some.inj h
    decide
  | _ => cases h

def cfgHolder (P : Pkg) : Option PkgxCfgHolder :=
  (pendingState P.currentState).map fun state => ⟨P.name, P.arch, verStr P.currentVer, state⟩

/-- The loop keeps the pending packages, in order, if no package is half-installed. -/
theorem mapConfigureLoop_eq_ok_iff {packages : List Pkg} {done holders : List PkgxCfgHolder} :
    mapConfigureLoop done packages = .ok holders ↔
      (∀ P ∈ packages, P.currentState ≠ .halfInstalled) ∧
        holders = done ++ packages.filterMap cfgHolder := by
  induction packages generalizing done with
  | nil => simp [mapConfigureLoop, eq_comm]
  | cons P packages ih =>
    rw [mapConfigureLoop, List.forall_mem_cons]
    split
    · rename_i hhalf
      simp [hhalf]
    · rename_i hwhole
      cases hstate : pendingState P.currentState with
      | none =>
        have hholder : cfgHolder P = none := by rw [cfgHolder, hstate, Option.map_none]
        rw [List.filterMap_cons_none hholder]
        simp only [ih, hwhole, ne_eq, not_false_eq_true, true_and]
      | some state =>
        have hholder : cfgHolder P = some ⟨P.name, P.arch, verStr P.currentVer, state⟩ := by
          rw [cfgHolder, hstate, Option.map_some]
        rw [List.filterMap_cons_some hholder]
        simp only [ih, hwhole, ne_eq, not_false_eq_true, true_and, List.append_assoc,
          List.singleton_append]

/-- The record of a pending package. -/
structure CfgDescribes (P : Pkg) (r : CfgRecord) : Prop where
  package : r.package = some P.name
  architecture : r.architecture = some P.arch
  currentVersion : r.currentVersion = some (verStr P.currentVer)
  state : r.state = pendingState P.currentState

theorem cfgHolder_describes {P : Pkg} {r : CfgRecord}
    (h : (cfgHolder P).map PkgxCfgHolder.record = some r) : CfgDescribes P r := by
  obtain ⟨holder, hholder, rfl⟩ := Option.map_eq_some_iff.mp h
  obtain ⟨state, hstate, rfl⟩ := Option.map_eq_some_iff.mp hholder
  exact ⟨rfl, rfl, rfl, hstate.symm⟩

theorem cfgHolder_closed {P : Pkg} {r : CfgRecord}
    (h : (cfgHolder P).map PkgxCfgHolder.record = some r) : r.Closed := by
  obtain ⟨holder, hholder, rfl⟩ := Option.map_eq_some_iff.mp h
  obtain ⟨state, hstate, rfl⟩ := Option.map_eq_some_iff.mp hholder
  exact pendingState_mem hstate

theorem pkgxAptMapConfigure_eq_ok_iff {cache : PkgCache} {holders : List PkgxCfgHolder}
    {recs : List CfgRecord} : pkgxAptMapConfigure cache = .ok (holders, recs) ↔
      (∀ P ∈ cache.packages, P.currentState ≠ .halfInstalled) ∧
        holders = cache.packages.filterMap cfgHolder ∧
        recs = holders.map PkgxCfgHolder.record := by
  have hloop (kept : List PkgxCfgHolder) : mapConfigureLoop [] cache.packages = .ok kept ↔
      (∀ P ∈ cache.packages, P.currentState ≠ .halfInstalled) ∧
        kept = [] ++ cache.packages.filterMap cfgHolder := mapConfigureLoop_eq_ok_iff
  simp only [List.nil_append] at hloop
  rw [pkgxAptMapConfigure, ← and_assoc, ← hloop]
  cases hmap : mapConfigureLoop [] cache.packages with
  | error e => simp
  | ok kept =>
    simp only [Except.ok.injEq, Prod.mk.injEq]
    constructor
    · rintro ⟨rfl, rfl⟩
      exact ⟨rfl, rfl⟩
    · rintro ⟨rfl, rfl⟩
      exact ⟨rfl, rfl⟩

theorem pkgxAptMapConfigure_error_iff {cache : PkgCache} :
    (∃ name, pkgxAptMapConfigure cache = .error name) ↔
      ∃ P ∈ cache.packages, P.currentState = .halfInstalled := by
  rw [exists_error_iff]
  constructor
  · intro h
    by_contra hall
    push Not at hall
    exact h _ (pkgxAptMapConfigure_eq_ok_iff.mpr ⟨hall, rfl, rfl⟩)
  · rintro ⟨P, hP, hhalf⟩ ⟨holders, recs⟩ hok
    exact (pkgxAptMapConfigure_eq_ok_iff.mp hok).1 P hP hhalf

/-- The record of a source. -/
structure SrcDescribes (mi : MetaIndex) (r : SrcRecord) : Prop where
  uri : r.uri = some mi.uri
  suite : r.suite = some mi.dist

theorem nodup_stringSet (items : List CStr) : (stringSet items).Nodup :=
  (qsort_perm _).nodup_iff.mpr (List.nodup_dedup _)

theorem srcOpts_closed (E : Evp) (mi : MetaIndex) :
    (∀ kv ∈ (srcHolder E mi).opts, kv.1 ∈ updOptKeys) ∧
      ((srcHolder E mi).opts.map Prod.fst).Nodup := by
  have hsigned : List.Sublist ((if mi.signedBy ≠ .empty then
      [(CStr.lit "signed-by", signedByValue E mi.signedBy)] else []).map Prod.fst)
      [.lit "signed-by"] := by
    split <;> simp
  have harches (arches : List CStr) : List.Sublist ((if arches ≠ [] then
      [(CStr.lit "architectures", joinBlank arches)] else []).map Prod.fst)
      [.lit "architectures"] := by
    split <;> simp
  have htrusted : List.Sublist ((trustedOption mi.trusted).map Prod.fst) [.lit "trusted"] := by
    cases mi.trusted <;> simp [trustedOption]
  have hkeys : List.Sublist ((srcHolder E mi).opts.map Prod.fst) updOptKeys := by
    have harches' := harches (stringSet (mi.indexTargets.map (·.architecture)))
    have happend := (hsigned.append harches').append htrusted
    simpa [srcHolder, updOptKeys] using happend
  refine ⟨?_, hkeys.nodup (by decide)⟩
  intro kv hkv
  exact hkeys.subset (List.mem_map_of_mem hkv)

theorem srcHolder_closed (E : Evp) (mi : MetaIndex) : (srcHolder E mi).record.Closed := by
  obtain ⟨hkeys, hnodup⟩ := srcOpts_closed E mi
  refine ⟨?_, ?_, ?_⟩
  · have hcomps : (srcHolder E mi).components.Nodup := nodup_stringSet _
    simpa [PkgxSrcHolder.record, Function.comp_def] using hcomps
  · intro pair hpair
    obtain ⟨kv, hkv, rfl⟩ := List.mem_map.mp hpair
    exact hkeys kv hkv
  · simpa [PkgxSrcHolder.record, Function.comp_def, optPair] using hnodup

/-- Each builder makes exactly one record for each package, target or source that calls for
one, or fails where its source says so; and what it makes an encoder can refuse only for a
value that is no valid field, for its size, or because the hash fails. -/
theorem builders_within_encoders (E : Evp) (cache : PkgCache) (dc : PkgDepCache)
    (list : List (Option MetaIndex)) (targets : List CStr) (hold : Bool) :
    (List.Forall₂ (TxnDescribes dc) (cache.packages.filter fun P => marked (dc.stateOf P))
        (pkgxAptMapTxn cache dc) ∧
      ∀ verb, (EncoderCall.pkgTxn verb (pkgxAptMapTxn cache dc)).Closed) ∧
    (((∃ e, pkgxAptMapHold cache targets hold = .error e) ↔
        ∃ t ∈ targets, ¬ HoldSubject cache t) ∧
      ∀ changes recs, pkgxAptMapHold cache targets hold = .ok (changes, recs) →
        List.Forall₂ (HoldDescribes cache hold) (targets.filter (differs cache hold)) recs ∧
        ∀ verb, (EncoderCall.hold verb recs).Closed) ∧
    (((∃ name, pkgxAptMapConfigure cache = .error name) ↔
        ∃ P ∈ cache.packages, P.currentState = .halfInstalled) ∧
      ∀ holders recs, pkgxAptMapConfigure cache = .ok (holders, recs) →
        List.Forall₂ CfgDescribes
          (cache.packages.filter fun P => P.currentState ∈ pendingStates) recs ∧
        (EncoderCall.configure recs).Closed) ∧
    (List.Forall₂ SrcDescribes (list.filterMap id) (pkgxAptMapSources E list) ∧
      (EncoderCall.update (pkgxAptMapSources E list)).Closed) ∧
    ∀ c : EncoderCall, c.verb ∈ c.kind.verbs → c.Closed → (c.run E = none ↔
      ¬ c.FieldsOk ∨ maxCanon < c.canonBytes.length ∨ pkgxSha256Hex E c.canonBytes = none) := by
  refine ⟨⟨?_, ?_⟩, ⟨?_, ?_⟩, ⟨?_, ?_⟩, ⟨?_, ?_⟩, fun c => EncoderCall.run_eq_none_iff⟩
  · refine forall₂_filterMap (fun P => ?_) (fun P r => txnRecord_describes) _
    rw [marked_eq, txnRecord, Option.isSome_map]
  · intro verb r hr
    obtain ⟨P, -, hP⟩ := List.mem_filterMap.mp hr
    exact txnRecord_closed hP
  · exact pkgxAptMapHold_error_iff
  · intro changes recs hmap
    refine ⟨?_, fun verb => pkgxAptMapHold_closed hmap⟩
    obtain ⟨-, rfl, rfl⟩ := pkgxAptMapHold_eq_ok_iff.mp hmap
    rw [List.map_filterMap]
    refine forall₂_filterMap (fun t => ?_) (fun t r => holdChange_describes) _
    rw [differs_eq, Option.isSome_map]
  · exact pkgxAptMapConfigure_error_iff
  · intro holders recs hmap
    obtain ⟨-, rfl, rfl⟩ := pkgxAptMapConfigure_eq_ok_iff.mp hmap
    rw [List.map_filterMap]
    constructor
    · refine forall₂_filterMap (fun P => ?_) (fun P r => cfgHolder_describes) _
      rw [Option.isSome_map, cfgHolder, Option.isSome_map, pendingState_isSome]
    · intro r hr
      obtain ⟨P, -, hP⟩ := List.mem_filterMap.mp hr
      exact cfgHolder_closed hP
  · have hrecs : pkgxAptMapSources E list =
        (list.filterMap id).map fun mi => (srcHolder E mi).record := by
      simp [pkgxAptMapSources, List.map_filterMap, Function.comp_def]
    rw [hrecs]
    exact List.forall₂_map_right_iff.mpr (List.forall₂_same.mpr fun mi _ => ⟨rfl, rfl⟩)
  · intro r hr
    obtain ⟨holder, hholder, rfl⟩ := List.mem_map.mp hr
    obtain ⟨mi, -, hmi⟩ := List.mem_filterMap.mp hholder
    obtain ⟨mi, -, rfl⟩ := Option.map_eq_some_iff.mp hmi
    exact srcHolder_closed E mi

end Pkgexec.Apt
