import Pkgexec.CanonicalPlans

/-!
# Descriptors of the package state

The builders of `apt_common.cc`: libapt's package data is mapped to the records that the
encoders read. What libapt answers is data here; a `std::string` is the C string it denotes.
-/

namespace Pkgexec.Apt
open CStrings PlanDigest

inductive SelectedState where
  | unknown
  | install
  | hold
  | deInstall
  | purge
  deriving DecidableEq

inductive CurrentState where
  | notInstalled
  | unPacked
  | halfConfigured
  | halfInstalled
  | configFiles
  | installed
  | triggersAwaited
  | triggersPending
  deriving DecidableEq

inductive Priority where
  | required
  | important
  | standard
  | optional
  | extra
  deriving DecidableEq

/-- `PkgIterator::OkState`. -/
inductive OkState where
  | needsNothing
  | needsUnpack
  | needsConfigure
  deriving DecidableEq

structure Version where
  verStr : CStr
  priority : Priority

structure Pkg where
  name : CStr
  arch : CStr
  currentVer : Option Version
  selectedState : SelectedState
  currentState : CurrentState
  essential : Bool
  important : Bool
  state : OkState

/-- `pkgDepCache::StateCache`. -/
structure StateCache where
  delete : Bool
  purge : Bool
  newInstall : Bool
  upgrade : Bool
  downgrade : Bool
  auto : Bool
  instVer : Option Version

structure PkgCache where
  packages : List Pkg
  findPkg : CStr → Option Pkg

structure PkgDepCache where
  brokenCount : ℕ
  stateOf : Pkg → StateCache

/-- The change marked for a package. -/
def txnAction (st : StateCache) : Option CStr :=
  if st.delete then some (if st.purge then .lit "purge" else .lit "remove")
  else if st.newInstall then some (.lit "install")
  else if st.upgrade then some (.lit "upgrade")
  else if st.downgrade then some (.lit "downgrade")
  else none

/-- The string of a version iterator, empty at the end. -/
def verStr : Option Version → CStr
  | none => .empty
  | some v => v.verStr

/-- The priority is read from the current version, or else from the one to be installed. -/
def isRequired (P : Pkg) (st : StateCache) : Bool :=
  (P.currentVer.or st.instVer).any fun v => v.priority = .required

def txnFlags (P : Pkg) (st : StateCache) : List CStr :=
  (if P.selectedState = .hold then [.lit "hold"] else []) ++
    (if st.auto then [.lit "auto"] else []) ++
    (if P.essential then [.lit "essential"] else []) ++
    (if isRequired P st || P.important then [.lit "protected"] else [])

/-- One turn of the loop in `pkgx_apt_map_txn`. -/
def txnRecord (P : Pkg) (st : StateCache) : Option TxnRecord :=
  (txnAction st).map fun action =>
    { package := some P.name, architecture := some P.arch, action := some action,
      fromVersion := some (verStr P.currentVer), toVersion := some (verStr st.instVer),
      flags := (txnFlags P st).map some }

def pkgxAptMapTxn (cache : PkgCache) (dc : PkgDepCache) : List TxnRecord :=
  cache.packages.filterMap fun P => txnRecord P (dc.stateOf P)

inductive TriState where
  | unset
  | dontCare
  | no
  | yes
  deriving DecidableEq

structure IndexTarget where
  component : CStr
  architecture : CStr

structure MetaIndex where
  uri : CStr
  dist : CStr
  indexTargets : List IndexTarget
  signedBy : CStr
  trusted : TriState

structure PkgxSrcHolder where
  uri : CStr
  suite : CStr
  components : List CStr
  opts : List (CStr × CStr)

/-- A `std::set` of the non-empty strings, in iteration order. -/
def stringSet (items : List CStr) : List CStr :=
  qsort (items.filter (· ≠ .empty)).dedup

/-- The loop that joins the architectures with blanks. -/
def joinBlank (items : List CStr) : CStr :=
  .ofMem (items.foldl (fun joined a =>
    (if joined ≠ [] then joined ++ [0x20] else joined) ++ a.bytes) [])

/-- An inline key is replaced by its token; on a hash failure the value is kept. -/
def signedByValue (E : Evp) (signedBy : CStr) : CStr :=
  match pkgxSignedByInlineToken E signedBy.bytes with
  | .token t => t
  | .original | .hashFailure => signedBy

def trustedOption : TriState → List (CStr × CStr)
  | .yes => [(.lit "trusted", .lit "yes")]
  | .no => [(.lit "trusted", .lit "no")]
  | .unset | .dontCare => []

/-- One turn of the first loop in `pkgx_apt_map_sources`. -/
def srcHolder (E : Evp) (mi : MetaIndex) : PkgxSrcHolder :=
  let arches := stringSet (mi.indexTargets.map (·.architecture))
  { uri := mi.uri, suite := mi.dist,
    components := stringSet (mi.indexTargets.map (·.component)),
    opts :=
      (if mi.signedBy ≠ .empty then [(.lit "signed-by", signedByValue E mi.signedBy)] else []) ++
        (if arches ≠ [] then [(.lit "architectures", joinBlank arches)] else []) ++
        trustedOption mi.trusted }

def PkgxSrcHolder.record (h : PkgxSrcHolder) : SrcRecord where
  uri := some h.uri
  suite := some h.suite
  components := h.components.map some
  opts := h.opts.map fun kv => (some kv.1, some kv.2)

/-- A null entry of the source list is skipped. -/
def pkgxAptMapSources (E : Evp) (list : List (Option MetaIndex)) : List SrcRecord :=
  (list.filterMap fun mi => mi.map (srcHolder E)).map PkgxSrcHolder.record

def selectionWord : SelectedState → CStr
  | .install => .lit "install"
  | .hold => .lit "hold"
  | .deInstall => .lit "deinstall"
  | .purge => .lit "purge"
  | .unknown => .lit "unknown"

structure PkgxHoldHolder where
  package : CStr
  fromState : CStr
  toState : CStr
  wantHold : Bool

def PkgxHoldHolder.record (h : PkgxHoldHolder) : HoldRecord where
  package := some h.package
  fromState := some h.fromState
  toState := some h.toState

inductive HoldMapError where
  | unknown
  | invalid
  deriving DecidableEq

/-- The return value other than `PKGX_HOLD_MAP_OK` and `*offender`; no record is built. -/
structure HoldMapFailure where
  result : HoldMapError
  offender : CStr

def toState (hold : Bool) : CStr := if hold then .lit "hold" else .lit "install"

/-- The loop over the targets; `changes` holds the ones kept so far. The package of a change
is the target as it was spelled. -/
def mapHoldLoop (cache : PkgCache) (hold : Bool) (changes : List PkgxHoldHolder) :
    List CStr → Except HoldMapFailure (List PkgxHoldHolder)
  | [] => .ok changes
  | target :: targets =>
    match cache.findPkg target with
    | none => .error ⟨.unknown, target⟩
    | some P =>
      let fromState := selectionWord P.selectedState
      if fromState ≠ .lit "install" ∧ fromState ≠ .lit "hold" then .error ⟨.invalid, target⟩
      else if fromState = toState hold then mapHoldLoop cache hold changes targets
      else
        mapHoldLoop cache hold (changes ++ [⟨target, fromState, toState hold, hold⟩]) targets

/-- The changes and the records borrowed from them. -/
def pkgxAptMapHold (cache : PkgCache) (targets : List CStr) (hold : Bool) :
    Except HoldMapFailure (List PkgxHoldHolder × List HoldRecord) :=
  match mapHoldLoop cache hold [] targets with
  | .error e => .error e
  | .ok changes => .ok (changes, changes.map PkgxHoldHolder.record)

def pendingState : CurrentState → Option CStr
  | .unPacked => some (.lit "unpacked")
  | .halfConfigured => some (.lit "half-configured")
  | .triggersAwaited => some (.lit "triggers-awaited")
  | .triggersPending => some (.lit "triggers-pending")
  | _ => none

structure PkgxCfgHolder where
  package : CStr
  arch : CStr
  version : CStr
  state : CStr

def PkgxCfgHolder.record (h : PkgxCfgHolder) : CfgRecord where
  package := some h.package
  architecture := some h.arch
  currentVersion := some h.version
  state := some h.state

/-- The loop over the packages. The error is the name of a half-installed package. -/
def mapConfigureLoop (holders : List PkgxCfgHolder) :
    List Pkg → Except CStr (List PkgxCfgHolder)
  | [] => .ok holders
  | P :: packages =>
    if P.currentState = .halfInstalled then .error P.name
    else
      match pendingState P.currentState with
      | none => mapConfigureLoop holders packages
      | some state =>
        mapConfigureLoop (holders ++ [⟨P.name, P.arch, verStr P.currentVer, state⟩]) packages

def pkgxAptMapConfigure (cache : PkgCache) :
    Except CStr (List PkgxCfgHolder × List CfgRecord) :=
  match mapConfigureLoop [] cache.packages with
  | .error name => .error name
  | .ok holders => .ok (holders, holders.map PkgxCfgHolder.record)

/-- A target whose selection the request changes: it is found, and its selection differs from
the requested one. -/
def Changes (cache : PkgCache) (hold : Bool) (target : CStr) : Prop :=
  ∃ P, cache.findPkg target = some P ∧ selectionWord P.selectedState ≠ toState hold

/-- A target that `hold` and `unhold` may toggle. -/
def HoldSubject (cache : PkgCache) (target : CStr) : Prop :=
  ∃ P, cache.findPkg target = some P ∧ (P.selectedState = .install ∨ P.selectedState = .hold)

/-- The change a target needs. -/
def holdChange (cache : PkgCache) (hold : Bool) (target : CStr) : Option PkgxHoldHolder :=
  (cache.findPkg target).bind fun P =>
    if selectionWord P.selectedState = toState hold then none
    else some ⟨target, selectionWord P.selectedState, toState hold, hold⟩

theorem holdChange_eq_some_iff {cache : PkgCache} {hold : Bool} {target : CStr}
    {change : PkgxHoldHolder} : holdChange cache hold target = some change ↔
      ∃ P, cache.findPkg target = some P ∧ selectionWord P.selectedState ≠ toState hold ∧
        change = ⟨target, selectionWord P.selectedState, toState hold, hold⟩ := by
  rw [holdChange, Option.bind_eq_some_iff]
  refine exists_congr fun P => and_congr_right fun _ => ?_
  split
  · simp [*]
  · simp [*, eq_comm]

theorem holdSubject_iff_word {P : Pkg} : P.selectedState = .install ∨ P.selectedState = .hold ↔
    ¬ (selectionWord P.selectedState ≠ .lit "install" ∧
      selectionWord P.selectedState ≠ .lit "hold") := by
  cases P.selectedState <;> decide

/-- The loop keeps the changes of its targets, in order, if every target is a hold subject. -/
theorem mapHoldLoop_eq_ok_iff {cache : PkgCache} {hold : Bool} {targets : List CStr}
    {done changes : List PkgxHoldHolder} : mapHoldLoop cache hold done targets = .ok changes ↔
      (∀ t ∈ targets, HoldSubject cache t) ∧
        changes = done ++ targets.filterMap (holdChange cache hold) := by
  induction targets generalizing done with
  | nil => simp [mapHoldLoop, eq_comm]
  | cons target targets ih =>
    rw [mapHoldLoop, List.forall_mem_cons]
    cases hfind : cache.findPkg target with
    | none => simp [HoldSubject, hfind]
    | some P =>
      have hsubject : HoldSubject cache target ↔
          P.selectedState = .install ∨ P.selectedState = .hold := by
        simp [HoldSubject, hfind]
      have hchange : holdChange cache hold target =
          if selectionWord P.selectedState = toState hold then none
          else some ⟨target, selectionWord P.selectedState, toState hold, hold⟩ := by
        rw [holdChange, hfind, Option.bind_some]
      dsimp only
      rw [hsubject, holdSubject_iff_word]
      split
      · rename_i hinvalid
        simp [hinvalid]
      · rename_i hvalid
        split
        · rename_i hsame
          rw [if_pos hsame] at hchange
          rw [ih, List.filterMap_cons_none hchange]
          simp only [hvalid, not_false_eq_true, true_and]
        · rename_i hdiffers
          rw [if_neg hdiffers] at hchange
          rw [ih, List.filterMap_cons_some hchange, List.append_assoc, List.singleton_append]
          simp only [hvalid, not_false_eq_true, true_and]

/-- The hold map succeeds exactly on hold subjects, with one record for each target that
changes. -/
theorem pkgxAptMapHold_eq_ok_iff {cache : PkgCache} {targets : List CStr} {hold : Bool}
    {changes : List PkgxHoldHolder} {recs : List HoldRecord} :
    pkgxAptMapHold cache targets hold = .ok (changes, recs) ↔
      (∀ t ∈ targets, HoldSubject cache t) ∧ changes = targets.filterMap (holdChange cache hold) ∧
        recs = changes.map PkgxHoldHolder.record := by
  have hloop (kept : List PkgxHoldHolder) : mapHoldLoop cache hold [] targets = .ok kept ↔
      (∀ t ∈ targets, HoldSubject cache t) ∧
        kept = [] ++ targets.filterMap (holdChange cache hold) := mapHoldLoop_eq_ok_iff
  simp only [List.nil_append] at hloop
  rw [pkgxAptMapHold, ← and_assoc, ← hloop]
  cases hmap : mapHoldLoop cache hold [] targets with
  | error e => simp
  | ok kept =>
    simp only [Except.ok.injEq, Prod.mk.injEq]
    constructor
    · rintro ⟨rfl, rfl⟩
      exact ⟨rfl, rfl⟩
    · rintro ⟨rfl, rfl⟩
      exact ⟨rfl, rfl⟩

/-- Every change is of one of the targets, in the direction of the request. -/
theorem mem_changes {cache : PkgCache} {targets : List CStr} {hold : Bool}
    {changes : List PkgxHoldHolder} {recs : List HoldRecord}
    (hmap : pkgxAptMapHold cache targets hold = .ok (changes, recs)) {change : PkgxHoldHolder}
    (hchange : change ∈ changes) :
    change.package ∈ targets ∧ change.toState = toState hold ∧ change.wantHold = hold := by
  obtain ⟨-, rfl, -⟩ := pkgxAptMapHold_eq_ok_iff.mp hmap
  obtain ⟨t, ht, hsome⟩ := List.mem_filterMap.mp hchange
  obtain ⟨P, -, -, rfl⟩ := holdChange_eq_some_iff.mp hsome
  exact ⟨ht, rfl, rfl⟩

/-- On success the packages of the hold records are the targets that change, as spelled. -/
theorem pkgxAptMapHold_ok {cache : PkgCache} {hold : Bool} {targets : List CStr}
    {changes : List PkgxHoldHolder} {recs : List HoldRecord}
    (h : pkgxAptMapHold cache targets hold = .ok (changes, recs)) :
    recs = changes.map PkgxHoldHolder.record ∧
      ∀ t, t ∈ changes.map PkgxHoldHolder.package ↔ t ∈ targets ∧ Changes cache hold t := by
  obtain ⟨-, rfl, hrecs⟩ := pkgxAptMapHold_eq_ok_iff.mp h
  refine ⟨hrecs, fun t => ?_⟩
  rw [List.mem_map]
  constructor
  · rintro ⟨change, hmem, rfl⟩
    obtain ⟨target, htarget, hchange⟩ := List.mem_filterMap.mp hmem
    obtain ⟨P, hP, hdiffers, rfl⟩ := holdChange_eq_some_iff.mp hchange
    exact ⟨htarget, P, hP, hdiffers⟩
  · rintro ⟨htarget, P, hP, hdiffers⟩
    have hchange := holdChange_eq_some_iff.mpr ⟨P, hP, hdiffers, rfl⟩
    exact ⟨_, List.mem_filterMap.mpr ⟨t, htarget, hchange⟩, rfl⟩

end Pkgexec.Apt
