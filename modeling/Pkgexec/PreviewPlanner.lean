import Pkgexec.Effectors
import Pkgexec.RecordDecoding

/-!
# The read-only planner

`preview.cc`: the request is parsed, the current state is mapped by the shared builders, and
one JSON line describes the plan. The functions follow the source from `emit` to `main`.
-/

namespace Pkgexec.Preview
open CStrings JsonValues PlanDigest Policy Plan Request Apt

/-- The object that is printed, the line on standard output and the exit code. -/
structure Printed where
  members : List (CStr × Json)
  line : CStr
  exitCode : ℤ

def statusExit (status : CStr) : ℤ := if status = .lit "ok" ∨ status = .lit "no_op" then 0 else 1

/-- A string, or JSON null for `nullptr`. -/
def stringOrNull (J : Jansson) : Option CStr → Option Json
  | some s => J.string s
  | none => some .null

section Planner

variable (J : Jansson) (E : Evp)

/-- The results of the setters are ignored, so a string that is not UTF-8 is left out. -/
def emit (status : CStr) (verb : Option CStr) (packages : List CStr) (resource : Option CStr)
    (planHash : Option CStr) (records : Option Json) (detail : Option CStr) : Printed :=
  let members := J.setAll [
    (.lit "schema_version", some (.integer 1)),
    (.lit "status", J.string status),
    (.lit "verb", stringOrNull J verb),
    (.lit "packages", some (.array (packages.filterMap J.string))),
    (.lit "plan_schema", some (if planHash.isSome then .integer 1 else .null)),
    (.lit "resource", stringOrNull J resource),
    (.lit "plan_hash", stringOrNull J planHash),
    (.lit "records", some (records.getD (.array []))),
    (.lit "detail", stringOrNull J detail)]
  ⟨members, .ofMem ((J.dumps (.object members)).bytes ++ [0x0a]), statusExit status⟩

def computeResource (pkgs : List CStr) : Option CStr := pkgxResource (pkgs.map some)

/-- From the mapped records on, the same in the four previews: an empty plan, then the digest,
then what the policy found. A refusal is the status it is printed with and its offender. -/
def previewRecords (verb : CStr) (pkgs : List CStr) (resource : CStr) (isEmpty : Bool)
    (refusal : Option (CStr × Option CStr)) (digest : Option Digest) (kind : RecKind) : Printed :=
  if isEmpty then emit J (.lit "no_op") (some verb) pkgs (some resource) none none none
  else
    match digest with
    | none => emit J (.lit "internal") (some verb) pkgs (some resource) none none
        (some (.lit "digest"))
    | some d =>
      let records := decodeRecords J d.canon kind
      match refusal with
      | none => emit J (.lit "ok") (some verb) pkgs (some resource) (some d.hex) (some records) none
      | some (status, offender) =>
        emit J status (some verb) pkgs (some resource) (some d.hex) (some records) offender

/-- The switch on the verdict of the policy. -/
def policyRefusal (recs : List TxnRecord) : Option (CStr × Option CStr) :=
  match pkgxPolicyCheck recs with
  | (.ok, _) => none
  | (.notOwned, offender) => some (.lit "package_not_owned", offender)
  | (.held, offender) => some (.lit "held", offender)
  | (.isProtected, offender) => some (.lit "protected_package", offender)

/-- The ownership loop over the packages of the holders. -/
def ownedRefusal (packages : List CStr) : Option (CStr × Option CStr) :=
  (packages.find? pkgxIsRaptOwned).map fun p => (.lit "package_not_owned", some p)

def previewTxnRecords (verb : CStr) (pkgs : List CStr) (resource : CStr)
    (recs : List TxnRecord) : Printed :=
  previewRecords J verb pkgs resource recs.isEmpty (policyRefusal recs)
    (pkgxDigestPkgTxn E (some verb) recs) .txn

def previewUpdateRecords (recs : List SrcRecord) : Printed :=
  previewRecords J (.lit "apt.update") [] (.lit "") recs.isEmpty none (pkgxDigestUpdate E recs) .src

def previewHoldMapped (verb : CStr) (pkgs : List CStr) (resource : CStr) :
    Except HoldMapFailure (List PkgxHoldHolder × List HoldRecord) → Printed
  | .error f => emit J (.lit "resolve_failed") (some verb) pkgs (some resource) none none
      (some f.offender)
  | .ok (changes, holds) =>
    previewRecords J verb pkgs resource changes.isEmpty (ownedRefusal (changes.map (·.package)))
      (pkgxDigestHold E (some verb) holds) .hold

def previewConfigureMapped :
    Except CStr (List PkgxCfgHolder × List CfgRecord) → Printed
  | .error name => emit J (.lit "dpkg_broken") (some (.lit "apt.configure")) []
      (some (.lit "pending")) none none (some name)
  | .ok (holders, cfgs) =>
    previewRecords J (.lit "apt.configure") [] (.lit "pending") cfgs.isEmpty
      (ownedRefusal (holders.map (·.package))) (pkgxDigestConfigure E cfgs) .cfg

variable (h : AptHost)

/-- The resolve is written out again in the source, as that of the transaction effector. -/
def previewTxn (verb : CStr) (pkgs : List CStr) : Printed :=
  match computeResource pkgs with
  | none => emit J (.lit "internal") (some verb) pkgs none none none (some (.lit "resource"))
  | some resource =>
    match h.cache.pkgCache, h.cache.depCache with
    | some c, some _ =>
      match resolveTxn h verb pkgs c with
      | .error e =>
        emit J (.lit "resolve_failed") (some verb) pkgs (some resource) none none e.detail
      | .ok dc => previewTxnRecords J E verb pkgs resource (pkgxAptMapTxn c dc)
    | _, _ => emit J (.lit "internal") (some verb) pkgs (some resource) none none
        (some (.lit "cache"))

def previewUpdate : Printed :=
  match h.sources with
  | none => emit J (.lit "internal") (some (.lit "apt.update")) [] (some (.lit "")) none none
      (some (.lit "sources"))
  | some list => previewUpdateRecords J E (pkgxAptMapSources E list)

def previewHold (verb : CStr) (pkgs : List CStr) : Printed :=
  match computeResource pkgs with
  | none => emit J (.lit "internal") (some verb) pkgs none none none (some (.lit "resource"))
  | some resource =>
    match h.cache.pkgCache with
    | none => emit J (.lit "internal") (some verb) pkgs (some resource) none none
        (some (.lit "cache"))
    | some c =>
      previewHoldMapped J E verb pkgs resource (pkgxAptMapHold c pkgs (verb = .lit "apt.hold"))

def previewConfigure : Printed :=
  match h.cache.pkgCache with
  | none => emit J (.lit "internal") (some (.lit "apt.configure")) [] (some (.lit "pending")) none
      none (some (.lit "cache"))
  | some c => previewConfigureMapped J E (pkgxAptMapConfigure c)

/-- `main` from the parse on. -/
def previewMain (body : List UInt8) : Printed :=
  match pkgxParsePreviewRequest J body with
  | .error r => emit J (.lit "schema_invalid") none [] none none none (some r.errcode)
  | .ok req =>
    let verb := req.verb.str
    let pkgs := req.packages.getD []
    if !h.initConfig || !h.initSystem then
      emit J (.lit "internal") (some verb) pkgs none none none (some (.lit "apt_init"))
    else if verb = .lit "apt.update" then previewUpdate J E h
    else if !h.cache.opens then
      emit J (.lit "internal") (some verb) pkgs none none none (some (.lit "cache_open"))
    else if verb = .lit "apt.hold" ∨ verb = .lit "apt.unhold" then previewHold J E h verb pkgs
    else if verb = .lit "apt.configure" then previewConfigure J E h
    else previewTxn J E h verb pkgs

end Planner

variable {J : Jansson}

def Printed.get (p : Printed) (key : CStr) : Option Json := KeyedLists.valueAt p.members key

section Members

variable (status : CStr) (verb : Option CStr) (packages : List CStr)
  (resource planHash : Option CStr) (records : Option Json) (detail : Option CStr)

private theorem emit_get {key : CStr} {value : Option Json}
    (h : (key, value) ∈ [
      (CStr.lit "schema_version", some (Json.integer 1)),
      (.lit "status", J.string status),
      (.lit "verb", stringOrNull J verb),
      (.lit "packages", some (.array (packages.filterMap J.string))),
      (.lit "plan_schema", some (if planHash.isSome then .integer 1 else .null)),
      (.lit "resource", stringOrNull J resource),
      (.lit "plan_hash", stringOrNull J planHash),
      (.lit "records", some (records.getD (.array []))),
      (.lit "detail", stringOrNull J detail)]) :
    (emit J status verb packages resource planHash records detail).get key = value := by
  refine J.valueAt_setAll ?_ h
  simp only [List.map_cons, List.map_nil]
  decide

theorem emit_status : (emit J status verb packages resource planHash records detail).get
    (.lit "status") = J.string status :=
  emit_get status verb packages resource planHash records detail (by simp)

theorem emit_verb : (emit J status verb packages resource planHash records detail).get
    (.lit "verb") = stringOrNull J verb :=
  emit_get status verb packages resource planHash records detail (by simp)

theorem emit_resource : (emit J status verb packages resource planHash records detail).get
    (.lit "resource") = stringOrNull J resource :=
  emit_get status verb packages resource planHash records detail (by simp)

theorem emit_planHash : (emit J status verb packages resource planHash records detail).get
    (.lit "plan_hash") = stringOrNull J planHash :=
  emit_get status verb packages resource planHash records detail (by simp)

theorem emit_detail : (emit J status verb packages resource planHash records detail).get
    (.lit "detail") = stringOrNull J detail :=
  emit_get status verb packages resource planHash records detail (by simp)

end Members

end Pkgexec.Preview
