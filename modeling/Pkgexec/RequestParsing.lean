import Pkgexec.JsonValues

/-!
# Request parsing

The strict parsers of `request.c`. The output structure is filled as the checks pass, and a
failure hands back what `pkgx_request_free` leaves of it. Allocation is taken to succeed.
-/

namespace Pkgexec.Request
open CStrings JsonValues

def receiptHexlen : ℕ := 32
def cidMax : ℕ := 64
def maxPackages : ℕ := 256
def maxName : ℕ := 256
def maxDepth : ℕ := 4
def lockTimeoutMax : ℤ := 3600
def verbMax : ℕ := 32

/-- `PKGX_MAX_STDIN`. -/
def maxStdin : ℕ := 65536

def isHexDigit (c : UInt8) : Bool := isDigit c || (0x61 ≤ c && c ≤ 0x66)
def colon : UInt8 := 0x3a

def isLcHex (s : CStr) (n : ℕ) : Bool := s.length = n && s.bytes.all isHexDigit

/-- Twenty digits, a dash, sixteen lowercase hex digits; false of `NULL`. -/
def pkgxCidValid : Option CStr → Bool
  | none => false
  | some s =>
    if s.length ≠ 20 + 1 + 16 then false
    else (s.bytes.take 20).all isDigit && s.bytes[20]? = some dash &&
      (s.bytes.drop 21).all isHexDigit

/-- A character of a package name; `first` rules out the punctuation. -/
def nameChar (first : Bool) (c : UInt8) : Bool :=
  isLower c || isDigit c || (!first && (c = 0x2b || c = 0x2e || c = dash))

def archChar (first : Bool) (c : UInt8) : Bool :=
  isLower c || isDigit c || (!first && c = dash)

/-- A loop over characters in which the first one is special. -/
def allChars (ok : Bool → UInt8 → Bool) : Bool → List UInt8 → Bool
  | _, [] => true
  | first, c :: s => ok first c && allChars ok false s

def nameOk (s : CStr) : Bool :=
  if s.length < 2 ∨ s.length > maxName then false
  else
    let name := s.bytes.takeWhile (· ≠ colon)
    if name.length < 2 then false
    else allChars nameChar true name &&
      match s.bytes.dropWhile (· ≠ colon) with
      | [] => true
      | _ :: arch => !arch.isEmpty && allChars archChar true arch

/-- A JSON string without an embedded NUL. -/
def strClean : Option Json → Option CStr
  | some (.string s) => if (CStr.ofMem s).length ≠ s.length then none else some (.ofMem s)
  | _ => none

mutual

/-- Nesting depth; the running maximum `m` starts at zero. -/
def depth : Json → ℕ
  | .object ms => depthMembers ms 0 + 1
  | .array vs => depthElements vs 0 + 1
  | _ => 0

def depthMembers : List (CStr × Json) → ℕ → ℕ
  | [], m => m
  | (_, e) :: ms, m => depthMembers ms (if depth e > m then depth e else m)

def depthElements : List Json → ℕ → ℕ
  | [], m => m
  | e :: vs, m => depthElements vs (if depth e > m then depth e else m)

end

inductive Arity where
  | none
  | onePlus
  deriving DecidableEq

/-- `none` is the return value -1. -/
def verbArity (verb : CStr) : Option Arity :=
  if verb = .lit "apt.update" ∨ verb = .lit "apt.configure" ∨ verb = .lit "apt.upgrade" ∨
      verb = .lit "apt.dist_upgrade" then some .none
  else if verb = .lit "apt.install" ∨ verb = .lit "apt.remove" ∨ verb = .lit "apt.purge" ∨
      verb = .lit "apt.hold" ∨ verb = .lit "apt.unhold" then some .onePlus
  else none

/-- The loop over the package array: the names stored so far, and whether it reached the end. -/
def parseNames (stored : List CStr) : List Json → List CStr × Bool
  | [] => (stored, true)
  | v :: vs =>
    match strClean (some v) with
    | none => (stored, false)
    | some name =>
      if !nameOk name || stored.any (· = name) then (stored, false)
      else parseNames (stored ++ [name]) vs

/-- The checks on `packages` that both parsers make, up to the allocation. -/
def packagesArray (arity : Arity) (jpk : Option Json) : Option (List Json) :=
  match jpk with
  | some (.array vs) =>
    if vs.length > maxPackages then none
    else if (arity = .none ∧ vs.length ≠ 0) ∨ (arity = .onePlus ∧ vs.length = 0) then none
    else some vs
  | _ => none

/-- `packages` is `NULL` or the names stored in the array. -/
structure PkgxRequest where
  effectReceipt : CharBuf (receiptHexlen + 1)
  correlationId : CharBuf (cidMax + 1)
  planSchema : ℤ
  packages : Option (List CStr)
  npackages : ℕ
  lockTimeout : ℤ

namespace PkgxRequest

/-- `memset(out, 0, sizeof *out)`. -/
def zero : PkgxRequest where
  effectReceipt := .zero _
  correlationId := .zero _
  planSchema := 0
  packages := none
  npackages := 0
  lockTimeout := 0

/-- `pkgx_request_free`: wipe the receipt, release the names. -/
def free (req : PkgxRequest) : PkgxRequest :=
  let req := { req with effectReceipt := .zero _ }
  match req.packages with
  | some _ => { req with packages := none, npackages := 0 }
  | none => req

end PkgxRequest

/-- A request that is not accepted: `*errcode` and what is left in `*out`. -/
structure Refusal where
  errcode : CStr
  out : PkgxRequest

def allowed : List CStr :=
  [.lit "effect_receipt", .lit "correlation_id", .lit "plan_schema", .lit "packages",
    .lit "lock_timeout"]

def isAllowedKey (k : CStr) : Bool := allowed.any (· = k)

/-- An integer member within bounds. -/
def integerIn (v : Option Json) (lo hi : ℤ) : Option ℤ :=
  match v with
  | some (.integer n) => if n < lo ∨ n > hi then none else some n
  | _ => none

/-- A check: go on, or `goto fail` with the given state. -/
def require {ε : Type} (ok : Bool) (fail : ε) : Except ε Unit :=
  if ok then .ok () else .error fail

/-- A value that must not be `NULL`. -/
def present {ε α : Type} (v : Option α) (fail : ε) : Except ε α :=
  match v with
  | some a => .ok a
  | none => .error fail

/-- The checks on the root value in order; the error is `*out` at the `goto fail`. -/
def parseRoot (arity : Arity) (root : Json) : Except PkgxRequest PkgxRequest := do
  let out := PkgxRequest.zero
  require (Json.isObject (some root) && depth root ≤ maxDepth) out
  require (root.members.all fun m => isAllowedKey m.1) out
  let rcpt ← present (strClean (root.objectGet (.lit "effect_receipt"))) out
  require (isLcHex rcpt receiptHexlen) out
  let out := { out with effectReceipt := .ofStr _ rcpt }
  let cid ← present (strClean (root.objectGet (.lit "correlation_id"))) out
  require (pkgxCidValid (some cid)) out
  let out := { out with correlationId := .ofStr _ cid }
  let schema ← present (integerIn (root.objectGet (.lit "plan_schema")) 1 1) out
  let out := { out with planSchema := schema }
  let t ← present (integerIn (root.objectGet (.lit "lock_timeout")) 0 lockTimeoutMax) out
  let out := { out with lockTimeout := t }
  let vs ← present (packagesArray arity (root.objectGet (.lit "packages"))) out
  let names := parseNames [] vs
  let out := { out with packages := some names.1, npackages := names.1.length }
  require names.2 out
  return out

/-- Zero is `.ok`, -1 is `.error`. -/
def pkgxParseRequest (J : Jansson) (verb : CStr) (body : List UInt8) :
    Except Refusal PkgxRequest :=
  match verbArity verb with
  | none => .error ⟨.lit "unknown_request", .zero⟩
  | some arity =>
    match J.loadb body with
    | none => .error ⟨.lit "bad_json", .zero⟩
    | some root =>
      match parseRoot arity root with
      | .ok out => .ok out
      | .error out => .error ⟨.lit "schema_invalid", out.free⟩

structure PkgxPreviewRequest where
  verb : CharBuf verbMax
  packages : Option (List CStr)
  npackages : ℕ

def PkgxPreviewRequest.zero : PkgxPreviewRequest := ⟨.zero _, none, 0⟩

/-- `pkgx_preview_request_free`. -/
def PkgxPreviewRequest.free (req : PkgxPreviewRequest) : PkgxPreviewRequest :=
  match req.packages with
  | some _ => { req with packages := none, npackages := 0 }
  | none => req

structure PreviewRefusal where
  errcode : CStr
  out : PkgxPreviewRequest

def previewAllowed : List CStr := [.lit "schema_version", .lit "verb", .lit "packages"]

def isPreviewKey (k : CStr) : Bool := previewAllowed.any (· = k)

/-- The error is `ec` and `*out` at the `goto fail`. -/
def parsePreviewRoot (root : Json) : Except PreviewRefusal PkgxPreviewRequest := do
  let ec := CStr.lit "schema_invalid"
  let out := PkgxPreviewRequest.zero
  require (Json.isObject (some root) && depth root ≤ maxDepth) ⟨ec, out⟩
  require (root.members.all fun m => isPreviewKey m.1) ⟨ec, out⟩
  let _ ← present (integerIn (root.objectGet (.lit "schema_version")) 1 1) ⟨ec, out⟩
  let verb ← present (strClean (root.objectGet (.lit "verb"))) ⟨ec, out⟩
  let arity ← present (verbArity verb) ⟨.lit "unknown_request", out⟩
  require (verb.length < verbMax) ⟨ec, out⟩
  let out := { out with verb := .ofStr _ verb }
  let vs ← present (packagesArray arity (root.objectGet (.lit "packages"))) ⟨ec, out⟩
  let names := parseNames [] vs
  let out := { out with packages := some names.1, npackages := names.1.length }
  require names.2 ⟨ec, out⟩
  return out

def pkgxParsePreviewRequest (J : Jansson) (body : List UInt8) :
    Except PreviewRefusal PkgxPreviewRequest :=
  match J.loadb body with
  | none => .error ⟨.lit "bad_json", .zero⟩
  | some root =>
    match parsePreviewRoot root with
    | .ok out => .ok out
    | .error r => .error { r with out := r.out.free }

/-- The names a parser can store. -/
structure TargetsOk (names : List CStr) : Prop where
  each : ∀ s ∈ names, nameOk s = true
  nodup : names.Nodup
  length_le : names.length ≤ maxPackages

theorem isLcHex_iff {s : CStr} {n : ℕ} :
    isLcHex s n = true ↔ s.length = n ∧ ∀ c ∈ s.bytes, isHexDigit c = true := by
  simp [isLcHex]

theorem hexDigit_range {c : UInt8} (h : isHexDigit c = true) :
    48 ≤ c.toNat ∧ c.toNat ≤ 57 ∨ 97 ≤ c.toNat ∧ c.toNat ≤ 102 := by
  simp only [isHexDigit, isDigit, Bool.or_eq_true, Bool.and_eq_true, decide_eq_true_eq] at h
  exact h

theorem pkgxCidValid_length {s : CStr} (h : pkgxCidValid (some s) = true) :
    s.length = 20 + 1 + 16 := by
  rw [pkgxCidValid] at h
  split at h
  · simp at h
  · rename_i hlen
    exact not_not.mp hlen

/-- The broker's correlation id: twenty digits, a dash, sixteen lowercase hex digits. -/
def CidGrammar (s : CStr) : Prop :=
  ∃ ds hs, s.bytes = ds ++ dash :: hs ∧ ds.length = 20 ∧ (∀ c ∈ ds, isDigit c = true) ∧
    hs.length = 16 ∧ ∀ c ∈ hs, isHexDigit c = true

theorem pkgxCidValid_iff {s : CStr} : pkgxCidValid (some s) = true ↔ CidGrammar s := by
  rw [pkgxCidValid, CStr.length]
  constructor
  · intro h
    split at h
    · simp at h
    · rename_i hlen
      simp only [Bool.and_eq_true, List.all_eq_true, decide_eq_true_eq] at h
      obtain ⟨⟨hds, hdash⟩, hhs⟩ := h
      obtain ⟨hlt, hget⟩ := List.getElem?_eq_some_iff.mp hdash
      refine ⟨s.bytes.take 20, s.bytes.drop 21, ?_, by simp; omega, hds, by simp; omega, hhs⟩
      rw [← hget, List.getElem_cons_drop]
      simp
  · rintro ⟨ds, hs, hbytes, hlen, hds, hlen', hhs⟩
    have htake : s.bytes.take 20 = ds := by simp [hbytes, ← hlen]
    have hdrop : s.bytes.drop 21 = hs := by
      rw [hbytes, List.drop_append, List.drop_eq_nil_of_le (by omega), hlen]
      rfl
    have hget : s.bytes[20]? = some dash := by simp [hbytes, ← hlen]
    have hall : s.bytes.length = 20 + 1 + 16 := by simp [hbytes, hlen, hlen']
    rw [if_neg (by omega), htake, hdrop, hget]
    simp only [Bool.and_eq_true, List.all_eq_true]
    exact ⟨⟨hds, by simp⟩, hhs⟩

theorem bind_eq_ok {ε α β : Type} {x : Except ε α} {f : α → Except ε β} {b : β} :
    (x >>= f) = .ok b ↔ ∃ a, x = .ok a ∧ f a = .ok b := by
  cases x <;> simp [bind, Except.bind]

theorem require_eq_ok {ε : Type} {ok : Bool} {fail : ε} {u : Unit} :
    require ok fail = .ok u ↔ ok = true := by
  cases ok <;> simp [require]

theorem present_eq_ok {ε α : Type} {v : Option α} {fail : ε} {a : α} :
    present v fail = .ok a ↔ v = some a := by
  cases v <;> simp [present]

theorem integerIn_eq_some_iff {v : Option Json} {lo hi n : ℤ} :
    integerIn v lo hi = some n ↔ v = some (.integer n) ∧ lo ≤ n ∧ n ≤ hi := by
  cases v with
  | none => simp [integerIn]
  | some v =>
    cases v with
    | integer k =>
      simp only [integerIn, Option.some.injEq, Json.integer.injEq]
      constructor
      · intro h
        split at h
        · simp at h
        · obtain rfl := Option.some.inj h
          exact ⟨rfl, by omega⟩
      · intro h
        obtain ⟨rfl, hlo, hhi⟩ := h
        rw [if_neg (by omega)]
    | _ => simp [integerIn]

/-- What an accepted effector request carries. -/
structure Accepted (req : PkgxRequest) (names : List CStr) : Prop where
  receipt : isLcHex req.effectReceipt.str receiptHexlen = true
  cid : pkgxCidValid (some req.correlationId.str) = true
  schema : req.planSchema = 1
  packages : req.packages = some names
  targets : TargetsOk names

end Pkgexec.Request
