import Pkgexec.CStrings
import Pkgexec.CappedBuffers
import Mathlib.Data.List.Sort

/-!
# The schema-1 plan digest encoder

The byte grammar of `digest.c`: the verb and the records joined by `RS`, the fields of a
record joined by `US`, flags, components and options as sorted comma lists. Every encoder
validates its domain and fails closed, which is `none` here: the outputs are written only
where `finalize` succeeds. Allocation is taken to succeed; the size cap is not.
-/

namespace Pkgexec.PlanDigest
open CStrings

def us : UInt8 := 0x1f
def rs : UInt8 := 0x1e
def comma : UInt8 := 0x2c
def equals : UInt8 := 0x3d

/-- `PKGEXEC_DIGEST_MAX_CANON`. -/
def maxCanon : ℕ := 4 * 1024 * 1024

def txnVerbs : List CStr :=
  [.lit "apt.install", .lit "apt.remove", .lit "apt.purge", .lit "apt.upgrade",
    .lit "apt.dist_upgrade"]

def holdVerbs : List CStr := [.lit "apt.hold", .lit "apt.unhold"]

def actions : List CStr :=
  [.lit "install", .lit "upgrade", .lit "downgrade", .lit "remove", .lit "purge"]

def flagSet : List CStr := [.lit "hold", .lit "auto", .lit "essential", .lit "protected"]

def cfgStates : List CStr :=
  [.lit "half-installed", .lit "unpacked", .lit "half-configured", .lit "triggers-awaited",
    .lit "triggers-pending"]

def holdStates : List CStr := [.lit "hold", .lit "install"]

def updOptKeys : List CStr := [.lit "signed-by", .lit "architectures", .lit "trusted"]

def inSet (s : CStr) (set : List CStr) : Bool := set.any (· = s)

@[simp] theorem inSet_iff {s : CStr} {set : List CStr} : inSet s set = true ↔ s ∈ set := by
  simp [inSet]

/-- `len` is the length of the contents `p[0..len)`. -/
structure Buf where
  p : List UInt8 := []
  cap : ℕ := 0
  deriving DecidableEq

/-- The doubling loop `while (nc < need) nc *= 2`. -/
def growCap (need : ℕ) : ℕ → ℕ → ℕ
  | 0, nc => nc
  | fuel + 1, nc => if nc < need then growCap need fuel (nc * 2) else nc

def bufReserve (b : Buf) (extra : ℕ) : Option Buf :=
  if b.p.length > maxCanon ∨ extra > maxCanon - b.p.length then none
  else
    let need := b.p.length + extra
    if need ≤ b.cap then some b
    else some { b with cap := growCap need need (if b.cap ≠ 0 then b.cap else 64) }

def bufAdd (b : Buf) (d : List UInt8) : Option Buf :=
  (bufReserve b d.length).map fun b => { b with p := b.p ++ d }

def bufAddc (b : Buf) (c : UInt8) : Option Buf := bufAdd b [c]

/-- The buffer is a byte accumulator capped at `PKGEXEC_DIGEST_MAX_CANON`. -/
theorem bufAdd_implements : CappedBuffers.Implements maxCanon Buf.p bufAdd := by
  intro b d
  rw [bufAdd, bufReserve, CappedBuffers.append]
  by_cases h : b.p.length + d.length ≤ maxCanon
  · rw [if_neg (by omega), if_pos h]
    by_cases hcap : b.p.length + d.length ≤ b.cap <;> simp [hcap]
  · rw [if_pos (by omega), if_neg h]
    rfl

/-- The loop that appends the items with a separator before each but the first. -/
def addItems (sep : UInt8) : Bool → Buf → List CStr → Option Buf
  | _, b, [] => some b
  | first, b, s :: rest => do
    let b ← if first then some b else bufAddc b sep
    let b ← bufAdd b s.bytes
    addItems sep false b rest

/-- The lead byte of a multi-byte sequence: the number of continuation bytes, the least code
point of that length, and the bits it contributes. -/
def utf8Lead (c : UInt8) : Option (ℕ × ℕ × ℕ) :=
  if c &&& 0xE0 = 0xC0 then some (1, 0x80, (c &&& 0x1F).toNat)
  else if c &&& 0xF0 = 0xE0 then some (2, 0x800, (c &&& 0x0F).toNat)
  else if c &&& 0xF8 = 0xF0 then some (3, 0x10000, (c &&& 0x07).toNat)
  else none

/-- The inner loop over the continuation bytes. The terminator is not one of them. -/
def utf8Rest : ℕ → ℕ → List UInt8 → Option (ℕ × List UInt8)
  | 0, cp, s => some (cp, s)
  | n + 1, cp, c :: s =>
    if c &&& 0xC0 = 0x80 then utf8Rest n (cp <<< 6 ||| (c &&& 0x3F).toNat) s else none
  | _ + 1, _, [] => none

/-- The outer loop, one scalar value a turn; the length of the string bounds the turns. -/
def utf8Loop : ℕ → List UInt8 → Bool
  | _, [] => true
  | 0, _ :: _ => false
  | fuel + 1, c :: s =>
    if c < 0x80 then utf8Loop fuel s
    else
      match utf8Lead c with
      | none => false
      | some (n, min, bits) =>
        match utf8Rest n bits s with
        | none => false
        | some (cp, s) =>
          if cp < min ∨ cp > 0x10FFFF ∨ (cp ≥ 0xD800 ∧ cp ≤ 0xDFFF) then false
          else utf8Loop fuel s

def utf8Valid (s : CStr) : Bool := utf8Loop s.length s.bytes

/-- Neither a separator nor a sub-list delimiter, and valid UTF-8. -/
def fieldOk : Option CStr → Bool
  | none => true
  | some s => s.bytes.all (fun c => c ≠ us ∧ c ≠ rs ∧ c ≠ comma ∧ c ≠ equals) && utf8Valid s

/-- `strcmp` order on unsigned bytes; a string that ends first reads its terminator. -/
def cmpBytewise : List UInt8 → List UInt8 → ℤ
  | x :: xs, y :: ys => if x ≠ y then (x.toNat : ℤ) - y.toNat else cmpBytewise xs ys
  | x :: _, [] => x.toNat
  | [], y :: _ => -y.toNat
  | [], [] => 0

/-- Not after, in the order of `cmpBytewise`. -/
def BytewiseLe (a b : CStr) : Prop := cmpBytewise a.bytes b.bytes ≤ 0

instance : DecidableRel BytewiseLe := fun _ _ => inferInstanceAs (Decidable (_ ≤ _))

/-- `qsort` with `cmp_bytewise`. Strings that compare equal are equal, so the sorted
permutation is unique and stability does not matter. -/
def qsort (items : List CStr) : List CStr := items.insertionSort BytewiseLe

def hasAdjacentDup : List CStr → Bool
  | a :: b :: rest => a = b || hasAdjacentDup (b :: rest)
  | _ => false

/-- A sorted list joined by commas, and the terminator. -/
def joinItems (tmp : List CStr) : Except Bool CStr :=
  match (addItems comma true {} tmp).bind (bufAddc · 0) with
  | none => .error false
  | some b => .ok (.ofMem b.p)

/-- The error value is `*err`: whether the input violated the domain. -/
def joinSorted (items : List (Option CStr)) (dedup : Bool) (allowed : Option (List CStr)) :
    Except Bool CStr :=
  if items.all (fun s => fieldOk s && allowed.all (inSet (orEmpty s))) then
    let tmp := qsort (items.map orEmpty)
    if dedup && hasAdjacentDup tmp then .error true else joinItems tmp
  else .error true

/-- The validation loop over the pairs; `seen` holds the keys before the current one. -/
def kvValid (allowed seen : List CStr) : List (Option CStr × Option CStr) → Bool
  | [] => true
  | (k, v) :: rest =>
    fieldOk k && fieldOk v && inSet (orEmpty k) allowed && !inSet (orEmpty k) seen &&
      kvValid allowed (seen ++ [orEmpty k]) rest

def kvPair (k v : CStr) : CStr := .ofMem (k.bytes ++ equals :: v.bytes)

def joinSortedKv (opts : List (Option CStr × Option CStr)) (allowed : List CStr) :
    Except Bool CStr :=
  if kvValid allowed [] opts then
    joinItems (qsort (opts.map fun kv => kvPair (orEmpty kv.1) (orEmpty kv.2)))
  else .error true

def addField (b : Buf) (s : Option CStr) : Option Buf :=
  if fieldOk s then bufAdd b (orEmpty s).bytes else none

/-- One step of a record's chain of appends. -/
inductive Piece where
  | field (s : Option CStr)
  | raw (d : List UInt8)

def addPiece (b : Buf) : Piece → Option Buf
  | .field s => addField b s
  | .raw d => bufAdd b d

/-- The `||` chain: left to right, stopped at the first failure. -/
def addPieces : Buf → List Piece → Option Buf
  | b, [] => some b
  | b, q :: qs => (addPiece b q).bind fun b => addPieces b qs

/-- The EVP digest, failing or yielding its 32 bytes. -/
structure Evp where
  sha256 : List UInt8 → Option (CharBuf 32)

/-- The digests of finitely many known messages. -/
def Evp.table (entries : List (List UInt8 × CharBuf 32)) : Evp where
  sha256 data := (entries.find? fun e => e.1 = data).map Prod.snd

def hx : List UInt8 := (CStr.lit "0123456789abcdef").bytes

def pkgxSha256Hex (E : Evp) (data : List UInt8) : Option CStr :=
  (E.sha256 data).map fun md =>
    .ofMem (md.mem.flatMap fun (b : UInt8) =>
      [hx.getD (b >>> 4).toNat 0, hx.getD (b &&& 0xf).toNat 0])

/-- What a successful encoder writes: the hex digest and the canonical bytes. -/
structure Digest where
  hex : CStr
  canon : List UInt8

def finalize (E : Evp) (verb : CStr) (recs : List CStr) : Option Digest :=
  if fieldOk (some verb) then do
    let b ← addPieces {} [.raw [0x31], .raw [rs], .raw verb.bytes, .raw [rs]]
    let b ← addItems rs true b (qsort recs)
    let hex ← pkgxSha256Hex E b.p
    some ⟨hex, b.p⟩
  else none

structure TxnRecord where
  package : Option CStr
  architecture : Option CStr
  action : Option CStr
  fromVersion : Option CStr
  toVersion : Option CStr
  flags : List (Option CStr)

structure CfgRecord where
  package : Option CStr
  architecture : Option CStr
  currentVersion : Option CStr
  state : Option CStr

structure HoldRecord where
  package : Option CStr
  fromState : Option CStr
  toState : Option CStr

/-- The two option arrays run in step, so they are one list of pairs. -/
structure SrcRecord where
  uri : Option CStr
  suite : Option CStr
  components : List (Option CStr)
  opts : List (Option CStr × Option CStr)

def pkgTxnRecord (r : TxnRecord) : Option CStr :=
  if inSet (orEmpty r.action) actions then
    match joinSorted r.flags true (some flagSet) with
    | .error _ => none
    | .ok flags =>
      (addPieces {} [.field r.package, .raw [us], .field r.architecture, .raw [us],
        .field r.action, .raw [us], .field r.fromVersion, .raw [us], .field r.toVersion,
        .raw [us], .raw flags.bytes, .raw [0]]).map fun b => .ofMem b.p
  else none

def pkgxDigestPkgTxn (E : Evp) (verb : Option CStr) (recs : List TxnRecord) : Option Digest :=
  match verb with
  | none => none
  | some verb =>
    if inSet verb txnVerbs then do
      let built ← recs.mapM pkgTxnRecord
      finalize E verb built
    else none

/-- One turn of the loop in `pkgx_digest_configure`. -/
def cfgRecord (r : CfgRecord) : Option CStr :=
  if inSet (orEmpty r.state) cfgStates then
    (addPieces {} [.field r.package, .raw [us], .field r.architecture, .raw [us],
      .field r.currentVersion, .raw [us], .field r.state, .raw [0]]).map fun b => .ofMem b.p
  else none

def pkgxDigestConfigure (E : Evp) (recs : List CfgRecord) : Option Digest := do
  let built ← recs.mapM cfgRecord
  finalize E (.lit "apt.configure") built

/-- One turn of the loop in `pkgx_digest_hold`. -/
def holdRecord (r : HoldRecord) : Option CStr :=
  if inSet (orEmpty r.fromState) holdStates && inSet (orEmpty r.toState) holdStates then
    (addPieces {} [.field r.package, .raw [us], .field r.fromState, .raw [us],
      .field r.toState, .raw [0]]).map fun b => .ofMem b.p
  else none

def pkgxDigestHold (E : Evp) (verb : Option CStr) (recs : List HoldRecord) : Option Digest :=
  match verb with
  | none => none
  | some verb =>
    if inSet verb holdVerbs then do
      let built ← recs.mapM holdRecord
      finalize E verb built
    else none

/-- One turn of the loop in `pkgx_digest_update`. -/
def srcRecord (r : SrcRecord) : Option CStr :=
  match joinSorted r.components true none with
  | .error _ => none
  | .ok comps =>
    match joinSortedKv r.opts updOptKeys with
    | .error _ => none
    | .ok opts =>
      (addPieces {} [.field r.uri, .raw [us], .field r.suite, .raw [us], .raw comps.bytes,
        .raw [us], .raw opts.bytes, .raw [0]]).map fun b => .ofMem b.p

def pkgxDigestUpdate (E : Evp) (recs : List SrcRecord) : Option Digest := do
  let built ← recs.mapM srcRecord
  finalize E (.lit "apt.update") built

/-- `none` is the return value -1, with `*out` untouched. -/
def pkgxResource (targets : List (Option CStr)) : Option CStr :=
  match joinSorted targets true none with
  | .error _ => none
  | .ok j => some j

def pgpBegin : List UInt8 := (CStr.lit "-----BEGIN PGP PUBLIC KEY BLOCK-----").bytes
def pgpEnd : List UInt8 := (CStr.lit "-----END PGP PUBLIC KEY BLOCK-----").bytes

/-- The footer search: the last position from `i` on at which the footer starts. -/
def lastFooter (value : List UInt8) : ℕ → ℕ → Option ℕ → Option ℕ
  | 0, _, found => found
  | fuel + 1, i, found =>
    if i + pgpEnd.length ≤ value.length then
      lastFooter value fuel (i + 1)
        (if (value.drop i).take pgpEnd.length = pgpEnd then some i else found)
    else found

inductive SignedBy where
  | token (t : CStr)
  | original
  | hashFailure
  deriving DecidableEq

/-- The return values 1 (with the token written), 0 and -1. -/
def pkgxSignedByInlineToken (E : Evp) (value : List UInt8) : SignedBy :=
  if value.length < pgpBegin.length ∨ value.take pgpBegin.length ≠ pgpBegin then .original
  else
    match lastFooter value (value.length + 1) pgpBegin.length none with
    | none => .original
    | some epos =>
      if (value.drop (epos + pgpEnd.length)).all
          (fun c => c = 0x0a ∨ c = 0x0d ∨ c = 0x20 ∨ c = 0x09) then
        match pkgxSha256Hex E value with
        | none => .hashFailure
        | some hex => .token (.ofMem ((CStr.lit "inline-sha256:").bytes ++ hex.bytes))
      else .original

end Pkgexec.PlanDigest
