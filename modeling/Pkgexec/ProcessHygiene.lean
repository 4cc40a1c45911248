import Pkgexec.CStrings
import Pkgexec.DecimalNumerals
import Pkgexec.DescriptorTables

/-!
# Process hygiene

`harden.c` and `pkgx_result_channel_open`: the uid that `pkexec` reports, the environment that
children get, and the descriptors they must not get. Every call is told whether the system lets
it succeed, so any sequence of failures is one of the records of answers.
-/

namespace Pkgexec.Hygiene
open CStrings FuelRuns DecimalNumerals DescriptorTables

/-- The value in an entry `name=value`, if it is one of `name`. -/
def entryValue (name entry : CStr) : Option CStr :=
  let key := name.bytes ++ [0x3d]
  if key.isPrefixOf entry.bytes then some (.ofMem (entry.bytes.drop key.length)) else none

def getenv (environ : List CStr) (name : CStr) : Option CStr :=
  environ.findSome? (entryValue name)

def envEntry (name value : CStr) : CStr := .ofMem (name.bytes ++ 0x3d :: value.bytes)

def clearenv (ok : Bool) : Run (List CStr) Bool := modifyGet fun environ =>
  if ok then (true, []) else (false, environ)

/-- `setenv(name, value, 1)`: the first entry of the name is replaced. -/
def setenv (ok : Bool) (name value : CStr) : Run (List CStr) Bool := modifyGet fun environ =>
  if !ok then (false, environ)
  else
    match environ.findIdx? fun e => (entryValue name e).isSome with
    | some i => (true, environ.set i (envEntry name value))
    | none => (true, environ ++ [envEntry name value])

/-- `*uid` from the value of `PKEXEC_UID`; `none` is the return value -1. -/
def pkgxReadPkexecUid (s : Option CStr) : Option UInt32 :=
  match s with
  | none => none
  | some s =>
    if s.bytes = [] then none
    else if !s.bytes.all isDigit then none
    else
      let r := strtoull s.bytes
      if r.erange || r.rest.length = s.length || r.rest ≠ [] then none
      else
        let u := r.value.toUInt32
        if u.toUInt64 ≠ r.value then none else some u

structure ScrubOs where
  clearenv : Bool
  setPath : Bool
  setLcAll : Bool
  setFrontend : Bool

/-- `true` is the return value 0. -/
def pkgxScrubEnv (os : ScrubOs) : Run (List CStr) Bool := do
  if !(← clearenv os.clearenv) then return false
  else if !(← setenv os.setPath (.lit "PATH") (.lit "/usr/sbin:/usr/bin:/sbin:/bin")) then
    return false
  else if !(← setenv os.setLcAll (.lit "LC_ALL") (.lit "C")) then return false
  else setenv os.setFrontend (.lit "DEBIAN_FRONTEND") (.lit "noninteractive")

/-- What a descriptor refers to: a file of the caller, or one that is opened here, the lock by
libapt. -/
inductive File where
  | inherited (id : ℕ)
  | devNull
  | fdDirectory
  | pipeRead
  | pipeWrite
  | lockFile
  deriving DecidableEq

abbrev Fds := Table File

structure CloexecOs where
  opendir : Bool
  readdir : Fds → List CStr
  setFd : ℕ → Bool

/-- One turn of the loop over the directory; `false` sets `rc` to -1. -/
def markEntry (os : CloexecOs) (lowest : ℤ) (dirfd : ℕ) (name : CStr) : Run Fds Bool :=
  if !(name.bytes.head?.any isDigit) then return true
  else
    let fd := (strtol name.bytes).bmod (2 ^ 32)
    if fd < lowest ∨ fd = dirfd then return true
    else do
      match ← getFd fd.toNat with
      | none => return true
      | some cloexec => if !cloexec then setFd (os.setFd fd.toNat) fd.toNat true else return true

def markEntries (os : CloexecOs) (lowest : ℤ) (dirfd : ℕ) : List CStr → Run Fds Bool
  | [] => return true
  | name :: names => do
    let ok ← markEntry os lowest dirfd name
    let rest ← markEntries os lowest dirfd names
    return ok && rest

/-- The directory stream is closed on `exec`; `true` is the return value 0. -/
def pkgxCloexecFrom (os : CloexecOs) (lowest : ℤ) : Run Fds Bool := do
  match ← openFile os.opendir .fdDirectory true with
  | none => return false
  | some dirfd => do
    let ok ← markEntries os lowest dirfd (os.readdir (← get))
    close dirfd
    return ok

structure NullOs where
  openNull : Bool
  dup2 : Bool
  setFd : Bool

/-- The end of `pkgx_null_stdin`. -/
def keepStdin (os : NullOs) : Run Fds Bool := do
  match ← getFd 0 with
  | none => return false
  | some cloexec => if cloexec then setFd os.setFd 0 false else return true

def pkgxNullStdin (os : NullOs) : Run Fds Bool := do
  match ← openFile os.openNull .devNull false with
  | none => return false
  | some fd =>
    if fd ≠ 0 then
      if !(← dup2 os.dup2 fd 0) then do
        close fd
        return false
      else do
        close fd
        keepStdin os
    else keepStdin os

structure ChannelOs where
  dup : Bool
  setFd : Bool
  dup2 : Bool

/-- The descriptor of the results; `none` is a negative return value. -/
def pkgxResultChannelOpen (os : ChannelOs) : Run Fds (Option ℕ) := do
  match ← dup os.dup 1 with
  | none => return none
  | some rfd =>
    if !(← setFd os.setFd rfd true) then do
      close rfd
      return none
    else if !(← dup2 os.dup2 2 1) then do
      close rfd
      return none
    else return some rfd

theorem toUInt64_toUInt32_ofNat {n : ℕ} (hn : n < 2 ^ 64) :
    (UInt64.ofNat n).toUInt32.toUInt64 = UInt64.ofNat n ↔ n < 2 ^ 32 := by
  rw [← UInt64.toNat_inj, UInt32.toNat_toUInt64, UInt64.toNat_toUInt32, UInt64.toNat_ofNat',
    Nat.mod_eq_of_lt hn]
  omega

/-- A number that does not fit 64 bits is caught by `errno`, one that does not fit a `uid_t` by
the comparison. -/
theorem pkgxReadPkexecUid_digits {s : CStr} (hne : s.bytes ≠ [])
    (hdigits : ∀ b ∈ s.bytes, isDigit b = true) :
    pkgxReadPkexecUid (some s) =
      if value s.bytes < 2 ^ 32 then some (.ofNat (value s.bytes)) else none := by
  have hall : s.bytes.all isDigit = true := List.all_eq_true.mpr hdigits
  have hlen : ¬ 0 = s.length := fun h => hne (List.length_eq_zero_iff.mp h.symm)
  simp only [pkgxReadPkexecUid, if_neg hne, hall, Bool.not_true, Bool.false_eq_true, if_false,
    strtoull_digits hne hdigits]
  by_cases hbig : 2 ^ 64 ≤ value s.bytes
  · have hunfit : ¬ value s.bytes < 2 ^ 32 := by omega
    simp only [if_pos hbig, if_neg hunfit, Bool.true_or, if_true]
  · have hlt : value s.bytes < 2 ^ 64 := Nat.lt_of_not_le hbig
    simp only [if_neg hbig, List.length_nil, hlen, decide_false, Bool.or_false, Bool.false_eq_true,
      if_false, ne_eq, not_true_eq_false, toUInt64_toUInt32_ofNat hlt]
    by_cases hfits : value s.bytes < 2 ^ 32
    · rw [if_neg (not_not.mpr hfits), if_pos hfits, UInt64.toUInt32_ofNat']
    · rw [if_pos hfits, if_neg hfits]

theorem pkgxReadPkexecUid_eq_some_iff {s : Option CStr} {uid : UInt32} :
    pkgxReadPkexecUid s = some uid ↔ ∃ t, s = some t ∧ t.bytes ≠ [] ∧
      (∀ b ∈ t.bytes, isDigit b = true) ∧ value t.bytes = uid.toNat := by
  have huid := uid.toNat_lt
  cases s with
  | none => simp [pkgxReadPkexecUid]
  | some s =>
    simp only [Option.some.injEq, exists_eq_left']
    by_cases hempty : s.bytes = []
    · simp [pkgxReadPkexecUid, hempty]
    by_cases hdigits : ∀ b ∈ s.bytes, isDigit b = true
    · rw [pkgxReadPkexecUid_digits hempty hdigits]
      refine Iff.trans ?_ (and_iff_right hempty).symm
      refine Iff.trans ?_ (and_iff_right hdigits).symm
      split
      · rename_i hfits
        rw [Option.some_inj, ← UInt32.toNat_inj, UInt32.toNat_ofNat', Nat.mod_eq_of_lt hfits]
      · exact iff_of_false (by simp) (by omega)
    · have hall : ¬ s.bytes.all isDigit = true := by rwa [List.all_eq_true]
      refine iff_of_false ?_ fun h => hdigits h.2.1
      simp [pkgxReadPkexecUid, hempty, hall]

/-- `PKEXEC_UID` is read exactly: a uid comes from a non-empty string of digits whose value is
below `2 ^ 32`, whatever its length, and it is that value; so two spellings of one number are one
uid, and the numeral of every uid is read back. -/
theorem pkexec_uid_exact :
    (∀ s uid, pkgxReadPkexecUid s = some uid ↔ ∃ t, s = some t ∧ t.bytes ≠ [] ∧
      (∀ b ∈ t.bytes, isDigit b = true) ∧ value t.bytes = uid.toNat) ∧
    ∀ (uid : UInt32) (zeros : ℕ),
      pkgxReadPkexecUid (some (.ofMem (List.replicate zeros 0x30 ++ numeral uid.toNat))) =
        some uid := by
  refine ⟨fun _ _ => pkgxReadPkexecUid_eq_some_iff, fun uid zeros => ?_⟩
  obtain ⟨hdigits, hvalue⟩ := numeral_spec uid.toNat
  have hall : ∀ b ∈ List.replicate zeros 0x30 ++ numeral uid.toNat, isDigit b = true := by
    intro b hb
    rcases List.mem_append.mp hb with hb | hb
    · rw [List.eq_of_mem_replicate hb]
      decide
    · exact hdigits b hb
  have hbytes : (CStr.ofMem (List.replicate zeros 0x30 ++ numeral uid.toNat)).bytes = _ :=
    CStr.ofMem_of_noNul fun h0 => absurd (hall 0 h0) (by decide)
  rw [pkgxReadPkexecUid_eq_some_iff]
  refine ⟨_, rfl, ?_, by rwa [hbytes], by rw [hbytes, value_zeros, hvalue]⟩
  rw [hbytes]
  simp [numeral_ne_nil]

end Pkgexec.Hygiene
