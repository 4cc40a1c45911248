import Mathlib.Data.List.TakeWhile
import Mathlib.Data.List.Basic

/-!
# NUL-terminated byte strings and fixed-size character buffers

A C string is the bytes before its terminator, so no value of type `CStr` can hold an
embedded NUL. Memory that is not yet known to be terminated is a plain byte list;
`CStr.ofMem` reads the string that starts at it.
-/

namespace CStrings

def isDigit (c : UInt8) : Bool := 0x30 ≤ c && c ≤ 0x39

def isLower (c : UInt8) : Bool := 0x61 ≤ c && c ≤ 0x7a

def dash : UInt8 := 0x2d

/-- The contents of a C string: the bytes before the terminator. -/
@[ext] structure CStr where
  bytes : List UInt8
  noNul : (0 : UInt8) ∉ bytes
  deriving DecidableEq

namespace CStr

/-- The string a `char *` denotes: the bytes up to the first NUL. -/
def ofMem (mem : List UInt8) : CStr where
  bytes := mem.takeWhile (· != 0)
  noNul h := by simpa using List.mem_takeWhile_imp h

/-- A string literal. -/
def lit (s : String) : CStr := ofMem s.toUTF8.data.toList

def empty : CStr := ⟨[], by simp⟩

instance : Inhabited CStr := ⟨empty⟩

/-- `strlen`. -/
def length (s : CStr) : ℕ := s.bytes.length

@[simp] theorem bytes_empty : empty.bytes = [] := rfl

theorem ofMem_of_noNul {mem : List UInt8} (h : (0 : UInt8) ∉ mem) :
    (ofMem mem).bytes = mem := by
  apply List.takeWhile_eq_self_iff.mpr
  intro x hx
  simpa using fun h0 : x = 0 => h (h0 ▸ hx)

@[simp] theorem ofMem_bytes (s : CStr) : ofMem s.bytes = s :=
  CStr.ext (ofMem_of_noNul s.noNul)

/-- Reading stops at the first terminator, whatever follows it. -/
theorem ofMem_append_nul {mem : List UInt8} (h : (0 : UInt8) ∉ mem) (rest : List UInt8) :
    (ofMem (mem ++ 0 :: rest)).bytes = mem := by
  have hmem : mem.takeWhile (· != 0) = mem := ofMem_of_noNul h
  simp only [ofMem, List.takeWhile_append, hmem, if_true]
  simp

@[simp] theorem ofMem_terminated (s : CStr) (rest : List UInt8) :
    ofMem (s.bytes ++ 0 :: rest) = s :=
  CStr.ext (ofMem_append_nul s.noNul rest)

@[simp] theorem ofMem_nul_cons (rest : List UInt8) : ofMem (0 :: rest) = empty := by
  apply CStr.ext
  simp [ofMem]

theorem eq_empty_iff {s : CStr} : s = empty ↔ s.bytes = [] :=
  ⟨fun h => h ▸ rfl, fun h => CStr.ext h⟩

end CStr

/-- `NULL` read as the empty string. -/
def orEmpty (s : Option CStr) : CStr := s.getD .empty

@[simp] theorem orEmpty_some (s : CStr) : orEmpty (some s) = s := rfl
@[simp] theorem orEmpty_none : orEmpty none = .empty := rfl

/-- A `char[n]` object: exactly `n` bytes, not necessarily terminated. -/
@[ext] structure CharBuf (n : ℕ) where
  mem : List UInt8
  size_eq : mem.length = n
  deriving DecidableEq

namespace CharBuf

variable {n : ℕ}

/-- The string the buffer currently holds. -/
def str (b : CharBuf n) : CStr := CStr.ofMem b.mem

/-- The all-zero buffer (`memset` or a static initialiser). -/
def zero (n : ℕ) : CharBuf n := ⟨List.replicate n 0, by simp⟩

/-- `memcpy` of `n` bytes from the string `s` and its terminator. -/
def ofStr (n : ℕ) (s : CStr) : CharBuf n where
  mem := (s.bytes ++ List.replicate n 0).take n
  size_eq := by simp

/-- `memcpy` of the string `s` and its terminator over the front of the buffer. -/
def overwrite (b : CharBuf n) (s : CStr) : CharBuf n where
  mem := (s.bytes ++ 0 :: b.mem.drop (s.length + 1)).take n
  size_eq := by
    have hsize := b.size_eq
    simp only [CStr.length, List.length_take, List.length_append, List.length_cons,
      List.length_drop]
    omega

/-- `buf[0] = '\0'`. -/
def clear (b : CharBuf n) : CharBuf n where
  mem := b.mem.set 0 0
  size_eq := by simpa using b.size_eq

/-- A string that leaves room for its terminator is read back unchanged. -/
theorem str_ofStr {s : CStr} (h : s.length < n) : (ofStr n s).str = s := by
  obtain ⟨k, hk⟩ : ∃ k, n - s.bytes.length = k + 1 :=
    ⟨n - s.bytes.length - 1, by have : s.bytes.length < n := h; omega⟩
  have hmem : (ofStr n s).mem = s.bytes ++ 0 :: List.replicate k 0 := by
    have hle : s.bytes.length ≤ n := Nat.le_of_lt h
    simp only [ofStr, List.take_append, List.take_of_length_le hle, List.take_replicate, hk]
    rw [Nat.min_eq_left (by omega), List.replicate_succ]
  rw [str, hmem, CStr.ofMem_terminated]

/-- A string that leaves room for its terminator is stored with it, and read back unchanged. -/
theorem mem_overwrite {s : CStr} (b : CharBuf n) (h : s.length < n) :
    (b.overwrite s).mem = s.bytes ++ 0 :: b.mem.drop (s.length + 1) := by
  refine List.take_of_length_le ?_
  have hsize := b.size_eq
  simp only [CStr.length, List.length_append, List.length_cons, List.length_drop] at h ⊢
  omega

theorem str_overwrite {s : CStr} (b : CharBuf n) (h : s.length < n) : (b.overwrite s).str = s := by
  rw [str, mem_overwrite b h, CStr.ofMem_terminated]

theorem str_clear (b : CharBuf (n + 1)) : b.clear.str = .empty := by
  obtain ⟨mem, hmem⟩ := b
  cases mem with
  | nil => simp at hmem
  | cons x xs => simp [clear, str]

@[simp] theorem str_zero : (zero n).str = .empty := by
  cases n with
  | zero => rfl
  | succ n => simp [zero, str, List.replicate_succ]

end CharBuf

end CStrings
