import Mathlib.Data.Nat.Basic
import Mathlib.Tactic.Ring

/-!
# Numbers in big-endian order

`toBytes k n` writes the last `k` base-256 digits of `n`, the most significant one first, and
`ofBytes` reads such a list back. They are inverse to each other below `256 ^ k`.
-/

namespace BigEndian

def ofBytes : List UInt8 → ℕ
  | [] => 0
  | b :: bs => b.toNat * 256 ^ bs.length + ofBytes bs

def toBytes : ℕ → ℕ → List UInt8
  | 0, _ => []
  | k + 1, n => .ofNat (n / 256 ^ k) :: toBytes k n

@[simp] theorem length_toBytes (k n : ℕ) : (toBytes k n).length = k := by
  induction k with
  | zero => rfl
  | succ k ih => rw [toBytes, List.length_cons, ih]

theorem ofBytes_lt (bs : List UInt8) : ofBytes bs < 256 ^ bs.length := by
  induction bs with
  | nil => decide
  | cons b bs ih =>
    have hb : b.toNat + 1 ≤ 256 := b.toNat_lt
    calc b.toNat * 256 ^ bs.length + ofBytes bs
        < b.toNat * 256 ^ bs.length + 256 ^ bs.length := Nat.add_lt_add_left ih _
      _ = (b.toNat + 1) * 256 ^ bs.length := by ring
      _ ≤ 256 * 256 ^ bs.length := Nat.mul_le_mul_right _ hb
      _ = 256 ^ (b :: bs).length := by rw [List.length_cons, Nat.pow_succ, Nat.mul_comm]

/-- The digits above the last `k` are dropped. -/
theorem ofBytes_toBytes_mod (k n : ℕ) : ofBytes (toBytes k n) = n % 256 ^ k := by
  induction k with
  | zero => rw [Nat.pow_zero, Nat.mod_one, toBytes, ofBytes]
  | succ k ih =>
    have hdigit : (UInt8.ofNat (n / 256 ^ k)).toNat = n / 256 ^ k % 256 := UInt8.toNat_ofNat'
    have hsucc : n % 256 ^ (k + 1) = n % 256 ^ k + 256 ^ k * (n / 256 ^ k % 256) :=
      Nat.mod_pow_succ
    rw [toBytes, ofBytes, length_toBytes, ih, hdigit, hsucc, Nat.add_comm, Nat.mul_comm]

theorem ofBytes_toBytes {k n : ℕ} (h : n < 256 ^ k) : ofBytes (toBytes k n) = n := by
  rw [ofBytes_toBytes_mod, Nat.mod_eq_of_lt h]

theorem ofBytes_inj {bs bs' : List UInt8} (hlen : bs.length = bs'.length)
    (h : ofBytes bs = ofBytes bs') : bs = bs' := by
  induction bs generalizing bs' with
  | nil => exact (List.length_eq_zero_iff.mp hlen.symm).symm
  | cons b bs ih =>
    cases bs' with
    | nil => simp at hlen
    | cons b' bs' =>
      have hlen' : bs.length = bs'.length := Nat.succ.inj hlen
      have hpos : 0 < 256 ^ bs'.length := Nat.pow_pos (by decide)
      have hlt := ofBytes_lt bs
      simp only [ofBytes, hlen'] at h hlt
      have hb : b.toNat = b'.toNat := by
        have hdiv := congrArg (fun n => n / 256 ^ bs'.length) h
        rwa [Nat.mul_comm, Nat.mul_add_div hpos, Nat.div_eq_of_lt hlt, Nat.mul_comm b'.toNat,
          Nat.mul_add_div hpos, Nat.div_eq_of_lt (ofBytes_lt bs')] at hdiv
      rw [hb, Nat.add_right_inj] at h
      rw [UInt8.toNat_inj.mp hb, ih hlen' h]

end BigEndian
