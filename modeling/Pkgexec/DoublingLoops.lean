import Mathlib.Algebra.Order.Ring.Nat
import Mathlib.Data.BitVec

/-!
# Doubling loops on machine words

The loop that doubles a capacity until it covers a need, on words of `w` bits, where a
multiplication may wrap around. If some number of doublings of the least capacity is a word
and covers the need, then the loop ends, within that number of turns, and none of its
multiplications wraps around.
-/

namespace DoublingLoops

variable {w base limit fuel j : ℕ} {need nc nc' : BitVec w}

/-- `while (nc < need) nc *= 2`; `none` while it has not ended. -/
def growLoop (need : BitVec w) : ℕ → BitVec w → Option (BitVec w)
  | 0, _ => none
  | fuel + 1, nc => if nc < need then growLoop need fuel (nc * 2) else some nc

/-- The values at the head of the loop. -/
inductive Visits (need : BitVec w) : BitVec w → BitVec w → Prop where
  | here {c : BitVec w} : Visits need c c
  | turn {c c' : BitVec w} (hlt : c < need) (h : Visits need (c * 2) c') : Visits need c c'

/-- No turn of the loop wraps around. -/
def NoOverflow (need nc : BitVec w) : Prop :=
  ∀ nc', Visits need nc nc' → nc' < need → (nc' * 2).toNat = nc'.toNat * 2

theorem NoOverflow.turn (h : NoOverflow need nc) (hlt : nc < need) :
    (nc * 2).toNat = nc.toNat * 2 ∧ NoOverflow need (nc * 2) :=
  ⟨h nc .here hlt, fun c h' => h c (.turn hlt h')⟩

theorem toNat_double (h : nc.toNat * 2 < 2 ^ w) : (nc * 2).toNat = nc.toNat * 2 := by
  have htwo : (2 : BitVec w).toNat = 2 % 2 ^ w := BitVec.toNat_ofNat 2 w
  rw [BitVec.toNat_mul, htwo, Nat.mul_mod_mod, Nat.mod_eq_of_lt h]

/-- The least capacity after `j` doublings. -/
def Doubled (base j : ℕ) (nc : BitVec w) : Prop := nc.toNat = base * 2 ^ j

/-- After `limit` doublings the least capacity is still a word, and it covers the need. -/
structure Covered (base limit : ℕ) (need : BitVec w) : Prop where
  word : base * 2 ^ limit < 2 ^ w
  covers : need.toNat ≤ base * 2 ^ limit

/-- One turn stays below the limit, so it is exact. -/
theorem Doubled.turn (h : Doubled base j nc) (hneed : Covered base limit need) (hlt : nc < need) :
    j < limit ∧ (nc * 2).toNat = nc.toNat * 2 ∧ Doubled base (j + 1) (nc * 2) := by
  rw [Doubled] at h
  have hbelow : base * 2 ^ j < base * 2 ^ limit := by
    rw [← h]
    exact (BitVec.lt_def.mp hlt).trans_le hneed.covers
  have hj : j < limit :=
    (Nat.pow_lt_pow_iff_right (by decide)).mp (Nat.lt_of_mul_lt_mul_left hbelow)
  have hnext : nc.toNat * 2 = base * 2 ^ (j + 1) := by
    rw [h, pow_succ, Nat.mul_assoc]
  have hword : nc.toNat * 2 < 2 ^ w := by
    rw [hnext]
    exact (Nat.mul_le_mul_left base (Nat.pow_le_pow_right (by decide) hj)).trans_lt hneed.word
  have hexact := toNat_double hword
  exact ⟨hj, hexact, hexact.trans hnext⟩

theorem Visits.doubled (hvisits : Visits need nc nc') (hneed : Covered base limit need)
    (h : Doubled base j nc) : ∃ k, Doubled base k nc' := by
  induction hvisits generalizing j with
  | here => exact ⟨j, h⟩
  | turn hlt _ ih => exact ih (h.turn hneed hlt).2.2

theorem Doubled.noOverflow (h : Doubled base j nc) (hneed : Covered base limit need) :
    NoOverflow need nc := by
  intro nc' hvisits hlt
  obtain ⟨k, hk⟩ := hvisits.doubled hneed h
  exact (hk.turn hneed hlt).2.1

/-- With fuel for the doublings up to the limit, the loop ends in a doubling that covers the
need. -/
theorem Doubled.growLoop_ends (h : Doubled base j nc) (hneed : Covered base limit need)
    (hj : j ≤ limit) (hfuel : limit < j + fuel) :
    ∃ nc' k, growLoop need fuel nc = some nc' ∧ need ≤ nc' ∧ k ≤ limit ∧ Doubled base k nc' := by
  induction fuel generalizing nc j with
  | zero => omega
  | succ fuel ih =>
    rw [growLoop]
    by_cases hlt : nc < need
    · obtain ⟨hj', -, h'⟩ := h.turn hneed hlt
      rw [if_pos hlt]
      exact ih h' hj' (by omega)
    · rw [if_neg hlt]
      exact ⟨nc, j, rfl, BitVec.not_lt.mp hlt, hj, h⟩

end DoublingLoops
