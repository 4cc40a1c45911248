import Pkgexec.CStrings
import Mathlib.Algebra.Order.Ring.Nat
import Mathlib.Algebra.Order.Ring.Int

/-!
# Decimal numerals

The value of a string of digits, its canonical numeral, and the readers of the C library:
`strtoull` and `strtol` skip white space, take a sign and as many digits as there are, and
saturate on overflow.
-/

namespace DecimalNumerals
open CStrings

def digit (b : UInt8) : ℕ := b.toNat - 48

/-- The digits read from the left behind the value `acc`. -/
def valueFrom (acc : ℕ) : List UInt8 → ℕ
  | [] => acc
  | b :: s => valueFrom (acc * 10 + digit b) s

def value (s : List UInt8) : ℕ := valueFrom 0 s

/-- The numeral without leading zeros. -/
def numeral (n : ℕ) : List UInt8 := (Nat.toDigits 10 n).map fun c => .ofNat c.toNat

theorem valueFrom_append (acc : ℕ) (s t : List UInt8) :
    valueFrom acc (s ++ t) = valueFrom (valueFrom acc s) t := by
  induction s generalizing acc with
  | nil => rfl
  | cons b s ih => exact ih _

theorem value_snoc (s : List UInt8) (b : UInt8) : value (s ++ [b]) = value s * 10 + digit b :=
  valueFrom_append 0 s [b]

/-- Leading zeros do not count. -/
theorem value_zeros (k : ℕ) (s : List UInt8) : value (List.replicate k 0x30 ++ s) = value s := by
  induction k with
  | zero => rfl
  | succ k ih => exact ih

/-- The byte of a decimal digit. -/
theorem digit_digitChar {d : ℕ} (hd : d < 10) :
    digit (.ofNat d.digitChar.toNat) = d ∧ isDigit (.ofNat d.digitChar.toNat) = true := by
  have hall : ∀ d : Fin 10, digit (.ofNat d.val.digitChar.toNat) = d.val ∧
      isDigit (.ofNat d.val.digitChar.toNat) = true := by decide
  exact hall ⟨d, hd⟩

theorem numeral_of_lt {n : ℕ} (hn : n < 10) : numeral n = [.ofNat n.digitChar.toNat] := by
  rw [numeral, Nat.toDigits_of_lt_base hn]
  rfl

theorem numeral_of_le {n : ℕ} (hn : 10 ≤ n) :
    numeral n = numeral (n / 10) ++ [.ofNat (n % 10).digitChar.toNat] := by
  rw [numeral, Nat.toDigits_of_base_le (by decide) hn, List.map_append]
  rfl

theorem numeral_ne_nil (n : ℕ) : numeral n ≠ [] := by
  simp [numeral, Nat.toDigits_ne_nil]

/-- A numeral consists of digits and has the value it was made from. -/
theorem numeral_spec (n : ℕ) : (∀ b ∈ numeral n, isDigit b = true) ∧ value (numeral n) = n := by
  induction n using Nat.strong_induction_on with
  | _ n ih =>
    rcases Nat.lt_or_ge n 10 with hn | hn
    · obtain ⟨hvalue, hdigit⟩ := digit_digitChar hn
      rw [numeral_of_lt hn]
      refine ⟨by simpa using hdigit, ?_⟩
      rw [← List.nil_append [_], value_snoc, hvalue]
      exact Nat.zero_add n
    · obtain ⟨hdigits, hvalue⟩ := ih (n / 10) (by omega)
      obtain ⟨hlast, hdigit⟩ := digit_digitChar (Nat.mod_lt n (by decide : 0 < 10))
      rw [numeral_of_le hn, value_snoc, hvalue, hlast]
      refine ⟨?_, by omega⟩
      intro b hb
      rcases List.mem_append.mp hb with hb | hb
      · exact hdigits b hb
      · rwa [List.mem_singleton.mp hb]

/-- `isspace` in the C locale. -/
def isSpace (b : UInt8) : Bool := b = 0x20 || (0x09 ≤ b && b ≤ 0x0d)

/-- The sign, the value of the digits and what follows them; `none` without any digit. -/
def scan (s : List UInt8) : Option (Bool × ℕ × List UInt8) :=
  let signed := s.dropWhile isSpace
  let negative := signed.head? = some 0x2d
  let digits := if negative || signed.head? = some 0x2b then signed.tail else signed
  if (digits.takeWhile isDigit).isEmpty then none
  else some (negative, value (digits.takeWhile isDigit), digits.dropWhile isDigit)

/-- A result of `strtoull` in base ten: the value, whether `errno` is `ERANGE`, and what `end`
points to. -/
structure Strtoull where
  value : UInt64
  erange : Bool
  rest : List UInt8

def strtoull (s : List UInt8) : Strtoull :=
  match scan s with
  | none => ⟨0, false, s⟩
  | some (negative, v, rest) =>
    if 2 ^ 64 ≤ v then ⟨.ofNat (2 ^ 64 - 1), true, rest⟩
    else ⟨if negative then -.ofNat v else .ofNat v, false, rest⟩

/-- `strtol` in base ten with a `long` of 64 bits. -/
def strtol (s : List UInt8) : ℤ :=
  match scan s with
  | none => 0
  | some (true, v, _) => max (-(v : ℤ)) (-2 ^ 63)
  | some (false, v, _) => min (v : ℤ) (2 ^ 63 - 1)

theorem not_space_of_digit {b : UInt8} (h : isDigit b = true) : isSpace b = false := by
  simp only [isDigit, Bool.and_eq_true, decide_eq_true_eq] at h
  have hrange : 48 ≤ b.toNat ∧ b.toNat ≤ 57 := h
  have hne : b ≠ 0x20 := fun he => by simp [he] at hrange
  have hgt : ¬ b ≤ 0x0d := fun hle => by
    have hle' : b.toNat ≤ 13 := hle
    omega
  simp [isSpace, hne, hgt]

/-- Nothing but digits is read whole and without a sign. -/
theorem scan_digits {s : List UInt8} (hne : s ≠ []) (h : ∀ b ∈ s, isDigit b = true) :
    scan s = some (false, value s, []) := by
  cases s with
  | nil => exact absurd rfl hne
  | cons b s =>
    have hb := h b List.mem_cons_self
    have hspace : (b :: s).dropWhile isSpace = b :: s := by
      rw [List.dropWhile_cons_of_neg]
      simp [not_space_of_digit hb]
    have hminus : b ≠ 0x2d := fun he => by simp [he, isDigit] at hb
    have hplus : b ≠ 0x2b := fun he => by simp [he, isDigit] at hb
    have htake : (b :: s).takeWhile isDigit = b :: s := List.takeWhile_eq_self_iff.mpr h
    have hdrop : (b :: s).dropWhile isDigit = [] := List.dropWhile_eq_nil_iff.mpr h
    simp [scan, hspace, hminus, hplus, htake, hdrop]

theorem strtoull_digits {s : List UInt8} (hne : s ≠ []) (h : ∀ b ∈ s, isDigit b = true) :
    strtoull s = if 2 ^ 64 ≤ value s then ⟨.ofNat (2 ^ 64 - 1), true, []⟩
      else ⟨.ofNat (value s), false, []⟩ := by
  rw [strtoull, scan_digits hne h]
  rfl

/-- The numeral of a `long` is read back. -/
theorem strtol_numeral {n : ℕ} (hn : n < 2 ^ 63) : strtol (numeral n) = n := by
  obtain ⟨hdigits, hvalue⟩ := numeral_spec n
  have hle : (n : ℤ) ≤ 2 ^ 63 - 1 := by omega
  rw [strtol, scan_digits (numeral_ne_nil n) hdigits, hvalue]
  exact Int.min_eq_left hle

end DecimalNumerals
