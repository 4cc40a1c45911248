import Pkgexec.PlanDigest
import Pkgexec.Utf8Encoding
import Mathlib.Data.Nat.Bitwise

/-!
# The field alphabet

`utf8_valid` accepts exactly the well-formed strings, and `field_ok` in addition keeps the
separators and the sub-list delimiters out.
-/

namespace Pkgexec.PlanDigest
open CStrings Utf8Encoding

private theorem utf8Lead_table : ∀ n < 256, utf8Lead (.ofNat n) =
    if 0xC0 ≤ n ∧ n < 0xE0 then some (1, 0x80, n % 32)
    else if 0xE0 ≤ n ∧ n < 0xF0 then some (2, 0x800, n % 16)
    else if 0xF0 ≤ n ∧ n < 0xF8 then some (3, 0x10000, n % 8)
    else none := by
  set_option maxRecDepth 4000 in decide

theorem utf8Lead_eq (c : UInt8) : utf8Lead c =
    if 0xC0 ≤ c.toNat ∧ c.toNat < 0xE0 then some (1, 0x80, c.toNat % 32)
    else if 0xE0 ≤ c.toNat ∧ c.toNat < 0xF0 then some (2, 0x800, c.toNat % 16)
    else if 0xF0 ≤ c.toNat ∧ c.toNat < 0xF8 then some (3, 0x10000, c.toNat % 8)
    else none := by
  have h := utf8Lead_table c.toNat c.toNat_lt
  rwa [UInt8.ofNat_toNat] at h

private theorem continuation_table : ∀ n < 256,
    ((UInt8.ofNat n &&& 0xC0 = 0x80 ↔ Continuation (.ofNat n)) ∧
      (UInt8.ofNat n &&& 0x3F).toNat = (UInt8.ofNat n).toNat % 64) := by
  set_option maxRecDepth 4000 in decide

theorem continuation_iff (c : UInt8) : c &&& 0xC0 = 0x80 ↔ Continuation c := by
  have h := (continuation_table c.toNat c.toNat_lt).1
  rwa [UInt8.ofNat_toNat] at h

private theorem shift_or (cp : ℕ) (c : UInt8) :
    cp <<< 6 ||| (c &&& 0x3F).toNat = cp * 64 + c.toNat % 64 := by
  have h := (continuation_table c.toNat c.toNat_lt).2
  rw [UInt8.ofNat_toNat] at h
  rw [h, ← Nat.shiftLeft_add_eq_or_of_lt (by omega), Nat.shiftLeft_eq]

@[simp] theorem utf8Rest_zero (cp : ℕ) (s : List UInt8) : utf8Rest 0 cp s = some (cp, s) := rfl

theorem utf8Rest_cons (n cp : ℕ) (c : UInt8) (s : List UInt8) :
    utf8Rest (n + 1) cp (c :: s) =
      if Continuation c then utf8Rest n (cp * 64 + c.toNat % 64) s else none := by
  simp only [utf8Rest, shift_or, continuation_iff]

theorem utf8Rest_eq_some_iff {n cp cp' : ℕ} {s t : List UInt8} :
    utf8Rest n cp s = some (cp', t) ↔
      ∃ bs, bs.length = n ∧ s = bs ++ t ∧ (∀ b ∈ bs, Continuation b) ∧
        cp' = bs.foldl (fun acc b => acc * 64 + b.toNat % 64) cp := by
  constructor
  · intro h
    induction n generalizing cp s with
    | zero =>
      obtain ⟨rfl, rfl⟩ : cp = cp' ∧ s = t := by simpa using h
      exact ⟨[], by simp⟩
    | succ n ih =>
      cases s with
      | nil => simp [utf8Rest] at h
      | cons c s =>
        rw [utf8Rest_cons] at h
        by_cases hc : Continuation c
        · rw [if_pos hc] at h
          obtain ⟨bs, hlen, rfl, hbs, hcp⟩ := ih h
          exact ⟨c :: bs, by simp [hlen], by simp, by simpa [hc] using hbs, by simpa using hcp⟩
        · simp [hc] at h
  · rintro ⟨bs, rfl, rfl, hbs, rfl⟩
    induction bs generalizing cp with
    | nil => rfl
    | cons b bs ih =>
      obtain ⟨hb, hbs⟩ := List.forall_mem_cons.mp hbs
      rw [List.cons_append, List.length_cons, utf8Rest_cons, if_pos hb, List.foldl_cons]
      exact ih hbs

theorem utf8Loop_ascii {fuel : ℕ} {c : UInt8} {s : List UInt8} (hc : c.toNat < 0x80) :
    utf8Loop (fuel + 1) (c :: s) = utf8Loop fuel s := by
  have h : c < 0x80 := UInt8.lt_iff_toNat_lt.mpr (by simpa using hc)
  simp [utf8Loop, h]

/-- A turn of the loop on a multi-byte sequence, once its lead byte is known. -/
theorem utf8Loop_turn {fuel n min bits : ℕ} {c : UInt8} {s : List UInt8} (hc : 0x80 ≤ c.toNat)
    (hlead : utf8Lead c = some (n, min, bits)) :
    utf8Loop (fuel + 1) (c :: s) = true ↔ ∃ cp t, utf8Rest n bits s = some (cp, t) ∧
      min ≤ cp ∧ cp ≤ 0x10FFFF ∧ ¬ Surrogate cp ∧ utf8Loop fuel t = true := by
  have h : ¬ c < 0x80 := fun h => by
    have := UInt8.lt_iff_toNat_lt.mp h
    simp at this
    omega
  simp only [utf8Loop, if_neg h, hlead]
  cases utf8Rest n bits s with
  | none => simp
  | some r =>
    obtain ⟨cp, t⟩ := r
    simp only [Option.some.injEq, Prod.mk.injEq]
    constructor
    · intro hif
      by_cases hcp : cp < min ∨ cp > 0x10FFFF ∨ (cp ≥ 0xD800 ∧ cp ≤ 0xDFFF)
      · simp [if_pos hcp] at hif
      · rw [if_neg hcp] at hif
        exact ⟨cp, t, ⟨rfl, rfl⟩, by omega, by omega, by rw [Surrogate]; omega, hif⟩
    · rintro ⟨_, _, ⟨rfl, rfl⟩, hmin, hmax, hs, ht⟩
      rw [Surrogate] at hs
      rw [if_neg (by omega)]
      exact ht

/-- The same turn by the continuation bytes it consumes. -/
theorem utf8Loop_lead {fuel n min bits : ℕ} {c : UInt8} {s : List UInt8} (hc : 0x80 ≤ c.toNat)
    (hlead : utf8Lead c = some (n, min, bits)) :
    utf8Loop (fuel + 1) (c :: s) = true ↔
      ∃ bs cp t, bs.length = n ∧ s = bs ++ t ∧ (∀ b ∈ bs, Continuation b) ∧
        cp = bs.foldl (fun acc b => acc * 64 + b.toNat % 64) bits ∧
        min ≤ cp ∧ cp ≤ 0x10FFFF ∧ ¬ Surrogate cp ∧ utf8Loop fuel t = true := by
  rw [utf8Loop_turn hc hlead]
  constructor
  · rintro ⟨cp, t, hrest, hcp⟩
    obtain ⟨bs, hlen, hs, hbs, heq⟩ := utf8Rest_eq_some_iff.mp hrest
    exact ⟨bs, cp, t, hlen, hs, hbs, heq, hcp⟩
  · rintro ⟨bs, cp, t, hlen, hs, hbs, heq, hcp⟩
    exact ⟨cp, t, utf8Rest_eq_some_iff.mpr ⟨bs, hlen, hs, hbs, heq⟩, hcp⟩

/-- A turn of the loop consumes exactly one encoded scalar value. -/
theorem utf8Loop_cons (fuel : ℕ) (c : UInt8) (s : List UInt8) :
    utf8Loop (fuel + 1) (c :: s) = true ↔
      ∃ p t, c :: s = p ++ t ∧ Encoded p ∧ utf8Loop fuel t = true := by
  constructor
  · intro h
    by_cases hc : c.toNat < 0x80
    · exact ⟨[c], s, rfl, .one hc, by rwa [utf8Loop_ascii hc] at h⟩
    have hlead := utf8Lead_eq c
    split at hlead
    · obtain ⟨bs, _, t, hlen, rfl, hbs, rfl, hmin, hmax, hs, ht⟩ :=
        (utf8Loop_lead (by omega) hlead).mp h
      obtain ⟨b₁, rfl⟩ := List.length_eq_one_iff.mp hlen
      exact ⟨[c, b₁], t, rfl, .two ‹_› (hbs b₁ (by simp)) hmin, ht⟩
    · split at hlead
      · obtain ⟨bs, _, t, hlen, rfl, hbs, rfl, hmin, hmax, hs, ht⟩ :=
          (utf8Loop_lead (by omega) hlead).mp h
        obtain ⟨b₁, b₂, rfl⟩ := List.length_eq_two.mp hlen
        exact ⟨[c, b₁, b₂], t, rfl,
          .three ‹_› (hbs b₁ (by simp)) (hbs b₂ (by simp)) hmin hs, ht⟩
      · split at hlead
        · obtain ⟨bs, _, t, hlen, rfl, hbs, rfl, hmin, hmax, hs, ht⟩ :=
            (utf8Loop_lead (by omega) hlead).mp h
          obtain ⟨b₁, b₂, b₃, rfl⟩ := List.length_eq_three.mp hlen
          exact ⟨[c, b₁, b₂, b₃], t, rfl,
            .four ‹_› (hbs b₁ (by simp)) (hbs b₂ (by simp)) (hbs b₃ (by simp)) hmin hmax, ht⟩
        · have hlt : ¬ c < 0x80 := fun hlt => hc (by simpa using UInt8.lt_iff_toNat_lt.mp hlt)
          simp [utf8Loop, hlt, hlead] at h
  · rintro ⟨p, t, hp, henc, ht⟩
    have hlead := utf8Lead_eq c
    cases henc with
    | one ha =>
      obtain ⟨rfl, rfl⟩ := List.cons.inj hp
      rwa [utf8Loop_ascii ha]
    | @two a b ha hb hmin =>
      obtain ⟨rfl, rfl⟩ := List.cons.inj hp
      rw [if_pos ha] at hlead
      have hmax : codePoint2 c b ≤ 0x7FF := by rw [codePoint2]; omega
      exact (utf8Loop_lead (by omega) hlead).mpr ⟨[b], codePoint2 c b, t, rfl, rfl,
        by simp [hb], rfl, hmin, by omega, by rw [Surrogate]; omega, ht⟩
    | @three a b d ha hb hd hmin hs =>
      obtain ⟨rfl, rfl⟩ := List.cons.inj hp
      rw [if_neg (by omega), if_pos ha] at hlead
      have hmax : codePoint3 c b d ≤ 0xFFFF := by rw [codePoint3]; omega
      exact (utf8Loop_lead (by omega) hlead).mpr ⟨[b, d], codePoint3 c b d, t, rfl, rfl,
        by simp [hb, hd], rfl, hmin, by omega, hs, ht⟩
    | @four a b d e ha hb hd he hmin hmax =>
      obtain ⟨rfl, rfl⟩ := List.cons.inj hp
      rw [if_neg (by omega), if_neg (by omega), if_pos ha] at hlead
      exact (utf8Loop_lead (by omega) hlead).mpr ⟨[b, d, e], codePoint4 c b d e, t, rfl, rfl,
        by simp [hb, hd, he], rfl, hmin, hmax, by rw [Surrogate]; omega, ht⟩

theorem utf8Loop_iff {fuel : ℕ} {s : List UInt8} (h : s.length ≤ fuel) :
    utf8Loop fuel s = true ↔ WellFormed s := by
  induction fuel generalizing s with
  | zero =>
    obtain rfl : s = [] := List.eq_nil_of_length_eq_zero (by omega)
    simp [utf8Loop, wellFormed_nil]
  | succ fuel ih =>
    cases s with
    | nil => simp [utf8Loop, wellFormed_nil]
    | cons c s =>
      rw [utf8Loop_cons, wellFormed_iff]
      have hstep : ∀ p t, c :: s = p ++ t → Encoded p →
          (utf8Loop fuel t = true ↔ WellFormed t) := by
        intro p t hp henc
        have hpos := henc.length_pos
        have hlen := congrArg List.length hp
        simp only [List.length_cons, List.length_append] at hlen h
        exact ih (by omega)
      constructor
      · rintro ⟨p, t, hp, henc, ht⟩
        exact .inr ⟨p, t, hp, henc, (hstep p t hp henc).mp ht⟩
      · rintro (hnil | ⟨p, t, hp, henc, ht⟩)
        · simp at hnil
        · exact ⟨p, t, hp, henc, (hstep p t hp henc).mpr ht⟩

instance (s : List UInt8) : Decidable (WellFormed s) :=
  decidable_of_iff _ (utf8Loop_iff (Nat.le_refl s.length))

/-- `utf8_valid` accepts exactly the well-formed strings. -/
theorem utf8Valid_iff (s : CStr) : utf8Valid s = true ↔ WellFormed s.bytes :=
  utf8Loop_iff (Nat.le_refl _)

/-- The separators and the sub-list delimiters. -/
def reserved : List UInt8 := [us, rs, comma, equals]

theorem fieldOk_iff (s : Option CStr) :
    fieldOk s = true ↔ (∀ c ∈ reserved, c ∉ (orEmpty s).bytes) ∧ WellFormed (orEmpty s).bytes := by
  cases s with
  | none => simp [fieldOk, reserved, wellFormed_nil]
  | some s =>
    simp only [fieldOk, Bool.and_eq_true, utf8Valid_iff, orEmpty_some, reserved, List.all_eq_true,
      decide_eq_true_eq]
    refine and_congr_left fun _ => ⟨?_, ?_⟩
    · intro h c hc hmem
      have hne := h c hmem
      simp only [List.mem_cons, List.not_mem_nil, or_false] at hc
      tauto
    · intro h c hmem
      refine ⟨?_, ?_, ?_, ?_⟩ <;> rintro rfl <;> exact h _ (by simp) hmem

end Pkgexec.PlanDigest
