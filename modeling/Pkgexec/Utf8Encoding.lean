import Mathlib.Data.List.Basic
import Mathlib.Tactic.Linarith

/-!
# Well-formed UTF-8

A byte string is well formed when it is a concatenation of the shortest-form encodings of
Unicode scalar values. The lemmas below give the four encoding lengths in terms of the
values of the bytes, in both directions, so that a decoder can be compared with them, and
say where a well-formed string can be cut.
-/

namespace Utf8Encoding

/-- A concatenation of encoded scalar values. -/
def WellFormed (s : List UInt8) : Prop :=
  ∃ cs : List Char, s = cs.flatMap String.utf8EncodeChar

/-- A continuation byte `10xxxxxx`. -/
def Continuation (b : UInt8) : Prop := 0x80 ≤ b.toNat ∧ b.toNat < 0xC0

instance (b : UInt8) : Decidable (Continuation b) :=
  inferInstanceAs (Decidable (_ ∧ _))

theorem wellFormed_nil : WellFormed [] := ⟨[], rfl⟩

theorem WellFormed.encode_append (c : Char) {s : List UInt8} (h : WellFormed s) :
    WellFormed (String.utf8EncodeChar c ++ s) := by
  obtain ⟨cs, rfl⟩ := h
  exact ⟨c :: cs, by simp⟩

/-- The code points of the surrogate halves, which are no scalar values. -/
def Surrogate (cp : ℕ) : Prop := 0xD800 ≤ cp ∧ cp ≤ 0xDFFF

instance (cp : ℕ) : Decidable (Surrogate cp) :=
  inferInstanceAs (Decidable (_ ∧ _))

private theorem val_toNat_ofNat {cp : ℕ} (h : cp ≤ 0x10FFFF) (hs : ¬ Surrogate cp) :
    (Char.ofNat cp).val.toNat = cp := by
  have hvalid : cp.isValidChar := by
    simp only [Nat.isValidChar, Surrogate] at *
    omega
  rw [Char.ofNat, dif_pos hvalid]
  rfl

private theorem byte_ext {a : UInt8} {v : ℕ} (h : a.toNat = v % 256) : UInt8.ofNat v = a := by
  apply UInt8.toNat.inj
  simpa using h.symm

/-- The code point of a two-byte sequence. -/
def codePoint2 (a b : UInt8) : ℕ := a.toNat % 32 * 64 + b.toNat % 64

/-- The code point of a three-byte sequence. -/
def codePoint3 (a b c : UInt8) : ℕ :=
  (a.toNat % 16 * 64 + b.toNat % 64) * 64 + c.toNat % 64

/-- The code point of a four-byte sequence. -/
def codePoint4 (a b c d : UInt8) : ℕ :=
  ((a.toNat % 8 * 64 + b.toNat % 64) * 64 + c.toNat % 64) * 64 + d.toNat % 64

/-- The byte sequences of one encoded scalar value, by length. -/
inductive Encoded : List UInt8 → Prop where
  | one {a} (ha : a.toNat < 0x80) : Encoded [a]
  | two {a b} (ha : 0xC0 ≤ a.toNat ∧ a.toNat < 0xE0) (hb : Continuation b)
      (hmin : 0x80 ≤ codePoint2 a b) : Encoded [a, b]
  | three {a b c} (ha : 0xE0 ≤ a.toNat ∧ a.toNat < 0xF0) (hb : Continuation b)
      (hc : Continuation c) (hmin : 0x800 ≤ codePoint3 a b c)
      (hs : ¬ Surrogate (codePoint3 a b c)) : Encoded [a, b, c]
  | four {a b c d} (ha : 0xF0 ≤ a.toNat ∧ a.toNat < 0xF8) (hb : Continuation b)
      (hc : Continuation c) (hd : Continuation d) (hmin : 0x10000 ≤ codePoint4 a b c d)
      (hmax : codePoint4 a b c d ≤ 0x10FFFF) : Encoded [a, b, c, d]

/-- Every such sequence is the encoding of its code point. -/
theorem Encoded.exists_char {s : List UInt8} (h : Encoded s) :
    ∃ c : Char, s = String.utf8EncodeChar c := by
  -- the code point is generalised so that only its quotients and remainders are left
  cases h with
  | @one a ha =>
    have hs : ¬ Surrogate a.toNat := by rw [Surrogate]; omega
    refine ⟨Char.ofNat a.toNat, ?_⟩
    rw [String.utf8EncodeChar, val_toNat_ofNat (by omega) hs]
    simp [show a.toNat ≤ 127 by omega]
  | @two a b ha hb hmin =>
    refine ⟨Char.ofNat (codePoint2 a b), ?_⟩
    generalize hv : codePoint2 a b = v at hmin
    simp only [Continuation, codePoint2] at hb hv
    have hs : ¬ Surrogate v := by rw [Surrogate]; omega
    rw [String.utf8EncodeChar, val_toNat_ofNat (by omega) hs, if_neg (by omega),
      if_pos (by omega), byte_ext (a := a) (by omega), byte_ext (a := b) (by omega)]
  | @three a b c ha hb hc hmin hs =>
    refine ⟨Char.ofNat (codePoint3 a b c), ?_⟩
    generalize hv : codePoint3 a b c = v at hmin hs
    simp only [Continuation, codePoint3] at hb hc hv
    rw [String.utf8EncodeChar, val_toNat_ofNat (by omega) hs, if_neg (by omega),
      if_neg (by omega), if_pos (by omega), byte_ext (a := a) (by omega),
      byte_ext (a := b) (by omega), byte_ext (a := c) (by omega)]
  | @four a b c d ha hb hc hd hmin hmax =>
    refine ⟨Char.ofNat (codePoint4 a b c d), ?_⟩
    generalize hv : codePoint4 a b c d = v at hmin hmax
    simp only [Continuation, codePoint4] at hb hc hd hv
    have hs : ¬ Surrogate v := by rw [Surrogate]; omega
    rw [String.utf8EncodeChar, val_toNat_ofNat hmax hs, if_neg (by omega), if_neg (by omega),
      if_neg (by omega), byte_ext (a := a) (by omega), byte_ext (a := b) (by omega),
      byte_ext (a := c) (by omega), byte_ext (a := d) (by omega)]

/-- The encoding of a scalar value has one of the four shapes. -/
theorem encoded_utf8EncodeChar (c : Char) : Encoded (String.utf8EncodeChar c) := by
  have hv : c.val.toNat < 0xD800 ∨ 0xDFFF < c.val.toNat ∧ c.val.toNat < 0x110000 := c.valid
  rw [String.utf8EncodeChar]
  generalize c.val.toNat = v at hv
  have htoNat : ∀ x, x < 256 → (UInt8.ofNat x).toNat = x := by
    intro x hx
    simp [Nat.mod_eq_of_lt hx]
  have hlast := htoNat (v % 64 + 128) (by omega)
  have hmid := htoNat (v / 64 % 64 + 128) (by omega)
  have hnext := htoNat (v / 4096 % 64 + 128) (by omega)
  by_cases h1 : v ≤ 127
  · rw [if_pos h1]
    exact .one (by rw [htoNat v (by omega)]; omega)
  by_cases h2 : v ≤ 2047
  · have hlead := htoNat (v / 64 % 32 + 192) (by omega)
    rw [if_neg h1, if_pos h2]
    exact .two (by omega) (by rw [Continuation]; omega) (by rw [codePoint2]; omega)
  by_cases h3 : v ≤ 65535
  · have hlead := htoNat (v / 4096 % 16 + 224) (by omega)
    rw [if_neg h1, if_neg h2, if_pos h3]
    exact .three (by omega) (by rw [Continuation]; omega) (by rw [Continuation]; omega)
      (by rw [codePoint3]; omega) (by rw [Surrogate, codePoint3]; omega)
  · have hlead := htoNat (v / 262144 % 8 + 240) (by omega)
    rw [if_neg h1, if_neg h2, if_neg h3]
    exact .four (by omega) (by rw [Continuation]; omega) (by rw [Continuation]; omega)
      (by rw [Continuation]; omega) (by rw [codePoint4]; omega) (by rw [codePoint4]; omega)

/-- A well-formed string is empty or starts with one encoded scalar value. -/
theorem wellFormed_iff (s : List UInt8) :
    WellFormed s ↔ s = [] ∨ ∃ p t, s = p ++ t ∧ Encoded p ∧ WellFormed t := by
  constructor
  · rintro ⟨cs, rfl⟩
    cases cs with
    | nil => exact .inl rfl
    | cons c cs =>
      exact .inr ⟨String.utf8EncodeChar c, cs.flatMap String.utf8EncodeChar, by simp,
        encoded_utf8EncodeChar c, ⟨cs, rfl⟩⟩
  · rintro (rfl | ⟨p, t, rfl, hp, ht⟩)
    · exact wellFormed_nil
    · obtain ⟨c, rfl⟩ := hp.exists_char
      exact ht.encode_append c

theorem WellFormed.append_encoded {p s : List UInt8} (hp : Encoded p) (h : WellFormed s) :
    WellFormed (p ++ s) :=
  (wellFormed_iff _).mpr (.inr ⟨p, s, rfl, hp, h⟩)

/-- Plain ASCII is well formed. -/
theorem wellFormed_of_ascii {s : List UInt8} (h : ∀ b ∈ s, b.toNat < 0x80) : WellFormed s := by
  induction s with
  | nil => exact wellFormed_nil
  | cons b s ih =>
    exact WellFormed.append_encoded (p := [b]) (.one (h b (by simp)))
      (ih fun c hc => h c (by simp [hc]))

/-- The length of the sequence that a leading byte starts. -/
def width (b : UInt8) : ℕ :=
  if b.toNat < 0x80 then 1 else if b.toNat < 0xE0 then 2 else if b.toNat < 0xF0 then 3 else 4

/-- A leading byte and the continuation bytes that it asks for. -/
theorem Encoded.eq_cons {p : List UInt8} (h : Encoded p) :
    ∃ a t, p = a :: t ∧ p.length = width a ∧ ¬ Continuation a ∧ ∀ b ∈ t, Continuation b := by
  cases h with
  | @one a ha =>
    refine ⟨a, [], rfl, ?_, ?_, by simp⟩
    · rw [width, if_pos ha, List.length_singleton]
    · rw [Continuation]
      omega
  | @two a b ha hb =>
    refine ⟨a, [b], rfl, ?_, ?_, by simpa using hb⟩
    · rw [width, if_neg (by omega), if_pos ha.2]
      rfl
    · rw [Continuation]
      omega
  | @three a b c ha hb hc =>
    refine ⟨a, [b, c], rfl, ?_, ?_, by simpa using ⟨hb, hc⟩⟩
    · rw [width, if_neg (by omega), if_neg (by omega), if_pos ha.2]
      rfl
    · rw [Continuation]
      omega
  | @four a b c d ha hb hc hd =>
    refine ⟨a, [b, c, d], rfl, ?_, ?_, by simpa using ⟨hb, hc, hd⟩⟩
    · rw [width, if_neg (by omega), if_neg (by omega), if_neg (by omega)]
      rfl
    · rw [Continuation]
      omega

theorem Encoded.length_pos {p : List UInt8} (h : Encoded p) : 0 < p.length := by
  obtain ⟨a, t, rfl, -⟩ := h.eq_cons
  simp

/-- The encodings are prefix-free, so the first one of a string is determined. -/
theorem Encoded.append_inj {p q s t : List UInt8} (hp : Encoded p) (hq : Encoded q)
    (h : p ++ s = q ++ t) : p = q ∧ s = t := by
  refine List.append_inj h ?_
  obtain ⟨a, p, rfl, hlen, -⟩ := hp.eq_cons
  obtain ⟨b, q, rfl, hlen', -⟩ := hq.eq_cons
  obtain ⟨rfl, -⟩ := List.cons.inj h
  rw [hlen, hlen']

theorem wellFormed_encoded_append_iff {p s : List UInt8} (hp : Encoded p) :
    WellFormed (p ++ s) ↔ WellFormed s := by
  refine ⟨fun h => ?_, fun h => h.append_encoded hp⟩
  rcases (wellFormed_iff _).mp h with hnil | ⟨q, t, heq, hq, ht⟩
  · obtain ⟨rfl, rfl⟩ := List.append_eq_nil_iff.mp hnil
    exact wellFormed_nil
  · obtain ⟨-, rfl⟩ := hp.append_inj hq heq
    exact ht

/-- Less than one encoding is not well formed. -/
theorem Encoded.not_wellFormed_take {p : List UInt8} (hp : Encoded p) {k : ℕ} (hpos : 0 < k)
    (hlt : k < p.length) : ¬ WellFormed (p.take k) := by
  intro h
  rcases (wellFormed_iff _).mp h with hnil | ⟨q, t, heq, hq, -⟩
  · have hlen := congrArg List.length hnil
    rw [List.length_take, List.length_nil] at hlen
    omega
  · have hsplit : p ++ [] = q ++ (t ++ p.drop k) := by
      rw [← List.append_assoc, ← heq, List.take_append_drop, List.append_nil]
    obtain ⟨rfl, -⟩ := hp.append_inj hq hsplit
    have hlen := congrArg List.length heq
    rw [List.length_append, List.length_take] at hlen
    omega

/-- A cut leaves a well-formed string exactly when no continuation byte follows it. -/
theorem WellFormed.take_iff {s : List UInt8} (h : WellFormed s) (k : ℕ) :
    WellFormed (s.take k) ↔ ∀ b, s[k]? = some b → ¬ Continuation b := by
  obtain ⟨cs, rfl⟩ := h
  induction cs generalizing k with
  | nil => simp [wellFormed_nil]
  | cons c cs ih =>
    rw [List.flatMap_cons]
    have henc := encoded_utf8EncodeChar c
    obtain ⟨a, t, hp, -, ha, ht⟩ := henc.eq_cons
    generalize String.utf8EncodeChar c = p at *
    by_cases hzero : k = 0
    · subst hzero hp
      simpa [wellFormed_nil] using ha
    by_cases hlt : k < p.length
    · -- the cut falls inside the first encoding, before one of its continuation bytes
      rw [List.take_append_of_le_length hlt.le, List.getElem?_append_left hlt]
      refine iff_of_false (henc.not_wellFormed_take (by omega) hlt) fun hno => ?_
      obtain ⟨i, rfl⟩ : ∃ i, k = i + 1 := ⟨k - 1, by omega⟩
      subst hp
      have hi : i < t.length := by simpa using hlt
      exact hno t[i] (by simp [hi]) (ht _ (List.getElem_mem hi))
    · obtain ⟨i, rfl⟩ : ∃ i, k = p.length + i := ⟨k - p.length, by omega⟩
      rw [List.take_length_add_append, List.getElem?_append_right (Nat.le_add_right _ _),
        Nat.add_sub_cancel_left, wellFormed_encoded_append_iff henc]
      exact ih i

end Utf8Encoding
