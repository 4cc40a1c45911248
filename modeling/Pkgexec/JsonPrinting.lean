import Pkgexec.JsonValues
import Mathlib.Tactic.FinCases
import Mathlib.Data.Fintype.Basic

/-!
# Compact printing

A printed string ends where its closing quote is, so two texts that begin with printed strings
agree only if the strings do; and nothing printed contains a NUL.
-/

namespace JsonValues
open CStrings

namespace Json

def hexValue (b : UInt8) : UInt8 := if b < 0x3A then b - 48 else b - 55

/-- The byte that a printed byte stands for, and the text after it. -/
def unescape : List UInt8 → Option (UInt8 × List UInt8)
  | 0x5C :: 0x75 :: _ :: _ :: h :: l :: rest => some (hexValue h * 16 + hexValue l, rest)
  | 0x5C :: c :: rest => some (
      if c = 0x62 then 0x08 else if c = 0x66 then 0x0C else if c = 0x6E then 0x0A
      else if c = 0x72 then 0x0D else if c = 0x74 then 0x09 else c, rest)
  | c :: rest => some (c, rest)
  | [] => none

theorem escapeByte_of_plain {b : UInt8} (hquote : b ≠ 0x22) (hslash : b ≠ 0x5C)
    (hcontrol : ¬ b < 0x20) : escapeByte b = [b] := by
  have hne : ∀ c : UInt8, c < 0x20 → b ≠ c := fun c hc h => hcontrol (h ▸ hc)
  simp [escapeByte, hquote, hslash, hcontrol, hne 0x08 (by decide), hne 0x0C (by decide),
    hne 0x0A (by decide), hne 0x0D (by decide), hne 0x09 (by decide)]

/-- A byte is a control character, one of the two others that are escaped, or printed as itself. -/
theorem escapeByte_cases {p : UInt8 → Prop} (control : ∀ k : Fin 32, p (UInt8.ofNat k))
    (quote : p 0x22) (slash : p 0x5C)
    (plain : ∀ b, b ≠ 0x22 → b ≠ 0x5C → ¬ b < 0x20 → p b) (b : UInt8) : p b := by
  by_cases hcontrol : b < 0x20
  · have hlt : b.toNat < 32 := hcontrol
    have hk := control ⟨b.toNat, hlt⟩
    simpa using hk
  by_cases hquote : b = 0x22
  · rwa [hquote]
  by_cases hslash : b = 0x5C
  · rwa [hslash]
  · exact plain b hquote hslash hcontrol

theorem unescape_escapeByte (b : UInt8) (rest : List UInt8) :
    unescape (escapeByte b ++ rest) = some (b, rest) := by
  induction b using escapeByte_cases with
  | control k => fin_cases k <;> rfl
  | quote => rfl
  | slash => rfl
  | plain b hquote hslash hcontrol =>
    rw [escapeByte_of_plain hquote hslash hcontrol, List.singleton_append]
    unfold unescape
    split <;> simp_all

/-- A printed byte never looks like a closing quote. -/
theorem head_escapeByte (b : UInt8) : ∃ c rest, escapeByte b = c :: rest ∧ c ≠ 0x22 := by
  induction b using escapeByte_cases with
  | control k => fin_cases k <;> exact ⟨_, _, rfl, by decide⟩
  | quote => exact ⟨_, _, rfl, by decide⟩
  | slash => exact ⟨_, _, rfl, by decide⟩
  | plain b hquote hslash hcontrol =>
    exact ⟨b, [], escapeByte_of_plain hquote hslash hcontrol, hquote⟩

theorem escaped_append_inj {s t x y : List UInt8}
    (h : s.flatMap escapeByte ++ 0x22 :: x = t.flatMap escapeByte ++ 0x22 :: y) :
    s = t ∧ x = y := by
  induction s generalizing t with
  | nil =>
    cases t with
    | nil => exact ⟨rfl, by simpa using h⟩
    | cons c t =>
      obtain ⟨d, rest, hd, hne⟩ := head_escapeByte c
      simp only [List.flatMap_nil, List.nil_append, List.flatMap_cons, hd, List.cons_append] at h
      exact absurd (List.cons.inj h).1.symm hne
  | cons b s ih =>
    cases t with
    | nil =>
      obtain ⟨d, rest, hd, hne⟩ := head_escapeByte b
      simp only [List.flatMap_nil, List.nil_append, List.flatMap_cons, hd, List.cons_append] at h
      exact absurd (List.cons.inj h).1 hne
    | cons c t =>
      have hread := congrArg unescape h
      simp only [List.flatMap_cons, List.append_assoc, unescape_escapeByte, Option.some.injEq,
        Prod.mk.injEq] at hread
      obtain ⟨rfl, hrest⟩ := hread
      obtain ⟨rfl, rfl⟩ := ih hrest
      exact ⟨rfl, rfl⟩

/-- Printed strings are prefix free. -/
theorem quoted_append_inj {s t x y : List UInt8} (h : quoted s ++ x = quoted t ++ y) :
    s = t ∧ x = y := by
  simp only [quoted, List.cons_append, List.append_assoc, List.nil_append, List.cons.injEq,
    true_and] at h
  exact escaped_append_inj h

theorem noNul_escapeByte {b : UInt8} (h : b ≠ 0) : (0 : UInt8) ∉ escapeByte b := by
  induction b using escapeByte_cases with
  | control k =>
    revert k
    decide
  | quote => decide
  | slash => decide
  | plain b hquote hslash hcontrol =>
    rw [escapeByte_of_plain hquote hslash hcontrol]
    simpa using h.symm

theorem noNul_quoted {s : List UInt8} (h : (0 : UInt8) ∉ s) : (0 : UInt8) ∉ quoted s := by
  simp only [quoted, List.cons_append, List.mem_cons, List.mem_append, List.mem_flatMap,
    List.not_mem_nil, or_false, not_or, not_exists, not_and]
  refine ⟨by decide, fun b hb => noNul_escapeByte fun h0 => h (h0 ▸ hb), by decide⟩

theorem noNul_utf8EncodeChar {c : Char} (h : c.isDigit = true) :
    (0 : UInt8) ∉ String.utf8EncodeChar c := by
  have hc : 48 ≤ c.val.toNat ∧ c.val.toNat ≤ 57 := by
    simp only [Char.isDigit, Bool.and_eq_true, decide_eq_true_eq] at h
    exact h
  rw [String.utf8EncodeChar, if_pos (by omega), List.mem_singleton, ← UInt8.toNat_inj,
    UInt8.toNat_ofNat']
  show ¬ 0 = _
  omega

theorem repr_bytes (n : ℕ) : (Nat.repr n).toUTF8.data.toList =
    (Nat.toDigits 10 n).flatMap String.utf8EncodeChar := by
  simp [Nat.repr_eq_ofList_toDigits, String.toUTF8, List.utf8Encode]

theorem noNul_repr (n : ℕ) : (0 : UInt8) ∉ (Nat.repr n).toUTF8.data.toList := by
  rw [repr_bytes, List.mem_flatMap]
  rintro ⟨c, hc, h0⟩
  exact noNul_utf8EncodeChar (Nat.isDigit_of_mem_toDigits (by decide) (by decide) hc) h0

theorem noNul_integer (n : ℤ) : (0 : UInt8) ∉ (Json.integer n).compact := by
  show (0 : UInt8) ∉ (toString n).toUTF8.data.toList
  cases n with
  | ofNat n => exact noNul_repr n
  | negSucc n =>
    have hrepr : toString (Int.negSucc n) = "-" ++ Nat.repr (n + 1) := rfl
    have hdash : (0 : UInt8) ∉ "-".toUTF8.data.toList := by decide
    simp only [hrepr, String.toUTF8, String.toByteArray_append, ByteArray.data_append,
      Array.toList_append, List.mem_append, not_or]
    exact ⟨hdash, noNul_repr _⟩

theorem compact_string (s : List UInt8) : (Json.string s).compact = quoted s := by
  rw [compact]

theorem compact_object (ms : List (CStr × Json)) :
    (Json.object ms).compact = 0x7B :: compactMembers ms ++ [0x7D] := by
  rw [compact]

theorem noNul_member {k : CStr} {v : Json} (h : (0 : UInt8) ∉ v.compact) :
    (0 : UInt8) ∉ quoted k.bytes ++ 0x3A :: v.compact := by
  simp only [List.mem_append, List.mem_cons, not_or]
  exact ⟨noNul_quoted k.noNul, by decide, h⟩

theorem noNul_compactMembers {ms : List (CStr × Json)}
    (h : ∀ m ∈ ms, (0 : UInt8) ∉ m.2.compact) : (0 : UInt8) ∉ compactMembers ms := by
  induction ms with
  | nil => simp [compactMembers]
  | cons m ms ih =>
    obtain ⟨k, v⟩ := m
    have hm := noNul_member (k := k) (h (k, v) (by simp))
    cases ms with
    | nil => simpa [compactMembers] using hm
    | cons m' ms =>
      have hrest := ih fun x hx => h x (List.mem_cons_of_mem _ hx)
      rw [compactMembers, ← List.cons_append, ← List.append_assoc, List.mem_append, List.mem_cons]
      · rintro (h0 | h0 | h0)
        · exact hm h0
        · cases h0
        · exact hrest h0
      · simp

theorem noNul_object {ms : List (CStr × Json)} (h : ∀ m ∈ ms, (0 : UInt8) ∉ m.2.compact) :
    (0 : UInt8) ∉ (Json.object ms).compact := by
  rw [compact_object]
  simp only [List.cons_append, List.mem_cons, List.mem_append, List.not_mem_nil, or_false, not_or]
  exact ⟨by decide, noNul_compactMembers h, by decide⟩

end Json

end JsonValues
