import Pkgexec.JsonPrinting
import Mathlib.Algebra.BigOperators.Group.List.Basic

/-!
# Lengths of compact text

The length of a printed value is a sum over its parts. A printed string is at least as long as
its quotes ask for, and exactly as long where no byte is escaped; the order of the members of
an object does not matter.
-/

namespace JsonValues.Json
open CStrings

theorem length_escapeByte_pos (b : UInt8) : 1 ≤ (escapeByte b).length := by
  obtain ⟨c, rest, hc, -⟩ := head_escapeByte b
  simp [hc]

theorem length_quoted (s : List UInt8) :
    (quoted s).length = (s.map fun b => (escapeByte b).length).sum + 2 := by
  simp [quoted, List.length_flatMap]

theorem length_le_length_quoted (s : List UInt8) : s.length + 2 ≤ (quoted s).length := by
  rw [length_quoted]
  induction s with
  | nil => simp
  | cons b s ih =>
    have hb := length_escapeByte_pos b
    simp only [List.map_cons, List.sum_cons, List.length_cons]
    omega

/-- A byte that is printed as itself. -/
structure Plain (b : UInt8) : Prop where
  quote : b ≠ 0x22
  slash : b ≠ 0x5C
  control : ¬ b < 0x20

instance (b : UInt8) : Decidable (Plain b) :=
  decidable_of_iff (b ≠ 0x22 ∧ b ≠ 0x5C ∧ ¬ b < 0x20)
    ⟨fun h => ⟨h.1, h.2.1, h.2.2⟩, fun h => ⟨h.quote, h.slash, h.control⟩⟩

theorem length_quoted_of_plain {s : List UInt8} (h : ∀ b ∈ s, Plain b) :
    (quoted s).length = s.length + 2 := by
  rw [length_quoted]
  induction s with
  | nil => simp
  | cons b s ih =>
    have hb := h b List.mem_cons_self
    have hrest := ih fun c hc => h c (List.mem_cons_of_mem _ hc)
    simp only [List.map_cons, List.sum_cons, List.length_cons,
      escapeByte_of_plain hb.quote hb.slash hb.control, List.length_nil]
    omega

theorem length_escapeByte_le {b : UInt8} (h : ¬ b < 0x20) : (escapeByte b).length ≤ 2 := by
  induction b using escapeByte_cases with
  | control k =>
    revert k
    decide
  | quote => decide
  | slash => decide
  | plain b hquote hslash hcontrol =>
    rw [escapeByte_of_plain hquote hslash hcontrol]
    simp

/-- Without control characters the text at most doubles. -/
theorem length_quoted_le {s : List UInt8} (h : ∀ b ∈ s, ¬ b < 0x20) :
    (quoted s).length ≤ 2 * s.length + 2 := by
  rw [length_quoted]
  induction s with
  | nil => simp
  | cons b s ih =>
    have hb := length_escapeByte_le (h b List.mem_cons_self)
    have hrest := ih fun c hc => h c (List.mem_cons_of_mem _ hc)
    simp only [List.map_cons, List.sum_cons, List.length_cons]
    omega

theorem length_compactElements (vs : List Json) :
    (compactElements vs).length = (vs.map fun v => v.compact.length).sum + (vs.length - 1) := by
  induction vs with
  | nil => simp [compactElements]
  | cons v vs ih =>
    cases vs with
    | nil => simp [compactElements]
    | cons v' vs =>
      rw [compactElements]
      · simp only [List.length_append, List.length_cons, List.map_cons, List.sum_cons] at ih ⊢
        omega
      · simp

theorem length_compact_array (vs : List Json) : (Json.array vs).compact.length =
    (vs.map fun v => v.compact.length).sum + (vs.length - 1) + 2 := by
  rw [compact]
  simp [length_compactElements]

/-- The length of a member without the comma after it. -/
def memberLength (m : CStr × Json) : ℕ := (quoted m.1.bytes).length + 1 + m.2.compact.length

theorem length_compactMembers (ms : List (CStr × Json)) :
    (compactMembers ms).length = (ms.map memberLength).sum + (ms.length - 1) := by
  induction ms with
  | nil => simp [compactMembers]
  | cons m ms ih =>
    obtain ⟨k, v⟩ := m
    cases ms with
    | nil =>
      simp only [compactMembers, memberLength, List.length_append, List.length_cons, List.map_cons,
        List.map_nil, List.sum_cons, List.sum_nil, List.length_nil]
      omega
    | cons m' ms =>
      rw [compactMembers]
      · simp only [memberLength, List.length_append, List.length_cons, List.map_cons,
          List.sum_cons] at ih ⊢
        omega
      · simp

theorem length_compact_object (ms : List (CStr × Json)) : (Json.object ms).compact.length =
    (ms.map memberLength).sum + (ms.length - 1) + 2 := by
  rw [compact_object]
  simp [length_compactMembers]

/-- The names and the values of the members, their colons and the commas between them. -/
theorem length_compact_object_keys {ms : List (CStr × Json)} (keys : List CStr)
    (hkeys : ms.map Prod.fst = keys) : (Json.object ms).compact.length =
      (keys.map fun k => (quoted k.bytes).length).sum +
        (ms.map fun m => m.2.compact.length).sum + ms.length + (ms.length - 1) + 2 := by
  subst hkeys
  have hsum : (ms.map memberLength).sum =
      ((ms.map Prod.fst).map fun k => (quoted k.bytes).length).sum +
        (ms.map fun m => m.2.compact.length).sum + ms.length := by
    induction ms with
    | nil => rfl
    | cons m ms ih =>
      simp only [List.map_cons, List.sum_cons, List.length_cons, memberLength, ih]
      omega
  rw [length_compact_object, hsum]

/-- The order of the members does not change the length. -/
theorem length_compact_object_of_perm {ms ms' : List (CStr × Json)} (h : ms.Perm ms') :
    (Json.object ms).compact.length = (Json.object ms').compact.length := by
  rw [length_compact_object, length_compact_object, (h.map memberLength).sum_eq, h.length_eq]

theorem length_repr_bytes (n : ℕ) :
    (Nat.repr n).toUTF8.data.toList.length = (Nat.toDigits 10 n).length := by
  have hone : ∀ c ∈ Nat.toDigits 10 n, (String.utf8EncodeChar c).length = 1 := by
    intro c hc
    have hdigit := Nat.isDigit_of_mem_toDigits (by decide) (by decide) hc
    have hval : c.val.toNat ≤ 57 := by
      simp only [Char.isDigit, Bool.and_eq_true, decide_eq_true_eq] at hdigit
      exact hdigit.2
    rw [String.utf8EncodeChar, if_pos (by omega), List.length_singleton]
  rw [repr_bytes, List.length_flatMap, List.map_congr_left hone]
  simp

theorem length_compact_natCast (n : ℕ) :
    (Json.integer n).compact.length = (Nat.toDigits 10 n).length := by
  rw [compact]
  exact length_repr_bytes n

/-- A natural number below `10 ^ k` is printed in at most `k` digits. -/
theorem length_compact_natCast_le {n k : ℕ} (hk : 0 < k) (hn : n < 10 ^ k) :
    (Json.integer n).compact.length ≤ k := by
  rw [length_compact_natCast]
  exact (Nat.length_toDigits_le_iff (by decide) hk).mpr hn

theorem length_compact_natCast_pos (n : ℕ) : 1 ≤ (Json.integer n).compact.length := by
  rw [length_compact_natCast]
  exact Nat.length_toDigits_pos

end JsonValues.Json
