import Pkgexec.CharClasses
import Pkgexec.OwnershipPolicy

/-!
# The grammar of an owned name

`pkgx_is_rapt_owned` runs one greedy loop for each part of the name. It accepts exactly the
regular language `^r-[a-z]+-[a-z0-9.]+$`.
-/

namespace Pkgexec.Policy
open CStrings CharClasses
open scoped Computability

/-- `[a-z0-9.]`. -/
def suffixByte (c : UInt8) : Bool := isLower c || isDigit c || c == dot

/-- `[a-z]+-[a-z0-9.]+`. -/
def ownedTailGrammar : Language UInt8 := plus isLower * (oneOf (· = dash) * plus suffixByte)

/-- `r-[a-z]+-[a-z0-9.]+`. -/
def ownedGrammar : Language UInt8 := oneOf (· = 0x72) * (oneOf (· = dash) * ownedTailGrammar)

/-- The loop stands still exactly on an empty run. -/
theorem length_dropWhile_eq_iff {p : UInt8 → Bool} {s : List UInt8} :
    (s.dropWhile p).length = s.length ↔ s.takeWhile p = [] := by
  have hsplit := congrArg List.length (List.takeWhile_append_dropWhile (p := p) (l := s))
  rw [List.length_append] at hsplit
  rw [← List.length_eq_zero_iff]
  omega

/-- The second loop and the test for the terminator. -/
theorem mem_plus_suffixByte {s : List UInt8} :
    s ∈ plus suffixByte ↔
      (s.dropWhile suffixByte).length ≠ s.length ∧ (s.dropWhile suffixByte).isEmpty = true := by
  rw [mem_plus, List.isEmpty_iff, List.dropWhile_eq_nil_iff]
  refine and_congr_left fun hall => not_congr ?_
  rw [length_dropWhile_eq_iff, List.takeWhile_eq_self_iff.mpr hall]

/-- The letters cannot swallow the dash, so the first loop loses no match. -/
theorem mem_ownedTailGrammar {s : List UInt8} :
    s ∈ ownedTailGrammar ↔
      (s.dropWhile isLower).length ≠ s.length ∧
        s.dropWhile isLower ∈ oneOf (· = dash) * plus suffixByte := by
  have hdisjoint : ∀ c : UInt8, decide (c = dash) = true → isLower c = false := by
    intro c hc
    rw [decide_eq_true_iff.mp hc]
    rfl
  rw [ownedTailGrammar, mem_mul_iff_split (fun _ h => (mem_plus.mp h).2) hdisjoint,
    takeWhile_mem_plus]
  exact and_congr_left fun _ => not_congr length_dropWhile_eq_iff.symm

theorem ownedTail_iff {s : List UInt8} : ownedTail s = true ↔ s ∈ ownedTailGrammar := by
  rw [mem_ownedTailGrammar, ownedTail]
  simp only [Bool.if_false_left, Bool.and_eq_true, Bool.not_eq_true', decide_eq_false_iff_not,
    not_or, not_not]
  cases s.dropWhile isLower with
  | nil => simp [nil_not_mem_oneOf_mul]
  | cons c t =>
    rw [cons_mem_oneOf_mul, mem_plus_suffixByte, decide_eq_true_iff, List.head?_cons,
      List.tail_cons, Option.some_inj, and_assoc]
    rfl

theorem pkgxIsRaptOwned_iff {name : CStr} :
    pkgxIsRaptOwned name = true ↔
      ∃ rest, name.bytes = 0x72 :: dash :: rest ∧ ownedTail rest = true := by
  rw [pkgxIsRaptOwned]
  match name.bytes with
  | [] => simp
  | [_] => simp
  | c₀ :: c₁ :: rest =>
    simp only [Bool.if_false_left, Bool.and_eq_true, Bool.not_eq_true', decide_eq_false_iff_not,
      not_or, not_not, List.cons.injEq]
    constructor
    · rintro ⟨⟨hc₀, hc₁⟩, htail⟩
      exact ⟨rest, ⟨hc₀, hc₁, rfl⟩, htail⟩
    · rintro ⟨_, ⟨hc₀, hc₁, rfl⟩, htail⟩
      exact ⟨⟨hc₀, hc₁⟩, htail⟩

/-- The scanner is the regular expression, on every string. -/
theorem pkgxIsRaptOwned_exact (s : CStr) : pkgxIsRaptOwned s = true ↔ s.bytes ∈ ownedGrammar := by
  rw [pkgxIsRaptOwned_iff]
  constructor
  · rintro ⟨rest, hbytes, htail⟩
    rw [hbytes, ownedGrammar, cons_mem_oneOf_mul, cons_mem_oneOf_mul]
    exact ⟨rfl, rfl, ownedTail_iff.mp htail⟩
  · intro h
    obtain ⟨c₀, t, hbytes, hc₀, ht⟩ := mem_oneOf_mul.mp h
    obtain ⟨c₁, rest, rfl, hc₁, hrest⟩ := mem_oneOf_mul.mp ht
    rw [decide_eq_true_iff] at hc₀ hc₁
    exact ⟨rest, by rw [hbytes, hc₀, hc₁], ownedTail_iff.mpr hrest⟩

theorem ownedByte_of_mem_tail {s : List UInt8} (h : s ∈ ownedTailGrammar) :
    ∀ c ∈ s, ownedByte c = true := by
  obtain ⟨run, hrun, t, ht, rfl⟩ := Language.mem_mul.mp h
  obtain ⟨d, suffix, rfl, hd, hsuffix⟩ := mem_oneOf_mul.mp ht
  intro c hc
  rw [List.mem_append, List.mem_cons] at hc
  rcases hc with hc | rfl | hc
  · simp [ownedByte, (mem_plus.mp hrun).2 c hc]
  · rw [decide_eq_true_iff.mp hd]
    rfl
  · have hbyte : suffixByte c = true := (mem_plus.mp hsuffix).2 c hc
    rw [suffixByte] at hbyte
    simp only [ownedByte, hbyte, Bool.true_or]

/-- A name with a byte outside the predicate's alphabet is not owned. -/
theorem not_owned_of_mem {name : CStr} {c : UInt8} (hc : ownedByte c = false)
    (hmem : c ∈ name.bytes) : pkgxIsRaptOwned name = false := by
  rw [Bool.eq_false_iff]
  intro h
  obtain ⟨rest, hbytes, htail⟩ := pkgxIsRaptOwned_iff.mp h
  rw [hbytes, List.mem_cons, List.mem_cons] at hmem
  have howned : ownedByte c = true := by
    rcases hmem with rfl | rfl | hmem
    · rfl
    · rfl
    · exact ownedByte_of_mem_tail (ownedTail_iff.mp htail) c hmem
  rw [hc] at howned
  cases howned

end Pkgexec.Policy
