import Mathlib.Computability.Language
import Mathlib.Data.List.TakeWhile

/-!
# Character classes

The language of the single characters in a class, and what its repetitions and
concatenations contain.
-/

namespace CharClasses
open scoped Computability

variable {α : Type*} {p q : α → Bool} {l : Language α} {c : α} {s : List α}

/-- The words of one character that is in the class. -/
def oneOf (p : α → Bool) : Language α := {s | ∃ c, p c = true ∧ s = [c]}

theorem singleton_mem_oneOf : [c] ∈ oneOf p ↔ p c = true := by
  constructor
  · rintro ⟨d, hd, heq⟩
    rwa [List.singleton_inj.mp heq]
  · intro hc
    exact ⟨c, hc, rfl⟩

theorem cons_mem_oneOf_mul : c :: s ∈ oneOf p * l ↔ p c = true ∧ s ∈ l := by
  rw [Language.mem_mul]
  constructor
  · rintro ⟨_, ⟨d, hd, rfl⟩, t, ht, heq⟩
    obtain ⟨rfl, rfl⟩ := List.cons.inj heq
    exact ⟨hd, ht⟩
  · rintro ⟨hc, hs⟩
    exact ⟨[c], singleton_mem_oneOf.mpr hc, s, hs, rfl⟩

theorem nil_not_mem_oneOf_mul : [] ∉ oneOf p * l := by
  rw [Language.mem_mul]
  rintro ⟨_, ⟨d, hd, rfl⟩, t, ht, heq⟩
  cases heq

theorem mem_oneOf_mul : s ∈ oneOf p * l ↔ ∃ c t, s = c :: t ∧ p c = true ∧ t ∈ l := by
  constructor
  · intro h
    cases s with
    | nil => exact absurd h nil_not_mem_oneOf_mul
    | cons c t => exact ⟨c, t, rfl, cons_mem_oneOf_mul.mp h⟩
  · rintro ⟨c, t, rfl, h⟩
    exact cons_mem_oneOf_mul.mpr h

theorem mem_kstar_oneOf : s ∈ (oneOf p)∗ ↔ ∀ c ∈ s, p c = true := by
  rw [Language.mem_kstar]
  constructor
  · rintro ⟨words, rfl, hwords⟩ c hc
    obtain ⟨word, hword, hcword⟩ := List.mem_flatten.mp hc
    obtain ⟨d, hd, rfl⟩ := hwords word hword
    rwa [List.mem_singleton.mp hcword]
  · intro hs
    refine ⟨s.map fun c => [c], ?_, ?_⟩
    · induction s with
      | nil => rfl
      | cons c s ih =>
        rw [List.map_cons, List.flatten_cons, ← ih fun d hd => hs d (List.mem_cons_of_mem c hd)]
        rfl
    · intro word hword
      obtain ⟨c, hc, rfl⟩ := List.mem_map.mp hword
      exact singleton_mem_oneOf.mpr (hs c hc)

/-- The non-empty words over the class. -/
def plus (p : α → Bool) : Language α := oneOf p * (oneOf p)∗

theorem mem_plus : s ∈ plus p ↔ s ≠ [] ∧ ∀ c ∈ s, p c = true := by
  cases s with
  | nil => exact iff_of_false nil_not_mem_oneOf_mul fun h => h.1 rfl
  | cons c s =>
    rw [plus, cons_mem_oneOf_mul, mem_kstar_oneOf, List.forall_mem_cons]
    exact (and_iff_right (List.cons_ne_nil c s)).symm

section Splits

variable {m : Language α}

/-- A word that starts outside the class ends every run of it. -/
theorem takeWhile_eq_nil_of_mem (hdisjoint : ∀ c, q c = true → p c = false)
    (h : s ∈ oneOf q * l) : s.takeWhile p = [] := by
  obtain ⟨c, t, rfl, hc, -⟩ := mem_oneOf_mul.mp h
  exact List.takeWhile_cons_of_neg (by simp [hdisjoint c hc])

theorem dropWhile_eq_self_of_mem (hdisjoint : ∀ c, q c = true → p c = false)
    (h : s ∈ oneOf q * l) : s.dropWhile p = s := by
  obtain ⟨c, t, rfl, hc, -⟩ := mem_oneOf_mul.mp h
  exact List.dropWhile_cons_of_neg (by simp [hdisjoint c hc])

/-- Reading the longest run loses no match where the first part is a run and what follows starts
outside the class: there is only one way to split. -/
theorem mem_mul_iff_split (hm : ∀ t ∈ m, ∀ c ∈ t, p c = true)
    (hdisjoint : ∀ c, q c = true → p c = false) :
    s ∈ m * (oneOf q * l) ↔ s.takeWhile p ∈ m ∧ s.dropWhile p ∈ oneOf q * l := by
  constructor
  · intro h
    obtain ⟨run, hrun, rest, hrest, rfl⟩ := Language.mem_mul.mp h
    rw [List.takeWhile_append_of_pos (hm run hrun), List.dropWhile_append_of_pos (hm run hrun),
      takeWhile_eq_nil_of_mem hdisjoint hrest, dropWhile_eq_self_of_mem hdisjoint hrest,
      List.append_nil]
    exact ⟨hrun, hrest⟩
  · rintro ⟨hrun, hrest⟩
    exact Language.mem_mul.mpr
      ⟨s.takeWhile p, hrun, s.dropWhile p, hrest, List.takeWhile_append_dropWhile⟩

/-- The run alone. -/
theorem mem_iff_split (hm : ∀ t ∈ m, ∀ c ∈ t, p c = true) :
    s ∈ m ↔ s.takeWhile p ∈ m ∧ s.dropWhile p = [] := by
  constructor
  · intro h
    rw [List.takeWhile_eq_self_iff.mpr (hm s h), List.dropWhile_eq_nil_iff]
    exact ⟨h, hm s h⟩
  · rintro ⟨hrun, hrest⟩
    rwa [List.takeWhile_eq_self_iff.mpr (List.dropWhile_eq_nil_iff.mp hrest)] at hrun

theorem takeWhile_mem_plus : s.takeWhile p ∈ plus p ↔ s.takeWhile p ≠ [] :=
  mem_plus.trans (and_iff_left fun _ hc => List.mem_takeWhile_imp hc)

end Splits

end CharClasses
