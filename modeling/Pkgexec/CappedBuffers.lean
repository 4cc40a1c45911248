import Mathlib.Data.List.Basic
import Mathlib.Data.Option.Basic

/-!
# Appending to a buffer of bounded size

The abstract behaviour of an accumulator that refuses to grow past a cap: an append either
extends the contents or fails. A run of appends that is stopped at its first failure is the
same as one append of all the pieces together.
-/

namespace CappedBuffers

variable {α β : Type*}

/-- Append `d`, or fail if the result would exceed `cap` elements. -/
def append (cap : ℕ) (xs d : List α) : Option (List α) :=
  if xs.length + d.length ≤ cap then some (xs ++ d) else none

theorem append_eq_some_iff {cap : ℕ} {xs d ys : List α} :
    append cap xs d = some ys ↔ xs.length + d.length ≤ cap ∧ ys = xs ++ d := by
  rw [append]
  split <;> simp_all [eq_comm]

/-- Two appends in a row are one append of both pieces. -/
theorem append_bind_append (cap : ℕ) (xs d e : List α) :
    (append cap xs d).bind (fun ys => append cap ys e) = append cap xs (d ++ e) := by
  simp only [append]
  by_cases h : xs.length + d.length ≤ cap
  · simp [h, Nat.add_assoc, List.append_assoc]
  · have h' : ¬ xs.length + (d ++ e).length ≤ cap := by
      simp only [List.length_append]
      omega
    rw [if_neg h, if_neg h', Option.bind_none]

/-- A concrete buffer type implements the capped append through its contents. -/
def Implements (cap : ℕ) (contents : β → List α) (add : β → List α → Option β) : Prop :=
  ∀ b d, (add b d).map contents = append cap (contents b) d

/-- A step on a concrete buffer that amounts to appending `d`. -/
def Appends (cap : ℕ) (contents : β → List α) (step : β → Option β) (d : List α) : Prop :=
  ∀ b, (contents b).length ≤ cap → (step b).map contents = append cap (contents b) d

variable {cap : ℕ} {contents : β → List α} {step next : β → Option β} {d e : List α}

theorem Implements.appends {add : β → List α → Option β} (h : Implements cap contents add)
    (d : List α) : Appends cap contents (fun b => add b d) d :=
  fun b _ => h b d

theorem Appends.skip : Appends cap contents some [] := by
  intro b hb
  simp [append, hb]

/-- Steps in a row append their pieces in a row. -/
theorem Appends.comp (h : Appends cap contents step d) (h' : Appends cap contents next e) :
    Appends cap contents (fun b => (step b).bind next) (d ++ e) := by
  intro b hb
  have hd := h b hb
  show ((step b).bind next).map contents = _
  rw [← append_bind_append]
  cases hs : step b with
  | none =>
    rw [hs, Option.map_none] at hd
    rw [← hd, Option.bind_none, Option.bind_none, Option.map_none]
  | some b' =>
    rw [hs, Option.map_some] at hd
    obtain ⟨hlen, hcat⟩ := append_eq_some_iff.mp hd.symm
    rw [← hd, Option.bind_some, Option.bind_some]
    exact h' b' (by simpa [hcat] using hlen)

/-- A chain of appends appends all the pieces. -/
theorem Implements.foldlM {add : β → List α → Option β} (h : Implements cap contents add)
    (ds : List (List α)) : Appends cap contents (fun b => ds.foldlM add b) ds.flatten := by
  induction ds with
  | nil => exact Appends.skip
  | cons d ds ih => exact (h.appends d).comp ih

end CappedBuffers
