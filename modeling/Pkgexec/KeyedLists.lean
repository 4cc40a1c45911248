import Mathlib.Data.List.Perm.Basic
import Mathlib.Data.List.Nodup

/-!
# Association lists with distinct keys

A list of key-value pairs whose keys are distinct is, up to order, the map it looks up.
-/

namespace KeyedLists

variable {κ ν : Type*} [DecidableEq κ]

/-- The value of the first pair with the given key. -/
def valueAt (ps : List (κ × ν)) (k : κ) : Option ν :=
  (ps.find? (fun p => p.1 = k)).map Prod.snd

@[simp] theorem valueAt_nil (k : κ) : valueAt ([] : List (κ × ν)) k = none := rfl

theorem valueAt_cons (p : κ × ν) (ps : List (κ × ν)) (k : κ) :
    valueAt (p :: ps) k = if p.1 = k then some p.2 else valueAt ps k := by
  by_cases h : p.1 = k <;> simp [valueAt, h]

theorem mem_of_valueAt {ps : List (κ × ν)} {k : κ} {v : ν} (h : valueAt ps k = some v) :
    (k, v) ∈ ps := by
  induction ps with
  | nil => simp at h
  | cons p ps ih =>
    rw [valueAt_cons] at h
    by_cases hk : p.1 = k
    · have hv : p.2 = v := by simpa [hk] using h
      have hp : (k, v) = p := Prod.ext hk.symm hv.symm
      simp [hp]
    · exact List.mem_cons_of_mem p (ih (by simpa [hk] using h))

theorem valueAt_of_mem {ps : List (κ × ν)} (hkeys : (ps.map Prod.fst).Nodup) {k : κ} {v : ν}
    (h : (k, v) ∈ ps) : valueAt ps k = some v := by
  induction ps with
  | nil => simp at h
  | cons p ps ih =>
    obtain ⟨hp, hps⟩ := List.nodup_cons.mp hkeys
    rw [valueAt_cons]
    rcases List.mem_cons.mp h with rfl | h
    · simp
    · have hne : p.1 ≠ k := fun he => hp (he ▸ List.mem_map_of_mem (f := Prod.fst) h)
      rw [if_neg hne]
      exact ih hps h

theorem valueAt_eq_some_iff {ps : List (κ × ν)} (hkeys : (ps.map Prod.fst).Nodup) {k : κ}
    {v : ν} : valueAt ps k = some v ↔ (k, v) ∈ ps :=
  ⟨mem_of_valueAt, valueAt_of_mem hkeys⟩

/-- Equal lookups and equal bags of pairs are the same thing. -/
theorem perm_iff_valueAt_eq {ps qs : List (κ × ν)} (hps : (ps.map Prod.fst).Nodup)
    (hqs : (qs.map Prod.fst).Nodup) : ps.Perm qs ↔ valueAt ps = valueAt qs := by
  rw [List.perm_ext_iff_of_nodup hps.of_map hqs.of_map]
  constructor
  · intro h
    funext k
    apply Option.ext
    intro v
    rw [valueAt_eq_some_iff hps, valueAt_eq_some_iff hqs, h]
  · rintro h ⟨k, v⟩
    rw [← valueAt_eq_some_iff hps, ← valueAt_eq_some_iff hqs, h]

/-- A list whose keys all lie among the wanted ones, each of which has its wanted value, is
the wanted list up to order. -/
theorem perm_of_only_keys {ps want : List (κ × ν)} (hps : (ps.map Prod.fst).Nodup)
    (hwant : (want.map Prod.fst).Nodup) (honly : ∀ p ∈ ps, p.1 ∈ want.map Prod.fst)
    (hget : ∀ w ∈ want, valueAt ps w.1 = some w.2) : ps.Perm want := by
  refine (List.perm_ext_iff_of_nodup hps.of_map hwant.of_map).mpr ?_
  intro p
  constructor
  · intro hp
    obtain ⟨w, hw, hwp⟩ := List.mem_map.mp (honly p hp)
    have hv : valueAt ps p.1 = some p.2 := valueAt_of_mem hps hp
    rw [← hwp, hget w hw] at hv
    have hpw : w = p := Prod.ext hwp (Option.some.inj hv)
    exact hpw ▸ hw
  · exact fun hp => mem_of_valueAt (hget p hp)

end KeyedLists
