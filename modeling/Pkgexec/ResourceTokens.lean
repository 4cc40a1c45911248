import Pkgexec.EncoderDomain

/-!
# The resource token

`pkgx_resource` names a set of targets by one string. It is the same for every order in which
they are given, and it is another one for every other set.
-/

namespace Pkgexec.PlanDigest
open CStrings DelimitedLists

/-- `pkgx_resource` with its `*out`. -/
def pkgxResourceOut (targets : List (Option CStr)) (out : Option CStr) : ℤ × Option CStr :=
  match pkgxResource targets with
  | none => (-1, out)
  | some j => (0, some j)

/-- The targets that have a token. -/
structure Nameable (targets : List (Option CStr)) : Prop where
  fields : ∀ s ∈ targets, fieldOk s = true
  distinct : (targets.map orEmpty).Nodup
  fits : (join comma (targets.map fun s => (orEmpty s).bytes)).length + 1 ≤ maxCanon

theorem length_join_perm {ps qs : List (List UInt8)} (h : ps.Perm qs) :
    (join comma ps).length = (join comma qs).length := by
  rw [length_join, length_join, (h.map List.length).sum_eq, h.length_eq]

section Tokens

variable {targets targets' : List (Option CStr)}

theorem length_itemsText (targets : List (Option CStr)) :
    (itemsText (targets.map orEmpty)).length =
      (join comma (targets.map fun s => (orEmpty s).bytes)).length := by
  rw [itemsText_eq, length_join_perm ((qsort_perm _).map CStr.bytes), List.map_map]
  rfl

theorem nameable_iff : Nameable targets ↔
    ItemsOk none targets ∧ (itemsText (targets.map orEmpty)).length + 1 ≤ maxCanon := by
  rw [length_itemsText]
  constructor
  · intro h
    exact ⟨⟨h.fields, by simp, h.distinct⟩, h.fits⟩
  · rintro ⟨hitems, hfits⟩
    exact ⟨hitems.fields, hitems.nodup, hfits⟩

/-- What the call does with its output. -/
theorem pkgxResourceOut_eq (targets : List (Option CStr)) (out : Option CStr) :
    Nameable targets ∧
        pkgxResourceOut targets out = (0, some (.ofMem (itemsText (targets.map orEmpty)))) ∨
      ¬ Nameable targets ∧ pkgxResourceOut targets out = (-1, out) := by
  rw [pkgxResourceOut, pkgxResource, nameable_iff]
  cases hjoin : joinSorted targets true none with
  | ok j =>
    obtain ⟨hitems, hfits, rfl⟩ := joinSorted_eq_ok_iff.mp hjoin
    exact .inl ⟨⟨hitems, hfits⟩, rfl⟩
  | error violated =>
    refine .inr ⟨?_, rfl⟩
    rintro ⟨hitems, hfits⟩
    rw [joinSorted_eq_ok_iff.mpr ⟨hitems, hfits, rfl⟩] at hjoin
    cases hjoin

theorem Nameable.perm (h : Nameable targets) (hperm : targets.Perm targets') :
    Nameable targets' where
  fields s hs := h.fields s (hperm.mem_iff.mpr hs)
  distinct := (hperm.map orEmpty).nodup_iff.mp h.distinct
  fits := by
    rw [← length_join_perm (hperm.map fun s => (orEmpty s).bytes)]
    exact h.fits

/-- The order in which the targets are given does not show. -/
theorem pkgxResourceOut_perm (hperm : targets.Perm targets') (out : Option CStr) :
    pkgxResourceOut targets' out = pkgxResourceOut targets out := by
  rcases pkgxResourceOut_eq targets out with ⟨h, heq⟩ | ⟨h, heq⟩ <;>
    rcases pkgxResourceOut_eq targets' out with ⟨h', heq'⟩ | ⟨h', heq'⟩
  · rw [heq, heq', itemsText_perm (hperm.map orEmpty)]
  · exact absurd (h.perm hperm) h'
  · exact absurd (h'.perm hperm.symm) h
  · rw [heq, heq']

/-- Non-empty targets without commas are read back from the text. -/
theorem Nameable.itemsText_eq_iff (h : Nameable targets) (h' : Nameable targets')
    (hne : ∀ s ∈ targets ++ targets', orEmpty s ≠ .empty) :
    itemsText (targets.map orEmpty) = itemsText (targets'.map orEmpty) ↔
      targets.Perm targets' := by
  have htext (items : List (Option CStr)) : itemsText (items.map orEmpty) =
      serialise BytewiseLe CStr.bytes comma orEmpty items := by
    rw [itemsText, serialise, serialise, List.map_id]
  have hsome : ∀ s ∈ targets ++ targets', s = some (orEmpty s) := by
    intro s hs
    cases s with
    | none => exact absurd rfl (hne none hs)
    | some s => rfl
  rw [htext, htext]
  refine serialise_eq_iff_perm BytewiseLe CStr.bytes bytewiseLe_antisymm
    (fun a b => CStr.ext) ?_ ?_ ?_
  · intro s hs
    have hok : fieldOk s = true := (List.mem_append.mp hs).elim (h.fields s) (h'.fields s)
    exact ((fieldOk_iff s).mp hok).1 comma (by decide)
  · intro s hs hnil
    exact hne s hs (CStr.eq_empty_iff.mpr hnil)
  · intro a ha b hb hab
    rw [hsome a ha, hsome b hb, hab]

end Tokens

/-- A call succeeds exactly on distinct fields that fit, and writes nothing otherwise. Its
output lists the targets in ascending order, so it is the same for every order of theirs; and
among non-empty targets it identifies them, up to their order. -/
theorem resource_identifies_targets (targets : List (Option CStr)) (out : Option CStr) :
    ((pkgxResourceOut targets out).1 = 0 ↔ Nameable targets) ∧
      ((pkgxResourceOut targets out).1 = 0 → ∃ (sorted : List CStr) (token : CStr),
        sorted.Perm (targets.map orEmpty) ∧ sorted.Pairwise (fun a b => a.bytes ≤ b.bytes) ∧
          (pkgxResourceOut targets out).2 = some token ∧
            token.bytes = join comma (sorted.map CStr.bytes)) ∧
      ((pkgxResourceOut targets out).1 ≠ 0 → pkgxResourceOut targets out = (-1, out)) ∧
      (∀ targets', targets.Perm targets' →
        pkgxResourceOut targets' out = pkgxResourceOut targets out) ∧
      ∀ targets' out', (pkgxResourceOut targets out).1 = 0 →
        (pkgxResourceOut targets' out').1 = 0 →
        (∀ s ∈ targets ++ targets', orEmpty s ≠ .empty) →
        ((pkgxResourceOut targets out).2 = (pkgxResourceOut targets' out').2 ↔
          targets.Perm targets') := by
  have hcases := pkgxResourceOut_eq targets out
  have hiff : (pkgxResourceOut targets out).1 = 0 ↔ Nameable targets := by
    rcases hcases with ⟨h, heq⟩ | ⟨h, heq⟩
    · exact iff_of_true (by rw [heq]) h
    · exact iff_of_false (by simp [heq]) h
  refine ⟨hiff, ?_, ?_, fun targets' hperm => pkgxResourceOut_perm hperm out, ?_⟩
  · intro hzero
    obtain ⟨-, heq⟩ := hcases.resolve_right fun h => h.1 (hiff.mp hzero)
    refine ⟨qsort (targets.map orEmpty), _, qsort_perm _, ?_, by rw [heq], ?_⟩
    · exact (qsort_sorted _).imp fun hle => bytewiseLe_iff.mp hle
    · rw [CStr.ofMem_of_noNul (noNul_itemsText _), itemsText_eq]
  · intro hfailed
    exact (hcases.resolve_left fun h => hfailed (hiff.mpr h.1)).2
  · intro targets' out' hzero hzero' hne
    rcases pkgxResourceOut_eq targets' out' with ⟨h', heq'⟩ | ⟨-, heq'⟩
    · obtain ⟨h, heq⟩ := hcases.resolve_right fun h => h.1 (hiff.mp hzero)
      rw [← h.itemsText_eq_iff h' hne, heq, heq']
      have hinj (xs ys : List CStr) : CStr.ofMem (itemsText xs) = CStr.ofMem (itemsText ys) ↔
          itemsText xs = itemsText ys := by
        rw [CStr.ext_iff, CStr.ofMem_of_noNul (noNul_itemsText xs),
          CStr.ofMem_of_noNul (noNul_itemsText ys)]
      exact Option.some_inj.trans (hinj _ _)
    · rw [heq'] at hzero'
      simp at hzero'

theorem resource_identifies_two_orders :
    (pkgxResourceOut [some (.lit "vim"), some (.lit "bash")] none).2 =
      (pkgxResourceOut [some (.lit "bash"), some (.lit "vim")] none).2 :=
  ((resource_identifies_targets [some (.lit "vim"), some (.lit "bash")] none).2.2.2.2
    [some (.lit "bash"), some (.lit "vim")] none (by decide) (by decide) (by decide)).mpr
    (.swap _ _ [])

end Pkgexec.PlanDigest
