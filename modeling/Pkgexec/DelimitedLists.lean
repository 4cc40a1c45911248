import Mathlib.Data.List.Sort
import Mathlib.Data.List.Perm.Basic
import Mathlib.Logic.Function.Basic
import Mathlib.Algebra.Order.BigOperators.Group.List
import Mathlib.Algebra.Order.Ring.Nat

/-!
# Lists joined by a separator, and canonical serialisation of bags

Joining is injective on pieces that avoid the separator. A bag is serialised by encoding
its members, sorting the encodings, and joining them: the result depends on the members
only as a multiset, and determines that multiset up to whatever the encoding identifies.
-/

namespace DelimitedLists

variable {α β γ : Type*}

/-- The pieces with one separator between neighbours. -/
def join (sep : α) (parts : List (List α)) : List α := [sep].intercalate parts

@[simp] theorem join_nil (sep : α) : join sep [] = [] := rfl

@[simp] theorem join_singleton (sep : α) (p : List α) : join sep [p] = p := by
  simp [join]

theorem join_cons_cons (sep : α) (p q : List α) (ps : List (List α)) :
    join sep (p :: q :: ps) = p ++ sep :: join sep (q :: ps) := by
  simp [join, List.intercalate_cons_cons]

theorem join_cons_of_ne_nil (sep : α) (p : List α) {ps : List (List α)} (h : ps ≠ []) :
    join sep (p :: ps) = p ++ sep :: join sep ps := by
  obtain ⟨q, qs, rfl⟩ := List.exists_cons_of_ne_nil h
  exact join_cons_cons sep p q qs

theorem join_cons (sep : α) (p : List α) (ps : List (List α)) :
    join sep (p :: ps) = p ++ ps.flatMap (sep :: ·) := by
  induction ps generalizing p with
  | nil => simp
  | cons q qs ih => rw [join_cons_cons, ih, List.flatMap_cons, List.cons_append]

theorem mem_join {sep a : α} {parts : List (List α)} (h : a ∈ join sep parts) :
    a = sep ∨ ∃ p ∈ parts, a ∈ p := by
  induction parts with
  | nil => simp at h
  | cons p ps ih =>
    by_cases hps : ps = []
    · subst ps
      exact .inr ⟨p, by simp, by simpa using h⟩
    · rw [join_cons_of_ne_nil sep p hps, List.mem_append, List.mem_cons] at h
      rcases h with h | h | h
      · exact .inr ⟨p, by simp, h⟩
      · exact .inl h
      · obtain h | ⟨q, hq, ha⟩ := ih h
        · exact .inl h
        · exact .inr ⟨q, by simp [hq], ha⟩

theorem length_join (sep : α) (parts : List (List α)) :
    (join sep parts).length = (parts.map List.length).sum + (parts.length - 1) := by
  induction parts with
  | nil => rfl
  | cons p ps ih =>
    by_cases hps : ps = []
    · subst ps
      simp
    · have hpos := List.length_pos_of_ne_nil hps
      rw [join_cons_of_ne_nil sep p hps]
      simp only [List.length_append, List.length_cons, ih, List.map_cons, List.sum_cons]
      omega

theorem length_join_le (sep : α) {parts : List (List α)} {k : ℕ}
    (h : ∀ p ∈ parts, p.length ≤ k) : (join sep parts).length ≤ parts.length * (k + 1) := by
  have hsum : (parts.map List.length).sum ≤ parts.length * k := by
    refine (List.sum_le_card_nsmul _ k ?_).trans (by simp)
    intro n hn
    obtain ⟨p, hp, rfl⟩ := List.mem_map.mp hn
    exact h p hp
  rw [length_join, Nat.mul_succ]
  omega

theorem length_le_join {sep : α} {parts : List (List α)} {p : List α} (h : p ∈ parts) :
    p.length ≤ (join sep parts).length := by
  induction parts with
  | nil => simp at h
  | cons q qs ih =>
    by_cases hqs : qs = []
    · subst qs
      simpa using congrArg List.length (List.mem_singleton.mp h).symm |>.ge
    · rw [join_cons_of_ne_nil sep q hqs, List.length_append, List.length_cons]
      rcases List.mem_cons.mp h with rfl | h
      · omega
      · have := ih h
        omega

theorem join_eq_nil_iff {sep : α} {parts : List (List α)} (h : ∀ p ∈ parts, p ≠ []) :
    join sep parts = [] ↔ parts = [] := by
  cases parts with
  | nil => simp
  | cons p ps =>
    have hp := h p (by simp)
    by_cases hps : ps = []
    · simp [hps, hp]
    · simp [join_cons_of_ne_nil sep p hps]

/-- The first separator is where the first piece ends. -/
theorem append_cons_inj {sep : α} {xs ys us vs : List α} (hxs : sep ∉ xs) (hys : sep ∉ ys)
    (h : xs ++ sep :: us = ys ++ sep :: vs) : xs = ys ∧ us = vs := by
  induction xs generalizing ys with
  | nil =>
    cases ys with
    | nil => exact ⟨rfl, (List.cons.inj h).2⟩
    | cons y ys =>
      have hy : sep = y := (List.cons.inj h).1
      exact absurd (by simp [hy]) hys
  | cons x xs ih =>
    cases ys with
    | nil =>
      have hx : x = sep := (List.cons.inj h).1
      exact absurd (by simp [hx]) hxs
    | cons y ys =>
      obtain ⟨rfl, htail⟩ := List.cons.inj h
      rw [List.mem_cons, not_or] at hxs hys
      obtain ⟨rfl, rfl⟩ := ih hxs.2 hys.2 htail
      exact ⟨rfl, rfl⟩

section Split

variable [DecidableEq α]

/-- Splitting a join gives the pieces back. -/
theorem splitOn_join {sep : α} {parts : List (List α)} (hsep : ∀ p ∈ parts, sep ∉ p)
    (hne : parts ≠ []) : (join sep parts).splitOn sep = parts :=
  List.splitOn_intercalate sep hsep hne

/-- Pieces that each end in the separator split into the pieces and an empty rest. -/
theorem splitOn_terminated {sep : α} {parts : List (List α)} (hsep : ∀ p ∈ parts, sep ∉ p) :
    (parts.flatMap (· ++ [sep])).splitOn sep = parts ++ [[]] := by
  have hjoin : parts.flatMap (· ++ [sep]) = join sep (parts ++ [[]]) := by
    clear hsep
    induction parts with
    | nil => rfl
    | cons p ps ih =>
      rw [List.cons_append, join_cons_of_ne_nil sep p (by simp), List.flatMap_cons, ih]
      simp
  rw [hjoin, splitOn_join _ (by simp)]
  intro p hp
  rcases List.mem_append.mp hp with hp | hp
  · exact hsep p hp
  · rw [List.mem_singleton.mp hp]
    simp

theorem join_injective {sep : α} {ps qs : List (List α)} (hps : ∀ p ∈ ps, sep ∉ p)
    (hqs : ∀ q ∈ qs, sep ∉ q) (hp : ps ≠ []) (hq : qs ≠ [])
    (h : join sep ps = join sep qs) : ps = qs := by
  rw [← splitOn_join hps hp, ← splitOn_join hqs hq, h]

/-- With non-empty pieces the empty list needs no exception. -/
theorem join_injective_of_pieces_ne_nil {sep : α} {ps qs : List (List α)}
    (hps : ∀ p ∈ ps, sep ∉ p) (hqs : ∀ q ∈ qs, sep ∉ q)
    (hp : ∀ p ∈ ps, p ≠ []) (hq : ∀ q ∈ qs, q ≠ [])
    (h : join sep ps = join sep qs) : ps = qs := by
  by_cases hnil : ps = []
  · subst ps
    exact ((join_eq_nil_iff hq).mp (by simpa using h.symm)).symm
  · have hnil' : qs ≠ [] := by
      rintro rfl
      exact hnil ((join_eq_nil_iff hp).mp (by simpa using h))
    exact join_injective hps hqs hnil hnil' h

end Split

section Bags

/-- A labelling that factors through another on the listed members inherits its
permutations. -/
private theorem map_perm_map_of_factor {f : β → α} {g : β → γ} {xs ys : List β}
    (h : ∀ a ∈ xs ++ ys, ∀ b ∈ xs ++ ys, f a = f b → g a = g b)
    (hperm : (xs.map f).Perm (ys.map f)) : (xs.map g).Perm (ys.map g) := by
  classical
  let k : α → Option γ := fun d => ((xs ++ ys).find? (fun a => f a = d)).map g
  have hk : ∀ a ∈ xs ++ ys, k (f a) = some (g a) := by
    intro a ha
    cases hfind : (xs ++ ys).find? (fun b => f b = f a) with
    | none => simpa using List.find?_eq_none.mp hfind a ha
    | some b =>
      have hb : f b = f a := by simpa using List.find?_some hfind
      simp only [k, hfind, Option.map_some, h b (List.mem_of_find?_eq_some hfind) a ha hb]
  have hmap : ∀ zs : List β, (∀ z ∈ zs, z ∈ xs ++ ys) →
      (zs.map f).map k = (zs.map g).map some := by
    intro zs hzs
    rw [List.map_map, List.map_map]
    exact List.map_congr_left fun z hz => hk z (hzs z hz)
  have hsome : ((xs.map g).map some).Perm ((ys.map g).map some) := by
    rw [← hmap xs (by simp +contextual), ← hmap ys (by simp +contextual)]
    exact hperm.map k
  exact (List.map_perm_map_iff (Option.some_injective γ)).mp hsome

/-- Two labellings that identify the same members give permuted images together. -/
theorem map_perm_map_iff {f : β → α} {g : β → γ} {xs ys : List β}
    (h : ∀ a ∈ xs ++ ys, ∀ b ∈ xs ++ ys, f a = f b ↔ g a = g b) :
    (xs.map f).Perm (ys.map f) ↔ (xs.map g).Perm (ys.map g) :=
  ⟨map_perm_map_of_factor fun a ha b hb => (h a ha b hb).mp,
    map_perm_map_of_factor fun a ha b hb => (h a ha b hb).mpr⟩

variable (r : α → α → Prop) [DecidableRel r] [Std.Total r] [IsTrans α r]

/-- Sorting forgets exactly the order. -/
theorem insertionSort_eq_iff (hanti : ∀ a b, r a b → r b a → a = b) {xs ys : List α} :
    xs.insertionSort r = ys.insertionSort r ↔ xs.Perm ys := by
  constructor
  · intro h
    exact (List.perm_insertionSort r xs).symm.trans (h ▸ List.perm_insertionSort r ys)
  · intro h
    refine List.Perm.eq_of_pairwise (fun a b _ _ => hanti a b)
      (List.pairwise_insertionSort r xs) (List.pairwise_insertionSort r ys) ?_
    exact (List.perm_insertionSort r xs).trans (h.trans (List.perm_insertionSort r ys).symm)

/-- A list of pairwise distinct members is determined, up to order, by its set. -/
theorem perm_iff_mem_iff {xs ys : List α} (hxs : xs.Nodup) (hys : ys.Nodup) :
    xs.Perm ys ↔ ∀ a, a ∈ xs ↔ a ∈ ys :=
  List.perm_ext_iff_of_nodup hxs hys

end Bags

section Serialisation

variable {ω : Type*} [DecidableEq α] (r : ω → ω → Prop) [DecidableRel r] [Std.Total r]
  [IsTrans ω r] (text : ω → List α)

/-- Encode, sort, join. -/
def serialise (sep : α) (enc : β → ω) (xs : List β) : List α :=
  join sep (((xs.map enc).insertionSort r).map text)

/-- The serialisation is a complete invariant of the bag of normal forms. -/
theorem serialise_eq_iff (hanti : ∀ a b, r a b → r b a → a = b)
    (htext : Function.Injective text) {sep : α} {enc : β → ω} {norm : β → γ} {xs ys : List β}
    (hsep : ∀ x ∈ xs ++ ys, sep ∉ text (enc x)) (hne : ∀ x ∈ xs ++ ys, text (enc x) ≠ [])
    (hnorm : ∀ a ∈ xs ++ ys, ∀ b ∈ xs ++ ys, enc a = enc b ↔ norm a = norm b) :
    serialise r text sep enc xs = serialise r text sep enc ys ↔
      (xs.map norm).Perm (ys.map norm) := by
  have hpieces : ∀ zs : List β, (∀ z ∈ zs, z ∈ xs ++ ys) →
      ∀ p ∈ ((zs.map enc).insertionSort r).map text, sep ∉ p ∧ p ≠ [] := by
    intro zs hzs p hp
    obtain ⟨w, hw, rfl⟩ := List.mem_map.mp hp
    rw [List.mem_insertionSort, List.mem_map] at hw
    obtain ⟨z, hz, rfl⟩ := hw
    exact ⟨hsep z (hzs z hz), hne z (hzs z hz)⟩
  have hx := hpieces xs (by simp +contextual)
  have hy := hpieces ys (by simp +contextual)
  rw [← map_perm_map_iff hnorm, ← insertionSort_eq_iff r hanti]
  constructor
  · intro h
    have hmap := join_injective_of_pieces_ne_nil (fun p hp => (hx p hp).1)
      (fun p hp => (hy p hp).1) (fun p hp => (hx p hp).2) (fun p hp => (hy p hp).2) h
    exact List.map_injective_iff.mpr htext hmap
  · intro h
    rw [serialise, h, serialise]

/-- Where the encoding is injective the bag itself is determined. -/
theorem serialise_eq_iff_perm (hanti : ∀ a b, r a b → r b a → a = b)
    (htext : Function.Injective text) {sep : α} {enc : β → ω} {xs ys : List β}
    (hsep : ∀ x ∈ xs ++ ys, sep ∉ text (enc x)) (hne : ∀ x ∈ xs ++ ys, text (enc x) ≠ [])
    (hinj : ∀ a ∈ xs ++ ys, ∀ b ∈ xs ++ ys, enc a = enc b → a = b) :
    serialise r text sep enc xs = serialise r text sep enc ys ↔ xs.Perm ys := by
  have h : _ ↔ (xs.map fun x => x).Perm (ys.map fun x => x) :=
    serialise_eq_iff r text hanti htext hsep hne
      fun a ha b hb => ⟨hinj a ha b hb, congrArg enc⟩
  simpa using h

end Serialisation

end DelimitedLists
