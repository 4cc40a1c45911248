import Pkgexec.FieldAlphabet
import Pkgexec.DelimitedLists

/-!
# What the encoders write

One specification for each function of `digest.c`: a list is validated, sorted and joined;
a record is its fields joined by `US`; the canonical bytes are the sorted records joined by
`RS` after the verb. Every specification is an equivalence, so it also says exactly when the
function refuses.
-/

namespace Pkgexec.PlanDigest
open CStrings DelimitedLists CappedBuffers Utf8Encoding

private theorem cmpBytewise_nonpos_iff {xs ys : List UInt8} (hxs : (0 : UInt8) ∉ xs) :
    cmpBytewise xs ys ≤ 0 ↔ xs ≤ ys := by
  induction xs generalizing ys with
  | nil => cases ys <;> simp [cmpBytewise]
  | cons x xs ih =>
    have hx : x.toNat ≠ 0 := fun h => hxs (UInt8.toNat.inj (b := 0) h ▸ List.mem_cons_self)
    have htail : (0 : UInt8) ∉ xs := fun h => hxs (List.mem_cons_of_mem x h)
    cases ys with
    | nil =>
      have hle : ¬ x :: xs ≤ [] := by simp
      simp only [cmpBytewise, hle, iff_false]
      omega
    | cons y ys =>
      rw [List.cons_le_cons_iff, cmpBytewise, UInt8.lt_iff_toNat_lt]
      by_cases hxy : x = y
      · simp [hxy, ih htail]
      · have hne : x.toNat ≠ y.toNat := fun h => hxy (UInt8.toNat.inj h)
        simp only [ne_eq, hxy, not_false_eq_true, if_true, false_and, or_false]
        omega

/-- `cmp_bytewise` is the lexicographic order of the bytes. -/
theorem bytewiseLe_iff {a b : CStr} : BytewiseLe a b ↔ a.bytes ≤ b.bytes :=
  cmpBytewise_nonpos_iff a.noNul

instance : Std.Total BytewiseLe where
  total a b := by
    rw [bytewiseLe_iff, bytewiseLe_iff]
    exact List.le_total _ _

instance : IsTrans CStr BytewiseLe where
  trans a b c := by
    rw [bytewiseLe_iff, bytewiseLe_iff, bytewiseLe_iff]
    exact List.le_trans

theorem bytewiseLe_antisymm (a b : CStr) (hab : BytewiseLe a b) (hba : BytewiseLe b a) :
    a = b := by
  rw [bytewiseLe_iff] at hab hba
  exact CStr.ext (List.le_antisymm hab hba)

@[simp] theorem mem_qsort {s : CStr} {items : List CStr} : s ∈ qsort items ↔ s ∈ items :=
  List.mem_insertionSort _

theorem qsort_perm (items : List CStr) : (qsort items).Perm items :=
  List.perm_insertionSort _ _

theorem qsort_sorted (items : List CStr) : (qsort items).Pairwise BytewiseLe :=
  List.pairwise_insertionSort _ _

/-- In a sorted list equal members are neighbours. -/
theorem hasAdjacentDup_iff {items : List CStr} (h : items.Pairwise BytewiseLe) :
    hasAdjacentDup items = true ↔ ¬ items.Nodup := by
  induction items with
  | nil => simp [hasAdjacentDup]
  | cons a rest ih =>
    cases rest with
    | nil => simp [hasAdjacentDup]
    | cons b rest =>
      obtain ⟨ha, hrest⟩ := List.pairwise_cons.mp h
      obtain ⟨hb, -⟩ := List.pairwise_cons.mp hrest
      have hmem : a ∈ b :: rest ↔ a = b := by
        constructor
        · intro hm
          rcases List.mem_cons.mp hm with hab | hm
          · exact hab
          · exact bytewiseLe_antisymm a b (ha b (by simp)) (hb a hm)
        · rintro rfl
          simp
      rw [List.nodup_cons, hasAdjacentDup, Bool.or_eq_true, ih hrest, decide_eq_true_eq, hmem]
      tauto

theorem bufAdd_appends (d : List UInt8) : Appends maxCanon Buf.p (bufAdd · d) d :=
  bufAdd_implements.appends d

theorem bufAddc_appends (c : UInt8) : Appends maxCanon Buf.p (bufAddc · c) [c] :=
  bufAdd_appends [c]

private theorem addItems_tail_appends (sep : UInt8) (items : List CStr) :
    Appends maxCanon Buf.p (addItems sep false · items) (items.flatMap (sep :: ·.bytes)) := by
  induction items with
  | nil => exact Appends.skip
  | cons s rest ih =>
    have h := (bufAddc_appends sep).comp ((bufAdd_appends s.bytes).comp ih)
    simpa [addItems] using h

theorem addItems_appends (sep : UInt8) (items : List CStr) :
    Appends maxCanon Buf.p (addItems sep true · items) (join sep (items.map CStr.bytes)) := by
  cases items with
  | nil => exact Appends.skip
  | cons s rest =>
    have h := (bufAdd_appends s.bytes).comp (addItems_tail_appends sep rest)
    rw [List.map_cons, join_cons, List.flatMap_map]
    simpa [addItems] using h

/-- What a piece contributes, whether or not it is accepted. -/
def Piece.bytes : Piece → List UInt8
  | .field s => (orEmpty s).bytes
  | .raw d => d

def Piece.ok : Piece → Bool
  | .field s => fieldOk s
  | .raw _ => true

theorem addPiece_eq (b : Buf) (q : Piece) :
    addPiece b q = if q.ok then bufAdd b q.bytes else none := by
  cases q with
  | field s => rfl
  | raw d => simp [addPiece, Piece.ok, Piece.bytes]

theorem addPieces_appends {qs : List Piece} (h : ∀ q ∈ qs, q.ok = true) :
    Appends maxCanon Buf.p (addPieces · qs) (qs.flatMap Piece.bytes) := by
  induction qs with
  | nil => exact Appends.skip
  | cons q qs ih =>
    have hq : Appends maxCanon Buf.p (addPiece · q) q.bytes := by
      have hadd := bufAdd_appends q.bytes
      simpa only [addPiece_eq, h q (by simp), if_true] using hadd
    exact hq.comp (ih fun q' hq' => h q' (by simp [hq']))

theorem addPieces_refused {b : Buf} {qs : List Piece} (h : ∃ q ∈ qs, q.ok = false) :
    addPieces b qs = none := by
  induction qs generalizing b with
  | nil => simp at h
  | cons q qs ih =>
    obtain ⟨q', hq', hok⟩ := h
    rcases List.mem_cons.mp hq' with rfl | hq'
    · simp [addPieces, addPiece_eq, hok]
    · rw [addPieces]
      cases addPiece b q with
      | none => rfl
      | some b' => exact ih ⟨q', hq', hok⟩

/-- A chain that ends with the terminator leaves the bytes before it as a string. -/
theorem terminated_iff {step : Buf → Option Buf} {d : List UInt8}
    (h : Appends maxCanon Buf.p step (d ++ [0])) (hd : (0 : UInt8) ∉ d) {s : CStr} :
    (step {}).map (fun b => CStr.ofMem b.p) = some s ↔
      d.length + 1 ≤ maxCanon ∧ s = CStr.ofMem d := by
  have hs : CStr.ofMem (d ++ [0]) = CStr.ofMem d :=
    CStr.ext ((CStr.ofMem_append_nul hd []).trans (CStr.ofMem_of_noNul hd).symm)
  have hp := h {} (Nat.zero_le _)
  have hmap : (step {}).map (fun b => CStr.ofMem b.p) =
      (append maxCanon [] (d ++ [0])).map CStr.ofMem := by
    rw [← hp, Option.map_map]
    rfl
  rw [hmap, append]
  by_cases hlen : d.length + 1 ≤ maxCanon
  · simp [hlen, hs, eq_comm]
  · simp [hlen]

theorem addPieces_eq_some_iff {qs : List Piece} {d : List UInt8}
    (hqs : qs.flatMap Piece.bytes = d ++ [0]) (hd : (0 : UInt8) ∉ d) {s : CStr} :
    (addPieces {} qs).map (fun b => CStr.ofMem b.p) = some s ↔
      (∀ q ∈ qs, q.ok = true) ∧ d.length + 1 ≤ maxCanon ∧ s = CStr.ofMem d := by
  by_cases hok : ∀ q ∈ qs, q.ok = true
  · have h := addPieces_appends hok
    rw [hqs] at h
    exact (terminated_iff h hd).trans (and_iff_right hok).symm
  · have hbad : ∃ q ∈ qs, q.ok = false := by simpa using hok
    rw [addPieces_refused hbad]
    simp [hok]

theorem noNul_join {sep : UInt8} {parts : List (List UInt8)} (hsep : sep ≠ 0)
    (h : ∀ p ∈ parts, (0 : UInt8) ∉ p) : (0 : UInt8) ∉ join sep parts := by
  intro hmem
  rcases mem_join hmem with h0 | ⟨p, hp, h0⟩
  · exact hsep h0.symm
  · exact h p hp h0

/-- The text of a list field: the items sorted and joined by commas. -/
def itemsText (items : List CStr) : List UInt8 := serialise BytewiseLe CStr.bytes comma id items

theorem itemsText_eq (items : List CStr) :
    itemsText items = join comma ((qsort items).map CStr.bytes) := by
  rw [itemsText, serialise, List.map_id, qsort]

theorem noNul_itemsText (items : List CStr) : (0 : UInt8) ∉ itemsText items := by
  rw [itemsText_eq]
  refine noNul_join (by decide) fun p hp => ?_
  obtain ⟨s, -, rfl⟩ := List.mem_map.mp hp
  exact s.noNul

theorem joinItems_eq_ok_iff {items : List CStr} {s : CStr} :
    joinItems (qsort items) = .ok s ↔
      (itemsText items).length + 1 ≤ maxCanon ∧ s = .ofMem (itemsText items) := by
  have h := (addItems_appends comma (qsort items)).comp (bufAddc_appends 0)
  rw [← itemsText_eq] at h
  rw [← terminated_iff h (noNul_itemsText items), joinItems]
  cases (addItems comma true {} (qsort items)).bind (bufAddc · 0) <;> simp

/-- The items `join_sorted` accepts when it refuses duplicates. -/
structure ItemsOk (allowed : Option (List CStr)) (items : List (Option CStr)) : Prop where
  fields : ∀ s ∈ items, fieldOk s = true
  inDomain : ∀ set, allowed = some set → ∀ s ∈ items, orEmpty s ∈ set
  nodup : (items.map orEmpty).Nodup

theorem joinSorted_eq_ok_iff {items : List (Option CStr)} {allowed : Option (List CStr)}
    {s : CStr} : joinSorted items true allowed = .ok s ↔
      ItemsOk allowed items ∧ (itemsText (items.map orEmpty)).length + 1 ≤ maxCanon ∧
        s = .ofMem (itemsText (items.map orEmpty)) := by
  have hdup := hasAdjacentDup_iff (qsort_sorted (items.map orEmpty))
  rw [(qsort_perm (items.map orEmpty)).nodup_iff] at hdup
  have hall : items.all (fun s => fieldOk s && allowed.all (inSet (orEmpty s))) = true ↔
      (∀ s ∈ items, fieldOk s = true) ∧
        ∀ set, allowed = some set → ∀ s ∈ items, orEmpty s ∈ set := by
    cases allowed <;> simp [forall_and]
  rw [joinSorted, ← joinItems_eq_ok_iff]
  by_cases hok : ItemsOk allowed items
  · rw [if_pos (hall.mpr ⟨hok.fields, hok.inDomain⟩)]
    have hno : ¬ hasAdjacentDup (qsort (items.map orEmpty)) = true :=
      hdup.not.mpr (not_not.mpr hok.nodup)
    simp [hno, hok]
  · by_cases hfields : items.all (fun s => fieldOk s && allowed.all (inSet (orEmpty s))) = true
    · have hyes : hasAdjacentDup (qsort (items.map orEmpty)) = true := by
        refine hdup.mpr fun hnodup => hok ⟨?_, ?_, hnodup⟩
        · exact (hall.mp hfields).1
        · exact (hall.mp hfields).2
      rw [if_pos hfields]
      simp [hyes, hok]
    · rw [if_neg hfields]
      simp [hok]

/-- A pair of the option arrays, `NULL` read as empty. -/
def optPair (kv : Option CStr × Option CStr) : CStr × CStr := (orEmpty kv.1, orEmpty kv.2)

/-- The text of an option list. -/
def optsText (opts : List (CStr × CStr)) : List UInt8 :=
  serialise BytewiseLe CStr.bytes comma (fun kv => kvPair kv.1 kv.2) opts

theorem optsText_eq (opts : List (CStr × CStr)) :
    optsText opts = itemsText (opts.map fun kv => kvPair kv.1 kv.2) := by
  rw [optsText, itemsText, serialise, serialise, List.map_id]

theorem kvPair_bytes (k v : CStr) : (kvPair k v).bytes = k.bytes ++ equals :: v.bytes := by
  refine CStr.ofMem_of_noNul ?_
  simp only [List.mem_append, List.mem_cons, not_or]
  exact ⟨k.noNul, by decide, v.noNul⟩

/-- The options `join_sorted_kv` accepts. -/
structure OptsOk (allowed : List CStr) (opts : List (Option CStr × Option CStr)) : Prop where
  fields : ∀ kv ∈ opts, fieldOk kv.1 = true ∧ fieldOk kv.2 = true
  inDomain : ∀ kv ∈ opts, orEmpty kv.1 ∈ allowed
  nodup : ((opts.map optPair).map Prod.fst).Nodup

private theorem kvValid_iff {allowed seen : List CStr} {opts : List (Option CStr × Option CStr)} :
    kvValid allowed seen opts = true ↔
      OptsOk allowed opts ∧ ∀ kv ∈ opts, orEmpty kv.1 ∉ seen := by
  induction opts generalizing seen with
  | nil => simpa [kvValid] using OptsOk.mk (by simp) (by simp) (by simp)
  | cons kv rest ih =>
    obtain ⟨k, v⟩ := kv
    simp only [kvValid, Bool.and_eq_true, ih, inSet_iff, Bool.not_eq_true', Bool.eq_false_iff,
      ne_eq, List.mem_append, List.mem_singleton, not_or]
    constructor
    · rintro ⟨⟨⟨⟨hk, hv⟩, hdom⟩, hseen⟩, hok, hrest⟩
      refine ⟨⟨?_, ?_, ?_⟩, ?_⟩
      · simpa [hk, hv] using hok.fields
      · simpa [hdom] using hok.inDomain
      · refine List.nodup_cons.mpr ⟨?_, hok.nodup⟩
        intro hmem
        simp only [List.map_map, List.mem_map, Function.comp, optPair] at hmem
        obtain ⟨kv, hkv, heq⟩ := hmem
        exact (hrest kv hkv).2 heq
      · intro kv hkv
        rcases List.mem_cons.mp hkv with rfl | hkv
        · exact hseen
        · exact (hrest kv hkv).1
    · rintro ⟨hok, hseen⟩
      obtain ⟨hk, hv⟩ := hok.fields (k, v) (by simp)
      obtain ⟨hnew, hnodup⟩ := List.nodup_cons.mp hok.nodup
      refine ⟨⟨⟨⟨hk, hv⟩, hok.inDomain (k, v) (by simp)⟩, hseen (k, v) (by simp)⟩,
        ⟨fun kv hkv => hok.fields kv (by simp [hkv]), fun kv hkv => hok.inDomain kv (by simp [hkv]),
          hnodup⟩, ?_⟩
      intro kv hkv
      refine ⟨hseen kv (by simp [hkv]), fun heq => hnew ?_⟩
      simp only [List.map_map, List.mem_map, Function.comp, optPair]
      exact ⟨kv, hkv, heq⟩

theorem joinSortedKv_eq_ok_iff {opts : List (Option CStr × Option CStr)} {allowed : List CStr}
    {s : CStr} : joinSortedKv opts allowed = .ok s ↔
      OptsOk allowed opts ∧ (optsText (opts.map optPair)).length + 1 ≤ maxCanon ∧
        s = .ofMem (optsText (opts.map optPair)) := by
  have hpairs : (opts.map fun kv => kvPair (orEmpty kv.1) (orEmpty kv.2)) =
      (opts.map optPair).map fun kv => kvPair kv.1 kv.2 := by
    rw [List.map_map]
    rfl
  have hvalid : kvValid allowed [] opts = true ↔ OptsOk allowed opts := by
    rw [kvValid_iff]
    simp
  rw [optsText_eq, ← joinItems_eq_ok_iff, joinSortedKv, hpairs]
  by_cases hok : OptsOk allowed opts
  · rw [if_pos (hvalid.mpr hok)]
    simp [hok]
  · rw [if_neg (hvalid.not.mpr hok)]
    simp [hok]

end Pkgexec.PlanDigest
