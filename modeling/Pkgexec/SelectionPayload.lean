import Pkgexec.BuilderDomain
import Pkgexec.EffectDiscipline
import Pkgexec.RequestSchema
import Pkgexec.TargetGrammar

/-!
# The selections written to dpkg

The payload for `dpkg --set-selections` and the canonical bytes of the digest serialise the
same changes. Each is read back by splitting it at its separators, and the two readings are
the same bag of selections: no name of an accepted request can end a line or a field.
-/

namespace Pkgexec.Apt
open CStrings JsonValues PlanDigest DelimitedLists Plan Request

def newline : UInt8 := 0x0a
def blank : UInt8 := 0x20

/-- The lines of a payload, each cut at its blanks. -/
def selectionLines (payload : List UInt8) : List (List (List UInt8)) :=
  (payload.splitOn newline).map (·.splitOn blank)

/-- A selection as it is written: the package and the state it is put into. -/
def PkgxHoldHolder.selection (change : PkgxHoldHolder) : List (List UInt8) :=
  [change.package.bytes, change.toState.bytes]

theorem nameByte_gt_blank {c : UInt8} (h : nameByte c = true ∨ c = colon) :
    blank.toNat < c.toNat := by
  have hblank : blank.toNat = 32 := rfl
  rcases nameByte_cases h with rfl | h | h | rfl | rfl | rfl
  · decide
  · omega
  · omega
  · decide
  · decide
  · decide

/-- A name is free of the separators of the payload. -/
theorem nameOk_separators {s : CStr} (h : nameOk s = true) :
    newline ∉ s.bytes ∧ blank ∉ s.bytes := by
  constructor
  · intro hmem
    exact absurd (nameByte_gt_blank (nameOk_bytes h _ hmem)) (by decide)
  · intro hmem
    exact absurd (nameByte_gt_blank (nameOk_bytes h _ hmem)) (by decide)

theorem toState_separators (hold : Bool) :
    newline ∉ (toState hold).bytes ∧ blank ∉ (toState hold).bytes := by
  cases hold <;> decide

/-- The separators are read back where they were written. -/
theorem selectionLines_payload {changes : List PkgxHoldHolder}
    (h : ∀ change ∈ changes, ∀ p ∈ change.selection, newline ∉ p ∧ blank ∉ p) :
    selectionLines (holdPayload changes).bytes =
      changes.map PkgxHoldHolder.selection ++ [[[]]] := by
  have hpayload : (holdPayload changes).bytes =
      (changes.map fun change => join blank change.selection).flatMap (· ++ [newline]) := by
    have hlines : (changes.flatMap fun change => change.package.bytes ++ 0x20 ::
        change.toState.bytes ++ [0x0a]) =
        (changes.map fun change => join blank change.selection).flatMap (· ++ [newline]) := by
      simp [List.flatMap_map, PkgxHoldHolder.selection, join_cons_cons, blank, newline]
    rw [← hlines]
    apply CStr.ofMem_of_noNul
    simp only [List.mem_flatMap, List.mem_append, List.mem_cons, not_exists, not_and]
    rintro change - ((hnul | hnul | hnul) | hnul | hnul)
    · exact change.package.noNul hnul
    · exact absurd hnul (by decide)
    · exact change.toState.noNul hnul
    · exact absurd hnul (by decide)
    · simp at hnul
  have hline : ∀ line ∈ changes.map fun change => join blank change.selection,
      newline ∉ line := by
    intro line hmem
    obtain ⟨change, hchange, rfl⟩ := List.mem_map.mp hmem
    intro hnl
    rcases mem_join hnl with hnl | ⟨p, hp, hnl⟩
    · exact absurd hnl (by decide)
    · exact (h change hchange p hp).1 hnl
  rw [selectionLines, hpayload, splitOn_terminated hline, List.map_append, List.map_map]
  congr 1
  apply List.map_congr_left
  intro change hchange
  exact splitOn_join (fun p hp => (h change hchange p hp).2) (by simp [PkgxHoldHolder.selection])

/-- The records of a canonical string, each cut into its fields. -/
def canonRecords (canon : List UInt8) : List (List (List UInt8)) :=
  (((canon.splitOn rs).drop 2).filter (· ≠ [])).map (·.splitOn us)

/-- The package and the state a record puts it into. -/
def recordSelection (fields : List (List UInt8)) : List (List UInt8) :=
  [fields.getD 0 [], fields.getD 2 []]

end Pkgexec.Apt

namespace Pkgexec.PlanDigest.RecordShape
open CStrings DelimitedLists Apt

variable {ρ : Type} (S : RecordShape ρ)

theorem splitOn_enc {r : ρ} (h : S.Ok r) : (S.enc r).bytes.splitOn us = S.fields r := by
  rw [S.enc_bytes]
  apply splitOn_join fun p hp => (S.separated r h p hp).1
  intro hnil
  have hseveral := S.several r
  simp [hnil] at hseveral

/-- The records read back from a canonical string are those encoded in it. -/
theorem canonRecords_canon {verb : CStr} {recs : List ρ} (hverb : rs ∉ verb.bytes)
    (hok : ∀ r ∈ recs, S.Ok r) : (canonRecords (S.canon verb recs)).Perm (recs.map S.fields) := by
  obtain ⟨pieces, hpieces⟩ : ∃ pieces, pieces = (qsort (recs.map S.enc)).map CStr.bytes := ⟨_, rfl⟩
  have hperm : pieces.Perm (recs.map fun r => (S.enc r).bytes) := by
    rw [hpieces]
    simpa [Function.comp_def] using (qsort_perm (recs.map S.enc)).map CStr.bytes
  have hpiece : ∀ p ∈ pieces, rs ∉ p ∧ p ≠ [] := by
    intro p hp
    obtain ⟨r, hr, rfl⟩ := List.mem_map.mp (hperm.mem_iff.mp hp)
    exact ⟨S.rs_notMem_enc (hok r hr), S.enc_ne_nil r⟩
  -- without records the last field is empty, and no record is
  obtain ⟨tail, htail, hne, hfilter, hsep⟩ : ∃ tail, join rs tail = join rs pieces ∧ tail ≠ [] ∧
      tail.filter (· ≠ []) = pieces ∧ ∀ p ∈ tail, rs ∉ p := by
    cases hnil : pieces with
    | nil => exact ⟨[[]], by simp, by simp, by simp, by simp⟩
    | cons p ps =>
      rw [← hnil]
      refine ⟨pieces, rfl, by simp [hnil], ?_, fun p hp => (hpiece p hp).1⟩
      exact List.filter_eq_self.mpr fun p hp => decide_eq_true (hpiece p hp).2
  have hcanon : S.canon verb recs = join rs ([0x31] :: verb.bytes :: tail) := by
    rw [canon, body_eq, ← hpieces, ← htail, join_cons_cons, join_cons_of_ne_nil rs _ hne]
    rfl
  have hsplit : (S.canon verb recs).splitOn rs = [0x31] :: verb.bytes :: tail := by
    rw [hcanon]
    refine splitOn_join ?_ (by simp)
    intro p hp
    rcases List.mem_cons.mp hp with rfl | hp
    · decide
    rcases List.mem_cons.mp hp with rfl | hp
    · exact hverb
    · exact hsep p hp
  have hread : canonRecords (S.canon verb recs) = pieces.map (·.splitOn us) := by
    rw [canonRecords, hsplit, ← hfilter]
    rfl
  have hfields : (recs.map fun r => (S.enc r).bytes).map (·.splitOn us) = recs.map S.fields := by
    rw [List.map_map]
    exact List.map_congr_left fun r hr => S.splitOn_enc (hok r hr)
  rw [hread, ← hfields]
  exact hperm.map _

end Pkgexec.PlanDigest.RecordShape

namespace Pkgexec.Apt
open CStrings JsonValues PlanDigest DelimitedLists Plan Request

/-- The package and the state of a change record. -/
def selectionOf (r : HoldRecord) : List (List UInt8) := [text r.package, text r.toState]

section Committed

variable {cache : PkgCache} {targets : List CStr} {hold : Bool} {changes : List PkgxHoldHolder}
  {recs : List HoldRecord}

/-- The changes of acceptable names are written as one line each. -/
theorem selectionLines_of_map (htargets : TargetsOk targets)
    (hmap : pkgxAptMapHold cache targets hold = .ok (changes, recs)) :
    selectionLines (holdPayload changes).bytes = recs.map selectionOf ++ [[[]]] := by
  obtain ⟨-, -, rfl⟩ := pkgxAptMapHold_eq_ok_iff.mp hmap
  rw [selectionLines_payload, List.map_map]
  · rfl
  · intro change hchange p hp
    obtain ⟨ht, hto, -⟩ := mem_changes hmap hchange
    simp only [PkgxHoldHolder.selection, List.mem_cons, List.not_mem_nil, or_false] at hp
    rcases hp with rfl | rfl
    · exact nameOk_separators (htargets.each _ ht)
    · exact hto ▸ toState_separators hold

/-- The canonical bytes hold the same selections. -/
theorem recordSelections_of_digest {E : Evp} {verb : CStr} {d : Digest}
    (hd : pkgxDigestHold E (some verb) recs = some d) :
    ((canonRecords d.canon).map recordSelection).Perm (recs.map selectionOf) := by
  obtain ⟨v, hv, hmem, henc⟩ := pkgxDigestHold_eq_some_iff.mp hd
  obtain rfl := Option.some.inj hv
  have hverb : ∀ v ∈ holdVerbs, rs ∉ v.bytes := by decide
  have hfields : (recs.map holdShape.fields).map recordSelection = recs.map selectionOf := by
    rw [List.map_map]
    rfl
  rw [henc.canon, ← hfields]
  exact (holdShape.canonRecords_canon (hverb verb hmem) henc.ok).map recordSelection

end Committed

/-- The payload of an accepted request reads back as the selections of its change records, the
canonical bytes of its digest read back as the same bag of selections, and these are the
payload that the committer writes and the records that the plan step digests. -/
theorem committed_selections_digested {J : Jansson} {verb : CStr} {body : List UInt8}
    {req : PkgxRequest} {targets : List CStr} {cache : PkgCache} {changes : List PkgxHoldHolder}
    {recs : List HoldRecord} (hparse : pkgxParseRequest J verb body = .ok req)
    (htargets : req.packages = some targets)
    (hmap : pkgxAptMapHold cache targets (verb = .lit "apt.hold") = .ok (changes, recs)) :
    selectionLines (holdPayload changes).bytes = recs.map selectionOf ++ [[[]]] ∧
    (∀ E d, pkgxDigestHold E (some verb) recs = some d →
      ((canonRecords d.canon).map recordSelection).Perm (recs.map selectionOf)) ∧
    ∀ h call M, h.cache.pkgCache = some cache → prepareHold h verb targets = .ok (call, M) →
      call = .hold (some verb) recs (targets.map some) ∧
        M.commit = holdCommit h (holdPayload changes) := by
  obtain ⟨names, haccepted⟩ := pkgxParseRequest_ok hparse
  obtain rfl : targets = names := Option.some.inj (htargets.symm.trans haccepted.packages)
  refine ⟨selectionLines_of_map haccepted.targets hmap, fun E d => recordSelections_of_digest, ?_⟩
  intro h call M hcache hprepare
  obtain ⟨cache', changes', recs', hcache', hmap', rfl, rfl⟩ := Effector.prepareHold_ok hprepare
  obtain rfl : cache = cache' := Option.some.inj (hcache.symm.trans hcache')
  rw [hmap] at hmap'
  obtain ⟨rfl, rfl⟩ := Prod.mk.inj (Except.ok.inj hmap')
  exact ⟨rfl, rfl⟩

def nginxChange : PkgxHoldHolder := ⟨.lit "nginx", .lit "install", .lit "hold", true⟩

/-- One line for the one package that is put on hold. -/
theorem committed_selections_digested_nginx :
    selectionLines (holdPayload [nginxChange]).bytes =
      [[(CStr.lit "nginx").bytes, (CStr.lit "hold").bytes], [[]]] := by
  have hmap : pkgxAptMapHold (cacheOf [installedPkg (.lit "nginx")]) [.lit "nginx"]
      (CStr.lit "apt.hold" = .lit "apt.hold") = .ok ([nginxChange], [nginxChange.record]) := rfl
  exact (committed_selections_digested holdRequest_accepted rfl hmap).1

end Pkgexec.Apt
