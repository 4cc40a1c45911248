import Pkgexec.EncoderSpecs

/-!
# Record shapes and canonical bytes

The four record kinds differ in their fields and their domains only. A `RecordShape` is the
pair, the canonical byte string is one function of it, and each encoder of `digest.c`
accepts exactly the records of its shape whose canonical bytes fit the cap.
-/

namespace Pkgexec.PlanDigest
open CStrings DelimitedLists CappedBuffers Utf8Encoding

/-- A record kind: its domain and the fields it is written as. -/
structure RecordShape (ρ : Type) where
  Ok : ρ → Prop
  fields : ρ → List (List UInt8)
  noNul : ∀ r, ∀ p ∈ fields r, (0 : UInt8) ∉ p
  separated : ∀ r, Ok r → ∀ p ∈ fields r, us ∉ p ∧ rs ∉ p
  several : ∀ r, 2 ≤ (fields r).length

namespace RecordShape

variable {ρ : Type} (S : RecordShape ρ)

/-- The encoded record, as the string the encoder builds. -/
def enc (r : ρ) : CStr := .ofMem (join us (S.fields r))

theorem enc_bytes (r : ρ) : (S.enc r).bytes = join us (S.fields r) :=
  CStr.ofMem_of_noNul (noNul_join (by decide) (S.noNul r))

theorem length_field_le_enc {r : ρ} {p : List UInt8} (h : p ∈ S.fields r) :
    p.length ≤ (S.enc r).length := by
  rw [CStr.length, enc_bytes]
  exact length_le_join h

theorem enc_ne_nil (r : ρ) : (S.enc r).bytes ≠ [] := by
  have hlen := S.several r
  rw [enc_bytes]
  intro h
  have hzero := congrArg List.length h
  rw [length_join, List.length_nil] at hzero
  omega

theorem rs_notMem_enc {r : ρ} (h : S.Ok r) : rs ∉ (S.enc r).bytes := by
  rw [enc_bytes]
  intro hmem
  rcases mem_join hmem with hrs | ⟨p, hp, hrs⟩
  · exact absurd hrs (by decide)
  · exact (S.separated r h p hp).2 hrs

/-- Accepted records with the same encoding have the same fields. -/
theorem enc_eq_iff {a b : ρ} (ha : S.Ok a) (hb : S.Ok b) :
    S.enc a = S.enc b ↔ S.fields a = S.fields b := by
  constructor
  · intro h
    have hjoin := congrArg CStr.bytes h
    rw [enc_bytes, enc_bytes] at hjoin
    have hne : ∀ r, S.fields r ≠ [] := fun r hnil => by
      have := S.several r
      simp [hnil] at this
    exact join_injective (fun p hp => (S.separated a ha p hp).1)
      (fun p hp => (S.separated b hb p hp).1) (hne a) (hne b) hjoin
  · intro h
    rw [enc, enc, h]

/-- The records part of the canonical bytes. -/
def body (recs : List ρ) : List UInt8 := serialise BytewiseLe CStr.bytes rs S.enc recs

/-- `"1" RS verb RS`, then the records. -/
def canon (verb : CStr) (recs : List ρ) : List UInt8 :=
  0x31 :: rs :: (verb.bytes ++ rs :: S.body recs)

theorem body_eq (recs : List ρ) :
    S.body recs = join rs ((qsort (recs.map S.enc)).map CStr.bytes) := rfl

theorem enc_length_lt_canon {recs : List ρ} {r : ρ} (h : r ∈ recs) (verb : CStr) :
    (S.enc r).length + 1 ≤ (S.canon verb recs).length := by
  have hmem : (S.enc r).bytes ∈ (qsort (recs.map S.enc)).map CStr.bytes :=
    List.mem_map_of_mem (mem_qsort.mpr (List.mem_map_of_mem h))
  have hle : _ ≤ (join rs _).length := length_le_join hmem
  rw [← body_eq] at hle
  simp only [canon, CStr.length, List.length_cons, List.length_append]
  omega

/-- `f` builds exactly the accepted records of the shape that fit the buffer. -/
def Builds (f : ρ → Option CStr) : Prop :=
  ∀ r s, f r = some s ↔ S.Ok r ∧ (S.enc r).length + 1 ≤ maxCanon ∧ s = S.enc r

/-- A chain of appends that writes the fields, the separators and the terminator builds the
record when its checks are those of the domain. -/
theorem addPieces_builds {r : ρ} {qs : List Piece} {s : CStr}
    (hqs : qs.flatMap Piece.bytes = join us (S.fields r) ++ [0])
    (hok : (∀ q ∈ qs, q.ok = true) ↔ S.Ok r) :
    (addPieces {} qs).map (fun b => CStr.ofMem b.p) = some s ↔
      S.Ok r ∧ (S.enc r).length + 1 ≤ maxCanon ∧ s = S.enc r := by
  rw [addPieces_eq_some_iff hqs (noNul_join (by decide) (S.noNul r)), hok, CStr.length, enc_bytes,
    enc]

end RecordShape

/-- The bytes in front of the records, then the records joined by `RS`. -/
private theorem canon_appends (verb : CStr) (encs : List CStr) :
    Appends maxCanon Buf.p
      (fun b => (addPieces b [.raw [0x31], .raw [rs], .raw verb.bytes, .raw [rs]]).bind
        fun b => addItems rs true b (qsort encs))
      (0x31 :: rs :: (verb.bytes ++ rs :: join rs ((qsort encs).map CStr.bytes))) := by
  have hpre := @addPieces_appends [.raw [0x31], .raw [rs], .raw verb.bytes, .raw [rs]]
    (by simp [Piece.ok])
  have h := hpre.comp (addItems_appends rs (qsort encs))
  simpa [Piece.bytes] using h

/-- The digest depends on the buffer only through its contents. -/
private theorem finalize_eq_bind (E : Evp) (verb : CStr) (encs : List CStr)
    (hverb : fieldOk (some verb) = true) :
    finalize E verb encs =
      (append maxCanon [] (0x31 :: rs :: (verb.bytes ++ rs ::
        join rs ((qsort encs).map CStr.bytes)))).bind
          fun canon => (pkgxSha256Hex E canon).map fun hex => ⟨hex, canon⟩ := by
  have hcanon := canon_appends verb encs {} (Nat.zero_le _)
  rw [← hcanon, finalize, if_pos hverb, Option.bind_map, Option.bind_eq_bind, Option.bind_assoc]
  simp only [Option.bind_eq_bind, Option.map_eq_bind]
  rfl

private theorem finalize_eq_some_iff (E : Evp) (verb : CStr) (encs : List CStr) {d : Digest} :
    finalize E verb encs = some d ↔ fieldOk (some verb) = true ∧
      d.canon = 0x31 :: rs :: (verb.bytes ++ rs :: join rs ((qsort encs).map CStr.bytes)) ∧
      d.canon.length ≤ maxCanon ∧ pkgxSha256Hex E d.canon = some d.hex := by
  by_cases hverb : fieldOk (some verb) = true
  · rw [finalize_eq_bind E verb encs hverb, Option.bind_eq_some_iff]
    constructor
    · rintro ⟨canon, hcanon, hhex⟩
      obtain ⟨hlen, rfl⟩ := append_eq_some_iff.mp hcanon
      obtain ⟨hex, hsha, rfl⟩ := Option.map_eq_some_iff.mp hhex
      exact ⟨hverb, rfl, by simpa using hlen, hsha⟩
    · rintro ⟨-, hcanon, hlen, hsha⟩
      rw [← hcanon]
      exact ⟨d.canon, append_eq_some_iff.mpr ⟨by simpa using hlen, rfl⟩,
        Option.map_eq_some_iff.mpr ⟨d.hex, hsha, rfl⟩⟩
  · rw [finalize, if_neg hverb]
    simp [hverb]

private theorem mapM_eq_some_iff {ρ ω : Type} {f : ρ → Option ω} {P : ρ → Prop} {g : ρ → ω}
    (hf : ∀ r w, f r = some w ↔ P r ∧ w = g r) {xs : List ρ} {ws : List ω} :
    xs.mapM f = some ws ↔ (∀ r ∈ xs, P r) ∧ ws = xs.map g := by
  induction xs generalizing ws with
  | nil => simp [eq_comm]
  | cons r xs ih =>
    rw [List.mapM_cons]
    simp only [Option.bind_eq_bind, Option.bind_eq_some_iff, Option.pure_def, Option.some.injEq, hf,
      ih, List.forall_mem_cons, List.map_cons]
    constructor
    · rintro ⟨_, ⟨hr, rfl⟩, _, ⟨hxs, rfl⟩, rfl⟩
      exact ⟨⟨hr, hxs⟩, rfl⟩
    · rintro ⟨⟨hr, hxs⟩, rfl⟩
      exact ⟨_, ⟨hr, rfl⟩, _, ⟨hxs, rfl⟩, rfl⟩

/-- A successful encoder call: what was accepted and what was written. -/
structure Encodes {ρ : Type} (S : RecordShape ρ) (E : Evp) (verb : CStr) (recs : List ρ)
    (d : Digest) : Prop where
  ok : ∀ r ∈ recs, S.Ok r
  fits : (S.canon verb recs).length ≤ maxCanon
  hex : pkgxSha256Hex E (S.canon verb recs) = some d.hex
  canon : d.canon = S.canon verb recs

theorem RecordShape.Builds.encodes_iff {ρ : Type} {S : RecordShape ρ} {f : ρ → Option CStr}
    (h : S.Builds f) (E : Evp) {verb : CStr} (hverb : fieldOk (some verb) = true)
    {recs : List ρ} {d : Digest} :
    (recs.mapM f).bind (finalize E verb) = some d ↔ Encodes S E verb recs d := by
  have hmap : ∀ built, recs.mapM f = some built ↔
      (∀ r ∈ recs, S.Ok r ∧ (S.enc r).length + 1 ≤ maxCanon) ∧ built = recs.map S.enc := by
    intro built
    apply mapM_eq_some_iff
    intro r s
    rw [h r s, and_assoc]
  simp only [Option.bind_eq_some_iff, hmap, finalize_eq_some_iff]
  constructor
  · rintro ⟨_, ⟨hok, rfl⟩, -, hcanon, hle, hhex⟩
    rw [← S.body_eq, ← RecordShape.canon] at hcanon
    rw [hcanon] at hle hhex
    exact ⟨fun r hr => (hok r hr).1, hle, hhex, hcanon⟩
  · intro henc
    have hfits : ∀ r ∈ recs, (S.enc r).length + 1 ≤ maxCanon := fun r hr =>
      (S.enc_length_lt_canon hr verb).trans henc.fits
    refine ⟨recs.map S.enc, ⟨fun r hr => ⟨henc.ok r hr, hfits r hr⟩, rfl⟩, hverb, henc.canon, ?_,
      ?_⟩
    · rw [henc.canon]
      exact henc.fits
    · rw [henc.canon]
      exact henc.hex

end Pkgexec.PlanDigest
