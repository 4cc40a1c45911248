import Pkgexec.DoublingLoops
import Pkgexec.PlanDigest

/-!
# The digest buffer on machine words

`buf_reserve`, `buf_add` and `buf_addc` again, on a `size_t` of `w` bits, with the block that
`p` points to and an allocator that may fail. A run is any sequence of appends, failed ones
included; a loop takes fuel, and a copy that would leave a block has no result.
-/

namespace Pkgexec.DigestBuffer
open DoublingLoops
open PlanDigest (maxCanon)

/-- `p` is the block itself; a byte that was never written is `none`. -/
structure SizeBuf (w : ℕ) where
  p : List (Option UInt8) := []
  len : BitVec w := 0
  cap : BitVec w := 0
  deriving DecidableEq

/-- `PKGEXEC_DIGEST_MAX_CANON` as a `size_t`. -/
def maxSize (w : ℕ) : BitVec w := .ofNat w maxCanon

/-- The block of `n` bytes that a successful `realloc` returns. -/
def realloc (p : List (Option UInt8)) (n : ℕ) : List (Option UInt8) :=
  p.take n ++ List.replicate (n - p.length) none

/-- `memcpy(p + off, d, n)`, if it stays within both blocks. -/
def memcpy (p : List (Option UInt8)) (off : ℕ) (d : List UInt8) (n : ℕ) :
    Option (List (Option UInt8)) :=
  if n ≤ d.length ∧ off + n ≤ p.length then
    some (p.take off ++ (d.take n).map some ++ p.drop (off + n))
  else none

section Appends

variable {w : ℕ} (fuel : ℕ) (alloc : Bool)

/-- Where the doubling starts. -/
def firstCap (b : SizeBuf w) : BitVec w := if b.cap ≠ 0 then b.cap else 64

/-- The return value and the buffer; `alloc` is whether `realloc` succeeds. -/
def bufReserve (b : SizeBuf w) (extra : BitVec w) : Option (ℤ × SizeBuf w) :=
  if b.len > maxSize w ∨ extra > maxSize w - b.len then some (-1, b)
  else
    let need := b.len + extra
    if need ≤ b.cap then some (0, b)
    else do
      let nc ← growLoop need fuel (firstCap b)
      if alloc then some (0, { b with p := realloc b.p nc.toNat, cap := nc }) else some (-1, b)

def bufAdd (b : SizeBuf w) (d : List UInt8) (n : BitVec w) : Option (ℤ × SizeBuf w) := do
  let (rc, b) ← bufReserve fuel alloc b n
  if rc ≠ 0 then some (-1, b)
  else do
    let p ← memcpy b.p b.len.toNat d n.toNat
    some (0, { b with p, len := b.len + n })

def bufAddc (b : SizeBuf w) (c : UInt8) : Option (ℤ × SizeBuf w) := bufAdd fuel alloc b [c] 1

end Appends

/-- A call of `buf_add`, whose pointer is good for `n` bytes, or of `buf_addc`. -/
inductive AppendCall (w : ℕ) where
  | add (d : List UInt8) (n : BitVec w) (hn : n.toNat ≤ d.length)
  | addc (c : UInt8)

namespace AppendCall

variable {w : ℕ}

def run (fuel : ℕ) (alloc : Bool) (b : SizeBuf w) : AppendCall w → Option (ℤ × SizeBuf w)
  | add d n _ => bufAdd fuel alloc b d n
  | addc c => bufAddc fuel alloc b c

def size : AppendCall w → BitVec w
  | add _ n _ => n
  | addc _ => 1

def bytes : AppendCall w → List UInt8
  | add d n _ => d.take n.toNat
  | addc c => [c]

end AppendCall

/-- The calls in order, each with the answer of the allocator; the return values are not looked
at. -/
def runCalls {w : ℕ} (fuel : ℕ) : SizeBuf w → List (AppendCall w × Bool) → Option (SizeBuf w)
  | b, [] => some b
  | b, (call, alloc) :: rest => do
    let (_, b) ← call.run fuel alloc b
    runCalls fuel b rest

variable {w fuel : ℕ} {alloc : Bool} {b : SizeBuf w} {extra n : BitVec w}

/-- The bytes up to `len`. -/
def SizeBuf.contents (b : SizeBuf w) : List (Option UInt8) := b.p.take b.len.toNat

structure Bounded (b : SizeBuf w) : Prop where
  len_le_cap : b.len.toNat ≤ b.cap.toNat
  cap_le_max : b.cap.toNat ≤ maxCanon
  cap_shape : b.cap.toNat = 0 ∨ ∃ k, b.cap.toNat = 64 * 2 ^ k
  block : b.p.length = b.cap.toNat
  written : ∃ s : List UInt8, b.contents = s.map some

theorem Bounded.len_le_max (h : Bounded b) : b.len.toNat ≤ maxCanon :=
  h.len_le_cap.trans h.cap_le_max

theorem Bounded.empty : Bounded ({} : SizeBuf w) where
  len_le_cap := by simp
  cap_le_max := by simp
  cap_shape := .inl (by simp)
  block := by simp
  written := ⟨[], rfl⟩

section Words

variable (hw : 32 ≤ w)

include hw

theorem maxCanon_lt : maxCanon < 2 ^ w :=
  (show maxCanon < 2 ^ 32 by decide).trans_le (Nat.pow_le_pow_right (by decide) hw)

theorem toNat_one : (1 : BitVec w).toNat = 1 :=
  (BitVec.toNat_ofNat 1 w).trans (Nat.mod_eq_of_lt (lt_trans (by decide) (maxCanon_lt hw)))

theorem toNat_maxSize : (maxSize w).toNat = maxCanon := by
  rw [maxSize, BitVec.toNat_ofNat, Nat.mod_eq_of_lt (maxCanon_lt hw)]

/-- The first comparison makes the subtraction exact, and the second one the addition. -/
theorem refuses_iff (h : Bounded b) :
    (b.len > maxSize w ∨ extra > maxSize w - b.len) ↔ maxCanon - b.len.toNat < extra.toNat := by
  have hmax := toNat_maxSize hw
  have hle : b.len ≤ maxSize w := by
    rw [BitVec.le_def, hmax]
    exact h.len_le_max
  rw [gt_iff_lt, gt_iff_lt, or_iff_right (BitVec.not_lt.mpr hle), BitVec.lt_def,
    BitVec.toNat_sub_of_le hle, hmax]

theorem toNat_need (h : Bounded b) (hextra : extra.toNat ≤ maxCanon - b.len.toNat) :
    (b.len + extra).toNat = b.len.toNat + extra.toNat := by
  have hmax := maxCanon_lt hw
  have hlen := h.len_le_max
  exact BitVec.toNat_add_of_lt (by omega)

theorem need_covered (h : Bounded b) (hextra : extra.toNat ≤ maxCanon - b.len.toNat) :
    Covered 64 16 (b.len + extra) where
  word := maxCanon_lt hw
  covers := by
    have hlen := h.len_le_max
    rw [toNat_need hw h hextra]
    show b.len.toNat + extra.toNat ≤ maxCanon
    omega

theorem toNat_firstCap :
    (firstCap b).toNat = if b.cap.toNat ≠ 0 then b.cap.toNat else 64 := by
  have h64 : 64 % 2 ^ w = 64 := Nat.mod_eq_of_lt (lt_trans (by decide) (maxCanon_lt hw))
  rw [firstCap]
  by_cases hcap : b.cap = 0
  · simp [hcap, h64]
  · have hne : b.cap.toNat ≠ 0 := by simpa [BitVec.toNat_eq] using hcap
    rw [if_pos hcap, if_pos hne]

/-- The doubling starts at 64 or at a doubling of it. -/
theorem firstCap_doubled (h : Bounded b) : ∃ j ≤ 16, Doubled 64 j (firstCap b) := by
  simp only [Doubled, toNat_firstCap hw]
  rcases h.cap_shape with hzero | ⟨k, hk⟩
  · exact ⟨0, by decide, by simp [hzero]⟩
  · have hpos : 0 < 64 * 2 ^ k := Nat.mul_pos (by decide) (Nat.two_pow_pos k)
    have hmax : 64 * 2 ^ k ≤ 64 * 2 ^ 16 := hk ▸ h.cap_le_max
    have hle : 2 ^ k ≤ 2 ^ 16 := Nat.le_of_mul_le_mul_left hmax (by decide)
    refine ⟨k, (Nat.pow_le_pow_iff_right (by decide)).mp hle, ?_⟩
    rw [if_pos (by omega), hk]

end Words

/-- Where no turn wraps around, the loop on words is the loop on numbers; each turn adds at least
one, so the distance to the need is fuel enough for the latter. -/
theorem growCap_toNat {need nc nc' : BitVec w} {m : ℕ} (hno : NoOverflow need nc)
    (hpos : 0 < nc.toNat) (hm : need.toNat ≤ nc.toNat + m)
    (hloop : growLoop need fuel nc = some nc') :
    PlanDigest.growCap need.toNat m nc.toNat = nc'.toNat := by
  induction fuel generalizing nc m with
  | zero => cases hloop
  | succ fuel ih =>
    rw [growLoop] at hloop
    by_cases hlt : nc < need
    · rw [if_pos hlt] at hloop
      rw [BitVec.lt_def] at hlt
      obtain ⟨hexact, hno'⟩ := hno.turn hlt
      cases m with
      | zero => omega
      | succ m =>
        rw [PlanDigest.growCap, if_pos hlt, ← hexact]
        exact ih hno' (by omega) (by omega) hloop
    · rw [if_neg hlt, Option.some_inj] at hloop
      rw [BitVec.lt_def] at hlt
      cases m with
      | zero => rw [PlanDigest.growCap, hloop]
      | succ m => rw [PlanDigest.growCap, if_neg hlt, hloop]

/-- The capacity after a reservation that goes through, in unbounded arithmetic. -/
def nextCap (b : SizeBuf w) (extra : ℕ) : ℕ :=
  if b.len.toNat + extra ≤ b.cap.toNat then b.cap.toNat
  else
    PlanDigest.growCap (b.len.toNat + extra) (b.len.toNat + extra)
      (if b.cap.toNat ≠ 0 then b.cap.toNat else 64)

section Loop

variable (hw : 32 ≤ w) (h : Bounded b) (hextra : extra.toNat ≤ maxCanon - b.len.toNat)

include hw h hextra

/-- No turn of the loop in `buf_reserve` wraps around. -/
theorem reserve_noOverflow : NoOverflow (b.len + extra) (firstCap b) := by
  obtain ⟨j, -, hfirst⟩ := firstCap_doubled hw h
  exact hfirst.noOverflow (need_covered hw h hextra)

/-- The loop in `buf_reserve` ends, in a doubling of 64 that covers the need. -/
theorem reserve_loop (hfuel : 16 < fuel) (hfull : b.cap.toNat < b.len.toNat + extra.toNat) :
    ∃ nc k, growLoop (b.len + extra) fuel (firstCap b) = some nc ∧ k ≤ 16 ∧ Doubled 64 k nc ∧
      b.len.toNat + extra.toNat ≤ nc.toNat ∧ nc.toNat = nextCap b extra.toNat := by
  have hneed := toNat_need hw h hextra
  obtain ⟨j, hj, hfirst⟩ := firstCap_doubled hw h
  obtain ⟨nc, k, hloop, hcovers, hk, hnc⟩ :=
    hfirst.growLoop_ends (need_covered hw h hextra) hj (hfuel.trans_le (Nat.le_add_left fuel j))
  refine ⟨nc, k, hloop, hk, hnc, ?_, ?_⟩
  · rwa [BitVec.le_def, hneed] at hcovers
  · have hpos : 0 < (firstCap b).toNat := by
      rw [show (firstCap b).toNat = 64 * 2 ^ j from hfirst]
      exact Nat.mul_pos (by decide) (Nat.two_pow_pos j)
    rw [nextCap, if_neg (Nat.not_le.mpr hfull), ← toNat_firstCap hw, ← hneed]
    exact (growCap_toNat (reserve_noOverflow hw h hextra) hpos (Nat.le_add_left _ _) hloop).symm

end Loop

section Blocks

variable {p : List (Option UInt8)} {off m : ℕ} {d : List UInt8}

theorem realloc_length (hm : p.length ≤ m) : (realloc p m).length = m := by
  rw [realloc, List.take_of_length_le hm, List.length_append, List.length_replicate]
  omega

/-- A larger block keeps what the smaller one held. -/
theorem take_realloc (hm : p.length ≤ m) (hoff : off ≤ p.length) :
    (realloc p m).take off = p.take off := by
  rw [realloc, List.take_of_length_le hm, List.take_append_of_le_length hoff]

theorem memcpy_spec (hd : m ≤ d.length) (hroom : off + m ≤ p.length) :
    ∃ q, memcpy p off d m = some q ∧ q.length = p.length ∧
      q.take (off + m) = p.take off ++ (d.take m).map some := by
  have hfront : (p.take off ++ (d.take m).map some).length = off + m := by
    simp only [List.length_append, List.length_take, List.length_map]
    omega
  refine ⟨_, if_pos ⟨hd, hroom⟩, ?_, ?_⟩
  · rw [List.length_append, hfront, List.length_drop]
    omega
  · exact List.take_left' hfront

end Blocks

/-- A buffer whose block was made larger. -/
theorem Bounded.grow {nc : BitVec w} {k : ℕ} (h : Bounded b) (hk : k ≤ 16) (hnc : Doubled 64 k nc)
    (hcap : b.cap.toNat < nc.toNat) :
    Bounded { b with p := realloc b.p nc.toNat, cap := nc } ∧
      ({ b with p := realloc b.p nc.toNat, cap := nc } : SizeBuf w).contents = b.contents := by
  have hblock : b.p.length ≤ nc.toNat := h.block ▸ hcap.le
  have hcontents : (realloc b.p nc.toNat).take b.len.toNat = b.contents :=
    take_realloc hblock (h.block ▸ h.len_le_cap)
  refine ⟨?_, hcontents⟩
  constructor
  · exact h.len_le_cap.trans hcap.le
  · rw [show nc.toNat = 64 * 2 ^ k from hnc]
    exact Nat.mul_le_mul_left 64 (Nat.pow_le_pow_right (by decide) hk)
  · exact .inr ⟨k, hnc⟩
  · exact realloc_length hblock
  · obtain ⟨s, hs⟩ := h.written
    exact ⟨s, hcontents.trans hs⟩

/-- Whether an append of `n` bytes goes through: it stays within the cap, and it fits or the
allocator finds a larger block. -/
def Accepts (alloc : Bool) (b : SizeBuf w) (n : ℕ) : Prop :=
  n ≤ maxCanon - b.len.toNat ∧ (alloc = true ∨ b.len.toNat + n ≤ b.cap.toNat)

/-- What a reservation does: nothing, or it makes room behind the same contents. -/
inductive Reserved (alloc : Bool) (b : SizeBuf w) (extra : ℕ) : ℤ × SizeBuf w → Prop where
  | failed (h : ¬ Accepts alloc b extra) : Reserved alloc b extra (-1, b)
  | ready {b' : SizeBuf w} (h : Accepts alloc b extra) (hbounded : Bounded b')
      (hlen : b'.len = b.len) (hcontents : b'.contents = b.contents)
      (hroom : b.len.toNat + extra ≤ b'.cap.toNat) (hcap : b'.cap.toNat = nextCap b extra) :
      Reserved alloc b extra (0, b')

theorem bufReserve_reserved (hw : 32 ≤ w) (hfuel : 16 < fuel) (h : Bounded b) :
    ∃ out, bufReserve fuel alloc b extra = some out ∧ Reserved alloc b extra.toNat out := by
  rw [bufReserve]
  by_cases hrefused : maxCanon - b.len.toNat < extra.toNat
  · rw [if_pos ((refuses_iff hw h).mpr hrefused)]
    exact ⟨_, rfl, .failed fun haccepts => Nat.not_le.mpr hrefused haccepts.1⟩
  · rw [if_neg (mt (refuses_iff hw h).mp hrefused)]
    have hextra := Nat.le_of_not_lt hrefused
    have hneed := toNat_need hw h hextra
    dsimp only
    by_cases hroom : b.len + extra ≤ b.cap
    · rw [if_pos hroom]
      rw [BitVec.le_def, hneed] at hroom
      exact ⟨_, rfl, .ready ⟨hextra, .inr hroom⟩ h rfl rfl hroom (if_pos hroom).symm⟩
    · rw [if_neg hroom]
      rw [BitVec.le_def, hneed, Nat.not_le] at hroom
      obtain ⟨nc, k, hloop, hk, hnc, hcovers, hcap⟩ := reserve_loop hw h hextra hfuel hroom
      rw [hloop, Option.bind_eq_bind, Option.bind_some]
      cases alloc with
      | false =>
        refine ⟨_, rfl, .failed ?_⟩
        rintro ⟨-, halloc | hfits⟩
        · cases halloc
        · exact Nat.not_le.mpr hroom hfits
      | true =>
        obtain ⟨hbounded, hcontents⟩ := h.grow hk hnc (hroom.trans_le hcovers)
        exact ⟨_, rfl, .ready ⟨hextra, .inl rfl⟩ hbounded rfl hcontents hcovers hcap⟩

/-- The copy into a buffer with room for it. -/
theorem Bounded.copy {d : List UInt8} (hw : 32 ≤ w) (h : Bounded b) (hd : n.toNat ≤ d.length)
    (hextra : n.toNat ≤ maxCanon - b.len.toNat) (hroom : b.len.toNat + n.toNat ≤ b.cap.toNat) :
    ∃ q, memcpy b.p b.len.toNat d n.toNat = some q ∧
      Bounded { b with p := q, len := b.len + n } ∧
      ({ b with p := q, len := b.len + n } : SizeBuf w).contents =
        b.contents ++ (d.take n.toNat).map some := by
  obtain ⟨q, hq, hlength, htake⟩ := memcpy_spec hd (h.block ▸ hroom)
  have hlen := toNat_need hw h hextra
  have hcontents : q.take (b.len + n).toNat = b.contents ++ (d.take n.toNat).map some := by
    rw [hlen]
    exact htake
  refine ⟨q, hq, ?_, hcontents⟩
  constructor
  · exact hlen.trans_le hroom
  · exact h.cap_le_max
  · exact h.cap_shape
  · exact hlength.trans h.block
  · obtain ⟨s, hs⟩ := h.written
    refine ⟨s ++ d.take n.toNat, ?_⟩
    rw [List.map_append, ← hs]
    exact hcontents

/-- What an append does: nothing, or it puts the bytes behind the contents. -/
inductive Appended (alloc : Bool) (b : SizeBuf w) (bytes : List UInt8) : ℤ × SizeBuf w → Prop where
  | failed (h : ¬ Accepts alloc b bytes.length) : Appended alloc b bytes (-1, b)
  | done {b' : SizeBuf w} (h : Accepts alloc b bytes.length) (hbounded : Bounded b')
      (hlen : b'.len.toNat = b.len.toNat + bytes.length)
      (hcap : b'.cap.toNat = nextCap b bytes.length)
      (hcontents : b'.contents = b.contents ++ bytes.map some) : Appended alloc b bytes (0, b')

theorem bufAdd_appended {d : List UInt8} (hw : 32 ≤ w) (hfuel : 16 < fuel) (h : Bounded b)
    (hd : n.toNat ≤ d.length) :
    ∃ out, bufAdd fuel alloc b d n = some out ∧ Appended alloc b (d.take n.toNat) out := by
  have hn : (d.take n.toNat).length = n.toNat := List.length_take_of_le hd
  obtain ⟨out, hout, hreserved⟩ := @bufReserve_reserved w fuel alloc b n hw hfuel h
  rw [bufAdd, hout]
  cases hreserved with
  | failed hrefused => exact ⟨_, rfl, .failed (by rwa [hn])⟩
  | @ready b' haccepts hbounded hlen hcontents hroom hcap =>
    rw [← hlen] at hroom
    obtain ⟨q, hq, hcopied, happended⟩ := hbounded.copy hw hd (hlen ▸ haccepts.1) hroom
    have hsum : (b'.len + n).toNat = b'.len.toNat + n.toNat :=
      toNat_need hw hbounded (hlen ▸ haccepts.1)
    refine ⟨(0, { b' with p := q, len := b'.len + n }), ?_, ?_⟩
    · simp [hq]
    · refine .done (by rwa [hn]) hcopied ?_ (by rwa [hn]) (by rw [happended, hcontents])
      rw [hn, ← hlen]
      exact hsum

namespace AppendCall

variable (call : AppendCall w)

theorem run_appended (hw : 32 ≤ w) (hfuel : 16 < fuel) (h : Bounded b) :
    ∃ out, call.run fuel alloc b = some out ∧ Appended alloc b call.bytes out := by
  cases call with
  | add d n hn => exact bufAdd_appended hw hfuel h hn
  | addc c =>
    have happended := @bufAdd_appended w fuel alloc b 1 [c] hw hfuel h (toNat_one hw).le
    rwa [toNat_one hw] at happended

theorem bytes_length (hw : 32 ≤ w) : call.bytes.length = call.size.toNat := by
  cases call with
  | add d n hn => exact List.length_take_of_le hn
  | addc c => exact (toNat_one hw).symm

end AppendCall

/-- What is true of the next append to a buffer, whatever the allocator answers. -/
structure NextAppend (fuel : ℕ) (b : SizeBuf w) (call : AppendCall w) : Prop where
  /-- Where the code reaches the loop, it ends, and no turn of it wraps around. -/
  loop : call.size.toNat ≤ maxCanon - b.len.toNat → b.cap < b.len + call.size →
    (∃ nc, growLoop (b.len + call.size) fuel (firstCap b) = some nc) ∧
      NoOverflow (b.len + call.size) (firstCap b)
  /-- With an allocator that does not fail, the cap alone decides. -/
  succeeds : ∃ b', call.run fuel true b =
    some (if call.size.toNat ≤ maxCanon - b.len.toNat then 0 else -1, b')
  /-- A success appends the bytes; a failure changes nothing. -/
  outcome : ∀ alloc, ∃ rc b', call.run fuel alloc b = some (rc, b') ∧
    (rc = 0 ↔ Accepts alloc b call.size.toNat) ∧
    (rc = 0 → b'.contents = b.contents ++ call.bytes.map some ∧
      b'.len.toNat = b.len.toNat + call.size.toNat) ∧
    (rc ≠ 0 → b' = b)

theorem Bounded.nextAppend (hw : 32 ≤ w) (hfuel : 16 < fuel) (h : Bounded b)
    (call : AppendCall w) : NextAppend fuel b call := by
  have hsize := call.bytes_length hw
  constructor
  · intro hextra hfull
    rw [BitVec.lt_def, toNat_need hw h hextra] at hfull
    obtain ⟨nc, k, hloop, -⟩ := reserve_loop hw h hextra hfuel hfull
    exact ⟨⟨nc, hloop⟩, reserve_noOverflow hw h hextra⟩
  · obtain ⟨out, hout, happended⟩ := @AppendCall.run_appended w fuel true b call hw hfuel h
    cases happended with
    | failed hrefused =>
      rw [hsize] at hrefused
      exact ⟨b, by rw [hout, if_neg fun hfits => hrefused ⟨hfits, .inl rfl⟩]⟩
    | @done b' haccepts =>
      rw [hsize] at haccepts
      exact ⟨b', by rw [hout, if_pos haccepts.1]⟩
  · intro alloc
    obtain ⟨out, hout, happended⟩ := @AppendCall.run_appended w fuel alloc b call hw hfuel h
    cases happended with
    | failed hrefused =>
      rw [hsize] at hrefused
      exact ⟨-1, b, hout, iff_of_false (by decide) hrefused, fun hrc => absurd hrc (by decide),
        fun _ => rfl⟩
    | @done b' haccepts _ hlen _ hcontents =>
      rw [hsize] at haccepts hlen
      exact ⟨0, b', hout, iff_of_true rfl haccepts, fun _ => ⟨hcontents, hlen⟩,
        fun hrc => absurd rfl hrc⟩

theorem AppendCall.run_bounded (call : AppendCall w) (hw : 32 ≤ w) (hfuel : 16 < fuel)
    (h : Bounded b) : ∃ rc b', call.run fuel alloc b = some (rc, b') ∧ Bounded b' := by
  obtain ⟨out, hout, happended⟩ := @AppendCall.run_appended w fuel alloc b call hw hfuel h
  cases happended with
  | failed => exact ⟨-1, b, hout, h⟩
  | @done b' _ hbounded => exact ⟨0, b', hout, hbounded⟩

theorem runCalls_ends (hw : 32 ≤ w) (hfuel : 16 < fuel) (h : Bounded b)
    (calls : List (AppendCall w × Bool)) : ∃ b', runCalls fuel b calls = some b' ∧ Bounded b' := by
  induction calls generalizing b with
  | nil => exact ⟨b, rfl, h⟩
  | cons head rest ih =>
    obtain ⟨call, alloc⟩ := head
    obtain ⟨rc, b₁, hrun, hbounded⟩ := @AppendCall.run_bounded w fuel alloc b call hw hfuel h
    obtain ⟨b', hrest, hb'⟩ := ih hbounded
    refine ⟨b', ?_, hb'⟩
    rw [runCalls, hrun]
    exact hrest

/-- Whatever appends are made, of whatever sizes, and whatever the allocator answers: every loop
has ended, every copy has stayed within its block, the buffer is within its bounds, and the next
append does exactly what the cap allows. -/
theorem appends_bounded (hw : 32 ≤ w) (hfuel : 16 < fuel) (calls : List (AppendCall w × Bool)) :
    ∃ b, runCalls fuel {} calls = some b ∧ Bounded b ∧ b.len.toNat ≤ maxCanon ∧
      ∀ call, NextAppend fuel b call := by
  obtain ⟨b, hrun, hbounded⟩ := runCalls_ends hw hfuel Bounded.empty calls
  exact ⟨b, hrun, hbounded, hbounded.len_le_max, hbounded.nextAppend hw hfuel⟩

/-- A failing allocator, then a byte, on 64 bits. -/
theorem appends_bounded_two :
    ∃ b : SizeBuf 64,
      runCalls 17 {} [(.add [0x31, 0x1e] 2 (by decide), false), (.addc 0x31, true)] = some b ∧
        b.len.toNat ≤ b.cap.toNat := by
  obtain ⟨b, hrun, hbounded, -⟩ := @appends_bounded 64 17 (by decide) (by decide)
    [(.add [0x31, 0x1e] 2 (by decide), false), (.addc 0x31, true)]
  exact ⟨b, hrun, hbounded.len_le_cap⟩

/-- The same contents and capacity, in unbounded arithmetic. -/
structure Represents (b : SizeBuf w) (a : PlanDigest.Buf) : Prop where
  contents : b.contents = a.p.map some
  cap : b.cap.toNat = a.cap

theorem Bounded.contents_length (h : Bounded b) : b.contents.length = b.len.toNat :=
  List.length_take_of_le (h.block ▸ h.len_le_cap)

theorem Represents.bufAdd_eq {a : PlanDigest.Buf} {bytes : List UInt8} (hrep : Represents b a)
    (h : Bounded b) :
    PlanDigest.bufAdd a bytes =
      if bytes.length ≤ maxCanon - b.len.toNat then
        some ⟨a.p ++ bytes, nextCap b bytes.length⟩
      else none := by
  have hlen : a.p.length = b.len.toNat := by
    rw [← h.contents_length, hrep.contents, List.length_map]
  have hmax := h.len_le_max
  rw [PlanDigest.bufAdd, PlanDigest.bufReserve, hlen, ← hrep.cap, nextCap]
  by_cases hextra : bytes.length ≤ maxCanon - b.len.toNat
  · rw [if_neg (by omega), if_pos hextra]
    by_cases hroom : b.len.toNat + bytes.length ≤ b.cap.toNat
    · simp only [if_pos hroom, Option.map_some]
      rw [hrep.cap]
    · simp only [if_neg hroom, Option.map_some]
  · rw [if_pos (by omega), if_neg hextra, Option.map_none]

/-- A chain of appends, as the encoders make it: it stops at the first one that fails. -/
def runChain (fuel : ℕ) : SizeBuf w → List (AppendCall w × Bool) → Option (ℤ × SizeBuf w)
  | b, [] => some (0, b)
  | b, (call, alloc) :: rest => do
    let (rc, b) ← call.run fuel alloc b
    if rc ≠ 0 then some (rc, b) else runChain fuel b rest

/-- The chain of the same pieces on the buffer of the encoders. -/
def pieces (calls : List (AppendCall w × Bool)) : List (List UInt8) :=
  calls.map fun c => c.1.bytes

/-- One append on the machine follows the one of the encoders; it fails where that does, or for
want of memory. -/
inductive Follows (alloc : Bool) (b : SizeBuf w) (a : PlanDigest.Buf) (bytes : List UInt8) :
    ℤ × SizeBuf w → Prop where
  | failed (h : alloc = true → PlanDigest.bufAdd a bytes = none) : Follows alloc b a bytes (-1, b)
  | done {b' : SizeBuf w} {a' : PlanDigest.Buf} (hadd : PlanDigest.bufAdd a bytes = some a')
      (hbounded : Bounded b') (hrep : Represents b' a') : Follows alloc b a bytes (0, b')

theorem run_follows {a : PlanDigest.Buf} (call : AppendCall w) (hw : 32 ≤ w) (hfuel : 16 < fuel)
    (h : Bounded b) (hrep : Represents b a) :
    ∃ out, call.run fuel alloc b = some out ∧ Follows alloc b a call.bytes out := by
  obtain ⟨out, hout, happended⟩ := @AppendCall.run_appended w fuel alloc b call hw hfuel h
  refine ⟨out, hout, ?_⟩
  have hadd : PlanDigest.bufAdd a call.bytes = _ := hrep.bufAdd_eq h
  cases happended with
  | failed hrefused =>
    refine .failed fun halloc => ?_
    rw [hadd, if_neg fun hfits => hrefused ⟨hfits, .inl halloc⟩]
  | @done b' haccepts hbounded _ hcap hcontents =>
    rw [if_pos haccepts.1] at hadd
    refine .done hadd hbounded ⟨?_, hcap⟩
    rw [hcontents, hrep.contents, ← List.map_append]

theorem runChain_follows {a : PlanDigest.Buf} (hw : 32 ≤ w) (hfuel : 16 < fuel) (h : Bounded b)
    (hrep : Represents b a) (calls : List (AppendCall w × Bool)) :
    ∃ rc b', runChain fuel b calls = some (rc, b') ∧ Bounded b' ∧
      ((rc = 0 ∧ ∃ a', (pieces calls).foldlM PlanDigest.bufAdd a = some a' ∧ Represents b' a') ∨
        (rc = -1 ∧ ((∀ c ∈ calls, c.2 = true) →
          (pieces calls).foldlM PlanDigest.bufAdd a = none))) := by
  induction calls generalizing b a with
  | nil => exact ⟨0, b, rfl, h, .inl ⟨rfl, a, rfl, hrep⟩⟩
  | cons head rest ih =>
    obtain ⟨call, alloc⟩ := head
    obtain ⟨out, hout, hfollows⟩ := @run_follows w fuel alloc b a call hw hfuel h hrep
    cases hfollows with
    | failed hnone =>
      refine ⟨-1, b, ?_, h, .inr ⟨rfl, fun hall => ?_⟩⟩
      · rw [runChain, hout]
        rfl
      · rw [pieces, List.map_cons, List.foldlM_cons, hnone (hall _ List.mem_cons_self)]
        rfl
    | @done b' a' hadd hbounded hrep' =>
      obtain ⟨rc, b'', hrun, hbounded', hend⟩ := ih hbounded hrep'
      have hpieces : (pieces ((call, alloc) :: rest)).foldlM PlanDigest.bufAdd a =
          (pieces rest).foldlM PlanDigest.bufAdd a' := by
        rw [pieces, List.map_cons, List.foldlM_cons, hadd]
        rfl
      refine ⟨rc, b'', ?_, hbounded', ?_⟩
      · rw [runChain, hout]
        exact hrun
      · rw [hpieces]
        refine hend.imp_right fun hfailed => ⟨hfailed.1, fun hall => hfailed.2 fun c hc => ?_⟩
        exact hall c (List.mem_cons_of_mem _ hc)

theorem represents_empty : Represents ({} : SizeBuf w) {} where
  contents := rfl
  cap := by simp

/-- The buffer of the encoders is all that they can see of the machine's. A chain of appends, of
whatever sizes and with whatever answers of the allocator, ends within the bounds of its words;
where it succeeds, so does the chain of the encoders, with the same contents, which are all the
bytes in a row; and where no allocation fails, it fails only if the bytes exceed the cap, and then
the chain of the encoders fails too. -/
theorem chains_refined (hw : 32 ≤ w) (hfuel : 16 < fuel) (calls : List (AppendCall w × Bool)) :
    ∃ rc b, runChain fuel {} calls = some (rc, b) ∧ Bounded b ∧
      ((rc = 0 ∧ ∃ a, (pieces calls).foldlM PlanDigest.bufAdd {} = some a ∧ Represents b a ∧
          a.p = (pieces calls).flatten) ∨
        (rc = -1 ∧ ((∀ c ∈ calls, c.2 = true) →
          (pieces calls).foldlM PlanDigest.bufAdd {} = none ∧
            maxCanon < (pieces calls).flatten.length))) := by
  obtain ⟨rc, b, hrun, hbounded, hend⟩ :=
    runChain_follows hw hfuel Bounded.empty represents_empty calls
  have happends : ((pieces calls).foldlM PlanDigest.bufAdd {}).map PlanDigest.Buf.p =
      CappedBuffers.append maxCanon [] (pieces calls).flatten :=
    PlanDigest.bufAdd_implements.foldlM (pieces calls) {} (Nat.zero_le _)
  refine ⟨rc, b, hrun, hbounded, hend.imp ?_ ?_⟩
  · rintro ⟨hrc, a, hfold, hrep⟩
    rw [hfold, Option.map_some] at happends
    exact ⟨hrc, a, hfold, hrep, (CappedBuffers.append_eq_some_iff.mp happends.symm).2⟩
  · rintro ⟨hrc, hnone⟩
    refine ⟨hrc, fun hall => ⟨hnone hall, ?_⟩⟩
    rw [hnone hall, Option.map_none] at happends
    by_contra hle
    have hfits : CappedBuffers.append maxCanon [] (pieces calls).flatten =
        some (pieces calls).flatten :=
      CappedBuffers.append_eq_some_iff.mpr ⟨by simpa using hle, rfl⟩
    exact absurd (happends.trans hfits) (by simp)

/-- Two bytes and a third one, with an allocator that does not fail. -/
theorem chains_refined_three : ∃ b a,
    runChain 17 ({} : SizeBuf 64) [(.add [0x31, 0x1e] 2 (by decide), true), (.addc 0x31, true)] =
      some (0, b) ∧ Bounded b ∧
      [[0x31, 0x1e], [0x31]].foldlM PlanDigest.bufAdd {} = some a ∧ Represents b a ∧
      a.p = [0x31, 0x1e, 0x31] := by
  obtain ⟨rc, b, hrun, hbounded, hend⟩ := @chains_refined 64 17 (by decide) (by decide)
    [(.add [0x31, 0x1e] 2 (by decide), true), (.addc 0x31, true)]
  rcases hend with ⟨rfl, a, hfold, hrep, hbytes⟩ | ⟨-, hfailed⟩
  · exact ⟨b, a, hrun, hbounded, hfold, hrep, hbytes⟩
  · exact absurd (hfailed (by decide)).2 (by decide)

end Pkgexec.DigestBuffer
