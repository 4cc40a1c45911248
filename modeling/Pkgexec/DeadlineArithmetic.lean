import Pkgexec.DeadlineDiscipline

/-!
# Deadline arithmetic

A reading of the clock is an instant in nanoseconds. `deadline_at` adds the budget exactly,
and `ms_left` truncates what remains to milliseconds, so it is positive only before the
deadline: a run that keeps its deadline starts nothing after it. The C arithmetic is on signed
machine integers; the readings for which none of its operations overflows are far beyond what
a monotonic clock reaches.
-/

namespace Pkgexec.Transport
open FuelRuns

def Normalised (t : Timespec) : Prop := 0 ≤ t.nsec ∧ t.nsec < 1000000000

/-- The reading in nanoseconds. -/
def instant (t : Timespec) : ℤ := t.sec * 1000000000 + t.nsec

/-- What the number of milliseconds left tells of the two instants. -/
structure ErrsSafely (dl now : Timespec) (left : ℤ) : Prop where
  strictlyBefore : 0 < left → instant now < instant dl
  notEarly : 1000000 ≤ instant dl - instant now → 0 < left
  withinOne : |left * 1000000 - (instant dl - instant now)| < 1000000

section Instants

variable {start dl now : Timespec} {ms : ℤ}

/-- The carry leaves a remainder below one second. -/
theorem deadlineAt_normalised (hstart : Normalised start) (hms : 0 ≤ ms) :
    Normalised (deadlineAt start ms) := by
  have hrem : 0 ≤ ms.tmod 1000 := Int.tmod_nonneg 1000 hms
  have hns : 0 ≤ start.nsec + ms.tmod 1000 * 1000000 := by
    have := hstart.1
    omega
  exact ⟨Int.tmod_nonneg _ hns, Int.tmod_lt_of_pos _ (by decide)⟩

/-- Both divisions split a number into its quotient and its remainder, so nothing is lost. -/
theorem instant_deadlineAt (start : Timespec) (ms : ℤ) :
    instant (deadlineAt start ms) = instant start + ms * 1000000 := by
  have hms := Int.tdiv_mul_add_tmod ms 1000
  have hns := Int.tdiv_mul_add_tmod (start.nsec + ms.tmod 1000 * 1000000) 1000000000
  simp only [instant, deadlineAt]
  linarith

/-- What the truncation leaves out of the milliseconds between two instants. -/
theorem msBetween_mul (dl now : Timespec) :
    msBetween dl now * 1000000 =
      instant dl - instant now - (dl.nsec - now.nsec).tmod 1000000 := by
  have hdiv := Int.tdiv_mul_add_tmod (dl.nsec - now.nsec) 1000000
  simp only [instant, msBetween]
  linarith

/-- The remainder has the sign of the nanosecond difference, which may be either; it is less than
one millisecond in both cases. -/
theorem msBetween_errsSafely (dl now : Timespec) : ErrsSafely dl now (msBetween dl now) := by
  have hmul := msBetween_mul dl now
  have hlow : -1000000 < (dl.nsec - now.nsec).tmod 1000000 := Int.lt_tmod_of_pos _ (by decide)
  have hhigh : (dl.nsec - now.nsec).tmod 1000000 < 1000000 := Int.tmod_lt_of_pos _ (by decide)
  constructor
  · intro hleft
    omega
  · intro hremaining
    omega
  · rw [abs_lt]
    constructor <;> omega

/-- A transfer that is begun at `now` is begun before the deadline, and a wait ends less than one
millisecond after it. -/
def StartsInTime (dl now : Timespec) : Event → Prop
  | .send _ _ => instant now < instant dl
  | .read _ _ => instant now < instant dl
  | .poll _ _ timeout _ =>
    instant now < instant dl ∧ instant now + timeout * 1000000 < instant dl + 1000000
  | _ => True

/-- What was just read was read before the deadline, if time was found to remain. -/
theorem JustRead.errsSafely {left : ℤ} {before : Log} (h : JustRead dl left before) :
    ∃ earlier now, before = earlier ++ [.clock (some now)] ∧ ErrsSafely dl now left := by
  obtain ⟨earlier, now, hbefore, rfl⟩ := h
  exact ⟨earlier, now, hbefore, msBetween_errsSafely dl now⟩

/-- The calls of a run that keeps its deadline, on the line of instants: each that needs time
follows directly on a reading at which it still starts in time. -/
theorem KeepsDeadline.inTime {es before after : Log} {e : Event} (h : KeepsDeadline dl es)
    (heq : es = before ++ e :: after) (hneeds : ¬ ∀ left, AllowedFor left e) :
    ∃ earlier now, before = earlier ++ [.clock (some now)] ∧ StartsInTime dl now e := by
  cases e with
  | send fd r =>
    obtain ⟨left, hread, hleft⟩ := h.sends before fd r after heq
    obtain ⟨earlier, now, hbefore, hsafe⟩ := hread.errsSafely
    exact ⟨earlier, now, hbefore, hsafe.strictlyBefore hleft⟩
  | read fd r =>
    obtain ⟨left, hread, hleft⟩ := h.reads before fd r after heq
    obtain ⟨earlier, now, hbefore, hsafe⟩ := hread.errsSafely
    exact ⟨earlier, now, hbefore, hsafe.strictlyBefore hleft⟩
  | poll fd events timeout r =>
    obtain ⟨left, hread, hpos, hle⟩ := h.polls before fd events timeout r after heq
    obtain ⟨earlier, now, hbefore, hsafe⟩ := hread.errsSafely
    have hwithin := (abs_lt.mp hsafe.withinOne).2
    refine ⟨earlier, now, hbefore, hsafe.strictlyBefore (hpos.trans_le hle), ?_⟩
    omega
  | _ => exact absurd (fun left => trivial) hneeds

end Instants

/-- A result of a signed type of `w` bits, if it is one. -/
def signed (w : ℕ) (n : ℤ) : Option ℤ :=
  if -2 ^ (w - 1) ≤ n ∧ n < 2 ^ (w - 1) then some n else none

/-- `deadline_at` with a `long` of `w` bits and a `time_t` of 64; `none` if an operation
overflows. -/
def deadlineAtSigned (w : ℕ) (now : Timespec) (ms : ℤ) : Option Timespec := do
  let sec ← signed 64 (now.sec + ms.tdiv 1000)
  let part ← signed w (ms.tmod 1000 * 1000000)
  let ns ← signed w (now.nsec + part)
  let sec ← signed 64 (sec + ns.tdiv 1000000000)
  return ⟨sec, ns.tmod 1000000000⟩

/-- The difference that `ms_left` computes, in `long long` after the two subtractions. -/
def msBetweenSigned (w : ℕ) (dl now : Timespec) : Option ℤ := do
  let sec ← signed 64 (dl.sec - now.sec)
  let nsec ← signed w (dl.nsec - now.nsec)
  let ms ← signed 64 (sec * 1000)
  signed 64 (ms + nsec.tdiv 1000000)

/-- Far from the ends of `time_t`. -/
def Moderate (t : Timespec) : Prop := |t.sec| ≤ 2 ^ 52

section Machine

variable {w : ℕ} {start now : Timespec} {ms n : ℤ}

theorem signed_eq {v : ℕ} (hv : v < w) (h : |n| < 2 ^ v) : signed w n = some n := by
  have hpow : (2 : ℤ) ^ v ≤ 2 ^ (w - 1) := pow_le_pow_right₀ (by decide) (Nat.le_sub_one_of_lt hv)
  obtain ⟨hlow, hhigh⟩ := abs_lt.mp (h.trans_le hpow)
  exact if_pos ⟨hlow.le, hhigh⟩

theorem deadlineAtSigned_eq (hw : 31 < w) (hstart : Normalised start) (hsec : Moderate start)
    (hms : 0 ≤ ms) (hmax : ms ≤ 2 ^ 31 - 1) :
    deadlineAtSigned w start ms = some (deadlineAt start ms) := by
  obtain ⟨hnsec, hnsecMax⟩ := hstart
  obtain ⟨hsecMin, hsecMax⟩ := abs_le.mp hsec
  have hquot : 0 ≤ ms.tdiv 1000 ∧ ms.tdiv 1000 ≤ ms :=
    ⟨Int.tdiv_nonneg hms (by decide), Int.tdiv_le_self _ hms⟩
  have hrem : 0 ≤ ms.tmod 1000 ∧ ms.tmod 1000 < 1000 :=
    ⟨Int.tmod_nonneg _ hms, Int.tmod_lt_of_pos _ (by decide)⟩
  have hseconds : |start.sec + ms.tdiv 1000| < 2 ^ 63 := by
    rw [abs_lt]
    omega
  have hpart : |ms.tmod 1000 * 1000000| < 2 ^ 31 := by
    rw [abs_lt]
    omega
  have hns : |start.nsec + ms.tmod 1000 * 1000000| < 2 ^ 31 := by
    rw [abs_lt]
    omega
  have hsum : 0 ≤ start.nsec + ms.tmod 1000 * 1000000 := by omega
  have hcarried :
      |start.sec + ms.tdiv 1000 + (start.nsec + ms.tmod 1000 * 1000000).tdiv 1000000000| <
        2 ^ 63 := by
    have hcarry := Int.tdiv_nonneg hsum (show (0 : ℤ) ≤ 1000000000 by decide)
    have hcarryMax := Int.tdiv_le_self 1000000000 hsum
    rw [abs_lt]
    omega
  simp only [deadlineAtSigned, signed_eq (Nat.lt_succ_self 63) hseconds, signed_eq hw hpart,
    signed_eq hw hns, signed_eq (Nat.lt_succ_self 63) hcarried, Option.bind_eq_bind,
    Option.bind_some]
  rfl

theorem msBetweenSigned_eq {dl : Timespec} (hw : 31 < w) (hdl : Normalised dl)
    (hnow : Normalised now) (hsec : |dl.sec - now.sec| ≤ 2 ^ 53 + 2 ^ 31) :
    msBetweenSigned w dl now = some (msBetween dl now) := by
  obtain ⟨hsecMin, hsecMax⟩ := abs_le.mp hsec
  obtain ⟨hdlMin, hdlMax⟩ := hdl
  obtain ⟨hnowMin, hnowMax⟩ := hnow
  have hseconds : |dl.sec - now.sec| < 2 ^ 63 := by
    rw [abs_lt]
    omega
  have hnsec : |dl.nsec - now.nsec| < 2 ^ 31 := by
    rw [abs_lt]
    omega
  have hms : |(dl.sec - now.sec) * 1000| < 2 ^ 63 := by
    rw [abs_lt]
    omega
  have hsum : |(dl.sec - now.sec) * 1000 + (dl.nsec - now.nsec).tdiv 1000000| < 2 ^ 63 := by
    have hquot := Int.tdiv_mul_add_tmod (dl.nsec - now.nsec) 1000000
    have hremMin := Int.lt_tmod_of_pos (dl.nsec - now.nsec) (show (0 : ℤ) < 1000000 by decide)
    have hremMax := Int.tmod_lt_of_pos (dl.nsec - now.nsec) (show (0 : ℤ) < 1000000 by decide)
    rw [abs_lt]
    omega
  simp only [msBetweenSigned, signed_eq (Nat.lt_succ_self 63) hseconds, signed_eq hw hnsec,
    signed_eq (Nat.lt_succ_self 63) hms, signed_eq (Nat.lt_succ_self 63) hsum,
    Option.bind_eq_bind, Option.bind_some]
  rfl

/-- Neither function overflows between two readings that are far from the ends of `time_t`. -/
theorem deadline_fits (hw : 31 < w) (hstart : Normalised start) (hnow : Normalised now)
    (hstartSec : Moderate start) (hnowSec : Moderate now) (hms : 0 ≤ ms)
    (hmax : ms ≤ 2 ^ 31 - 1) :
    deadlineAtSigned w start ms = some (deadlineAt start ms) ∧
      msBetweenSigned w (deadlineAt start ms) now = some (msBetween (deadlineAt start ms) now) := by
  have hnorm := deadlineAt_normalised hstart hms
  have hinstant := instant_deadlineAt start ms
  refine ⟨deadlineAtSigned_eq hw hstart hstartSec hms hmax, msBetweenSigned_eq hw hnorm hnow ?_⟩
  obtain ⟨hstartMin, hstartMax⟩ := abs_le.mp hstartSec
  obtain ⟨hnowMin, hnowMax⟩ := abs_le.mp hnowSec
  obtain ⟨hnsec, hnsecMax⟩ := hstart
  obtain ⟨hdlMin, hdlMax⟩ := hnorm
  simp only [instant] at hinstant
  rw [abs_le]
  omega

end Machine

section Exact

variable {start : Timespec} {ms : ℤ}

/-- The deadline is exact, and the time left errs only on the safe side, whatever the deadline
and the reading it is compared with. -/
theorem deadline_exact (hstart : Normalised start) (hms : 1 ≤ ms) (hmax : ms ≤ 2 ^ 31 - 1) :
    (Normalised (deadlineAt start ms) ∧
      instant (deadlineAt start ms) = instant start + ms * 1000000) ∧
    (∀ (os : Os) (log : Log) (dl now : Timespec), os.clock log = some now →
      ∃ left, (exec (msLeft os dl) log).1 = some left ∧ ErrsSafely dl now left) ∧
    (∀ (os : Os) (log : Log) (dl : Timespec), os.clock log = none →
      (exec (msLeft os dl) log).1 = some 0) ∧
    ∀ (w : ℕ) (now : Timespec), 31 < w → Normalised now → Moderate start → Moderate now →
      deadlineAtSigned w start ms = some (deadlineAt start ms) ∧
        msBetweenSigned w (deadlineAt start ms) now =
          some (msBetween (deadlineAt start ms) now) := by
  have hnonneg : 0 ≤ ms := by omega
  refine ⟨⟨deadlineAt_normalised hstart hnonneg, instant_deadlineAt start ms⟩, ?_, ?_, ?_⟩
  · intro os log dl now hnow
    refine ⟨msBetween dl now, ?_, msBetween_errsSafely dl now⟩
    rw [msLeft, exec_bind, clockGettime, exec_ask, hnow]
    rfl
  · intro os log dl hfailed
    rw [msLeft, exec_bind, clockGettime, exec_ask, hfailed]
    rfl
  · intro w now hw hnow hstartSec hnowSec
    exact deadline_fits hw hstart hnow hstartSec hnowSec hnonneg hmax

/-- One millisecond after the last nanosecond of a second. -/
theorem deadline_exact_carry :
    Normalised (deadlineAt ⟨5, 999999999⟩ 1) ∧
      instant (deadlineAt ⟨5, 999999999⟩ 1) = instant ⟨5, 999999999⟩ + 1 * 1000000 :=
  (@deadline_exact ⟨5, 999999999⟩ 1 ⟨by decide, by decide⟩ (by decide) (by decide)).1

end Exact

end Pkgexec.Transport
