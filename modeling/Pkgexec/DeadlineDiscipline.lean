import Pkgexec.BrokerTransport

/-!
# One deadline for the whole exchange

The deadline is fixed by the first reading of the clock. Every later reading is compared with
it: a positive remainder pays for the next call only, and after any other reading there is
nothing left to do but close the socket and report the deadline. This is followed through the
loops without any assumption on the clock.
-/

namespace Pkgexec.Transport
open CStrings FuelRuns

/-- A reading at which `ms_left` is not positive. -/
def Expired (dl : Timespec) : Event → Prop
  | .clock none => True
  | .clock (some now) => msBetween dl now ≤ 0
  | _ => False

/-- What `left` milliseconds allow to be done. -/
def AllowedFor (left : ℤ) : Event → Prop
  | .send _ _ => 0 < left
  | .read _ _ => 0 < left
  | .poll _ _ timeout _ => 0 < timeout ∧ timeout ≤ left
  | _ => True

/-- The clock was read last, and `left` milliseconds remained. -/
def JustRead (dl : Timespec) (left : ℤ) (before : Log) : Prop :=
  ∃ earlier now, before = earlier ++ [.clock (some now)] ∧ msBetween dl now = left

/-- A call that needs time follows a reading directly, and an expired reading is followed by
nothing but `close`. -/
structure Timely (dl : Timespec) (before : Log) (e : Event) : Prop where
  prompt : (∀ left, AllowedFor left e) ∨ ∃ left, JustRead dl left before ∧ AllowedFor left e
  late : (∃ r ∈ before, Expired dl r) → ∃ fd, e = .close fd

/-- So far every call is timely, and no reading has expired. -/
structure OnTime (dl : Timespec) (es : Log) : Prop where
  timely : Historical (Timely dl) es
  live : ∀ e ∈ es, ¬ Expired dl e

/-- Since `pre`, no reading has expired. -/
def Pending (dl : Timespec) (pre log : Log) : Prop := ∃ es, log = pre ++ es ∧ OnTime dl es

/-- Since `pre`, no reading has expired, and the last thing that was done is a reading. -/
def Ready (dl : Timespec) (left : ℤ) (pre log : Log) : Prop :=
  ∃ es, log = pre ++ es ∧ OnTime dl es ∧ JustRead dl left es

/-- Since `pre`, a reading has expired. -/
def Late (dl : Timespec) (pre log : Log) : Prop :=
  ∃ es, log = pre ++ es ∧ Historical (Timely dl) es ∧ ∃ e ∈ es, Expired dl e

/-- `late` says whether a reading has expired. -/
def Tells (dl : Timespec) (pre : Log) (late : Prop) (log : Log) : Prop :=
  late ∧ Late dl pre log ∨ ¬ late ∧ Pending dl pre log

section Steps

variable {dl : Timespec} {left : ℤ} {pre log es : Log} {e : Event} {late : Prop}

/-- While time remains, a call may be made that needs none or follows a reading. -/
theorem OnTime.snoc (h : OnTime dl es) (he : ¬ Expired dl e)
    (hprompt : (∀ left, AllowedFor left e) ∨ ∃ left, JustRead dl left es ∧ AllowedFor left e) :
    OnTime dl (es ++ [e]) where
  timely := by
    refine h.timely.snoc ⟨hprompt, ?_⟩
    rintro ⟨r, hr, hexpired⟩
    exact absurd hexpired (h.live r hr)
  live r hr := by
    rcases List.mem_append.mp hr with hr | hr
    · exact h.live r hr
    · rwa [List.mem_singleton.mp hr]

theorem Pending.start (dl : Timespec) (pre : Log) : Pending dl pre pre :=
  ⟨[], (List.append_nil _).symm, .nil, by simp⟩

theorem Pending.any (h : Pending dl pre log) (he : ¬ Expired dl e)
    (hany : ∀ left, AllowedFor left e) : Pending dl pre (log ++ [e]) := by
  obtain ⟨es, rfl, hes⟩ := h
  exact ⟨es ++ [e], List.append_assoc _ _ _, hes.snoc he (.inl hany)⟩

theorem Pending.read {now : Timespec} (h : Pending dl pre log) (hleft : 0 < msBetween dl now) :
    Ready dl (msBetween dl now) pre (log ++ [.clock (some now)]) := by
  obtain ⟨es, rfl, hes⟩ := h
  exact ⟨es ++ [.clock (some now)], List.append_assoc _ _ _,
    hes.snoc (e := .clock (some now)) (not_le.mpr hleft) (.inl fun _ => trivial), es, now, rfl, rfl⟩

theorem Pending.expire {reading : Option Timespec} (h : Pending dl pre log)
    (he : Expired dl (.clock reading)) : Late dl pre (log ++ [.clock reading]) := by
  obtain ⟨es, rfl, hes⟩ := h
  refine ⟨es ++ [.clock reading], List.append_assoc _ _ _, ?_, .clock reading, by simp, he⟩
  refine hes.timely.snoc ⟨.inl fun _ => trivial, ?_⟩
  rintro ⟨r, hr, hlate⟩
  exact absurd hlate (hes.live r hr)

theorem Ready.use (h : Ready dl left pre log) (he : ¬ Expired dl e)
    (hallowed : AllowedFor left e) : Pending dl pre (log ++ [e]) := by
  obtain ⟨es, rfl, hes, hread⟩ := h
  exact ⟨es ++ [e], List.append_assoc _ _ _, hes.snoc he (.inr ⟨left, hread, hallowed⟩)⟩

theorem Ready.pending (h : Ready dl left pre log) : Pending dl pre log := by
  obtain ⟨es, hlog, hes, -⟩ := h
  exact ⟨es, hlog, hes⟩

theorem Late.close (h : Late dl pre log) (fd : ℕ) : Late dl pre (log ++ [.close fd]) := by
  obtain ⟨es, rfl, htimely, e, he, hexpired⟩ := h
  refine ⟨es ++ [.close fd], List.append_assoc _ _ _, ?_, e, List.mem_append_left _ he, hexpired⟩
  exact htimely.snoc ⟨.inl fun _ => trivial, fun _ => ⟨fd, rfl⟩⟩

theorem Tells.close (h : Tells dl pre late log) (fd : ℕ) :
    Tells dl pre late (log ++ [.close fd]) := by
  rcases h with ⟨hlate, h⟩ | ⟨hlive, h⟩
  · exact .inl ⟨hlate, h.close fd⟩
  · exact .inr ⟨hlive, h.any id fun _ => trivial⟩

theorem Tells.congr {late' : Prop} (h : Tells dl pre late log) (hiff : late ↔ late') :
    Tells dl pre late' log := by
  rwa [← propext hiff]

theorem Tells.pending (h : Tells dl pre late log) (hlive : ¬ late) : Pending dl pre log :=
  (h.resolve_left fun hlate => hlive hlate.1).2

end Steps

section Loops

variable {os : Os} {fd : ℕ} {dl : Timespec} {pre log : Log}

/-- After `ms_left`, a remainder that is not positive is an expired reading. -/
theorem msLeft_tells (h : Pending dl pre log) :
    wp (msLeft os dl)
      (fun left log' => left ≤ 0 ∧ Late dl pre log' ∨ 0 < left ∧ Ready dl left pre log')
      (Pending dl pre) log := by
  rw [msLeft, wp_bind, clockGettime, wp_ask]
  split
  · rename_i hnow
    rw [hnow]
    exact .inl ⟨Int.le_refl 0, h.expire trivial⟩
  · rename_i now hnow
    rw [hnow]
    rcases Int.lt_or_le 0 (msBetween dl now) with hleft | hleft
    · exact .inr ⟨hleft, h.read hleft⟩
    · exact .inl ⟨hleft, h.expire hleft⟩

theorem waitFd_tells (events : PollEvents) (n : ℕ) (h : Pending dl pre log) :
    wp (waitFd os fd dl events n) (fun wr log' => Tells dl pre (wr = -2) log') (Pending dl pre)
      log := by
  induction n generalizing log with
  | zero => exact h
  | succ n ih =>
    rw [waitFd, wp_bind]
    refine wp_mono ?_ (fun _ h => h) (msLeft_tells h)
    rintro left log (⟨hleft, h⟩ | ⟨hleft, h⟩)
    · rw [if_pos hleft]
      exact .inl ⟨rfl, h⟩
    rw [if_neg (not_le.mpr hleft), wp_bind, poll, wp_ask]
    have hpolled (r : PollResult) : Pending dl pre
        (log ++ [.poll fd events (if left > 60000 then 60000 else left) r]) := by
      refine h.use id ?_
      show 0 < (if left > 60000 then (60000 : ℤ) else left) ∧ _ ≤ left
      split <;> omega
    split
    · exact ih (hpolled _)
    · exact .inr ⟨by decide, hpolled _⟩
    · exact ih (hpolled _)
    · exact .inr ⟨by decide, hpolled _⟩

theorem writeFull_tells (n : ℕ) {rest : List UInt8} (h : Pending dl pre log) :
    wp (writeFull os fd dl n rest) (fun wr log' => Tells dl pre (wr = -2) log') (Pending dl pre)
      log := by
  induction n generalizing rest log with
  | zero => exact h
  | succ n ih =>
    cases rest with
    | nil => exact .inr ⟨by decide, h⟩
    | cons b rest =>
      rw [writeFull, wp_bind]
      · refine wp_mono ?_ (fun _ h => h) (msLeft_tells h)
        rintro left log (⟨hleft, h⟩ | ⟨hleft, h⟩)
        · rw [if_pos hleft]
          exact .inl ⟨rfl, h⟩
        rw [if_neg (not_le.mpr hleft), wp_bind, send, wp_ask]
        have hsent (r : Except Errno (List UInt8)) : Pending dl pre (log ++ [.send fd r]) :=
          h.use id hleft
        split
        · exact ih (hsent _)
        · rw [wp_bind]
          refine wp_mono ?_ (fun _ h => h) (waitFd_tells .pollOut n (hsent _))
          intro wr log h
          split
          · exact h
          · refine ih (h.pending ?_)
            omega
        · exact .inr ⟨by decide, hsent _⟩
        · exact .inr ⟨by decide, hsent _⟩
        · exact ih (hsent _)
      · simp

theorem readFull_tells (size n : ℕ) {got : List UInt8} (h : Pending dl pre log) :
    wp (readFull os fd dl size n got) (fun r log' => Tells dl pre (r.1 = -2) log')
      (Pending dl pre) log := by
  induction n generalizing got log with
  | zero => exact h
  | succ n ih =>
    rw [readFull]
    split
    · exact .inr ⟨by simp, h⟩
    rw [wp_bind]
    refine wp_mono ?_ (fun _ h => h) (msLeft_tells h)
    rintro left log (⟨hleft, h⟩ | ⟨hleft, h⟩)
    · rw [if_pos hleft]
      exact .inl ⟨rfl, h⟩
    rw [if_neg (not_le.mpr hleft), wp_bind, read, wp_ask]
    have hread (r : Except Errno (List UInt8)) : Pending dl pre (log ++ [.read fd r]) :=
      h.use id hleft
    split
    · exact ih (hread _)
    · rw [wp_bind]
      refine wp_mono ?_ (fun _ h => h) (waitFd_tells .pollIn n (hread _))
      intro wr log h
      split
      · exact h
      · refine ih (h.pending ?_)
        omega
    · exact .inr ⟨by simp, hread _⟩
    · exact .inr ⟨by simp, hread _⟩
    · exact ih (hread _)

theorem connectLoop_tells (n : ℕ) (h : Pending dl pre log) :
    wp (connectLoop os dl n) (fun r log' => Tells dl pre (r = .error (.lit "deadline")) log')
      (Pending dl pre) log := by
  induction n generalizing log with
  | zero => exact h
  | succ n ih =>
    rw [connectLoop, wp_bind, socket, wp_ask]
    replace h : Pending dl pre
        (log ++ [.socket (if os.socket log then some (sockets log) else none)]) :=
      h.any id fun _ => trivial
    split
    · exact .inr ⟨by decide, h⟩
    rename_i fd _
    rw [wp_bind, connect, wp_ask]
    generalize log ++ [.socket (if os.socket log then some (sockets log) else none)] = log at h ⊢
    replace h : Pending dl pre (log ++ [.connect fd (os.connect log)]) := h.any id fun _ => trivial
    split
    · exact .inr ⟨by simp, h⟩
    split
    · rw [wp_bind]
      refine wp_mono ?_ (fun _ h => h) (waitFd_tells .pollOut n h)
      intro wr log h
      split
      · rename_i hwr
        rw [wp_bind, soError, wp_ask]
        replace h : Pending dl pre (log ++ [.soError fd (os.soError log)]) :=
          (h.pending (by omega)).any id fun _ => trivial
        split
        · exact .inr ⟨by simp, h⟩
        · exact .inr ⟨by decide, h.any id fun _ => trivial⟩
      · refine (h.close fd).congr ?_
        split
        · rename_i hwr
          exact iff_of_true hwr rfl
        · rename_i hwr
          exact iff_of_false hwr (by decide)
    split
    · rw [wp_bind, Transport.close, wp_ask, wp_bind]
      refine wp_mono ?_ (fun _ h => h) (msLeft_tells (h.any id fun _ => trivial))
      rintro left log (⟨hleft, h⟩ | ⟨hleft, h⟩)
      · rw [if_pos hleft]
        exact .inl ⟨rfl, h⟩
      · rw [if_neg (not_le.mpr hleft), wp_bind, nanosleep, wp_ask]
        exact ih (h.use id trivial)
    · exact .inr ⟨by decide, h.any id fun _ => trivial⟩

theorem connectDeadline_tells (path : Option CStr) (n : ℕ) (h : Pending dl pre log) :
    wp (connectDeadline os dl path n)
      (fun r log' => Tells dl pre (r = .error (.lit "deadline")) log') (Pending dl pre) log := by
  cases path with
  | none => exact .inr ⟨by decide, h⟩
  | some path =>
    rw [connectDeadline]
    split
    · exact .inr ⟨by decide, h⟩
    · exact connectLoop_tells n h

theorem failed_inj {err err' : CStr} : failed err = failed err' ↔ err = err' := by
  simp [failed]

/-- Closing the socket keeps the error. -/
theorem closing_tells {err : CStr} (h : Tells dl pre (err = .lit "deadline") log) :
    wp (closing fd err) (fun out log' => Tells dl pre (out = failed (.lit "deadline")) log')
      (Pending dl pre) log :=
  (h.close fd).congr failed_inj.symm

theorem readError_deadline {rr : ℤ} : rr = -2 ↔ readError rr = .lit "deadline" := by
  rw [readError]
  split
  · exact iff_of_false (by omega) (by decide)
  split
  · exact iff_of_true ‹_› rfl
  · exact iff_of_false ‹_› (by decide)

theorem sendFrame_tells (req : List UInt8) (n : ℕ) (h : Pending dl pre log) :
    wp (sendFrame os fd dl req n) (fun wr log' => Tells dl pre (wr = -2) log') (Pending dl pre)
      log := by
  rw [sendFrame, wp_bind]
  refine wp_mono ?_ (fun _ h => h) (writeFull_tells n h)
  intro wr log h
  split
  · exact writeFull_tells n (h.pending (by omega))
  · exact h

theorem receiveFrame_tells (n : ℕ) (h : Pending dl pre log) :
    wp (receiveFrame os fd dl n)
      (fun out log' => Tells dl pre (out = failed (.lit "deadline")) log') (Pending dl pre)
      log := by
  rw [receiveFrame, wp_bind]
  refine wp_mono ?_ (fun _ h => h) (readFull_tells 5 n h)
  rintro ⟨rr, rhdr⟩ log h
  dsimp only at h ⊢
  split
  · exact closing_tells (h.congr readError_deadline)
  replace h := h.pending (by omega)
  split
  · exact closing_tells (.inr ⟨by decide, h⟩)
  split
  · exact closing_tells (.inr ⟨by decide, h⟩)
  rw [wp_bind, malloc, wp_modifyGet]
  split
  · exact closing_tells (.inr ⟨by decide, h⟩)
  rw [wp_bind]
  refine wp_mono ?_ (fun _ h => h) (readFull_tells _ n h)
  rintro ⟨rr, body⟩ log h
  dsimp only at h ⊢
  split
  · exact closing_tells (h.congr readError_deadline)
  · exact .inr ⟨by simp [failed], (h.pending (by omega)).any id fun _ => trivial⟩

theorem exchange_tells (t : PkgxTransport) (req : List UInt8) (n : ℕ) (h : Pending dl pre log) :
    wp (exchange os fd dl t req n)
      (fun out log' => Tells dl pre (out = failed (.lit "deadline")) log') (Pending dl pre)
      log := by
  rw [exchange, wp_bind, peercred, wp_ask]
  replace h : Pending dl pre (log ++ [.peercred fd (os.peercred log)]) := h.any id fun _ => trivial
  split
  · exact closing_tells (.inr ⟨by decide, h⟩)
  split
  · exact closing_tells (.inr ⟨by decide, h⟩)
  rw [wp_bind]
  refine wp_mono ?_ (fun _ h => h) (sendFrame_tells req n h)
  intro wr log h
  split
  · refine closing_tells (h.congr ?_)
    split
    · exact iff_of_true ‹_› rfl
    · exact iff_of_false ‹_› (by decide)
  · exact receiveFrame_tells n (h.pending (by omega))

end Loops

/-- The calls of a run after its deadline `dl` is fixed. -/
structure KeepsDeadline (dl : Timespec) (es : Log) : Prop where
  sends : ∀ before fd r after, es = before ++ .send fd r :: after →
    ∃ left, JustRead dl left before ∧ 0 < left
  reads : ∀ before fd r after, es = before ++ .read fd r :: after →
    ∃ left, JustRead dl left before ∧ 0 < left
  polls : ∀ before fd events timeout r after, es = before ++ .poll fd events timeout r :: after →
    ∃ left, JustRead dl left before ∧ 0 < timeout ∧ timeout ≤ left
  late : ∀ before e after, es = before ++ e :: after → (∃ r ∈ before, Expired dl r) →
    ∃ fd, e = .close fd

theorem keepsDeadline_of_timely {dl : Timespec} {es : Log} (h : Historical (Timely dl) es) :
    KeepsDeadline dl es where
  sends before _ _ after heq :=
    (h before _ after heq).prompt.resolve_left fun hany => Int.lt_irrefl 0 (hany 0)
  reads before _ _ after heq :=
    (h before _ after heq).prompt.resolve_left fun hany => Int.lt_irrefl 0 (hany 0)
  polls before _ _ _ _ after heq :=
    (h before _ after heq).prompt.resolve_left fun hany =>
      Int.lt_irrefl 0 (Int.lt_of_lt_of_le (hany 0).1 (hany 0).2)
  late before e after heq := (h before e after heq).late

/-- The first reading of the clock fixes the deadline, and the call has returned, with the
error that says so, exactly if a later reading has reached it. -/
def Bounded (budget : ℤ) (result : Option TxOut) (log : Log) : Prop :=
  log = [] ∨ log = [.clock none] ∨ ∃ start es, log = .clock (some start) :: es ∧
    KeepsDeadline (deadlineAt start budget) es ∧
    ((∃ e ∈ es, Expired (deadlineAt start budget) e) ↔ result = some (failed (.lit "deadline")))

section Runs

variable {start : Timespec} {budget : ℤ} {log : Log}

theorem Tells.bounded {result : Option TxOut}
    (h : Tells (deadlineAt start budget) [.clock (some start)]
      (result = some (failed (.lit "deadline"))) log) : Bounded budget result log := by
  rcases h with ⟨hlate, es, rfl, htimely, hexpired⟩ | ⟨hlive, es, rfl, hes⟩
  · exact .inr (.inr ⟨start, es, rfl, keepsDeadline_of_timely htimely,
      iff_of_true hexpired hlate⟩)
  · refine .inr (.inr ⟨start, es, rfl, keepsDeadline_of_timely hes.timely, iff_of_false ?_ hlive⟩)
    rintro ⟨e, he, hexpired⟩
    exact hes.live e he hexpired

theorem Pending.bounded (h : Pending (deadlineAt start budget) [.clock (some start)] log) :
    Bounded budget none log :=
  Tells.bounded (.inr ⟨by simp, h⟩)

end Runs

/-- Whatever the clock shows and whatever the system answers, the whole exchange runs against
the one deadline of its entry: no `send` and no `read` without time that has just been found to
remain, no `poll` for longer than that, and none of them once a reading has reached the
deadline, when the call returns with just that error. -/
theorem one_deadline (os : Os) (t : PkgxTransport) (req : Option (List UInt8)) (n : ℕ) :
    Bounded t.budget (exec (pkgxTransportTx os t req n) []).1
      (exec (pkgxTransportTx os t req n) []).2 := by
  refine wp_result ?_
  cases req with
  | none => exact .inl rfl
  | some req =>
    rw [pkgxTransportTx]
    split
    · exact .inl rfl
    rw [wp_bind, clockGettime, wp_ask]
    cases os.clock [] with
    | none => exact .inr (.inl rfl)
    | some start =>
      rw [wp_bind]
      refine wp_mono ?_ (fun _ h => h.bounded)
        (connectDeadline_tells t.socketPath n (Pending.start (deadlineAt start t.budget) _))
      rintro (err | fd) log h
      · refine (h.congr ?_).bounded
        rw [Option.some_inj, failed_inj, Except.error.injEq]
      · refine wp_mono ?_ (fun _ h => h.bounded) (exchange_tells t req n (h.pending (by simp)))
        intro out log h
        exact (h.congr (by rw [Option.some_inj])).bounded

end Pkgexec.Transport
