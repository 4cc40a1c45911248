import Pkgexec.CStrings

/-!
# The child spawn helper

`spawn.c`: a child is started without a shell, its standard input is written in full with
`SIGPIPE` ignored, and it is waited for. The answers of the system are a script with one
entry for each call; a loop that outlives its script sees an error.
-/

namespace Pkgexec.Spawn
open CStrings

/-- The result of one `write`: a count, `EINTR`, or another error. -/
inductive WriteResult where
  | wrote (n : ℕ)
  | eintr
  | failed

inductive ExitStatus where
  | exited (code : ℕ)
  | signaled

/-- The result of one `waitpid`: the child, `EINTR`, or anything else. -/
inductive WaitResult where
  | child (status : ExitStatus)
  | eintr
  | other

/-- What the system answers during one call. -/
structure SpawnOs where
  environ : List CStr
  envAlloc : Bool
  pipe : Bool
  actionsInit : Bool
  addDup2 : Bool
  addCloseRead : Bool
  addCloseWrite : Bool
  spawn : Bool
  ignoreSigpipe : Bool
  writes : List WriteResult
  restoreSigpipe : Bool
  waits : List WaitResult

inductive SpawnEvent where
  | spawned (argv env : List CStr)
  | sigpipeIgnored
  | wrote (chunk : List UInt8)
  | sigpipeRestored (ok : Bool)
  | waited (status : Option ExitStatus)

/-- The return value, `*started` and what the call did, in order. -/
structure SpawnOut where
  rc : ℤ
  started : Bool
  events : List SpawnEvent

/-- The write loop: the chunks written, and the bytes that stay undelivered. -/
def writeLoop : List WriteResult → List UInt8 → List (List UInt8) × List UInt8
  | _, [] => ([], [])
  | .eintr :: ws, rest => writeLoop ws rest
  | .wrote (n + 1) :: ws, rest =>
    let r := writeLoop ws (rest.drop (n + 1))
    (rest.take (n + 1) :: r.1, r.2)
  | _, rest => ([], rest)

/-- `deliver_ok` and the events of the delivery. -/
def deliver (os : SpawnOs) : Option CStr → Bool × List SpawnEvent
  | none => (true, [])
  | some input =>
    if !os.ignoreSigpipe then (false, [])
    else
      let r := writeLoop os.writes input.bytes
      (r.2.isEmpty && os.restoreSigpipe,
        .sigpipeIgnored :: r.1.map .wrote ++ [.sigpipeRestored os.restoreSigpipe])

/-- The `waitpid` loop; `none` is a return value other than `pid`. -/
def waitLoop : List WaitResult → Option ExitStatus
  | .eintr :: ws => waitLoop ws
  | .child status :: _ => some status
  | _ => none

/-- The extra entries come first, so that they take precedence. -/
def buildChildEnv (os : SpawnOs) (extraEnv : List CStr) : Option (List CStr) :=
  if os.envAlloc then some (extraEnv ++ os.environ) else none

/-- The environment of the child, `none` where it cannot be built. -/
def childEnv (os : SpawnOs) : Option (List CStr) → Option (List CStr)
  | none => some os.environ
  | some extraEnv => buildChildEnv os extraEnv

def pkgxSpawnWaitEnv (os : SpawnOs) (argv : List CStr) (input : Option CStr)
    (extraEnv : Option (List CStr)) : SpawnOut :=
  let failed : SpawnOut := ⟨-1, false, []⟩
  if argv.isEmpty then failed
  else
    match childEnv os extraEnv with
    | none => failed
    | some env =>
      if input.isSome && !os.pipe then failed
      else if !os.actionsInit then failed
      else if input.isSome && (!os.addDup2 || !os.addCloseRead || !os.addCloseWrite) then failed
      else if !os.spawn then failed
      else
        let d := deliver os input
        let w := waitLoop os.waits
        let exitOk := match w with
          | some (.exited code) => code = 0
          | _ => false
        ⟨if exitOk && d.1 then 0 else -1, true, .spawned argv env :: d.2 ++ [.waited w]⟩

def SpawnEvent.isSpawned : SpawnEvent → Bool
  | .spawned _ _ => true
  | _ => false

private theorem deliver_events (os : SpawnOs) (input : Option CStr) :
    ∀ e ∈ (deliver os input).2, e.isSpawned = false := by
  cases input with
  | none => simp [deliver]
  | some input =>
    rw [deliver]
    split
    · simp
    · intro e he
      simp only [List.mem_append, List.mem_cons, List.mem_map, List.not_mem_nil, or_false] at he
      rcases he with (rfl | ⟨chunk, -, rfl⟩) | rfl <;> rfl

/-- Every call before `posix_spawn` succeeds, and so does `posix_spawn` itself. -/
structure SpawnOs.Starts (os : SpawnOs) (input : Option CStr) (extraEnv : Option (List CStr)) :
    Prop where
  env : (childEnv os extraEnv).isSome = true
  actionsInit : os.actionsInit = true
  redirect : input.isSome = true →
    os.pipe = true ∧ os.addDup2 = true ∧ os.addCloseRead = true ∧ os.addCloseWrite = true
  spawn : os.spawn = true

variable {os : SpawnOs} {argv : List CStr} {input : Option CStr} {extraEnv : Option (List CStr)}

/-- The reading of the wait status: an exit with code zero. -/
def exitedZero : Option ExitStatus → Bool
  | some (.exited code) => code = 0
  | _ => false

theorem exitedZero_iff {w : Option ExitStatus} : exitedZero w = true ↔ w = some (.exited 0) := by
  rcases w with _ | code | _ <;> simp [exitedZero]

theorem pkgxSpawnWaitEnv_starts (hargv : argv ≠ []) (h : os.Starts input extraEnv) :
    ∃ env, pkgxSpawnWaitEnv os argv input extraEnv =
      ⟨if exitedZero (waitLoop os.waits) && (deliver os input).1 then 0 else -1, true,
        .spawned argv env :: (deliver os input).2 ++ [.waited (waitLoop os.waits)]⟩ := by
  obtain ⟨env, henv⟩ := Option.isSome_iff_exists.mp h.env
  have hargv : argv.isEmpty = false := by simpa using hargv
  refine ⟨env, ?_⟩
  cases hin : input.isSome with
  | false =>
    simp only [pkgxSpawnWaitEnv, hargv, henv, hin, h.actionsInit, h.spawn]
    rfl
  | true =>
    obtain ⟨hpipe, hdup, hread, hwrite⟩ := h.redirect hin
    simp only [pkgxSpawnWaitEnv, hargv, henv, hin, hpipe, h.actionsInit, hdup, hread, hwrite,
      h.spawn]
    rfl

theorem pkgxSpawnWaitEnv_fails (h : ¬ os.Starts input extraEnv) :
    pkgxSpawnWaitEnv os argv input extraEnv = ⟨-1, false, []⟩ := by
  rw [pkgxSpawnWaitEnv]
  cases hargv : argv.isEmpty with
  | true => rfl
  | false =>
    cases henv : childEnv os extraEnv with
    | none => rfl
    | some env =>
      simp only [Bool.false_eq_true, if_false]
      split
      · rfl
      rename_i hpipe
      split
      · rfl
      rename_i hinit
      split
      · rfl
      rename_i hredirect
      split
      · rfl
      rename_i hspawn
      refine absurd ⟨by simp [henv], by simpa using hinit, ?_, by simpa using hspawn⟩ h
      intro hin
      simpa [hin, and_assoc] using And.intro hpipe hredirect

/-- A call runs its child to the end, or does nothing at all and fails. -/
theorem pkgxSpawnWaitEnv_course (os : SpawnOs) (argv : List CStr) (input : Option CStr)
    (extraEnv : Option (List CStr)) :
    (argv ≠ [] ∧ os.Starts input extraEnv) ∧ (∃ env, pkgxSpawnWaitEnv os argv input extraEnv =
        ⟨if exitedZero (waitLoop os.waits) && (deliver os input).1 then 0 else -1, true,
          .spawned argv env :: (deliver os input).2 ++ [.waited (waitLoop os.waits)]⟩) ∨
      ¬ (argv ≠ [] ∧ os.Starts input extraEnv) ∧
        pkgxSpawnWaitEnv os argv input extraEnv = ⟨-1, false, []⟩ := by
  by_cases h : argv ≠ [] ∧ os.Starts input extraEnv
  · exact .inl ⟨h, pkgxSpawnWaitEnv_starts h.1 h.2⟩
  · refine .inr ⟨h, ?_⟩
    rcases not_and_or.mp h with hargv | hos
    · rw [not_not.mp hargv]
      rfl
    · exact pkgxSpawnWaitEnv_fails hos

/-- The start is the first effect and the only one of its kind. -/
theorem pkgxSpawnWaitEnv_cases (os : SpawnOs) (argv : List CStr) (input : Option CStr)
    (extraEnv : Option (List CStr)) :
    (pkgxSpawnWaitEnv os argv input extraEnv = ⟨-1, false, []⟩) ∨
      ((pkgxSpawnWaitEnv os argv input extraEnv).started = true ∧ ∃ env rest,
        (pkgxSpawnWaitEnv os argv input extraEnv).events = .spawned argv env :: rest ∧
          ∀ e ∈ rest, e.isSpawned = false) := by
  rcases pkgxSpawnWaitEnv_course os argv input extraEnv with ⟨-, env, hrun⟩ | ⟨-, hrun⟩
  · rw [hrun]
    refine .inr ⟨rfl, env, _, rfl, ?_⟩
    intro e he
    rcases List.mem_append.mp he with he | he
    · exact deliver_events os input e he
    · rw [List.mem_singleton.mp he]
      rfl
  · exact .inl hrun

/-- A child is started exactly if every call up to the start succeeds. -/
theorem pkgxSpawnWaitEnv_started_iff (hargv : argv ≠ []) :
    (pkgxSpawnWaitEnv os argv input extraEnv).started = true ↔ os.Starts input extraEnv := by
  rcases pkgxSpawnWaitEnv_course os argv input extraEnv with ⟨h, env, hrun⟩ | ⟨h, hrun⟩
  · exact iff_of_true (by rw [hrun]) h.2
  · exact iff_of_false (by simp [hrun]) fun hstarts => h ⟨hargv, hstarts⟩

theorem rc_eq_zero_iff {w : Option ExitStatus} {delivered : Bool} :
    (if exitedZero w && delivered then (0 : ℤ) else -1) = 0 ↔
      w = some (.exited 0) ∧ delivered = true := by
  rw [← exitedZero_iff, ← Bool.and_eq_true]
  split
  · rename_i h
    exact iff_of_true rfl h
  · rename_i h
    exact iff_of_false (by decide) h

/-- A call succeeds only if its child was started and exited with code zero. -/
theorem pkgxSpawnWaitEnv_ok (hrc : (pkgxSpawnWaitEnv os argv input extraEnv).rc = 0) : ∃ env,
    .spawned argv env ∈ (pkgxSpawnWaitEnv os argv input extraEnv).events ∧
      .waited (some (.exited 0)) ∈ (pkgxSpawnWaitEnv os argv input extraEnv).events := by
  rcases pkgxSpawnWaitEnv_course os argv input extraEnv with ⟨-, env, hrun⟩ | ⟨-, hrun⟩
  · rw [hrun] at hrc ⊢
    have hwait := (rc_eq_zero_iff.mp hrc).1
    exact ⟨env, by simp, by simp [hwait]⟩
  · rw [hrun] at hrc
    simp at hrc

/-- The chunks that are written and what stays undelivered make up the payload. -/
theorem writeLoop_append (ws : List WriteResult) (rest : List UInt8) :
    (writeLoop ws rest).1.flatten ++ (writeLoop ws rest).2 = rest := by
  fun_induction writeLoop ws rest with
  | case1 => rfl
  | case2 ws rest _ ih => exact ih
  | case3 n ws rest _ r ih =>
    rw [List.flatten_cons, List.append_assoc, ih, List.take_append_drop]
  | case4 => rfl

/-- The bytes that reach the standard input of the child. -/
def SpawnEvent.written : SpawnEvent → List UInt8
  | .wrote chunk => chunk
  | _ => []

/-- What is done between the start and the wait: nothing, or with `SIGPIPE` ignored some chunks
are written, and its disposition is restored. -/
inductive Delivery (input : List UInt8) : List SpawnEvent → Prop where
  | skipped : Delivery input []
  | attempted (chunks : List (List UInt8)) (restored : Bool) (h : chunks.flatten <+: input) :
      Delivery input (.sigpipeIgnored :: chunks.map .wrote ++ [.sigpipeRestored restored])

theorem deliver_delivery (os : SpawnOs) (input : Option CStr) :
    Delivery (orEmpty input).bytes (deliver os input).2 := by
  cases input with
  | none => exact .skipped
  | some input =>
    rw [deliver]
    split
    · exact .skipped
    · exact .attempted _ _ ⟨_, writeLoop_append os.writes input.bytes⟩

/-- A payload that counts as delivered is written whole and in order. -/
theorem deliver_ok {os : SpawnOs} {input : CStr} (h : (deliver os (some input)).1 = true) :
    ∃ chunks : List (List UInt8), chunks.flatten = input.bytes ∧
      (deliver os (some input)).2 =
        .sigpipeIgnored :: chunks.map .wrote ++ [.sigpipeRestored true] := by
  rw [deliver] at h ⊢
  split at h
  · cases h
  · rename_i hignored
    obtain ⟨hall, hrestored⟩ := (Bool.and_eq_true _ _).mp h
    have hwritten := writeLoop_append os.writes input.bytes
    rw [List.isEmpty_iff.mp hall, List.append_nil] at hwritten
    rw [if_neg hignored]
    exact ⟨_, hwritten, by rw [hrestored]⟩

theorem written_delivery {input : List UInt8} {events : List SpawnEvent}
    (h : Delivery input events) : events.flatMap SpawnEvent.written <+: input := by
  cases h with
  | skipped => exact List.nil_prefix
  | attempted chunks restored h =>
    have hchunks : (chunks.map SpawnEvent.wrote).flatMap SpawnEvent.written = chunks.flatten := by
      rw [List.flatMap_map, ← List.flatMap_id']
      rfl
    rw [List.cons_append, List.flatMap_cons, List.flatMap_append, hchunks]
    simpa [SpawnEvent.written] using h

/-- What a call that succeeds has done between the start and the wait. -/
def FullyDelivered (events : List SpawnEvent) : Option CStr → Prop
  | none => events = []
  | some input => ∃ chunks : List (List UInt8), chunks.flatten = input.bytes ∧
      events = .sigpipeIgnored :: chunks.map .wrote ++ [.sigpipeRestored true]

/-- What the caller is told, against what was done. -/
structure Honest (os : SpawnOs) (argv : List CStr) (input : Option CStr)
    (extraEnv : Option (List CStr)) (out : SpawnOut) : Prop where
  started_iff : out.started = true ↔ argv ≠ [] ∧ os.Starts input extraEnv
  spawned_iff : out.started = true ↔ ∃ env, .spawned argv env ∈ out.events
  written : out.events.flatMap SpawnEvent.written <+: (orEmpty input).bytes
  waited : out.started = true → ∃ env delivery status,
    out.events = .spawned argv env :: delivery ++ [.waited status] ∧
      Delivery (orEmpty input).bytes delivery
  succeeds : out.rc = 0 → out.started = true ∧ ∃ env delivery,
    out.events = .spawned argv env :: delivery ++ [.waited (some (.exited 0))] ∧
      FullyDelivered delivery input

theorem honest_failed (h : ¬ (argv ≠ [] ∧ os.Starts input extraEnv)) :
    Honest os argv input extraEnv ⟨-1, false, []⟩ where
  started_iff := iff_of_false Bool.false_ne_true h
  spawned_iff := iff_of_false Bool.false_ne_true (by simp)
  written := List.nil_prefix
  waited hstarted := absurd hstarted Bool.false_ne_true
  succeeds hrc := by simp at hrc

theorem written_started (env : List CStr) (delivery : List SpawnEvent)
    (status : Option ExitStatus) :
    (SpawnEvent.spawned argv env :: delivery ++ [SpawnEvent.waited status]).flatMap
      SpawnEvent.written = delivery.flatMap SpawnEvent.written := by
  rw [List.cons_append, List.flatMap_cons, List.flatMap_append]
  exact List.append_nil _

/-- Under every outcome of every call: `*started` is the truth about the child, what it was
sent is a prefix of the payload, it is always waited for, and success means that all of the
payload was written with `SIGPIPE` ignored, and that the child exited with code zero. -/
theorem spawn_is_honest (os : SpawnOs) (argv : List CStr) (input : Option CStr)
    (extraEnv : Option (List CStr)) :
    Honest os argv input extraEnv (pkgxSpawnWaitEnv os argv input extraEnv) := by
  rcases pkgxSpawnWaitEnv_course os argv input extraEnv with ⟨hstarts, env, hrun⟩ | ⟨hfails, hrun⟩
  · have hdelivery := deliver_delivery os input
    rw [hrun]
    refine ⟨iff_of_true rfl hstarts, iff_of_true rfl ⟨env, List.mem_cons_self⟩, ?_, ?_, ?_⟩
    · rw [written_started]
      exact written_delivery hdelivery
    · intro _
      exact ⟨env, _, _, rfl, hdelivery⟩
    · intro hrc
      obtain ⟨hwait, hdelivered⟩ := rc_eq_zero_iff.mp hrc
      refine ⟨rfl, env, (deliver os input).2, by rw [hwait], ?_⟩
      cases input with
      | none => rfl
      | some input => exact deliver_ok hdelivered
  · rw [hrun]
    exact honest_failed hfails

end Pkgexec.Spawn
