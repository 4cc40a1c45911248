import Pkgexec.Deliveries
import Pkgexec.StdinReader

/-!
# Every chunking of the request

The block of the reader always holds the bytes read so far and cells that were never written,
with room for at least one more byte and the terminator at every `read`. So the reader is
exact at its cap for every chunking, and a block that is released holds input bytes exactly
where a growing `realloc` moved it.
-/

namespace Pkgexec.Stdin
open CStrings FuelRuns Deliveries
open Request (maxStdin)
open Transport (Errno Timespec PollResult msBetween)

/-- The cells of a block that hold input bytes. -/
def Cell.isInput : Cell → Bool
  | .input _ => true
  | _ => false

/-- No byte of the input is in the block. -/
def Wiped (block : Block) : Prop := ∀ c ∈ block, c.isInput = false

/-- The buffer holds the bytes `got` and nothing else of the input. -/
structure Holding (got : List UInt8) (buf : Buffer) : Prop where
  count : buf.n = got.length
  block : buf.block = got.map .input ++ List.replicate (buf.cap + 1 - got.length) .raw
  within : got.length ≤ buf.cap
  grown : initialCap ≤ buf.cap
  capped : buf.cap ≤ maxStdin + 1

theorem write_after (front : Block) (cells : List Cell) (k : ℕ) :
    write (front ++ List.replicate k .raw) front.length cells =
      front ++ cells ++ List.replicate (k - cells.length) .raw := by
  rw [write, List.take_left, List.drop_append, List.drop_replicate,
    List.drop_eq_nil_of_le (Nat.le_add_right _ _), List.nil_append, Nat.add_sub_cancel_left]

theorem holding_fresh : Holding [] .fresh where
  count := rfl
  block := rfl
  within := Nat.zero_le _
  grown := by decide
  capped := by decide

section Buffers

variable {got more : List UInt8} {buf : Buffer}

theorem Holding.cap_pos (h : Holding got buf) : 0 < buf.cap :=
  Nat.lt_of_lt_of_le (by decide) h.grown

theorem Holding.length_block (h : Holding got buf) : buf.block.length = buf.cap + 1 := by
  have hwithin := h.within
  rw [h.block, List.length_append, List.length_map, List.length_replicate]
  omega

/-- A full buffer under the cap grows to one with room. -/
theorem Holding.grow (h : Holding got buf) (hfull : buf.n = buf.cap)
    (hcap : got.length ≤ maxStdin) : Holding got buf.grow ∧ got.length < buf.grow.cap := by
  have hcount := h.count
  have hgrown := h.grown
  have hcapped := h.capped
  have hsome : 0 < buf.cap := h.cap_pos
  have hnext : buf.cap < buf.nextCap ∧ buf.nextCap ≤ maxStdin + 1 := by
    rw [Buffer.nextCap]
    split
    · omega
    · omega
  refine ⟨⟨hcount, ?_, ?_, ?_, hnext.2⟩, ?_⟩
  · have hroom : buf.cap + 1 - got.length + (buf.nextCap + 1 - (buf.cap + 1)) =
        buf.nextCap + 1 - got.length := by omega
    show buf.block ++ List.replicate (buf.nextCap + 1 - buf.block.length) .raw = _
    rw [h.length_block, h.block, List.append_assoc, List.replicate_append_replicate, hroom]
    rfl
  · show got.length ≤ buf.nextCap
    omega
  · show initialCap ≤ buf.nextCap
    omega
  · show got.length < buf.nextCap
    omega

theorem Holding.fill (h : Holding got buf) (hmore : more.length ≤ buf.cap - buf.n) :
    Holding (got ++ more) (buf.fill more) := by
  have hcount := h.count
  have hwithin := h.within
  refine ⟨?_, ?_, ?_, h.grown, h.capped⟩
  · rw [Buffer.fill, hcount, List.length_append]
  · have hlen : buf.n = (got.map Cell.input).length := by rw [hcount, List.length_map]
    show write buf.block buf.n (more.map .input) = _
    rw [h.block, hlen, write_after, List.map_append, List.length_map, List.length_append,
      Nat.sub_sub]
    rfl
  · show (got ++ more).length ≤ buf.cap
    rw [List.length_append]
    omega

/-- The wipe reaches every byte that was read. -/
theorem Holding.wiped (h : Holding got buf) : Wiped (secureWipe buf.block buf.n) := by
  intro c hc
  rw [secureWipe, write, h.block, h.count, List.length_replicate, Nat.zero_add, List.take_zero,
    List.nil_append, List.drop_left' (List.length_map _), List.mem_append] at hc
  rcases hc with hc | hc
  · rw [List.eq_of_mem_replicate hc]
    rfl
  · rw [List.eq_of_mem_replicate hc]
    rfl

/-- The terminator is written behind the bytes that were read. -/
theorem Holding.terminated (h : Holding got buf) :
    write buf.block buf.n [.zero] =
      got.map .input ++ .zero :: List.replicate (buf.cap - got.length) .raw := by
  have hwithin := h.within
  have hlen : buf.n = (got.map Cell.input).length := by rw [h.count, List.length_map]
  rw [h.block, hlen, write_after, List.append_assoc, List.singleton_append]
  congr 3
  simp only [List.length_singleton]
  omega

theorem Holding.terminated_take (h : Holding got buf) :
    (write buf.block buf.n [.zero]).take (got.length + 1) = got.map .input ++ [.zero] := by
  rw [h.terminated, List.append_cons, List.take_left']
  rw [List.length_append, List.length_map, List.length_singleton]

end Buffers

/-- The bytes that a `read` put into the block. -/
def Event.received : Event → List UInt8
  | .read _ _ _ (.ok more) => more
  | _ => []

def Event.interrupted : Event → Bool
  | .poll _ (.failed .eintr) => true
  | .read _ _ _ (.error .eintr) => true
  | _ => false

instance : Arrival Event UInt8 where
  bytes := Event.received
  interrupted := Event.interrupted
  quiet e he := by
    cases e with
    | read size off count r =>
      cases r with
      | error e => rfl
      | ok more => cases he
    | _ => rfl

/-- What is done after `before`. A `read` asks for at least one byte inside its block, so it
finds nothing only where nothing is left; what is freed is wiped; and a block that grows is
full of input. -/
def Sound (os : Os) (before : Log) : Event → Prop
  | .read size off count r =>
    0 < count ∧ off + count < size ∧ (r = .ok [] → os.read before = .ok [])
  | .free block => Wiped block
  | .realloc old _ _ => ¬ Wiped old ∧ initialCap ≤ (received before).length
  | _ => True

/-- Where the loop stands: the block holds what was read, and all calls so far are sound. -/
structure Reading (os : Os) (log : Log) (buf : Buffer) : Prop where
  holding : Holding (received log) buf
  sound : Historical (Sound os) log

/-- What the loop leaves when it has returned. -/
def Finished (os : Os) (r : Except CStr Buffer) (log : Log) : Prop :=
  Historical (Sound os) log ∧ ∀ buf, r = .ok buf → Holding (received log) buf

section Runs

variable {os : Os} {buf : Buffer} {log : Log}

/-- A call that reads nothing. -/
theorem Reading.quiet (h : Reading os log buf) (e : Event) (hreceived : e.received = [])
    (he : Sound os log e) : Reading os (log ++ [e]) buf where
  holding := by
    have hquiet : received [e] = [] := (received_singleton e).trans hreceived
    rw [received_quiet log hquiet]
    exact h.holding
  sound := h.sound.snoc he

theorem Holding.not_wiped {got : List UInt8} (h : Holding got buf) (hfull : buf.n = buf.cap) :
    ¬ Wiped buf.block := by
  have hcount := h.count
  have hsome := h.cap_pos
  intro hwiped
  cases got with
  | nil =>
    rw [List.length_nil] at hcount
    omega
  | cons b got =>
    have hmem : Cell.input b ∈ buf.block := by
      rw [h.block]
      simp
    cases hwiped _ hmem

theorem failing_wp (h : Reading os log buf) (err : CStr) :
    wp (failing buf err) (Finished os) (Historical (Sound os)) log := by
  rw [failing, wp_bind, free, wp_ask]
  exact ⟨h.sound.snoc h.holding.wiped, by simp⟩

theorem grown_wp (h : Reading os log buf) (hcap : buf.n ≤ maxStdin) :
    wp (grown os buf)
      (fun r log' => Reading os log' (r.getD buf) ∧ (r.getD buf).n ≤ maxStdin ∧
        ∀ buf', r = some buf' → buf'.n < buf'.cap)
      (Historical (Sound os)) log := by
  have hcount := h.holding.count
  rw [grown]
  split
  · rename_i hfull
    have hcalled (outcome : Realloc) :
        Reading os (log ++ [.realloc buf.block (buf.nextCap + 1) outcome]) buf :=
      h.quiet _ rfl ⟨h.holding.not_wiped hfull, by rw [← hcount, hfull]; exact h.holding.grown⟩
    have hgrown (outcome : Realloc) :
        Reading os (log ++ [.realloc buf.block (buf.nextCap + 1) outcome]) buf.grow ∧
          buf.n < buf.grow.cap := by
      have hcount := (hcalled outcome).holding.count
      obtain ⟨hholding, hroom⟩ := (hcalled outcome).holding.grow hfull (by omega)
      exact ⟨⟨hholding, (hcalled outcome).sound⟩, by omega⟩
    rw [wp_bind, realloc, wp_ask]
    cases os.realloc log with
    | failed => exact ⟨hcalled _, hcap, by simp⟩
    | inPlace =>
      refine ⟨(hgrown _).1, hcap, ?_⟩
      rintro _ ⟨⟩
      exact (hgrown .inPlace).2
    | moved =>
      refine ⟨(hgrown _).1, hcap, ?_⟩
      rintro _ ⟨⟩
      exact (hgrown .moved).2
  · rename_i hroom
    have hwithin := h.holding.within
    refine ⟨h, hcap, ?_⟩
    rintro _ ⟨⟩
    omega

/-- A read with room takes at most what fits. -/
theorem read_wp (h : Reading os log buf) (hroom : buf.n < buf.cap) :
    wp (read os buf)
      (fun r log' => match r with
        | .error _ => Reading os log' buf
        | .ok more => Reading os log' (buf.fill more))
      (Historical (Sound os)) log := by
  have hlen := h.holding.length_block
  rw [read, wp_ask]
  cases hread : os.read log with
  | error e => exact h.quiet _ rfl ⟨by omega, by omega, by simp [Except.map]⟩
  | ok there =>
    show Reading os _ (buf.fill (there.take (buf.cap - buf.n)))
    refine ⟨?_, h.sound.snoc ⟨by omega, by omega, ?_⟩⟩
    · rw [received_append, received_singleton]
      exact h.holding.fill (List.length_take_le _ _)
    · intro hnil
      have htake : there.take (buf.cap - buf.n) = [] := Except.ok.inj hnil
      rcases List.take_eq_nil_iff.mp htake with hzero | rfl
      · omega
      · exact hread

theorem Buffer.fill_nil (h : Reading os log (buf.fill [])) : Reading os log buf := by
  have hwrite : write buf.block buf.n [] = buf.block := by
    rw [write, List.append_nil, List.length_nil, Nat.add_zero, List.take_append_drop]
  have hfill : buf.fill [] = buf := by
    rw [Buffer.fill, List.map_nil, hwrite]
    rfl
  rwa [hfill] at h

/-- The loop keeps every byte it reads, and it ends well at the end of the input only. -/
theorem readLoop_wp (start : Timespec) (deadlineMs : ℤ) (fuel : ℕ) (h : Reading os log buf)
    (hcap : buf.n ≤ maxStdin) :
    wp (readLoop os start deadlineMs fuel buf) (Finished os) (Historical (Sound os)) log := by
  induction fuel generalizing buf log with
  | zero => exact h.sound
  | succ fuel ih =>
    rw [readLoop, wp_bind, clockGettime, wp_ask]
    replace h := h.quiet (.clock (os.clock log)) rfl trivial
    split
    · exact failing_wp h _
    dsimp only
    split
    · exact failing_wp h _
    rw [wp_bind, poll, wp_ask]
    have hpolled (timeout : ℤ) (result : PollResult) := h.quiet (.poll timeout result) rfl trivial
    split
    · exact ih (hpolled _ _) hcap
    · exact failing_wp (hpolled _ _) _
    · exact failing_wp (hpolled _ _) _
    rw [wp_bind]
    refine wp_mono ?_ (fun _ h => h) (grown_wp (hpolled _ _) hcap)
    rintro r log' ⟨h, hcap, hroom⟩
    split
    · exact failing_wp h _
    rw [wp_bind]
    refine wp_mono ?_ (fun _ h => h) (read_wp h (hroom _ rfl))
    intro r log' h
    split
    · exact ih h hcap
    · exact failing_wp h _
    · refine ⟨h.sound, ?_⟩
      rintro _ ⟨⟩
      exact (Buffer.fill_nil h).holding
    · split
      · exact failing_wp h _
      · exact ih h (by omega)

theorem reading_start (start : Timespec) (size : ℕ) (ok : Bool) :
    Reading os ([] ++ [.clock (some start)] ++ [.malloc size ok]) .fresh where
  holding := holding_fresh
  sound := (Historical.nil.snoc trivial).snoc trivial

/-- On success the block that is returned holds what was read, terminated. -/
theorem pkgxReadStdinDeadline_wp (os : Os) (deadlineMs : ℤ) (fuel : ℕ) :
    wp (pkgxReadStdinDeadline os deadlineMs fuel)
      (fun r log => Historical (Sound os) log ∧ ∀ block n, r = .ok (block, n) →
        n = (received log).length ∧
          block.take (n + 1) = (received log).map .input ++ [.zero])
      (Historical (Sound os)) [] := by
  rw [pkgxReadStdinDeadline, wp_bind, clockGettime, wp_ask]
  split
  · exact ⟨Historical.nil.snoc trivial, by simp⟩
  rename_i start hstart
  rw [hstart, wp_bind, malloc, wp_ask]
  split
  · exact ⟨(Historical.nil.snoc trivial).snoc trivial, by simp⟩
  rw [wp_bind]
  refine wp_mono ?_ (fun _ h => h)
    (readLoop_wp start deadlineMs fuel (reading_start _ _ _) (Nat.zero_le _))
  rintro r log ⟨hsound, hheld⟩
  split
  · exact ⟨hsound, by simp⟩
  · rename_i buf
    refine ⟨hsound, ?_⟩
    rintro _ _ ⟨⟩
    have h := hheld buf rfl
    have hblock := h.terminated_take
    rw [← h.count] at hblock
    exact ⟨h.count, hblock⟩

end Runs

theorem pkgxReadStdinDeadline_sound (os : Os) (deadlineMs : ℤ) (fuel : ℕ) :
    Historical (Sound os) (exec (pkgxReadStdinDeadline os deadlineMs fuel) []).2 :=
  wp_state (wp_mono (fun _ _ h => h.1) (fun _ h => h) (pkgxReadStdinDeadline_wp os deadlineMs fuel))

theorem returned_all (os : Os) (deadlineMs : ℤ) (fuel : ℕ) (block : Block) (n : ℕ)
    (h : (exec (pkgxReadStdinDeadline os deadlineMs fuel) []).1 = some (.ok (block, n))) :
    block.take n =
      (received (exec (pkgxReadStdinDeadline os deadlineMs fuel) []).2).map .input := by
  obtain ⟨-, hreturned⟩ :=
    (wp_iff.mp (pkgxReadStdinDeadline_wp os deadlineMs fuel)).1 _ _ (Prod.ext h rfl)
  obtain ⟨hn, hblock⟩ := hreturned block n rfl
  have htake := congrArg (List.take n) hblock
  rwa [List.take_take, Nat.min_eq_left n.le_succ, List.take_left' (by rw [List.length_map, hn])]
    at htake

/-- No block that was handed back to the allocator holds a byte of the input, and a request that
is returned is all of what was read. -/
def OneCopy (result : Option (Except CStr (Block × ℕ))) (log : Log) : Prop :=
  (∀ block ∈ releasedBlocks log, Wiped block) ∧
    ∀ block n, result = some (.ok (block, n)) → block.take n = (received log).map .input

/-- What is freed is wiped, and what a `realloc` moves is not. -/
theorem released_wiped_iff {os : Os} {log : Log} (h : Historical (Sound os) log) :
    (∀ block ∈ releasedBlocks log, Wiped block) ↔
      ∀ old size, .realloc old size .moved ∉ log := by
  constructor
  · intro hwiped old size hmem
    obtain ⟨before, hgrown, -⟩ := h.mem hmem
    exact hgrown (hwiped old (List.mem_filterMap.mpr ⟨_, hmem, rfl⟩))
  · intro hmoved block hblock
    obtain ⟨e, hmem, he⟩ := List.mem_filterMap.mp hblock
    obtain ⟨before, hallowed⟩ := h.mem hmem
    cases e with
    | free freed =>
      obtain rfl := Option.some.inj he
      exact hallowed
    | realloc old size outcome =>
      cases outcome with
      | moved => exact absurd hmem (hmoved old size)
      | failed => cases he
      | inPlace => cases he
    | _ => cases he

theorem not_oneCopy_of_moved (os : Os) (deadlineMs : ℤ) (fuel : ℕ) {old : Block} {size : ℕ}
    (hmem : .realloc old size .moved ∈ (exec (pkgxReadStdinDeadline os deadlineMs fuel) []).2) :
    ¬ OneCopy (exec (pkgxReadStdinDeadline os deadlineMs fuel) []).1
      (exec (pkgxReadStdinDeadline os deadlineMs fuel) []).2 := fun hcopy =>
  (released_wiped_iff (pkgxReadStdinDeadline_sound os deadlineMs fuel)).mp hcopy.1 old size hmem

/-- However it ends, the reader leaves bytes of the input behind exactly if a growing `realloc`
moves its buffer. -/
theorem oneCopy_iff (os : Os) (deadlineMs : ℤ) (fuel : ℕ) :
    OneCopy (exec (pkgxReadStdinDeadline os deadlineMs fuel) []).1
        (exec (pkgxReadStdinDeadline os deadlineMs fuel) []).2 ↔
      ∀ old size, .realloc old size .moved ∉
        (exec (pkgxReadStdinDeadline os deadlineMs fuel) []).2 := by
  rw [OneCopy, released_wiped_iff (pkgxReadStdinDeadline_sound os deadlineMs fuel)]
  exact and_iff_left (returned_all os deadlineMs fuel)

/-- A request that is shorter than the first block is never left behind. -/
theorem oneCopy_of_short (os : Os) (deadlineMs : ℤ) (fuel : ℕ)
    (h : (received (exec (pkgxReadStdinDeadline os deadlineMs fuel) []).2).length < initialCap) :
    OneCopy (exec (pkgxReadStdinDeadline os deadlineMs fuel) []).1
      (exec (pkgxReadStdinDeadline os deadlineMs fuel) []).2 := by
  refine ⟨?_, returned_all os deadlineMs fuel⟩
  rw [released_wiped_iff (pkgxReadStdinDeadline_sound os deadlineMs fuel)]
  intro old size hmem
  obtain ⟨before, after, hlog⟩ := List.append_of_mem hmem
  obtain ⟨-, hfull⟩ := pkgxReadStdinDeadline_sound os deadlineMs fuel _ _ _ hlog
  rw [hlog, received_append, List.length_append] at h
  omega

/-- A system that has the whole request at once, and whose allocator always moves. -/
def movingOs (request : List UInt8) : Os where
  clock _ := some ⟨0, 0⟩
  malloc _ := true
  poll _ := .ready
  realloc _ := .moved
  read log := .ok (request.drop (received log).length)

/-- A request that fills the first block has it moved in the next turn. -/
theorem moved_of_full (b : UInt8) (rest : List UInt8) (h : (b :: rest).length = initialCap) :
    ∃ old size, .realloc old size .moved ∈
      (exec (pkgxReadStdinDeadline (movingOs (b :: rest)) 5000 2) []).2 := by
  have hinTime : ¬ (5000 : ℤ) - msBetween ⟨0, 0⟩ ⟨0, 0⟩ ≤ 0 := by decide
  have hfresh : ¬ Buffer.fresh.n = Buffer.fresh.cap := by decide
  have hfirst (log : Log) (hlog : received log = []) :
      Except.map (fun there => there.take (Buffer.fresh.cap - Buffer.fresh.n))
        (Except.ok ((b :: rest).drop (received log).length) : Except Errno (List UInt8)) =
          .ok (b :: rest) := by
    rw [hlog]
    exact congrArg Except.ok (List.take_of_length_le h.le)
  have hfull : (Buffer.fresh.fill (b :: rest)).n = (Buffer.fresh.fill (b :: rest)).cap := by
    show 0 + (b :: rest).length = initialCap
    rw [Nat.zero_add, h]
  have hsmall : ¬ (Buffer.fresh.fill (b :: rest)).cap > maxStdin := by
    show ¬ initialCap > maxStdin
    decide
  refine wp_state (P := fun log => ∃ old size, Event.realloc old size .moved ∈ log) ?_
  simp only [pkgxReadStdinDeadline, wp_bind, clockGettime, malloc, poll, wp_ask, readLoop,
    movingOs, hinTime, if_false, Bool.not_true, Bool.false_eq_true, grown, hfresh, wp_pure, read]
  rw [hfirst _ rfl]
  simp only [hsmall, if_false, wp_bind, wp_ask, hinTime, hfull, if_true, realloc, wp_pure]
  rw [List.drop_eq_nil_of_le (by simp [received, Arrival.bytes, Event.received])]
  simp [Except.map]

theorem full_request_left_behind :
    ¬ OneCopy
      (exec (pkgxReadStdinDeadline (movingOs (List.replicate initialCap 0x61)) 5000 2) []).1
      (exec (pkgxReadStdinDeadline (movingOs (List.replicate initialCap 0x61)) 5000 2) []).2 := by
  obtain ⟨old, size, hmem⟩ := moved_of_full 0x61 (List.replicate 4095 0x61)
    (by rw [List.length_cons, List.length_replicate]; rfl)
  exact not_oneCopy_of_moved _ _ _ hmem

/-- The clock stays before the deadline. -/
def InTime (os : Os) (start : Timespec) (deadlineMs : ℤ) : Prop :=
  Always os.clock fun now => msBetween now start < deadlineMs

/-- The input arrives before the deadline, in whatever chunks: every `read` gets a piece of what
is left of it, and none only at its end. Calls are interrupted at most `bound` times. -/
structure Delivers (os : Os) (deadlineMs : ℤ) (input : List UInt8) (bound : ℕ) : Prop where
  inTime : ∃ start, os.clock [] = some start ∧ InTime os start deadlineMs
  memory : ∀ log, os.malloc log = true ∧ os.realloc log ≠ .failed
  polls : ∀ log, os.poll log = .ready ∨
    os.poll log = .failed .eintr ∧ interruptions log < bound
  reads : Arrives os.read (· = .eintr) input bound

/-- What the loop makes of the input. -/
def Taken (input : List UInt8) (r : Except CStr Buffer) : Prop :=
  (input.length ≤ maxStdin → ∃ buf, r = .ok buf ∧ Holding input buf) ∧
    (maxStdin < input.length → r = .error (.lit "too_large"))

section Chunks

variable {os : Os} {start : Timespec} {deadlineMs : ℤ} {input : List UInt8} {bound : ℕ}
  {buf : Buffer} {log : Log}

/-- Where memory is there, the growth makes room. -/
theorem grown_converges (hmemory : os.realloc log ≠ .failed) (h : Reading os log buf)
    (hcap : buf.n ≤ maxStdin) :
    ∃ buf' es, Converges (fun _ => grown os buf) log (some buf') (log ++ es) ∧
      Reading os (log ++ es) buf' ∧ buf'.n = buf.n ∧ buf'.n < buf'.cap ∧ received es = [] := by
  have hwp := wp_iff.mp (grown_wp h hcap)
  by_cases hfull : buf.n = buf.cap
  · have hexec : exec (grown os buf) log =
        (some (some buf.grow), log ++ [.realloc buf.block (buf.nextCap + 1) (os.realloc log)]) := by
      rw [grown, if_pos hfull, exec_bind, realloc, exec_ask]
      cases hr : os.realloc log with
      | failed => exact absurd hr hmemory
      | inPlace => rfl
      | moved => rfl
    obtain ⟨hreading, -, hroom⟩ := hwp.1 _ _ hexec
    exact ⟨buf.grow, _, .const hexec, hreading, rfl, hroom _ rfl, rfl⟩
  · have hexec : exec (grown os buf) log = (some (some buf), log) := by
      rw [grown, if_neg hfull, exec_pure]
    obtain ⟨-, -, hroom⟩ := hwp.1 _ _ hexec
    rw [← List.append_nil log] at hexec h
    exact ⟨buf, [], .const (by simpa using hexec), h, rfl, hroom _ rfl, rfl⟩

/-- The loop takes the input to its end, or to the cap. -/
theorem readLoop_ends (hos : Delivers os deadlineMs input bound)
    (htime : InTime os start deadlineMs) (h : Reading os log buf) (hcap : buf.n ≤ maxStdin)
    (hgot : received log <+: input) :
    Ends (Taken input) (fun n => readLoop os start deadlineMs n buf) log := by
  -- every turn takes a byte or uses up an interruption
  induction hk : pending input bound log using Nat.strong_induction_on generalizing log buf with
  | _ k ih =>
    obtain ⟨now, hnow, hpos⟩ := htime log
    have hremaining : ¬ deadlineMs - msBetween now start ≤ 0 := by omega
    refine .step (fun n => rfl) (.ask hnow ?_)
    simp only [if_neg hremaining]
    generalize toInt _ = timeout
    have hpolled (result : PollResult) :=
      (h.quiet (.clock (some now)) rfl trivial).quiet (.poll timeout result) rfl trivial
    have hquiet (result : PollResult) :
        received (log ++ [.clock (some now)] ++ [.poll timeout result]) = received log := by
      rw [received_quiet _ rfl, received_quiet _ rfl]
    rcases hos.polls (log ++ [.clock (some now)]) with hpoll | ⟨hpoll, hlt⟩
    swap
    · refine .ask hpoll (ih _ ?_ (hpolled _) hcap ((hquiet _).symm ▸ hgot) rfl)
      rw [← hk]
      exact pending_interrupted rfl rfl hlt
    obtain ⟨buf', es, hgrown, hreading, hn, hroom, hes⟩ :=
      grown_converges (hos.memory _).2 (hpolled .ready) hcap
    refine .ask hpoll (.bind hgrown ?_)
    have hsame : received (log ++ [.clock (some now)] ++ [.poll timeout .ready] ++ es) =
        received log := by rw [received_quiet _ hes, hquiet]
    have hle : pending input bound (log ++ [.clock (some now)] ++ [.poll timeout .ready] ++ es) ≤
        k := by
      rw [← hk, List.append_assoc, List.append_assoc]
      exact pending_quiet log (by rw [received_append, received_append, hes]; rfl)
    generalize log ++ [.clock (some now)] ++ [.poll timeout .ready] ++ es = log' at *
    rw [← hsame] at hgot
    have htaken := read_wp hreading hroom
    rw [read, wp_ask] at htaken
    have hsplit := List.prefix_iff_eq_append.mp hgot
    rcases hos.reads.take (Nat.sub_pos_of_lt hroom) log' with
      ⟨b, more, later, hanswer, -, hlater⟩ | ⟨hanswer, hend⟩ | ⟨⟨_, hanswer, rfl⟩, hlt⟩
    · rw [hanswer] at htaken
      have hpre : received log' ++ b :: more <+: input := by
        rw [hlater, ← List.append_assoc] at hsplit
        exact ⟨later, hsplit⟩
      have hchunk : received (log' ++ [.read buf'.block.length buf'.n (buf'.cap - buf'.n)
          (.ok (b :: more))]) = received log' ++ b :: more := by
        rw [received_append, received_singleton]
        rfl
      have hcount := htaken.holding.count
      rw [hchunk] at hcount
      have hlen := hpre.length_le
      refine .ask hanswer ?_
      dsimp only
      split
      · refine .ask rfl (.pure ⟨fun hsmall => ?_, fun _ => rfl⟩)
        omega
      · exact ih _ (Nat.lt_of_lt_of_le (pending_piece (List.cons_ne_nil b more) hpre) hle) htaken
          (by omega)
          (hchunk ▸ hpre) rfl
    · have hall : received log' = input := by
        rwa [hend, List.append_nil] at hsplit
      refine .ask hanswer (.pure ⟨fun _ => ⟨buf', rfl, hall ▸ hreading.holding⟩, ?_⟩)
      intro hlarge
      have hcount := hreading.holding.count
      rw [hall] at hcount
      omega
    · rw [hanswer] at htaken
      rw [← List.append_nil log'] at hlt
      have hfewer : pending input bound _ < _ := pending_interrupted
        (e := .read buf'.block.length buf'.n (buf'.cap - buf'.n) (.error .eintr)) rfl rfl hlt
      rw [List.append_nil] at hfewer
      refine .ask hanswer (ih _ (Nat.lt_of_lt_of_le hfewer hle) htaken (by omega) ?_ rfl)
      rwa [received_quiet _ rfl]

end Chunks

/-- However the input is cut into chunks, and however often calls are interrupted, the reader
returns exactly the input where it is within the cap, and refuses it where it is not. In every
run a `read` asks for at least one byte and stays inside the block, so that it finds nothing
only where there is nothing. -/
theorem reads_every_chunking (os : Os) (deadlineMs : ℤ) :
    (∀ input bound, Delivers os deadlineMs input bound →
      Ends (fun r =>
          (input.length ≤ maxStdin → ∃ block, r = .ok (block, input.length) ∧
            block.take (input.length + 1) = input.map .input ++ [.zero]) ∧
          (maxStdin < input.length → r = .error (.lit "too_large")))
        (pkgxReadStdinDeadline os deadlineMs) []) ∧
    ∀ fuel, Historical (fun before e => ∀ size off count r, e = .read size off count r →
        0 < count ∧ off + count < size ∧ (r = .ok [] → os.read before = .ok []))
      (exec (pkgxReadStdinDeadline os deadlineMs fuel) []).2 := by
  constructor
  · intro input bound hos
    obtain ⟨start, hstart, htime⟩ := hos.inTime
    refine .ask hstart (.ask (hos.memory _).1 ?_)
    obtain ⟨r, log, hloop, hsmall, hlarge⟩ := readLoop_ends hos htime
      (reading_start start _ _) (Nat.zero_le _) List.nil_prefix
    refine .bind hloop ?_
    rcases Nat.lt_or_ge maxStdin input.length with hlt | hle
    · obtain rfl := hlarge hlt
      exact .pure ⟨fun hle => absurd hlt (Nat.not_lt.mpr hle), fun _ => rfl⟩
    · obtain ⟨buf, rfl, hbuf⟩ := hsmall hle
      refine .pure ⟨fun _ => ⟨_, by rw [hbuf.count], hbuf.terminated_take⟩, ?_⟩
      intro hlt
      exact absurd hlt (Nat.not_lt.mpr hle)
  · intro fuel before e after heq size off count r he
    have hsound := pkgxReadStdinDeadline_sound os deadlineMs fuel before e after heq
    rwa [he] at hsound

/-- A system that interrupts the first call and hands out single bytes. -/
def dribbleOs (input : List UInt8) : Os where
  clock _ := some ⟨0, 0⟩
  malloc _ := true
  poll log := if interruptions log < 1 then .failed .eintr else .ready
  realloc _ := .moved
  read log := .ok ((input.drop (received log).length).take 1)

theorem delivers_dribble (input : List UInt8) : Delivers (dribbleOs input) 5000 input 1 where
  inTime := ⟨⟨0, 0⟩, rfl, fun _ => ⟨⟨0, 0⟩, rfl, by decide⟩⟩
  memory _ := ⟨rfl, by simp [dribbleOs]⟩
  polls log := by
    show (if interruptions log < 1 then _ else _) = _ ∨
      (if interruptions log < 1 then _ else _) = _ ∧ _
    split
    · rename_i hlt
      exact .inr ⟨rfl, hlt⟩
    · exact .inl rfl
  reads log := by
    refine .inl ⟨_, rfl, List.take_prefix _ _, ?_⟩
    intro hnil
    exact (List.take_eq_nil_iff.mp hnil).resolve_left Nat.one_ne_zero

theorem reads_single_bytes :
    Ends (fun r => ∃ block, r = .ok (block, 2) ∧
        block.take 3 = [.input 0x7b, .input 0x7d, .zero])
      (pkgxReadStdinDeadline (dribbleOs [0x7b, 0x7d]) 5000) [] := by
  obtain ⟨r, log, hconv, hsmall, -⟩ :=
    (reads_every_chunking (dribbleOs [0x7b, 0x7d]) 5000).1 _ _ (delivers_dribble _)
  exact ⟨r, log, hconv, hsmall (by decide)⟩

end Pkgexec.Stdin
