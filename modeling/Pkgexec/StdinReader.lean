import Pkgexec.BrokerTransport
import Pkgexec.RequestParsing

/-!
# The request reader

`pkgx_read_stdin_deadline`: the request is read into a buffer that doubles up to a clamped
size, under a deadline and a byte cap. A block of the heap is a list of cells that remember
where their bytes came from, and the log keeps the contents of every block that is handed
back to the allocator.
-/

namespace Pkgexec.Stdin
open CStrings FuelRuns
open Request (maxStdin)
open Transport (Errno Timespec PollResult msBetween)

/-- A byte of a block: never written, written as zero, or read from the input. -/
inductive Cell where
  | raw
  | zero
  | input (b : UInt8)
  deriving DecidableEq

abbrev Block := List Cell

/-- `memcpy` to an offset inside the block. -/
def write (block : Block) (off : ℕ) (cells : List Cell) : Block :=
  block.take off ++ cells ++ block.drop (off + cells.length)

/-- The outcomes of `realloc`: on a move the old block is released as it is. -/
inductive Realloc where
  | failed
  | inPlace
  | moved
  deriving DecidableEq

/-- The calls that are made, with their answers. A `read` is logged with the size of its block,
its offset and its count. -/
inductive Event where
  | clock (reading : Option Timespec)
  | malloc (size : ℕ) (ok : Bool)
  | poll (timeout : ℤ) (result : PollResult)
  | realloc (old : Block) (size : ℕ) (outcome : Realloc)
  | read (size off count : ℕ) (result : Except Errno (List UInt8))
  | free (block : Block)

abbrev Log := List Event

/-- The answers; a `read` is told what is there at most. -/
structure Os where
  clock : Log → Option Timespec
  malloc : Log → Bool
  poll : Log → PollResult
  realloc : Log → Realloc
  read : Log → Except Errno (List UInt8)

/-- What an event hands back to the allocator. -/
def Event.released : Event → Option Block
  | .free block => some block
  | .realloc old _ .moved => some old
  | _ => none

def releasedBlocks (log : Log) : List Block := log.filterMap Event.released

/-- `buf`, `cap` and `n`. -/
structure Buffer where
  block : Block
  cap : ℕ
  n : ℕ

def initialCap : ℕ := 4096

def Buffer.fresh : Buffer := ⟨List.replicate (initialCap + 1) .raw, initialCap, 0⟩

/-- `nc`. -/
def Buffer.nextCap (buf : Buffer) : ℕ :=
  let nc := buf.cap * 2
  if nc > maxStdin + 1 then maxStdin + 1 else nc

/-- The block after a successful `realloc`. -/
def Buffer.grow (buf : Buffer) : Buffer :=
  { buf with
    block := buf.block ++ List.replicate (buf.nextCap + 1 - buf.block.length) .raw
    cap := buf.nextCap }

/-- What a successful `read` leaves. -/
def Buffer.fill (buf : Buffer) (more : List UInt8) : Buffer :=
  { buf with block := write buf.block buf.n (more.map .input), n := buf.n + more.length }

/-- `pkgx_secure_wipe` of the first `n` bytes. -/
def secureWipe (block : Block) (n : ℕ) : Block := write block 0 (List.replicate n .zero)

section Calls

variable (os : Os)

def clockGettime : Run Log (Option Timespec) := ask os.clock .clock

def malloc (size : ℕ) : Run Log Bool := ask os.malloc (.malloc size)

def poll (timeout : ℤ) : Run Log PollResult := ask os.poll (.poll timeout)

def realloc (old : Block) (size : ℕ) : Run Log Realloc := ask os.realloc (.realloc old size)

/-- At most `cap - n` bytes of what is there; none of them at the end of the input. -/
def read (buf : Buffer) : Run Log (Except Errno (List UInt8)) :=
  ask (fun log => (os.read log).map fun there => there.take (buf.cap - buf.n))
    (.read buf.block.length buf.n (buf.cap - buf.n))

def free (block : Block) : Run Log Unit := ask (fun _ => ()) fun _ => .free block

end Calls

/-- The conversion of a `long` to an `int`. -/
def toInt (v : ℤ) : ℤ := v.bmod (2 ^ 32)

/-- The `fail` exit. -/
def failing {α : Type} (buf : Buffer) (err : CStr) : Run Log (Except CStr α) := do
  free (secureWipe buf.block buf.n)
  return .error err

section Reader

variable (os : Os)

/-- The growth at a full buffer; `none` is a failed `realloc`. -/
def grown (buf : Buffer) : Run Log (Option Buffer) := do
  if buf.n = buf.cap then
    match ← realloc os buf.block (buf.nextCap + 1) with
    | .failed => return none
    | _ => return some buf.grow
  else return some buf

/-- The loop: the buffer at the end of the input, or the text for `*errcode`. -/
def readLoop (start : Timespec) (deadlineMs : ℤ) : ℕ → Buffer → Run Log (Except CStr Buffer)
  | 0, _ => failure
  | fuel + 1, buf => do
    match ← clockGettime os with
    | none => failing buf (.lit "io")
    | some now =>
      let remaining := deadlineMs - msBetween now start
      if remaining ≤ 0 then failing buf (.lit "deadline")
      else
        match ← poll os (toInt remaining) with
        | .failed .eintr => readLoop start deadlineMs fuel buf
        | .failed _ => failing buf (.lit "io")
        | .timedOut => failing buf (.lit "deadline")
        | .ready =>
          match ← grown os buf with
          | none => failing buf (.lit "io")
          | some buf =>
            match ← read os buf with
            | .error .eintr => readLoop start deadlineMs fuel buf
            | .error _ => failing buf (.lit "io")
            | .ok [] => return .ok buf
            | .ok more =>
              let buf := buf.fill more
              if buf.n > maxStdin then failing buf (.lit "too_large")
              else readLoop start deadlineMs fuel buf

/-- `*body` and `*len`, or the text for `*errcode`. -/
def pkgxReadStdinDeadline (deadlineMs : ℤ) (fuel : ℕ) :
    Run Log (Except CStr (Block × ℕ)) := do
  match ← clockGettime os with
  | none => return .error (.lit "io")
  | some start =>
    if !(← malloc os (initialCap + 1)) then return .error (.lit "io")
    else
      match ← readLoop os start deadlineMs fuel .fresh with
      | .error err => return .error err
      | .ok buf => return .ok (write buf.block buf.n [.zero], buf.n)

/-- `PKGX_STDIN_DEADLINE_SEC`. -/
def stdinDeadlineSec : ℤ := 5

def pkgxReadStdin (fuel : ℕ) : Run Log (Except CStr (Block × ℕ)) :=
  pkgxReadStdinDeadline os (stdinDeadlineSec * 1000) fuel

end Reader

end Pkgexec.Stdin
