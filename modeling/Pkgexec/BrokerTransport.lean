import Pkgexec.BigEndian
import Pkgexec.FuelRuns
import Pkgexec.ReceiptRedemption

/-!
# The broker transport

`transport.c`: connect, authenticate the peer, send one frame and read one frame, under one
absolute deadline. What the system answers to a call may depend on every call before it, so
any schedule of outcomes is one `Os`. A loop that need not end takes fuel.
-/

namespace Pkgexec.Transport
open CStrings FuelRuns BigEndian

/-- `errno`, as far as it is told apart. -/
inductive Errno where
  | eintr
  | eagain
  | einprogress
  | other
  deriving DecidableEq

structure Timespec where
  sec : ℤ
  nsec : ℤ

inductive PollEvents where
  | pollIn
  | pollOut

inductive PollResult where
  | ready
  | timedOut
  | failed (e : Errno)

/-- The calls that are made, with their answers. A socket is named by the number of sockets
made before it: a descriptor may be used again, a name is not. -/
inductive Event where
  | clock (reading : Option Timespec)
  | socket (fd : Option ℕ)
  | connect (fd : ℕ) (result : Except Errno Unit)
  | poll (fd : ℕ) (events : PollEvents) (timeout : ℤ) (result : PollResult)
  | soError (fd : ℕ) (result : Option ℤ)
  | peercred (fd : ℕ) (uid : Option UInt32)
  | send (fd : ℕ) (result : Except Errno (List UInt8))
  | read (fd : ℕ) (result : Except Errno (List UInt8))
  | nanosleep
  | close (fd : ℕ)

abbrev Log := List Event

/-- The answers. A `send` is told how many bytes go out at most and a `read` what is there at
most; `none` is the failure of a call whose `errno` is not looked at. -/
structure Os where
  clock : Log → Option Timespec
  socket : Log → Bool
  connect : Log → Except Errno Unit
  poll : Log → PollResult
  soError : Log → Option ℤ
  peercred : Log → Option UInt32
  send : Log → Except Errno ℕ
  read : Log → Except Errno (List UInt8)
  malloc : Log → Bool

def sockets (log : Log) : ℕ :=
  log.countP fun
    | .socket (some _) => true
    | _ => false

section Calls

variable (os : Os) (fd : ℕ)

def clockGettime : Run Log (Option Timespec) := ask os.clock .clock

def socket : Run Log (Option ℕ) :=
  ask (fun log => if os.socket log then some (sockets log) else none) .socket

def connect : Run Log (Except Errno Unit) := ask os.connect (.connect fd)

def poll (events : PollEvents) (timeout : ℤ) : Run Log PollResult :=
  ask os.poll (.poll fd events timeout)

def soError : Run Log (Option ℤ) := ask os.soError (.soError fd)

/-- `none` also where the credentials are not of their full length. -/
def peercred : Run Log (Option UInt32) := ask os.peercred (.peercred fd)

/-- The bytes of `buf` that went out. -/
def send (buf : List UInt8) : Run Log (Except Errno (List UInt8)) :=
  ask (fun log => (os.send log).map fun k => buf.take k) (.send fd)

/-- At most `n` bytes of what is there; none of them at the end of the stream. -/
def read (n : ℕ) : Run Log (Except Errno (List UInt8)) :=
  ask (fun log => (os.read log).map fun there => there.take n) (.read fd)

def nanosleep : Run Log Unit := ask (fun _ => ()) fun _ => .nanosleep

def close : Run Log Unit := ask (fun _ => ()) fun _ => .close fd

def malloc : Run Log Bool := modifyGet fun log => (os.malloc log, log)

end Calls

def deadlineAt (now : Timespec) (ms : ℤ) : Timespec :=
  let sec := now.sec + ms.tdiv 1000
  let ns := now.nsec + ms.tmod 1000 * 1000000
  ⟨sec + ns.tdiv 1000000000, ns.tmod 1000000000⟩

def msBetween (dl now : Timespec) : ℤ :=
  (dl.sec - now.sec) * 1000 + (dl.nsec - now.nsec).tdiv 1000000

/-- A clock failure reads as expired. -/
def msLeft (os : Os) (dl : Timespec) : Run Log ℤ := do
  match ← clockGettime os with
  | none => return 0
  | some now => return msBetween dl now

section Loops

variable (os : Os) (fd : ℕ) (dl : Timespec)

/-- 0 = ready, -2 = deadline passed, -1 = poll error. -/
def waitFd (events : PollEvents) : ℕ → Run Log ℤ
  | 0 => failure
  | n + 1 => do
    let left ← msLeft os dl
    if left ≤ 0 then return -2
    else
      match ← poll os fd events (if left > 60000 then 60000 else left) with
      | .failed .eintr => waitFd events n
      | .failed _ => return -1
      | .timedOut => waitFd events n
      | .ready => return 0

/-- `rest` is the part of the buffer that is not sent yet. 0 ok, -1 error, -2 timeout. -/
def writeFull : ℕ → List UInt8 → Run Log ℤ
  | 0, _ => failure
  | _ + 1, [] => return 0
  | n + 1, rest => do
    if (← msLeft os dl) ≤ 0 then return -2
    else
      match ← send os fd rest with
      | .error .eintr => writeFull n rest
      | .error .eagain => do
        let wr ← waitFd os fd dl .pollOut n
        if wr ≠ 0 then return wr else writeFull n rest
      | .error _ => return -1
      | .ok [] => return -1
      | .ok sent => writeFull n (rest.drop sent.length)

/-- `got` is what the buffer holds so far. 0 ok, 1 EOF, -1 error, -2 timeout. -/
def readFull (size : ℕ) : ℕ → List UInt8 → Run Log (ℤ × List UInt8)
  | 0, _ => failure
  | n + 1, got => do
    if size ≤ got.length then return (0, got)
    else if (← msLeft os dl) ≤ 0 then return (-2, got)
    else
      match ← read os fd (size - got.length) with
      | .error .eintr => readFull size n got
      | .error .eagain => do
        let wr ← waitFd os fd dl .pollIn n
        if wr ≠ 0 then return (wr, got) else readFull size n got
      | .error _ => return (-1, got)
      | .ok [] => return (1, got)
      | .ok more => readFull size n (got ++ more)

/-- The loop of `connect_deadline`: the socket, or the text for `*err`. -/
def connectLoop : ℕ → Run Log (Except CStr ℕ)
  | 0 => failure
  | n + 1 => do
    match ← socket os with
    | none => return .error (.lit "socket")
    | some fd =>
      match ← connect os fd with
      | .ok () => return .ok fd
      | .error e =>
        if e = .eintr ∨ e = .einprogress then do
          let wr ← waitFd os fd dl .pollOut n
          if wr = 0 then
            if (← soError os fd) = some 0 then return .ok fd
            else do
              close fd
              return .error (.lit "connect")
          else do
            close fd
            return .error (if wr = -2 then .lit "deadline" else .lit "connect")
        else if e = .eagain then do
          close fd
          if (← msLeft os dl) ≤ 0 then return .error (.lit "deadline")
          else do
            nanosleep
            connectLoop n
        else do
          close fd
          return .error (.lit "connect")

/-- `sizeof addr.sun_path`. -/
def sunPathSize : ℕ := 108

def connectDeadline (path : Option CStr) (n : ℕ) : Run Log (Except CStr ℕ) :=
  match path with
  | none => return .error (.lit "socket_path")
  | some path =>
    if path.bytes = [] ∨ path.bytes.length ≥ sunPathSize then return .error (.lit "socket_path")
    else connectLoop os dl n

end Loops

def frameVersion : UInt8 := 1
def frameMaxBody : ℕ := 65536
def transportTimeoutMs : ℤ := 5000

structure PkgxTransport where
  socketPath : Option CStr
  requiredPeerUid : UInt32
  timeoutMs : ℤ

def PkgxTransport.budget (t : PkgxTransport) : ℤ :=
  if t.timeoutMs > 0 then t.timeoutMs else transportTimeoutMs

/-- What is returned, with `t->err`. -/
structure TxOut extends Redeem.TxReply where
  err : Option CStr

def failed (err : CStr) : TxOut := ⟨⟨-1, none⟩, some err⟩

/-- `hdr`. -/
def frameHeader (len : ℕ) : List UInt8 :=
  [frameVersion, .ofNat ((len >>> 24) &&& 0xff), .ofNat ((len >>> 16) &&& 0xff),
    .ofNat ((len >>> 8) &&& 0xff), .ofNat (len &&& 0xff)]

/-- `rlen`. -/
def frameLength (rhdr : List UInt8) : UInt32 :=
  (rhdr.getD 1 0).toUInt32 <<< 24 ||| (rhdr.getD 2 0).toUInt32 <<< 16 |||
    (rhdr.getD 3 0).toUInt32 <<< 8 ||| (rhdr.getD 4 0).toUInt32

section Exchange

variable (os : Os) (fd : ℕ) (dl : Timespec)

def sendFrame (req : List UInt8) (n : ℕ) : Run Log ℤ := do
  let wr ← writeFull os fd dl n (frameHeader req.length)
  if wr = 0 then writeFull os fd dl n req else return wr

/-- The text for a nonzero result of `read_full`. -/
def readError (rr : ℤ) : CStr :=
  if rr = 1 then .lit "frame_eof" else if rr = -2 then .lit "deadline" else .lit "recv"

def closing (err : CStr) : Run Log TxOut := do
  close fd
  return failed err

def receiveFrame (n : ℕ) : Run Log TxOut := do
  let (rr, rhdr) ← readFull os fd dl 5 n []
  if rr ≠ 0 then closing fd (readError rr)
  else if rhdr.getD 0 0 ≠ frameVersion then closing fd (.lit "frame_version")
  else
    let rlen := (frameLength rhdr).toNat
    if rlen > frameMaxBody then closing fd (.lit "frame_toolarge")
    else if !(← malloc os) then closing fd (.lit "oom")
    else
      let (rr, body) ← readFull os fd dl rlen n []
      if rr ≠ 0 then closing fd (readError rr)
      else do
        close fd
        return ⟨⟨0, some body⟩, none⟩

/-- From the connected socket on. -/
def exchange (t : PkgxTransport) (req : List UInt8) (n : ℕ) : Run Log TxOut := do
  match ← peercred os fd with
  | none => closing fd (.lit "peer")
  | some uid =>
    if uid ≠ t.requiredPeerUid then closing fd (.lit "peer_uid")
    else do
      let wr ← sendFrame os fd dl req n
      if wr ≠ 0 then closing fd (if wr = -2 then .lit "deadline" else .lit "send")
      else receiveFrame os fd dl n

end Exchange

/-- `req` is `none` for a null pointer, and `reqlen` is its length. -/
def pkgxTransportTx (os : Os) (t : PkgxTransport) (req : Option (List UInt8)) (n : ℕ) :
    Run Log TxOut := do
  match req with
  | none => return failed (.lit "request_size")
  | some req =>
    if req.length = 0 ∨ req.length > frameMaxBody then return failed (.lit "request_size")
    else
      match ← clockGettime os with
      | none => return failed (.lit "clock")
      | some now =>
        let dl := deadlineAt now t.budget
        match ← connectDeadline os dl t.socketPath n with
        | .error err => return failed err
        | .ok fd => exchange os fd dl t req n

/-- The version, the length in big-endian order, and the body. -/
def frame (body : List UInt8) : List UInt8 := frameVersion :: (toBytes 4 body.length ++ body)

theorem ofNat_and_mask (n : ℕ) : UInt8.ofNat (n &&& 0xff) = .ofNat n := by
  have hmask : n &&& 0xff = n % 2 ^ 8 := Nat.and_two_pow_sub_one_eq_mod n 8
  rw [hmask]
  exact UInt8.ofNat_mod_size

theorem frameHeader_eq (len : ℕ) : frameHeader len = frameVersion :: toBytes 4 len := by
  simp only [frameHeader, ofNat_and_mask, Nat.shiftRight_eq_div_pow, toBytes, Nat.pow_zero,
    Nat.div_one]
  rfl

theorem frame_eq (body : List UInt8) : frame body = frameHeader body.length ++ body := by
  rw [frame, frameHeader_eq, List.cons_append]

theorem toNat_shiftLeft_byte (b : UInt8) {k : UInt32} (hk : k.toNat ≤ 24) :
    (b.toUInt32 <<< k).toNat = b.toNat <<< k.toNat := by
  have hpow : 2 ^ k.toNat ≤ 2 ^ 24 := Nat.pow_le_pow_right (by decide) hk
  have hlt : b.toNat * 2 ^ k.toNat < 2 ^ 32 :=
    calc b.toNat * 2 ^ k.toNat ≤ b.toNat * 2 ^ 24 := Nat.mul_le_mul_left _ hpow
      _ < 2 ^ 8 * 2 ^ 24 := Nat.mul_lt_mul_of_pos_right b.toNat_lt (by decide)
      _ = 2 ^ 32 := rfl
  rw [UInt32.toNat_shiftLeft, UInt8.toNat_toUInt32, Nat.mod_eq_of_lt (by omega : k.toNat < 32),
    Nat.shiftLeft_eq, Nat.mod_eq_of_lt hlt]

/-- Bytes shifted next to each other do not overlap, so the disjunction is their sum. -/
theorem or_shifted_bytes (a : ℕ) {b c d : ℕ} (hb : b < 256) (hc : c < 256) (hd : d < 256) :
    a <<< 24 ||| b <<< 16 ||| c <<< 8 ||| d = a * 2 ^ 24 + b * 2 ^ 16 + c * 2 ^ 8 + d := by
  have hab : a <<< 24 ||| b <<< 16 = (a <<< 8 + b) <<< 16 := by
    rw [← Nat.shiftLeft_add_eq_or_of_lt (by rw [Nat.shiftLeft_eq]; omega)]
    simp only [Nat.shiftLeft_eq]
    omega
  have habc : (a <<< 8 + b) <<< 16 ||| c <<< 8 = (a <<< 16 + b <<< 8 + c) <<< 8 := by
    rw [← Nat.shiftLeft_add_eq_or_of_lt (by rw [Nat.shiftLeft_eq]; omega)]
    simp only [Nat.shiftLeft_eq]
    omega
  rw [hab, habc, ← Nat.shiftLeft_add_eq_or_of_lt hd]
  simp only [Nat.shiftLeft_eq]
  omega

/-- The length that is read is the big-endian number after the version. -/
theorem frameLength_toNat {v : UInt8} {be rest : List UInt8} (h : be.length = 4) :
    (frameLength (v :: (be ++ rest))).toNat = ofBytes be := by
  match be, h with
  | [b₃, b₂, b₁, b₀], _ =>
    show (b₃.toUInt32 <<< 24 ||| b₂.toUInt32 <<< 16 ||| b₁.toUInt32 <<< 8 |||
      b₀.toUInt32).toNat = _
    rw [UInt32.toNat_or, UInt32.toNat_or, UInt32.toNat_or, toNat_shiftLeft_byte b₃ (by decide),
      toNat_shiftLeft_byte b₂ (by decide), toNat_shiftLeft_byte b₁ (by decide)]
    simpa [ofBytes, Nat.add_assoc] using
      or_shifted_bytes b₃.toNat b₂.toNat_lt b₁.toNat_lt b₀.toNat_lt

end Pkgexec.Transport
