import Mathlib.Data.List.Induction
import Pkgexec.BrokerTransport

/-!
# What goes on the wire

Whatever the system answers, bytes leave on one connection only, after its peer has been
authenticated there, and they are a prefix of the frame; nothing is read before the whole
frame has been sent. The loops are followed through their weakest preconditions, so this
holds of a run that has not returned as well.
-/

namespace Pkgexec.Transport
open CStrings FuelRuns

def Event.sent : Event → List UInt8
  | .send _ (.ok bytes) => bytes
  | _ => []

def sentBytes (log : Log) : List UInt8 := log.flatMap Event.sent

@[simp] theorem sentBytes_append (log log' : Log) :
    sentBytes (log ++ log') = sentBytes log ++ sentBytes log' := List.flatMap_append

@[simp] theorem sentBytes_singleton (e : Event) : sentBytes [e] = e.sent := by
  simp [sentBytes]

/-- What may be done after `before`: bytes go out to the authenticated peer alone, as the next
ones of the frame, and are read once all of it has gone out. -/
def Allowed (uid : UInt32) (req : List UInt8) (before : Log) : Event → Prop
  | .send fd r =>
    .peercred fd (some uid) ∈ before ∧ (∀ fd' r', .send fd' r' ∈ before → fd' = fd) ∧
      sentBytes before ++ (Event.send fd r).sent <+: frame req
  | .read _ _ => sentBytes before = frame req
  | _ => True

abbrev Safe (uid : UInt32) (req : List UInt8) : Log → Prop := Historical (Allowed uid req)

/-- Neither a `send` nor a `read`. -/
def Quiet : Event → Prop
  | .send _ _ => False
  | .read _ _ => False
  | _ => True

variable {uid : UInt32} {req : List UInt8}

theorem Quiet.allowed {e : Event} (h : Quiet e) (before : Log) : Allowed uid req before e := by
  cases e <;> simp_all [Quiet, Allowed]

theorem Quiet.sent {e : Event} (h : Quiet e) : e.sent = [] := by
  cases e <;> simp_all [Quiet, Event.sent]

theorem sentBytes_quiet {es : Log} (h : ∀ e ∈ es, Quiet e) : sentBytes es = [] :=
  List.flatMap_eq_nil_iff.mpr fun e he => (h e he).sent

theorem Safe.quiet {log es : Log} (h : Safe uid req log) (hes : ∀ e ∈ es, Quiet e) :
    Safe uid req (log ++ es) :=
  h.append fun e he before => (hes e he).allowed before

theorem Safe.close {log : Log} (h : Safe uid req log) (fd : ℕ) :
    Safe uid req (log ++ [.close fd]) :=
  h.snoc trivial

section Quiets

variable (os : Os) (fd : ℕ) (dl : Timespec)

abbrev Quiets {α : Type} (m : Run Log α) : Prop := Emits id Quiet m

theorem msLeft_quiet : Quiets (msLeft os dl) := by
  refine Emits.bind (Emits.ask fun _ => trivial) ?_
  rintro (_ | now)
  · exact .pure _
  · exact .pure _

theorem close_quiet : Quiets (close fd) := Emits.ask fun _ => trivial

theorem waitFd_quiet (events : PollEvents) (n : ℕ) : Quiets (waitFd os fd dl events n) := by
  induction n with
  | zero => exact .failure
  | succ n ih =>
    rw [waitFd]
    refine (msLeft_quiet os dl).bind fun left => ?_
    split
    · exact .pure _
    · refine Emits.bind (Emits.ask fun _ => trivial) fun r => ?_
      split
      · exact ih
      · exact .pure _
      · exact ih
      · exact .pure _

theorem connectLoop_quiet (n : ℕ) : Quiets (connectLoop os dl n) := by
  induction n with
  | zero => exact .failure
  | succ n ih =>
    rw [connectLoop]
    refine Emits.bind (Emits.ask fun _ => trivial) fun r => ?_
    split
    · exact .pure _
    · refine Emits.bind (Emits.ask fun _ => trivial) fun r => ?_
      split
      · exact .pure _
      split
      · refine (waitFd_quiet os _ dl _ n).bind fun wr => ?_
        split
        · refine Emits.bind (Emits.ask fun _ => trivial) fun so => ?_
          split
          · exact .pure _
          · exact (close_quiet _).bind fun _ => .pure _
        · exact (close_quiet _).bind fun _ => .pure _
      split
      · refine (close_quiet _).bind fun _ => (msLeft_quiet os dl).bind fun left => ?_
        split
        · exact .pure _
        · exact Emits.bind (Emits.ask fun _ => trivial) fun _ => ih
      · exact (close_quiet _).bind fun _ => .pure _

theorem connectDeadline_quiet (path : Option CStr) (n : ℕ) :
    Quiets (connectDeadline os dl path n) := by
  cases path with
  | none => exact .pure _
  | some path =>
    rw [connectDeadline]
    split
    · exact .pure _
    · exact connectLoop_quiet os dl n

end Quiets

/-- The peer of `fd` is authenticated, nothing has gone elsewhere, and `rest` is still to go. -/
structure Sending (uid : UInt32) (req : List UInt8) (fd : ℕ) (rest : List UInt8) (log : Log) :
    Prop where
  safe : Safe uid req log
  authenticated : .peercred fd (some uid) ∈ log
  alone : ∀ fd' r, .send fd' r ∈ log → fd' = fd
  split : sentBytes log ++ rest = frame req

section Loops

variable {os : Os} {fd : ℕ} {dl : Timespec}

theorem Sending.quiet {rest : List UInt8} {log es : Log} (h : Sending uid req fd rest log)
    (hes : ∀ e ∈ es, Quiet e) : Sending uid req fd rest (log ++ es) where
  safe := h.safe.quiet hes
  authenticated := List.mem_append_left _ h.authenticated
  alone fd' r hmem := by
    rcases List.mem_append.mp hmem with hmem | hmem
    · exact h.alone fd' r hmem
    · exact absurd (hes _ hmem) id
  split := by rw [sentBytes_append, sentBytes_quiet hes, List.append_nil, h.split]

theorem Sending.send {rest rest' : List UInt8} {log : Log} {r : Except Errno (List UInt8)}
    (h : Sending uid req fd rest log) (hr : (Event.send fd r).sent ++ rest' = rest) :
    Sending uid req fd rest' (log ++ [.send fd r]) where
  safe := by
    refine h.safe.snoc ⟨h.authenticated, h.alone, rest', ?_⟩
    rw [List.append_assoc, hr, h.split]
  authenticated := List.mem_append_left _ h.authenticated
  alone fd' r' hmem := by
    rcases List.mem_append.mp hmem with hmem | hmem
    · exact h.alone fd' r' hmem
    · cases List.mem_singleton.mp hmem
      rfl
  split := by rw [sentBytes_append, sentBytes_singleton, List.append_assoc, hr, h.split]

theorem Sending.wp_quiet {α : Type} {rest : List UInt8} {log : Log} {m : Run Log α}
    (h : Sending uid req fd rest log) (hm : Quiets m) :
    wp m (fun _ log' => Sending uid req fd rest log') (Sending uid req fd rest) log := by
  refine hm.keeps ?_ h
  rintro log _ es h rfl hes
  exact h.quiet hes

/-- One call of `send` takes the bytes it reports from the front of the buffer. -/
theorem Sending.call {buf tail : List UInt8} {log : Log}
    (h : Sending uid req fd (buf ++ tail) log) :
    wp (Transport.send os fd buf)
      (fun r log' => Sending uid req fd (buf.drop (Event.send fd r).sent.length ++ tail) log')
      (Safe uid req) log := by
  rw [Transport.send, wp_ask]
  refine h.send ?_
  rw [← List.append_assoc]
  congr 1
  cases os.send log with
  | error e => rfl
  | ok k => exact List.prefix_iff_eq_append.mp (List.take_prefix k buf)

/-- `write_full` sends a part of its buffer, and all of it if it succeeds. -/
theorem writeFull_wp (n : ℕ) {buf tail : List UInt8} {log : Log}
    (h : Sending uid req fd (buf ++ tail) log) :
    wp (writeFull os fd dl n buf)
      (fun rc log' => Safe uid req log' ∧ (rc = 0 → Sending uid req fd tail log'))
      (Safe uid req) log := by
  induction n generalizing buf log with
  | zero => exact h.safe
  | succ n ih =>
    cases buf with
    | nil => exact ⟨h.safe, fun _ => h⟩
    | cons b buf =>
      rw [writeFull, wp_bind]
      · refine wp_mono ?_ (fun _ h => h.safe) (h.wp_quiet (msLeft_quiet os dl))
        intro left log h
        split
        · exact ⟨h.safe, by simp⟩
        rw [wp_bind]
        refine wp_mono ?_ (fun _ h => h) h.call
        intro r log h
        split
        · exact ih h
        · rw [wp_bind]
          refine wp_mono ?_ (fun _ h => h.safe) (h.wp_quiet (waitFd_quiet os fd dl _ n))
          intro wr log h
          split
          · exact ⟨h.safe, fun hwr => absurd hwr ‹_›⟩
          · exact ih h
        · exact ⟨h.safe, by simp⟩
        · exact ⟨h.safe, by simp⟩
        · exact ih h
      · simp

theorem sendFrame_wp (n : ℕ) {log : Log} (h : Sending uid req fd (frame req) log) :
    wp (sendFrame os fd dl req n)
      (fun rc log' => Safe uid req log' ∧ (rc = 0 → Sending uid req fd [] log'))
      (Safe uid req) log := by
  rw [frame_eq] at h
  rw [sendFrame, wp_bind]
  refine wp_mono ?_ (fun _ h => h) (writeFull_wp n h)
  rintro wr log ⟨hsafe, h⟩
  split
  · exact writeFull_wp n (by rw [List.append_nil]; exact h ‹_›)
  · exact ⟨hsafe, fun hwr => absurd hwr ‹_›⟩

/-- The whole frame has gone out. -/
structure Answering (uid : UInt32) (req : List UInt8) (log : Log) : Prop where
  safe : Safe uid req log
  sent : sentBytes log = frame req

theorem Sending.answering {log : Log} (h : Sending uid req fd [] log) : Answering uid req log :=
  ⟨h.safe, by rw [← h.split, List.append_nil]⟩

theorem Answering.quiet {log es : Log} (h : Answering uid req log) (hes : ∀ e ∈ es, Quiet e) :
    Answering uid req (log ++ es) :=
  ⟨h.safe.quiet hes, by rw [sentBytes_append, sentBytes_quiet hes, List.append_nil, h.sent]⟩

theorem Answering.wp_quiet {α : Type} {log : Log} {m : Run Log α} (h : Answering uid req log)
    (hm : Quiets m) : wp m (fun _ log' => Answering uid req log') (Answering uid req) log := by
  refine hm.keeps ?_ h
  rintro log _ es h rfl hes
  exact h.quiet hes

theorem Answering.call {size : ℕ} {log : Log} (h : Answering uid req log) :
    wp (Transport.read os fd size) (fun _ log' => Answering uid req log') (Answering uid req)
      log := by
  rw [Transport.read, wp_ask]
  exact ⟨h.safe.snoc h.sent, by rw [sentBytes_append, h.sent]; exact List.append_nil _⟩

theorem readFull_wp (size n : ℕ) {got : List UInt8} {log : Log} (h : Answering uid req log) :
    wp (readFull os fd dl size n got) (fun _ log' => Answering uid req log') (Answering uid req)
      log := by
  induction n generalizing got log with
  | zero => exact h
  | succ n ih =>
    rw [readFull]
    split
    · exact h
    rw [wp_bind]
    refine wp_mono ?_ (fun _ h => h) (h.wp_quiet (msLeft_quiet os dl))
    intro left log h
    split
    · exact h
    rw [wp_bind]
    refine wp_mono ?_ (fun _ h => h) h.call
    intro r log h
    split
    · exact ih h
    · rw [wp_bind]
      refine wp_mono ?_ (fun _ h => h) (h.wp_quiet (waitFd_quiet os fd dl _ n))
      intro wr log h
      split
      · exact h
      · exact ih h
    · exact h
    · exact h
    · exact ih h

end Loops

/-- The reasons for which nothing has been sent. -/
def unsentErrors : List CStr :=
  [.lit "request_size", .lit "clock", .lit "socket_path", .lit "socket", .lit "connect",
    .lit "peer", .lit "peer_uid"]

/-- A failure has no reply and a reason, and is honest about what was sent. -/
structure Settles (out : TxOut) (log : Log) : Prop where
  failed : out.rc ≠ 0 → out.rc = -1 ∧ out.resp = none ∧ out.err ≠ none
  unsent : ∀ err ∈ unsentErrors, out.err = some err → sentBytes log = []

theorem settles_failed {err : CStr} {log : Log} (h : sentBytes log = [] ∨ err ∉ unsentErrors) :
    Settles (failed err) log where
  failed _ := ⟨rfl, rfl, by simp [Transport.failed]⟩
  unsent err' herr' heq := by
    obtain rfl := Option.some.inj heq
    exact h.resolve_right fun hnot => hnot herr'

theorem settles_ok {body : List UInt8} {log : Log} : Settles ⟨⟨0, some body⟩, none⟩ log where
  failed h := absurd rfl h
  unsent _ _ heq := by simp at heq

section Transport

variable {os : Os} {fd : ℕ} {dl : Timespec}

/-- What is known when a call of `pkgx_transport_tx` returns. -/
def Returned (uid : UInt32) (req : List UInt8) (out : TxOut) (log : Log) : Prop :=
  Safe uid req log ∧ Settles out log

theorem closing_wp {err : CStr} {log : Log} (h : Safe uid req log)
    (herr : sentBytes log = [] ∨ err ∉ unsentErrors) :
    wp (closing fd err) (Returned uid req) (Safe uid req) log := by
  refine ⟨h.close fd, settles_failed (herr.imp_left fun hsent => ?_)⟩
  show sentBytes (log ++ [Event.close fd]) = []
  rw [sentBytes_append, hsent]
  rfl

theorem readError_sent (rr : ℤ) : readError rr ∉ unsentErrors := by
  rw [readError]
  split
  · decide
  split
  · decide
  · decide

theorem receiveFrame_wp (n : ℕ) {log : Log} (h : Answering uid req log) :
    wp (receiveFrame os fd dl n) (Returned uid req) (Safe uid req) log := by
  rw [receiveFrame, wp_bind]
  refine wp_mono ?_ (fun _ h => h.safe) (readFull_wp 5 n h)
  rintro ⟨rr, rhdr⟩ log h
  dsimp only
  split
  · exact closing_wp h.safe (.inr (readError_sent rr))
  split
  · exact closing_wp h.safe (.inr (by decide))
  split
  · exact closing_wp h.safe (.inr (by decide))
  rw [wp_bind, malloc, wp_modifyGet]
  split
  · exact closing_wp h.safe (.inr (by decide))
  rw [wp_bind]
  refine wp_mono ?_ (fun _ h => h.safe) (readFull_wp _ n h)
  rintro ⟨rr, body⟩ log h
  dsimp only
  split
  · exact closing_wp h.safe (.inr (readError_sent rr))
  · exact ⟨h.safe.close fd, settles_ok⟩

/-- A log without a `send` or a `read`. -/
def Silent (log : Log) : Prop := ∀ e ∈ log, Quiet e

theorem Silent.safe {log : Log} (h : Silent log) : Safe uid req log :=
  Safe.quiet .nil h

theorem Silent.wp_quiet {α : Type} {log : Log} {m : Run Log α} (h : Silent log) (hm : Quiets m) :
    wp m (fun _ log' => Silent log') Silent log := by
  refine hm.keeps ?_ h
  rintro log _ es h rfl hes e he
  exact (List.mem_append.mp he).elim (h e) (hes e)

/-- The authenticated peer is sent the whole frame from its first byte on. -/
theorem Silent.sending {log : Log} (h : Silent log) :
    Sending uid req fd (frame req) (log ++ [.peercred fd (some uid)]) where
  safe := h.safe.snoc trivial
  authenticated := List.mem_append_right _ (List.mem_singleton_self _)
  alone fd' r hmem := by
    rcases List.mem_append.mp hmem with hmem | hmem
    · exact absurd (h _ hmem) id
    · cases List.mem_singleton.mp hmem
  split := by
    rw [sentBytes_append, sentBytes_quiet h]
    rfl

theorem exchange_wp {t : PkgxTransport} (n : ℕ) {log : Log} (h : Silent log) :
    wp (exchange os fd dl t req n) (Returned t.requiredPeerUid req) (Safe t.requiredPeerUid req)
      log := by
  have hsent : ∀ e, Quiet e → sentBytes (log ++ [e]) = [] := fun e he => by
    rw [sentBytes_append, sentBytes_quiet h, sentBytes_singleton, he.sent]
    rfl
  rw [exchange, wp_bind, peercred, wp_ask]
  cases os.peercred log with
  | none => exact closing_wp (h.safe.snoc trivial) (.inl (hsent _ trivial))
  | some uid =>
    dsimp only
    split
    · exact closing_wp (h.safe.snoc trivial) (.inl (hsent _ trivial))
    obtain rfl : uid = t.requiredPeerUid := not_not.mp ‹_›
    rw [wp_bind]
    refine wp_mono ?_ (fun _ h => h) (sendFrame_wp n h.sending)
    rintro wr log ⟨hsafe, hdone⟩
    split
    · refine closing_wp hsafe (.inr ?_)
      split
      · decide
      · decide
    · exact receiveFrame_wp n (hdone (not_not.mp ‹_›)).answering

/-- Every run, returned or not, keeps to the wire, and what is returned is honest about it. -/
theorem pkgxTransportTx_wp (t : PkgxTransport) (req : Option (List UInt8)) (n : ℕ) :
    wp (pkgxTransportTx os t req n) (Returned t.requiredPeerUid (req.getD []))
      (Safe t.requiredPeerUid (req.getD [])) [] := by
  have hreturn : ∀ {err : CStr} {log : Log}, Silent log →
      Returned t.requiredPeerUid (req.getD []) (failed err) log := fun h =>
    ⟨h.safe, settles_failed (.inl (sentBytes_quiet h))⟩
  have hnil : Silent [] := fun _ he => absurd he List.not_mem_nil
  cases req with
  | none => exact hreturn hnil
  | some req =>
    rw [pkgxTransportTx]
    split
    · exact hreturn hnil
    have hclock : ∀ now, Silent [.clock now] := fun now e he => by
      rw [List.mem_singleton.mp he]
      trivial
    rw [wp_bind, clockGettime, wp_ask]
    cases os.clock [] with
    | none => exact hreturn (hclock none)
    | some now =>
      rw [wp_bind]
      refine wp_mono ?_ (fun _ h => h.safe)
        ((hclock (some now)).wp_quiet (connectDeadline_quiet os _ t.socketPath n))
      rintro (err | fd) log h
      · exact hreturn h
      · exact exchange_wp n h

end Transport

/-- The calls a run has made, as an observer of the wire sees them. -/
structure OnWire (uid : UInt32) (req : List UInt8) (log : Log) : Prop where
  authenticated : ∀ before fd r after, log = before ++ .send fd r :: after →
    .peercred fd (some uid) ∈ before
  sent_within : sentBytes log <+: frame req
  frame_first : ∀ before fd r after, log = before ++ .read fd r :: after →
    sentBytes before = frame req
  one_connection : ∀ fd fd' r r', .send fd r ∈ log → .send fd' r' ∈ log → fd = fd'

theorem Safe.sent_within {log : Log} (h : Safe uid req log) : sentBytes log <+: frame req := by
  induction log using List.reverseRecOn with
  | nil => exact List.nil_prefix
  | append_singleton log e ih =>
    obtain ⟨hinit, he⟩ := h.init
    rw [sentBytes_append, sentBytes_singleton]
    cases e with
    | send fd r => exact he.2.2
    | _ => simpa [Event.sent] using ih hinit

theorem Safe.one_connection {log : Log} (h : Safe uid req log) {fd fd' : ℕ}
    {r r' : Except Errno (List UInt8)} (hr : .send fd r ∈ log) (hr' : .send fd' r' ∈ log) :
    fd = fd' := by
  induction log using List.reverseRecOn with
  | nil => exact absurd hr List.not_mem_nil
  | append_singleton log e ih =>
    obtain ⟨hinit, he⟩ := h.init
    rcases List.mem_append.mp hr with hm | hm <;> rcases List.mem_append.mp hr' with hm' | hm'
    · exact ih hinit hm hm'
    · obtain rfl := List.mem_singleton.mp hm'
      exact he.2.1 _ _ hm
    · obtain rfl := List.mem_singleton.mp hm
      exact (he.2.1 _ _ hm').symm
    · cases (List.mem_singleton.mp hm).trans (List.mem_singleton.mp hm').symm
      rfl

theorem Safe.onWire {log : Log} (h : Safe uid req log) : OnWire uid req log where
  authenticated before _ _ after heq := (h before _ after heq).1
  sent_within := h.sent_within
  frame_first before _ _ after heq := h before _ after heq
  one_connection _ _ _ _ hr hr' := h.one_connection hr hr'

/-- For every request and configuration, under every schedule of outcomes and after any number
of turns of the loops: bytes go to one connection, after its peer has been authenticated with
the required uid, as a prefix of the one frame; replies are read only after all of it; and a
return is a success or a failure with its reason, sent nothing where the reason says so. -/
theorem token_only_to_authenticated_peer (os : Os) (t : PkgxTransport) (req : Option (List UInt8))
    (n : ℕ) :
    OnWire t.requiredPeerUid (req.getD []) (exec (pkgxTransportTx os t req n) []).2 ∧
      ∀ out log, exec (pkgxTransportTx os t req n) [] = (some out, log) → Settles out log := by
  have hrun : wp (pkgxTransportTx os t req n) _ _ [] := pkgxTransportTx_wp t req n
  rw [wp_iff] at hrun
  constructor
  · cases he : exec (pkgxTransportTx os t req n) [] with
    | mk o log =>
      cases o with
      | none => exact (hrun.2 log he).onWire
      | some out => exact (hrun.1 out log he).1.onWire
  · intro out log he
    exact (hrun.1 out log he).2

end Pkgexec.Transport
