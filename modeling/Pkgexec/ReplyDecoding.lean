import Pkgexec.BrokerTransport
import Pkgexec.Deliveries

/-!
# The reply is decoded from the stream alone

A peer that delivers a byte stream in time, in pieces of any size and with interruptions in
between, is answered by what the stream says: the loops are followed to their return, by
induction on the interruptions that are left and the bytes that are missing.
-/

namespace Pkgexec.Transport
open CStrings FuelRuns Deliveries BigEndian

def Event.received : Event → List UInt8
  | .read _ (.ok bytes) => bytes
  | _ => []

/-- A call that is made again, or waited for. -/
def Event.interrupted : Event → Bool
  | .connect _ (.error _) => true
  | .poll _ _ _ .ready => false
  | .poll _ _ _ _ => true
  | .send _ (.error _) => true
  | .read _ (.error _) => true
  | _ => false

instance : Arrival Event UInt8 where
  bytes := Event.received
  interrupted := Event.interrupted
  quiet e he := by
    cases e with
    | read fd r =>
      cases r with
      | error e => rfl
      | ok bytes => cases he
    | _ => rfl

/-- The clock never reaches the deadline. -/
def InTime (os : Os) (dl : Timespec) : Prop :=
  Always os.clock fun now => 0 < msBetween dl now

/-- The required peer delivers `stream` and then its end: a read finds some of what has not been
read yet, and nothing only where all has been. At most `bound` calls are interrupted, nothing
else goes wrong, and the deadline is not reached. -/
structure Delivers (os : Os) (t : PkgxTransport) (stream : List UInt8) (bound : ℕ) : Prop where
  inTime : ∃ start, os.clock [] = some start ∧ InTime os (deadlineAt start t.budget)
  path : ∃ path, t.socketPath = some path ∧ path.bytes ≠ [] ∧ path.bytes.length < sunPathSize
  sockets : ∀ log, os.socket log = true
  connects : ∀ log, os.connect log = .ok () ∨
    (∃ e, os.connect log = .error e ∧ e ≠ .other) ∧ interruptions log < bound
  soErrors : ∀ log, os.soError log = some 0
  peer : ∀ log, os.peercred log = some t.requiredPeerUid
  polls : ∀ log, os.poll log = .ready ∨
    (os.poll log = .timedOut ∨ os.poll log = .failed .eintr) ∧ interruptions log < bound
  sends : ∀ log, (∃ k, os.send log = .ok (k + 1)) ∨
    (os.send log = .error .eintr ∨ os.send log = .error .eagain) ∧ interruptions log < bound
  reads : Arrives os.read (fun e => e = .eintr ∨ e = .eagain) stream bound
  memory : ∀ log, os.malloc log = true

section Loops

variable {os : Os} {t : PkgxTransport} {stream : List UInt8} {bound : ℕ} {dl : Timespec}

theorem msLeft_reaches (hdl : InTime os dl) (log : Log) :
    ∃ left, ¬ left ≤ 0 ∧ Reaches (fun _ => msLeft os dl) log left [] := by
  obtain ⟨now, hnow, hpos⟩ := hdl log
  refine ⟨msBetween dl now, not_le.mpr hpos, ?_⟩
  exact Reaches.ask hnow .pure

theorem waitFd_reaches (h : Delivers os t stream bound) (hdl : InTime os dl) (fd : ℕ)
    (events : PollEvents) (log : Log) : Reaches (waitFd os fd dl events) log 0 [] := by
  -- the interruptions that are left decrease from turn to turn
  induction hk : bound - interruptions log using Nat.strong_induction_on generalizing log with
  | _ k ih =>
    obtain ⟨left, hleft, hms⟩ := msLeft_reaches hdl log
    refine .step (fun n => rfl) (hms.after fun es hes => ?_)
    simp only [if_neg hleft]
    rcases h.polls (log ++ es) with hpoll | ⟨hpoll | hpoll, hlt⟩
    · exact Reaches.ask hpoll .pure
    · exact Reaches.ask hpoll (ih _ (hk ▸ fewer_interruptions rfl hlt) _ rfl)
    · exact Reaches.ask hpoll (ih _ (hk ▸ fewer_interruptions rfl hlt) _ rfl)

/-- `write_full` sends its whole buffer. -/
theorem writeFull_reaches (h : Delivers os t stream bound) (hdl : InTime os dl) (fd : ℕ)
    (rest : List UInt8) (log : Log) :
    Reaches (fun n => writeFull os fd dl n rest) log 0 [] := by
  induction hk : bound - interruptions log + rest.length using Nat.strong_induction_on
    generalizing log rest with
  | _ k ih =>
    cases rest with
    | nil => exact .step (fun n => rfl) .pure
    | cons b rest =>
      obtain ⟨left, hleft, hms⟩ := msLeft_reaches hdl log
      refine .step (fun n => rfl) (hms.after fun es hes => ?_)
      simp only [if_neg hleft]
      rcases h.sends (log ++ es) with ⟨j, hsend⟩ | ⟨hsend | hsend, hlt⟩
      · have hsent : (os.send (log ++ es)).map (fun k => (b :: rest).take k) =
            .ok (b :: rest.take j) := by rw [hsend]; rfl
        refine Reaches.ask hsent (ih _ ?_ _ _ rfl)
        have hleft := no_more_interruptions log (es ++ [.send fd (.ok (b :: rest.take j))]) bound
        rw [← List.append_assoc] at hleft
        simp only [List.length_drop, List.length_cons] at hk ⊢
        omega
      · have hsent : (os.send (log ++ es)).map (fun k => (b :: rest).take k) = .error .eintr := by
          rw [hsend]; rfl
        refine Reaches.ask hsent (ih _ ?_ _ _ rfl)
        have hfewer := fewer_interruptions (e := .send fd (.error .eintr)) rfl hlt
        omega
      · have hsent : (os.send (log ++ es)).map (fun k => (b :: rest).take k) = .error .eagain := by
          rw [hsend]; rfl
        refine Reaches.ask hsent ((waitFd_reaches h hdl fd _ _).after fun fs _ => ih _ ?_ _ _ rfl)
        have hfewer := fewer_interruptions (e := .send fd (.error .eagain)) rfl hlt
        have hleft := no_more_interruptions (log ++ es ++ [.send fd (.error .eagain)]) fs bound
        omega

/-- What `read_full` returns where `there` is still to be read. -/
def readOf (need : ℕ) (got there : List UInt8) : ℤ × List UInt8 :=
  (if need ≤ there.length then 0 else 1, got ++ there.take need)

theorem readOf_append {need : ℕ} {got piece later : List UInt8} (h : piece.length ≤ need) :
    readOf need got (piece ++ later) = readOf (need - piece.length) (got ++ piece) later := by
  have hiff : need ≤ (piece ++ later).length ↔ need - piece.length ≤ later.length := by
    rw [List.length_append]
    omega
  rw [readOf, readOf, List.take_append, List.take_of_length_le h, List.append_assoc]
  simp only [hiff]

/-- `read_full` fills its buffer, or reads the stream to its end. -/
theorem readFull_reaches (h : Delivers os t stream bound) (hdl : InTime os dl) (fd size : ℕ)
    (got : List UInt8) (log : Log) :
    Reaches (fun n => readFull os fd dl size n got) log
      (readOf (size - got.length) got (stream.drop (received log).length))
      ((stream.drop (received log).length).take (size - got.length)) := by
  induction hk : bound - interruptions log + (size - got.length) using Nat.strong_induction_on
    generalizing log got with
  | _ k ih =>
    by_cases hfull : size ≤ got.length
    · have hneed : size - got.length = 0 := Nat.sub_eq_zero_of_le hfull
      have hbody : ∀ n, readFull os fd dl size (n + 1) got = pure (0, got) := fun n => by
        rw [readFull, if_pos hfull]
      rw [hneed, readOf, List.take_zero, List.append_nil, if_pos (Nat.zero_le _)]
      exact .step hbody .pure
    have hneed : 0 < size - got.length := by omega
    obtain ⟨left, hleft, hms⟩ := msLeft_reaches hdl log
    refine .step (fun n => if_neg hfull) (hms.after fun es hes => ?_)
    simp only [if_neg hleft]
    have hsame : ∀ fs, received fs = [] → received (log ++ es ++ fs) = received log :=
      fun fs hfs => by
        rw [received_append, received_append, hes, hfs, List.append_nil, List.append_nil]
    have havail := hsame [] rfl
    rw [List.append_nil] at havail
    have hpiece := h.reads.take hneed (log ++ es)
    rw [havail] at hpiece
    rcases hpiece with ⟨b, more, later, hanswer, hlen, hlater⟩ | ⟨hanswer, hend⟩ |
      ⟨⟨e, hanswer, rfl | rfl⟩, hlt⟩
    · have hmore := no_more_interruptions log (es ++ [.read fd (.ok (b :: more))]) bound
      rw [← List.append_assoc] at hmore
      have hrest := ih _ (by simp only [List.length_append, List.length_cons]; omega)
        (got ++ b :: more) (log ++ es ++ [.read fd (.ok (b :: more))]) rfl
      have hread : received (log ++ es ++ [.read fd (.ok (b :: more))]) =
          received log ++ b :: more := by
        rw [received_append, havail, received_singleton]
        rfl
      have hdrop : stream.drop (received log ++ b :: more).length = later := by
        rw [List.length_append, ← List.drop_drop, hlater, List.drop_left]
      have hless : size - (got ++ b :: more).length = size - got.length - (b :: more).length := by
        rw [List.length_append, Nat.sub_sub]
      rw [hread, hdrop, hless, ← readOf_append hlen] at hrest
      rw [hlater, List.take_append, List.take_of_length_le hlen]
      exact Reaches.ask hanswer hrest
    · rw [hend, readOf, if_neg (by rw [List.length_nil]; omega), List.take_nil, List.append_nil]
      exact Reaches.ask hanswer .pure
    · have hfewer := fewer_interruptions (e := .read fd (.error .eintr)) rfl hlt
      have hrest := ih _ (by omega) got (log ++ es ++ [.read fd (.error .eintr)]) rfl
      rw [hsame _ rfl] at hrest
      exact Reaches.ask hanswer hrest
    · refine Reaches.ask hanswer ((waitFd_reaches h hdl fd _ _).after fun fs hfs => ?_)
      have hfewer := fewer_interruptions (e := .read fd (.error .eagain)) rfl hlt
      have hleft := no_more_interruptions (log ++ es ++ [.read fd (.error .eagain)]) fs bound
      have hrest := ih _ (by omega) got (log ++ es ++ [.read fd (.error .eagain)] ++ fs) rfl
      have hread : received (log ++ es ++ [.read fd (.error .eagain)] ++ fs) =
          received log := by rw [List.append_assoc (log ++ es)]; exact hsame _ hfs
      rw [hread] at hrest
      exact hrest

/-- A connection is made in the end. -/
theorem connectLoop_reaches (h : Delivers os t stream bound) (hdl : InTime os dl) (log : Log) :
    ∃ fd, Reaches (connectLoop os dl) log (.ok fd) [] := by
  induction hk : bound - interruptions log using Nat.strong_induction_on generalizing log with
  | _ k ih =>
    have hsocket : (if os.socket log then some (sockets log) else none) = some (sockets log) :=
      if_pos (h.sockets log)
    rcases h.connects (log ++ [.socket (some (sockets log))]) with hc | ⟨⟨e, hc, he⟩, hlt⟩
    · exact ⟨_, .step (fun n => rfl) (Reaches.ask hsocket (Reaches.ask hc .pure))⟩
    by_cases hwait : e = .eintr ∨ e = .einprogress
    · refine ⟨sockets log, .step (fun n => rfl) (Reaches.ask hsocket (Reaches.ask hc ?_))⟩
      simp only [if_pos hwait]
      refine (waitFd_reaches h hdl _ _ _).after fun es hes => ?_
      simp only [if_pos]
      exact Reaches.ask (h.soErrors _) .pure
    · have hagain : e = .eagain := by
        cases e <;> simp_all
      subst hagain
      let tried := log ++ [.socket (some (sockets log))] ++
        [.connect (sockets log) (.error .eagain)]
      let closed := tried ++ [.close (sockets log)]
      obtain ⟨left, hleft, es, hes, hgot⟩ := msLeft_reaches hdl closed
      have htried : bound - interruptions tried < bound - interruptions log :=
        fewer_interruptions rfl hlt
      have hclosed : bound - interruptions closed ≤ bound - interruptions tried :=
        no_more_interruptions _ _ bound
      have hes' := no_more_interruptions closed es bound
      have hnap := no_more_interruptions (closed ++ es) [.nanosleep] bound
      obtain ⟨fd, hfd⟩ := ih _ (by omega) (closed ++ es ++ [.nanosleep]) rfl
      refine ⟨fd, .step (fun n => rfl) (Reaches.ask hsocket (Reaches.ask hc ?_))⟩
      simp only [if_neg hwait, if_true]
      refine Reaches.ask rfl (Reaches.seq hes hgot ?_)
      simp only [if_neg hleft]
      exact Reaches.ask rfl hfd

theorem connectDeadline_reaches (h : Delivers os t stream bound) (hdl : InTime os dl) (log : Log) :
    ∃ fd, Reaches (connectDeadline os dl t.socketPath) log (.ok fd) [] := by
  obtain ⟨path, hpath, hne, hlt⟩ := h.path
  obtain ⟨fd, hfd⟩ := connectLoop_reaches h hdl log
  refine ⟨fd, ?_⟩
  have hconnect : connectDeadline os dl t.socketPath = connectLoop os dl := by
    funext n
    rw [hpath, connectDeadline, if_neg (not_or.mpr ⟨hne, not_le.mpr hlt⟩)]
  rw [hconnect]
  exact hfd

/-- What a stream says, and how much of it is read for that. -/
def decodeReply : List UInt8 → TxOut × List UInt8
  | v :: b₃ :: b₂ :: b₁ :: b₀ :: rest =>
    let hdr := [v, b₃, b₂, b₁, b₀]
    let len := ofBytes [b₃, b₂, b₁, b₀]
    if v ≠ frameVersion then (failed (.lit "frame_version"), hdr)
    else if len > frameMaxBody then (failed (.lit "frame_toolarge"), hdr)
    else if rest.length < len then (failed (.lit "frame_eof"), hdr ++ rest)
    else (⟨⟨0, some (rest.take len)⟩, none⟩, hdr ++ rest.take len)
  | stream => (failed (.lit "frame_eof"), stream)

theorem decodeReply_short {stream : List UInt8} (h : stream.length < 5) :
    decodeReply stream = (failed (.lit "frame_eof"), stream) := by
  match stream, h with
  | [], _ => rfl
  | [_], _ => rfl
  | [_, _], _ => rfl
  | [_, _, _], _ => rfl
  | [_, _, _, _], _ => rfl

theorem closing_reaches (fd : ℕ) (err : CStr) (log : Log) :
    Reaches (fun _ => closing fd err) log (failed err) [] :=
  Reaches.ask rfl .pure

theorem readOf_full {need : ℕ} {there : List UInt8} (h : need ≤ there.length) :
    readOf need [] there = (0, there.take need) := by
  rw [readOf, if_pos h, List.nil_append]

theorem readOf_short {need : ℕ} {there : List UInt8} (h : there.length < need) :
    readOf need [] there = (1, there) := by
  rw [readOf, if_neg (not_le.mpr h), List.take_of_length_le h.le, List.nil_append]

theorem malloc_reaches (h : Delivers os t stream bound) (log : Log) :
    Reaches (fun _ => malloc os) log true [] :=
  ⟨[], .const (by rw [malloc, exec_modifyGet, h.memory, List.append_nil]), rfl⟩

/-- From an unread stream on, the reply is what the stream says. -/
theorem receiveFrame_reaches (h : Delivers os t stream bound) (hdl : InTime os dl) (fd : ℕ)
    {log : Log} (hlog : received log = []) :
    Reaches (receiveFrame os fd dl) log (decodeReply stream).1 (decodeReply stream).2 := by
  have hhdr := readFull_reaches h hdl fd 5 [] log
  rw [hlog, List.length_nil, List.drop_zero] at hhdr
  by_cases hshort : stream.length < 5
  · rw [decodeReply_short hshort]
    rw [Nat.sub_zero, readOf_short hshort, List.take_of_length_le hshort.le] at hhdr
    exact hhdr.last fun log => closing_reaches fd _ log
  obtain ⟨v, b₃, b₂, b₁, b₀, rest, rfl⟩ : ∃ v b₃ b₂ b₁ b₀ rest,
      stream = v :: b₃ :: b₂ :: b₁ :: b₀ :: rest := by
    match stream, hshort with
    | v :: b₃ :: b₂ :: b₁ :: b₀ :: rest, _ => exact ⟨v, b₃, b₂, b₁, b₀, rest, rfl⟩
    | [], hn | [_], hn | [_, _], hn | [_, _, _], hn | [_, _, _, _], hn =>
      exact absurd (by simp) hn
  rw [Nat.sub_zero, readOf_full (by simp), List.take_succ_cons, List.take_succ_cons,
    List.take_succ_cons, List.take_succ_cons, List.take_succ_cons, List.take_zero] at hhdr
  have hlen : (frameLength [v, b₃, b₂, b₁, b₀]).toNat = ofBytes [b₃, b₂, b₁, b₀] :=
    @frameLength_toNat v [b₃, b₂, b₁, b₀] [] rfl
  rw [decodeReply]
  generalize ofBytes [b₃, b₂, b₁, b₀] = len at hlen ⊢
  by_cases hv : v ≠ frameVersion
  · rw [if_pos hv]
    refine hhdr.last fun log => ?_
    simp only [ne_eq, not_true_eq_false, if_false, List.getD_cons_zero, if_pos hv]
    exact closing_reaches fd _ log
  rw [if_neg hv]
  by_cases hlarge : len > frameMaxBody
  · rw [if_pos hlarge]
    refine hhdr.last fun log => ?_
    simp only [ne_eq, not_true_eq_false, if_false, List.getD_cons_zero, if_neg hv, hlen,
      if_pos hlarge]
    exact closing_reaches fd _ log
  rw [if_neg hlarge]
  have hbody : ∀ es fs, received es = [v, b₃, b₂, b₁, b₀] → received fs = [] →
      Reaches (fun n => readFull os fd dl len n []) (log ++ es ++ fs)
        (readOf len [] rest) (rest.take len) := by
    intro es fs hes hfs
    have hread := readFull_reaches h hdl fd len [] (log ++ es ++ fs)
    rwa [received_append, received_append, hlog, hes, hfs] at hread
  by_cases heof : rest.length < len
  · rw [if_pos heof]
    refine hhdr.bind fun es hes => ?_
    simp only [ne_eq, not_true_eq_false, if_false, List.getD_cons_zero, if_neg hv, hlen,
      if_neg hlarge]
    refine (malloc_reaches h _).after fun fs hfs => ?_
    have hread := hbody es fs hes hfs
    rw [readOf_short heof, List.take_of_length_le heof.le] at hread
    exact hread.last fun log => closing_reaches fd _ log
  · rw [if_neg heof]
    refine hhdr.bind fun es hes => ?_
    simp only [ne_eq, not_true_eq_false, if_false, List.getD_cons_zero, if_neg hv, hlen,
      if_neg hlarge]
    refine (malloc_reaches h _).after fun fs hfs => ?_
    have hread := hbody es fs hes hfs
    rw [readOf_full (not_lt.mp heof)] at hread
    refine hread.last fun log => ?_
    simp only [not_true_eq_false, if_false]
    exact Reaches.ask rfl .pure

/-- The frame is sent and the reply is decoded. -/
theorem exchange_reaches (h : Delivers os t stream bound) (hdl : InTime os dl) (fd : ℕ)
    (req : List UInt8) {log : Log} (hlog : received log = []) :
    Reaches (exchange os fd dl t req) log (decodeReply stream).1 (decodeReply stream).2 := by
  refine Reaches.ask (h.peer log) ?_
  simp only [ne_eq, not_true_eq_false, if_false]
  have hsend : ∀ log, Reaches (sendFrame os fd dl req) log 0 [] := fun log => by
    refine (writeFull_reaches h hdl fd _ log).after fun es _ => ?_
    simp only [if_true]
    exact writeFull_reaches h hdl fd _ _
  refine (hsend _).after fun es hes => ?_
  simp only [not_true_eq_false, if_false]
  refine receiveFrame_reaches h hdl fd ?_
  rw [received_append, received_append, hlog, hes]
  rfl

theorem pkgxTransportTx_reaches (h : Delivers os t stream bound) {req : List UInt8}
    (hpos : 0 < req.length) (hmax : req.length ≤ frameMaxBody) :
    Reaches (pkgxTransportTx os t (some req)) [] (decodeReply stream).1 (decodeReply stream).2 := by
  obtain ⟨start, hstart, hdl⟩ := h.inTime
  obtain ⟨fd, es, hes, hgot⟩ := connectDeadline_reaches h hdl [.clock (some start)]
  have hread : received ([.clock (some start)] ++ es) = [] := by
    rw [received_append, hgot]
    rfl
  have hbody : pkgxTransportTx os t (some req) = _ :=
    funext fun n => if_neg (not_or.mpr ⟨hpos.ne', not_lt.mpr hmax⟩)
  rw [hbody]
  refine Reaches.ask hstart (Reaches.seq hes hgot ?_)
  exact exchange_reaches h hdl fd req hread

end Loops

/-- A returned value, and the bytes read for it, as the stream determines them. -/
structure Decodes (stream : List UInt8) (out : TxOut) (consumed : List UInt8) : Prop where
  ok_iff : ∀ body, (out.rc = 0 ∧ out.resp = some body) ↔
    body.length ≤ frameMaxBody ∧ frame body <+: stream
  consumed_within : consumed <+: stream
  consumed_frame : ∀ body, out.rc = 0 → out.resp = some body → consumed = frame body
  consumed_bounded : ∀ v be rest, be.length = 4 → stream = v :: (be ++ rest) →
    consumed.length ≤ 5 + (if v = frameVersion ∧ ofBytes be ≤ frameMaxBody then ofBytes be else 0)
  short : stream.length < 5 → out = failed (.lit "frame_eof")
  version : ∀ v rest, stream = v :: rest → 4 ≤ rest.length → v ≠ frameVersion →
    out = failed (.lit "frame_version")
  tooLarge : ∀ be rest, stream = frameVersion :: (be ++ rest) → be.length = 4 →
    frameMaxBody < ofBytes be → out = failed (.lit "frame_toolarge")
  bodyEof : ∀ be rest, stream = frameVersion :: (be ++ rest) → be.length = 4 →
    ofBytes be ≤ frameMaxBody → rest.length < ofBytes be → out = failed (.lit "frame_eof")

theorem decodeReply_header (v : UInt8) {be : List UInt8} (hbe : be.length = 4)
    (rest : List UInt8) :
    decodeReply (v :: (be ++ rest)) =
      if v ≠ frameVersion then (failed (.lit "frame_version"), v :: be)
      else if ofBytes be > frameMaxBody then (failed (.lit "frame_toolarge"), v :: be)
      else if rest.length < ofBytes be then (failed (.lit "frame_eof"), v :: (be ++ rest))
      else (⟨⟨0, some (rest.take (ofBytes be))⟩, none⟩, v :: (be ++ rest.take (ofBytes be))) := by
  match be, hbe with
  | [_, _, _, _], _ => rfl

theorem header_of_length {stream : List UInt8} (h : 5 ≤ stream.length) :
    ∃ v be rest, be.length = 4 ∧ stream = v :: (be ++ rest) := by
  cases stream with
  | nil => simp at h
  | cons v tail =>
    rw [List.length_cons] at h
    refine ⟨v, tail.take 4, tail.drop 4, ?_, by rw [List.take_append_drop]⟩
    rw [List.length_take]
    omega

/-- Two frames at the front of a stream are the same frame. -/
theorem header_inj {v v' : UInt8} {be be' rest rest' : List UInt8} (hbe : be.length = 4)
    (hbe' : be'.length = 4) (h : v :: (be ++ rest) = v' :: (be' ++ rest')) :
    v = v' ∧ be = be' ∧ rest = rest' := by
  obtain ⟨hv, htail⟩ := List.cons.inj h
  exact ⟨hv, List.append_inj htail (hbe.trans hbe'.symm)⟩

theorem frame_prefix_iff {body be rest : List UInt8} {v : UInt8} (hbe : be.length = 4)
    (hlen : body.length ≤ frameMaxBody) :
    frame body <+: v :: (be ++ rest) ↔
      v = frameVersion ∧ ofBytes be = body.length ∧ body <+: rest := by
  have hlt : body.length < 256 ^ 4 := Nat.lt_of_le_of_lt hlen (by decide)
  constructor
  · rintro ⟨tail, htail⟩
    rw [frame, List.cons_append, List.append_assoc] at htail
    obtain ⟨hv, rfl, rfl⟩ := header_inj (length_toBytes 4 body.length) hbe htail
    exact ⟨hv.symm, ofBytes_toBytes hlt, List.prefix_append _ _⟩
  · rintro ⟨rfl, hval, tail, rfl⟩
    have heq : toBytes 4 body.length = be := by
      apply ofBytes_inj
      · rw [length_toBytes, hbe]
      · rw [ofBytes_toBytes hlt, hval]
    exact ⟨tail, by rw [frame, heq, List.cons_append, List.append_assoc]⟩

theorem length_frame (body : List UInt8) : (frame body).length = 5 + body.length := by
  rw [frame, List.length_cons, List.length_append, length_toBytes]
  omega

theorem decodeReply_ok_iff (stream body : List UInt8) :
    ((decodeReply stream).1.rc = 0 ∧ (decodeReply stream).1.resp = some body) ↔
      body.length ≤ frameMaxBody ∧ frame body <+: stream := by
  by_cases hshort : stream.length < 5
  · rw [decodeReply_short hshort]
    refine iff_of_false (by simp [failed]) fun ⟨_, hpre⟩ => ?_
    have hle := hpre.length_le
    rw [length_frame] at hle
    omega
  obtain ⟨v, be, rest, hbe, rfl⟩ := header_of_length (not_lt.mp hshort)
  have hiff := fun hlen => @frame_prefix_iff body be rest v hbe hlen
  rw [decodeReply_header v hbe]
  split_ifs with hv hlarge heof
  · refine iff_of_false (by simp [failed]) fun ⟨hlen, hpre⟩ => ?_
    exact hv ((hiff hlen).mp hpre).1
  · refine iff_of_false (by simp [failed]) fun ⟨hlen, hpre⟩ => ?_
    have hval := ((hiff hlen).mp hpre).2.1
    omega
  · refine iff_of_false (by simp [failed]) fun ⟨hlen, hpre⟩ => ?_
    obtain ⟨-, hval, hbody⟩ := (hiff hlen).mp hpre
    have hle := hbody.length_le
    omega
  · simp only [true_and, Option.some.injEq]
    constructor
    · rintro rfl
      have hlen : (rest.take (ofBytes be)).length = ofBytes be := by
        rw [List.length_take]
        omega
      have hmax : (rest.take (ofBytes be)).length ≤ frameMaxBody := by omega
      exact ⟨hmax, (frame_prefix_iff hbe hmax).mpr
        ⟨not_not.mp hv, hlen.symm, List.take_prefix _ _⟩⟩
    · rintro ⟨hlen, hpre⟩
      obtain ⟨-, hval, hbody⟩ := (hiff hlen).mp hpre
      rw [hval]
      exact (List.prefix_iff_eq_take.mp hbody).symm

theorem decodeReply_consumed (stream : List UInt8) : (decodeReply stream).2 <+: stream := by
  by_cases hshort : stream.length < 5
  · rw [decodeReply_short hshort]
  obtain ⟨v, be, rest, hbe, rfl⟩ := header_of_length (not_lt.mp hshort)
  rw [decodeReply_header v hbe]
  split_ifs
  · exact (List.prefix_cons_inj v).mpr (List.prefix_append be rest)
  · exact (List.prefix_cons_inj v).mpr (List.prefix_append be rest)
  · exact List.prefix_rfl
  · rw [List.prefix_cons_inj, List.prefix_append_right_inj]
    exact List.take_prefix _ _

/-- A body is returned after exactly its frame has been read. -/
theorem decodeReply_consumed_frame {stream body : List UInt8}
    (h : (decodeReply stream).1.rc = 0 ∧ (decodeReply stream).1.resp = some body) :
    (decodeReply stream).2 = frame body := by
  have hframe := ((decodeReply_ok_iff stream body).mp h).2
  refine (List.prefix_of_prefix_length_le (decodeReply_consumed stream) hframe ?_).eq_of_length
    ?_
  all_goals
    rw [length_frame]
    by_cases hshort : stream.length < 5
    · rw [decodeReply_short hshort] at h
      simp [failed] at h
    obtain ⟨v, be, rest, hbe, rfl⟩ := header_of_length (not_lt.mp hshort)
    rw [decodeReply_header v hbe] at h ⊢
    split_ifs at h ⊢
    · simp [failed] at h
    · simp [failed] at h
    · simp [failed] at h
    · obtain rfl := Option.some.inj h.2
      simp only [List.length_cons, List.length_append, hbe]
      omega

theorem decodes_decodeReply (stream : List UInt8) :
    Decodes stream (decodeReply stream).1 (decodeReply stream).2 where
  ok_iff := decodeReply_ok_iff stream
  consumed_within := decodeReply_consumed stream
  consumed_frame _ hrc hresp := decodeReply_consumed_frame ⟨hrc, hresp⟩
  consumed_bounded v be rest hbe heq := by
    subst heq
    rw [decodeReply_header v hbe]
    by_cases hgood : v = frameVersion ∧ ofBytes be ≤ frameMaxBody
    · rw [if_neg (not_not.mpr hgood.1), if_neg (not_lt.mpr hgood.2), if_pos hgood]
      split_ifs
      · simp only [List.length_cons, List.length_append, hbe]
        omega
      · simp only [List.length_cons, List.length_append, List.length_take, hbe]
        omega
    · rw [if_neg hgood]
      split_ifs with hv hlarge
      · rw [List.length_cons, hbe]
      · rw [List.length_cons, hbe]
      · exact absurd ⟨not_not.mp hv, not_lt.mp hlarge⟩ hgood
      · exact absurd ⟨not_not.mp hv, not_lt.mp hlarge⟩ hgood
  short h := by rw [decodeReply_short h]
  version v rest heq hlen hv := by
    subst heq
    rw [← List.take_append_drop 4 rest, decodeReply_header v (by rw [List.length_take]; omega),
      if_pos hv]
  tooLarge be rest heq hbe hlarge := by
    subst heq
    rw [decodeReply_header _ hbe, if_neg (not_not.mpr rfl), if_pos hlarge]
  bodyEof be rest heq hbe hmax heof := by
    subst heq
    rw [decodeReply_header _ hbe, if_neg (not_not.mpr rfl), if_neg (not_lt.mpr hmax), if_pos heof]

/-- One verdict for each stream, however it is delivered, and no byte beyond the frame is read;
a length that the sender's header encodes is read back as itself. -/
theorem reply_decoded_exactly (stream : List UInt8) :
    (∃ out, ∀ (os : Os) (t : PkgxTransport) (bound : ℕ) (req : List UInt8),
      Delivers os t stream bound → 0 < req.length → req.length ≤ frameMaxBody →
        ∃ log, Converges (pkgxTransportTx os t (some req)) [] out log ∧
          Decodes stream out (received log)) ∧
      ∀ len, len ≤ frameMaxBody → (frameLength (frameHeader len)).toNat = len := by
  constructor
  · refine ⟨(decodeReply stream).1, fun os t bound req h hpos hmax => ?_⟩
    obtain ⟨log, hlog, hread⟩ := pkgxTransportTx_reaches h hpos hmax
    exact ⟨log, hlog, hread ▸ decodes_decodeReply stream⟩
  · intro len hlen
    have htoNat := @frameLength_toNat frameVersion (toBytes 4 len) [] (length_toBytes 4 len)
    rw [List.append_nil, ← frameHeader_eq] at htoNat
    rw [htoNat, ofBytes_toBytes (Nat.lt_of_le_of_lt hlen (by decide))]

/-- A peer that delivers single bytes, after one `EAGAIN`. -/
def trickleOs (stream : List UInt8) : Os where
  clock _ := some ⟨0, 0⟩
  socket _ := true
  connect _ := .ok ()
  poll _ := .ready
  soError _ := some 0
  peercred _ := some 0
  send _ := .ok 1
  read log :=
    if interruptions log < 1 then .error .eagain
    else .ok ((stream.drop (received log).length).take 1)
  malloc _ := true

def rootTransport : PkgxTransport := ⟨some (.lit "/run/runix-audit.sock"), 0, 0⟩

theorem trickleOs_delivers (stream : List UInt8) {t : PkgxTransport}
    (hpath : ∃ path, t.socketPath = some path ∧ path.bytes ≠ [] ∧ path.bytes.length < sunPathSize)
    (huid : t.requiredPeerUid = 0) (htime : 0 < msBetween (deadlineAt ⟨0, 0⟩ t.budget) ⟨0, 0⟩) :
    Delivers (trickleOs stream) t stream 1 where
  inTime := ⟨⟨0, 0⟩, rfl, fun _ => ⟨⟨0, 0⟩, rfl, htime⟩⟩
  path := hpath
  sockets _ := rfl
  connects _ := .inl rfl
  soErrors _ := rfl
  peer _ := congrArg some huid.symm
  polls _ := .inl rfl
  sends _ := .inl ⟨0, rfl⟩
  reads log := by
    by_cases h : interruptions log < 1
    · exact .inr ⟨⟨.eagain, if_pos h, .inr rfl⟩, h⟩
    · exact .inl ⟨_, if_neg h, List.take_prefix _ _, fun hnil => by simpa using hnil⟩
  memory _ := rfl

/-- A reply of two bytes that arrives in single bytes, with more of the stream behind it. -/
theorem reply_decoded_exactly_single_bytes :
    ∃ out log, Converges (pkgxTransportTx (trickleOs (frame [0x7b, 0x7d] ++ [1])) rootTransport
        (some [0x7b, 0x7d])) [] out log ∧
      out.rc = 0 ∧ out.resp = some [0x7b, 0x7d] ∧ received log = frame [0x7b, 0x7d] := by
  obtain ⟨⟨out, hout⟩, -⟩ := reply_decoded_exactly (frame [0x7b, 0x7d] ++ [1])
  have hdelivers := trickleOs_delivers (frame [0x7b, 0x7d] ++ [1]) (t := rootTransport)
    ⟨_, rfl, by decide, by decide⟩ rfl (by decide)
  obtain ⟨log, hlog, hdecodes⟩ := hout _ rootTransport 1 [0x7b, 0x7d] hdelivers
    (by decide) (by decide)
  obtain ⟨hrc, hresp⟩ := (hdecodes.ok_iff [0x7b, 0x7d]).mpr ⟨by decide, List.prefix_append _ _⟩
  exact ⟨out, log, hlog, hrc, hresp, hdecodes.consumed_frame _ hrc hresp⟩

end Pkgexec.Transport
