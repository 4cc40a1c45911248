import Pkgexec.FuelRuns

/-!
# Deliveries

A stream that arrives in pieces, as the log of its reader shows it. A read is given a piece of
what is left, and nothing only at the end of the stream; in between, a bounded number of calls is
interrupted. So every call of a reader brings the end nearer.
-/

namespace Deliveries
open FuelRuns

/-- What the event of a reader has received, and whether the call was interrupted. -/
class Arrival (ε : Type) (β : outParam Type) where
  bytes : ε → List β
  interrupted : ε → Bool
  quiet : ∀ e, interrupted e = true → bytes e = []

section Logs

variable {ε β : Type} [Arrival ε β] {log es : List ε} {e : ε} {bound : ℕ}

/-- The concatenation of the pieces. -/
def received (log : List ε) : List β := log.flatMap Arrival.bytes

def interruptions (log : List ε) : ℕ := log.countP Arrival.interrupted

@[simp] theorem received_append (log es : List ε) :
    received (log ++ es) = received log ++ received es := List.flatMap_append

@[simp] theorem received_singleton (e : ε) : received [e] = Arrival.bytes e :=
  List.flatMap_singleton _ _

/-- Events that receive nothing. -/
theorem received_quiet (log : List ε) (h : received es = []) :
    received (log ++ es) = received log := by
  rw [received_append, h, List.append_nil]

/-- An interruption uses up a part of the bound on them. -/
theorem fewer_interruptions (he : Arrival.interrupted e = true)
    (h : interruptions (log ++ es) < bound) :
    bound - interruptions (log ++ es ++ [e]) < bound - interruptions log := by
  simp only [interruptions, List.countP_append, List.countP_singleton, he, if_true] at h ⊢
  omega

theorem no_more_interruptions (log es : List ε) (bound : ℕ) :
    bound - interruptions (log ++ es) ≤ bound - interruptions log := by
  rw [interruptions, interruptions, List.countP_append]
  omega

/-- The clock answers always, and its readings satisfy `p`. -/
def Always {τ : Type} (clock : List ε → Option τ) (p : τ → Prop) : Prop :=
  ∀ log, ∃ now, clock log = some now ∧ p now

/-- A read finds some of what is left of the stream, and nothing only where nothing is left. Or it
is to be made again, which happens at most `bound` times. -/
def Arrives {η : Type} (read : List ε → Except η (List β)) (again : η → Prop) (stream : List β)
    (bound : ℕ) : Prop := ∀ log,
  (∃ there, read log = .ok there ∧ there <+: stream.drop (received log).length ∧
    (there = [] → stream.drop (received log).length = [])) ∨
  (∃ e, read log = .error e ∧ again e) ∧ interruptions log < bound

/-- A read that is asked for something gets a piece of the stream, or finds its end. -/
theorem Arrives.take {η : Type} {read : List ε → Except η (List β)} {again : η → Prop}
    {stream : List β} (h : Arrives read again stream bound) {need : ℕ} (hneed : 0 < need)
    (log : List ε) :
    let answer := (read log).map fun there => there.take need
    (∃ b more later, answer = .ok (b :: more) ∧ (b :: more).length ≤ need ∧
        stream.drop (received log).length = b :: more ++ later) ∨
      (answer = .ok [] ∧ stream.drop (received log).length = []) ∨
      (∃ e, answer = .error e ∧ again e) ∧ interruptions log < bound := by
  intro answer
  rcases h log with ⟨there, hread, hpre, hend⟩ | ⟨⟨e, hread, he⟩, hlt⟩
  · have hanswer : answer = .ok (there.take need) := by
      simp only [answer, hread]
      rfl
    cases htake : there.take need with
    | nil =>
      have hempty := (List.take_eq_nil_iff.mp htake).resolve_left (by omega)
      exact .inr (.inl ⟨htake ▸ hanswer, hend hempty⟩)
    | cons b more =>
      obtain ⟨later, hlater⟩ : b :: more <+: stream.drop (received log).length := by
        rw [← htake]
        exact (List.take_prefix _ _).trans hpre
      have hlen : (b :: more).length ≤ need := by
        rw [← htake]
        exact List.length_take_le _ _
      exact .inl ⟨b, more, later, htake ▸ hanswer, hlen, hlater.symm⟩
  · refine .inr (.inr ⟨⟨e, ?_, he⟩, hlt⟩)
    simp only [answer, hread]
    rfl

section Pending

variable {stream : List β}

/-- What is still to come: interruptions, and the rest of the stream. -/
def pending (stream : List β) (bound : ℕ) (log : List ε) : ℕ :=
  bound - interruptions log + (stream.length - (received log).length)

theorem pending_quiet (log : List ε) (hes : received es = []) :
    pending stream bound (log ++ es) ≤ pending stream bound log := by
  rw [pending, pending, received_quiet log hes]
  exact Nat.add_le_add_right (no_more_interruptions log es bound) _

/-- An interruption brings the end nearer. -/
theorem pending_interrupted (he : Arrival.interrupted e = true) (hes : received es = [])
    (hlt : interruptions (log ++ es) < bound) :
    pending stream bound (log ++ es ++ [e]) < pending stream bound log := by
  have hnone : received [e] = [] := by rw [received_singleton, Arrival.quiet e he]
  rw [pending, pending, received_quiet _ hnone, received_quiet log hes]
  exact Nat.add_lt_add_right (fewer_interruptions he hlt) _

/-- So does a piece that is not empty. -/
theorem pending_piece (hsome : Arrival.bytes e ≠ [])
    (h : received log ++ Arrival.bytes e <+: stream) :
    pending stream bound (log ++ [e]) < pending stream bound log := by
  have hpos := List.length_pos_iff.mpr hsome
  have hlen := h.length_le
  have hleft := no_more_interruptions log [e] bound
  rw [List.length_append] at hlen
  rw [pending, pending, received_append, received_singleton, List.length_append]
  omega

end Pending

end Logs

/-- With enough fuel `a` is returned, and `got` has been read in between. -/
def Reaches {ε β α : Type} [Arrival ε β] (m : ℕ → Run (List ε) α) (log : List ε) (a : α)
    (got : List β) : Prop :=
  ∃ es, Converges m log a (log ++ es) ∧ received es = got

section Reaching

variable {ε β α α' : Type} [Arrival ε β] {log : List ε} {a : α} {b : α'} {got got' : List β}

theorem Reaches.pure : Reaches (fun _ => Pure.pure a) log a [] :=
  ⟨[], by rw [List.append_nil]; exact .const rfl, rfl⟩

theorem Reaches.seq {m : ℕ → Run (List ε) α} {f : ℕ → α → Run (List ε) α'} {es : List ε}
    (hm : Converges m log a (log ++ es)) (hgot : received es = got)
    (hf : Reaches (fun n => f n a) (log ++ es) b got') :
    Reaches (fun n => m n >>= f n) log b (got ++ got') := by
  obtain ⟨fs, hfs, hgot'⟩ := hf
  rw [List.append_assoc] at hfs
  exact ⟨es ++ fs, hm.bind hfs, by rw [received_append, hgot, hgot']⟩

theorem Reaches.bind {m : ℕ → Run (List ε) α} {f : ℕ → α → Run (List ε) α'}
    (hm : Reaches m log a got)
    (hf : ∀ es, received es = got → Reaches (fun n => f n a) (log ++ es) b got') :
    Reaches (fun n => m n >>= f n) log b (got ++ got') := by
  obtain ⟨es, hes, hgot⟩ := hm
  exact .seq hes hgot (hf es hgot)

/-- A first part that reads nothing. -/
theorem Reaches.after {m : ℕ → Run (List ε) α} {f : ℕ → α → Run (List ε) α'}
    (hm : Reaches m log a [])
    (hf : ∀ es, received es = [] → Reaches (fun n => f n a) (log ++ es) b got) :
    Reaches (fun n => m n >>= f n) log b got :=
  hm.bind hf

theorem Reaches.last {m : ℕ → Run (List ε) α} {f : ℕ → α → Run (List ε) α'}
    (hm : Reaches m log a got)
    (hf : ∀ log, Reaches (fun n => f n a) log b []) :
    Reaches (fun n => m n >>= f n) log b got := by
  have h := hm.bind fun es _ => hf (log ++ es)
  rwa [List.append_nil] at h

theorem Reaches.ask {answer : List ε → α} {event : α → ε} {f : ℕ → α → Run (List ε) α'}
    (ha : answer log = a) (hf : Reaches (fun n => f n a) (log ++ [event a]) b got)
    (hgot : Arrival.bytes (event a) ++ got = got' := by rfl) :
    Reaches (fun n => FuelRuns.ask answer event >>= f n) log b got' := by
  subst ha
  obtain ⟨es, hes, rfl⟩ := hf
  rw [List.append_assoc] at hes
  exact ⟨event (answer log) :: es, Converges.bind (.const rfl) hes, hgot⟩

/-- One unit of fuel pays for one unfolding of a loop. -/
theorem Reaches.step {m body : ℕ → Run (List ε) α} (hbody : ∀ n, m (n + 1) = body n)
    (h : Reaches body log a got) : Reaches m log a got := by
  obtain ⟨es, hes, hgot⟩ := h
  exact ⟨es, .step hbody hes, hgot⟩

end Reaching

end Deliveries
