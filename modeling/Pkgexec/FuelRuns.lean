import Mathlib.Data.List.Basic
import Mathlib.Control.Basic

/-!
# Runs that may not have returned yet

A program with loops that need not terminate is given a fuel argument. Its value is `none`
while it has not returned, and the state it has reached is kept in either case, so a safety
property of the state can be stated of every prefix of a run. `wp` is the weakest
precondition for a condition on the states in which the run has returned and one on the
states in which it has not; `Converges` says that enough fuel gives a result.
-/

namespace FuelRuns

/-- A stateful computation, `none` while it has not returned. -/
abbrev Run (σ α : Type) := OptionT (StateM σ) α

section Weakest

variable {σ α β : Type}

def exec (m : Run σ α) (s : σ) : Option α × σ := (m.run.run s : Id _)

@[simp] theorem exec_pure (a : α) (s : σ) : exec (pure a) s = (some a, s) := rfl

@[simp] theorem exec_failure (s : σ) : exec (failure : Run σ α) s = (none, s) := rfl

@[simp] theorem exec_modifyGet (f : σ → α × σ) (s : σ) :
    exec (modifyGet f) s = (some (f s).1, (f s).2) := rfl

@[simp] theorem exec_modify (f : σ → σ) (s : σ) :
    exec (modify f) s = (some ⟨⟩, f s) := rfl

@[simp] theorem exec_get (s : σ) : exec (get : Run σ σ) s = (some s, s) := rfl

theorem exec_bind (m : Run σ α) (f : α → Run σ β) (s : σ) :
    exec (m >>= f) s = match exec m s with
      | (some a, s') => exec (f a) s'
      | (none, s') => (none, s') := by
  show (OptionT.bind m f).run.run s = _
  simp only [exec, OptionT.bind, OptionT.run, OptionT.mk, StateT.run_bind]
  cases h : StateT.run m s with
  | mk o s' => cases o <;> rfl

/-- Every run from `s` that has returned meets `Q`, and every run that has not meets `I`. -/
def wp (m : Run σ α) (Q : α → σ → Prop) (I : σ → Prop) (s : σ) : Prop :=
  match exec m s with
  | (some a, s') => Q a s'
  | (none, s') => I s'

variable {Q Q' : α → σ → Prop} {I I' : σ → Prop}

@[simp] theorem wp_pure (a : α) (s : σ) : wp (pure a) Q I s ↔ Q a s := Iff.rfl

@[simp] theorem wp_failure (s : σ) : wp (failure : Run σ α) Q I s ↔ I s := Iff.rfl

@[simp] theorem wp_modifyGet (f : σ → α × σ) (s : σ) :
    wp (modifyGet f) Q I s ↔ Q (f s).1 (f s).2 := Iff.rfl

@[simp] theorem wp_get {Q : σ → σ → Prop} (s : σ) : wp (get : Run σ σ) Q I s ↔ Q s s := Iff.rfl

@[simp] theorem wp_bind (m : Run σ α) (f : α → Run σ β) {Q : β → σ → Prop} (s : σ) :
    wp (m >>= f) Q I s ↔ wp m (fun a s' => wp (f a) Q I s') I s := by
  simp only [wp]
  rw [exec_bind]
  cases h : exec m s with
  | mk o s' => cases o <;> rfl

theorem wp_mono {m : Run σ α} {s : σ} (hQ : ∀ a s', Q a s' → Q' a s')
    (hI : ∀ s', I s' → I' s') (h : wp m Q I s) : wp m Q' I' s := by
  simp only [wp] at *
  cases he : exec m s with
  | mk o s' =>
    rw [he] at h
    cases o with
    | none => exact hI s' h
    | some a => exact hQ a s' h

theorem wp_iff {m : Run σ α} {s : σ} :
    wp m Q I s ↔ (∀ a s', exec m s = (some a, s') → Q a s') ∧
      ∀ s', exec m s = (none, s') → I s' := by
  simp only [wp]
  cases he : exec m s with
  | mk o s' => cases o <;> simp_all

theorem wp_and {m : Run σ α} {s : σ} (h : wp m Q I s) (h' : wp m Q' I' s) :
    wp m (fun a s' => Q a s' ∧ Q' a s') (fun s' => I s' ∧ I' s') s := by
  rw [wp_iff] at *
  exact ⟨fun a s' he => ⟨h.1 a s' he, h'.1 a s' he⟩, fun s' he => ⟨h.2 s' he, h'.2 s' he⟩⟩

/-- A condition may speak of the run itself. -/
theorem wp_run {m : Run σ α} {s : σ} (h : wp m Q I s) :
    wp m (fun a s' => exec m s = (some a, s') ∧ Q a s')
      (fun s' => exec m s = (none, s') ∧ I s') s := by
  rw [wp_iff] at *
  exact ⟨fun a s' he => ⟨he, h.1 a s' he⟩, fun s' he => ⟨he, h.2 s' he⟩⟩

/-- A run on a part of a larger state. -/
def focus {τ : Type} (part : σ → τ) (update : σ → τ → σ) (m : Run τ α) : Run σ α :=
  OptionT.mk fun s : σ => pure ((exec m (part s)).1, update s (exec m (part s)).2)

theorem exec_focus {τ : Type} {part : σ → τ} {update : σ → τ → σ} {m : Run τ α} {s : σ} :
    exec (focus part update m) s = ((exec m (part s)).1, update s (exec m (part s)).2) := rfl

@[simp] theorem wp_focus {τ : Type} {part : σ → τ} {update : σ → τ → σ} {m : Run τ α} {s : σ} :
    wp (focus part update m) Q I s ↔
      wp m (fun a t => Q a (update s t)) (fun t => I (update s t)) (part s) := by
  simp only [wp, exec_focus]
  cases exec m (part s) with
  | mk o t => cases o <;> rfl

/-- A condition on every run, returned or not. -/
theorem wp_result {m : Run σ α} {s : σ} {P : Option α → σ → Prop}
    (h : wp m (fun a s' => P (some a) s') (P none) s) : P (exec m s).1 (exec m s).2 := by
  simp only [wp] at h
  cases he : exec m s with
  | mk o s' =>
    rw [he] at h
    cases o with
    | none => exact h
    | some a => exact h

theorem wp_state {m : Run σ α} {s : σ} {P : σ → Prop} (h : wp m (fun _ s' => P s') P s) :
    P (exec m s).2 :=
  wp_result (P := fun _ s' => P s') h

end Weakest

section Results

variable {σ α β : Type} {p : α → Prop} {q : β → Prop}

/-- Every run that has returned, from whatever state, returns a value that satisfies `p`. -/
def Returns (p : α → Prop) (m : Run σ α) : Prop := ∀ s a s', exec m s = (some a, s') → p a

theorem Returns.any (m : Run σ α) : Returns (fun _ => True) m := fun _ _ _ _ => trivial

theorem Returns.pure {a : α} (h : p a) : Returns p (Pure.pure a : Run σ α) := by
  intro s b s' he
  obtain ⟨rfl, -⟩ : a = b ∧ s = s' := by simpa using he
  exact h

theorem Returns.failure : Returns p (Alternative.failure : Run σ α) := by
  intro s a s' he
  simp at he

theorem Returns.bind {m : Run σ α} {f : α → Run σ β} (hm : Returns p m)
    (hf : ∀ a, p a → Returns q (f a)) : Returns q (m >>= f) := by
  intro s b s' he
  rw [exec_bind] at he
  cases hrun : exec m s with
  | mk o s₁ =>
    rw [hrun] at he
    cases o with
    | none => simp at he
    | some a => exact hf a (hm s a s₁ hrun) s₁ b s' he

/-- What comes before the last step does not matter where the step alone decides. -/
theorem Returns.after {m : Run σ α} {f : α → Run σ β} (hf : ∀ a, Returns q (f a)) :
    Returns q (m >>= f) :=
  (Returns.any m).bind fun a _ => hf a

end Results

section Logs

variable {σ ε α β : Type} {log : σ → List ε} {p q : ε → Prop}

/-- The run only appends events satisfying `p` to the log, returned or not. -/
def Emits (log : σ → List ε) (p : ε → Prop) (m : Run σ α) : Prop :=
  ∀ s, ∃ es, log (exec m s).2 = log s ++ es ∧ ∀ e ∈ es, p e

theorem Emits.pure (a : α) : Emits log p (Pure.pure a : Run σ α) :=
  fun s => ⟨[], by simp⟩

theorem Emits.failure : Emits log p (Alternative.failure : Run σ α) :=
  fun s => ⟨[], by simp⟩

theorem Emits.bind {m : Run σ α} {f : α → Run σ β} (hm : Emits log p m)
    (hf : ∀ a, Emits log p (f a)) : Emits log p (m >>= f) := by
  intro s
  obtain ⟨es, hes, hp⟩ := hm s
  rw [exec_bind]
  cases he : exec m s with
  | mk o s' =>
    rw [he] at hes
    cases o with
    | none => exact ⟨es, hes, hp⟩
    | some a =>
      obtain ⟨fs, hfs, hq⟩ := hf a s'
      refine ⟨es ++ fs, by rw [hfs, hes, List.append_assoc], ?_⟩
      intro e h
      exact (List.mem_append.mp h).elim (hp e) (hq e)

theorem Emits.mono {m : Run σ α} (h : Emits log p m) (hpq : ∀ e, p e → q e) :
    Emits log q m := by
  intro s
  obtain ⟨es, hes, hp⟩ := h s
  exact ⟨es, hes, fun e he => hpq e (hp e he)⟩

/-- The log condition as a postcondition, together with anything else known of the run. -/
theorem Emits.wp {m : Run σ α} (h : Emits log p m) (s : σ) :
    wp m (fun _ s' => ∃ es, log s' = log s ++ es ∧ ∀ e ∈ es, p e)
      (fun s' => ∃ es, log s' = log s ++ es ∧ ∀ e ∈ es, p e) s := by
  have hs := h s
  rw [wp_iff]
  constructor
  · intro a s' he
    rwa [he] at hs
  · intro s' he
    rwa [he] at hs

theorem Emits.keeps {m : Run σ α} (h : Emits log p m) {P : σ → Prop}
    (hP : ∀ s s' es, P s → log s' = log s ++ es → (∀ e ∈ es, p e) → P s') {s : σ} (hs : P s) :
    FuelRuns.wp m (fun _ s' => P s') P s := by
  refine wp_mono ?_ ?_ (h.wp s)
  · rintro a s' ⟨es, hes, hp⟩
    exact hP s s' es hs hes hp
  · rintro s' ⟨es, hes, hp⟩
    exact hP s s' es hs hes hp

end Logs

section Histories

variable {ε : Type} {p : List ε → ε → Prop} {log : List ε} {e : ε}

/-- Every event of the log is allowed by the events before it. -/
def Historical (p : List ε → ε → Prop) (log : List ε) : Prop :=
  ∀ before e after, log = before ++ e :: after → p before e

theorem Historical.nil : Historical p [] := by
  intro before e after h
  simp at h

theorem Historical.snoc (h : Historical p log) (he : p log e) : Historical p (log ++ [e]) := by
  intro before e' after heq
  rcases List.eq_nil_or_concat after with rfl | ⟨after', last, rfl⟩
  · obtain ⟨rfl, hlast⟩ := List.append_inj' heq rfl
    obtain rfl := List.singleton_inj.mp hlast
    exact he
  · rw [List.concat_eq_append, ← List.cons_append, ← List.append_assoc] at heq
    exact h before e' after' (List.append_inj' heq rfl).1

theorem Historical.init (h : Historical p (log ++ [e])) : Historical p log ∧ p log e := by
  refine ⟨fun before e' after heq => ?_, h log e [] rfl⟩
  exact h before e' (after ++ [e]) (by rw [heq, List.append_assoc]; rfl)

/-- Events that are always allowed. -/
theorem Historical.append (h : Historical p log) {es : List ε}
    (hes : ∀ e ∈ es, ∀ before, p before e) : Historical p (log ++ es) := by
  induction es generalizing log with
  | nil => rwa [List.append_nil]
  | cons e es ih =>
    rw [List.append_cons]
    exact ih (h.snoc (hes e List.mem_cons_self log))
      fun e' he' => hes e' (List.mem_cons_of_mem e he')

theorem Historical.mem (h : Historical p log) (he : e ∈ log) : ∃ before, p before e := by
  obtain ⟨before, after, hlog⟩ := List.append_of_mem he
  exact ⟨before, h before e after hlog⟩

end Histories

section Asking

variable {ε α : Type} {p : ε → Prop}

/-- A call whose answer may depend on all that was done before. The call and its answer are
logged. -/
def ask (answer : List ε → α) (event : α → ε) : Run (List ε) α :=
  modifyGet fun log => (answer log, log ++ [event (answer log)])

variable (answer : List ε → α) (event : α → ε) (log : List ε)

@[simp] theorem exec_ask :
    exec (ask answer event) log = (some (answer log), log ++ [event (answer log)]) := rfl

@[simp] theorem wp_ask {Q : α → List ε → Prop} {I : List ε → Prop} :
    wp (ask answer event) Q I log ↔ Q (answer log) (log ++ [event (answer log)]) := Iff.rfl

variable {answer event}

theorem Emits.ask (h : ∀ a, p (event a)) : Emits id p (FuelRuns.ask answer event) := by
  intro log
  refine ⟨[event (answer log)], rfl, ?_⟩
  intro e he
  rw [List.mem_singleton.mp he]
  exact h _

end Asking

section Convergence

variable {σ α β : Type}

/-- From some amount of fuel on, the run returns `a` in the state `s'`. -/
def Converges (m : ℕ → Run σ α) (s : σ) (a : α) (s' : σ) : Prop :=
  ∃ n₀, ∀ n, n₀ ≤ n → exec (m n) s = (some a, s')

theorem Converges.const {m : Run σ α} {s s' : σ} {a : α} (h : exec m s = (some a, s')) :
    Converges (fun _ => m) s a s' :=
  ⟨0, fun _ _ => h⟩

theorem Converges.bind {m : ℕ → Run σ α} {f : ℕ → α → Run σ β} {s s₁ s₂ : σ} {a : α} {b : β}
    (hm : Converges m s a s₁) (hf : Converges (fun n => f n a) s₁ b s₂) :
    Converges (fun n => m n >>= f n) s b s₂ := by
  obtain ⟨n₁, h₁⟩ := hm
  obtain ⟨n₂, h₂⟩ := hf
  refine ⟨max n₁ n₂, fun n hn => ?_⟩
  rw [exec_bind, h₁ n (Nat.le_trans (Nat.le_max_left _ _) hn)]
  exact h₂ n (Nat.le_trans (Nat.le_max_right _ _) hn)

theorem Converges.ask {ε : Type} {answer : List ε → α} {event : α → ε} {log : List ε} {a : α}
    {f : ℕ → α → Run (List ε) β} {b : β} {log' : List ε} (ha : answer log = a)
    (hf : Converges (fun n => f n a) (log ++ [event a]) b log') :
    Converges (fun n => FuelRuns.ask answer event >>= f n) log b log' := by
  subst ha
  exact Converges.bind (.const rfl) hf

/-- One unit of fuel pays for one unfolding of a loop. -/
theorem Converges.step {m body : ℕ → Run σ α} {s s' : σ} {a : α}
    (hbody : ∀ n, m (n + 1) = body n) (h : Converges body s a s') : Converges m s a s' := by
  obtain ⟨n₀, h₀⟩ := h
  refine ⟨n₀ + 1, fun n hn => ?_⟩
  obtain ⟨k, rfl⟩ : ∃ k, n = k + 1 := ⟨n - 1, by omega⟩
  rw [hbody k]
  exact h₀ k (by omega)

theorem Converges.congr {m m' : ℕ → Run σ α} {s s' : σ} {a : α}
    (he : ∀ n, exec (m n) s = exec (m' n) s) (h : Converges m' s a s') : Converges m s a s' := by
  obtain ⟨n₀, h₀⟩ := h
  exact ⟨n₀, fun n hn => (he n).trans (h₀ n hn)⟩

/-- With enough fuel the run returns a value that satisfies `p`. -/
def Ends (p : α → Prop) (m : ℕ → Run σ α) (s : σ) : Prop :=
  ∃ a s', Converges m s a s' ∧ p a

theorem Ends.pure {p : α → Prop} {a : α} {s : σ} (h : p a) : Ends p (fun _ => Pure.pure a) s :=
  ⟨a, s, .const rfl, h⟩

theorem Ends.bind {p : β → Prop} {m : ℕ → Run σ α} {f : ℕ → α → Run σ β} {s s' : σ} {a : α}
    (hm : Converges m s a s') (hf : Ends p (fun n => f n a) s') :
    Ends p (fun n => m n >>= f n) s := by
  obtain ⟨b, s₂, hb, hp⟩ := hf
  exact ⟨b, s₂, hm.bind hb, hp⟩

theorem Ends.ask {ε : Type} {p : β → Prop} {answer : List ε → α} {event : α → ε} {log : List ε}
    {a : α} {f : ℕ → α → Run (List ε) β} (ha : answer log = a)
    (hf : Ends p (fun n => f n a) (log ++ [event a])) :
    Ends p (fun n => FuelRuns.ask answer event >>= f n) log := by
  obtain ⟨b, log', hb, hp⟩ := hf
  exact ⟨b, log', .ask ha hb, hp⟩

theorem Ends.step {p : α → Prop} {m body : ℕ → Run σ α} {s : σ}
    (hbody : ∀ n, m (n + 1) = body n) (h : Ends p body s) : Ends p m s := by
  obtain ⟨a, s', ha, hp⟩ := h
  exact ⟨a, s', .step hbody ha, hp⟩

end Convergence

end FuelRuns
