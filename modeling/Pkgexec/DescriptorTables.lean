import Pkgexec.FuelRuns

/-!
# Descriptor tables

The open descriptors of a process, over any type of files. A call takes the lowest free number,
a duplicate is not closed on `exec`, and `exec` keeps what is not marked for it. Each call is
told whether the system lets it succeed; on a descriptor that is not open it fails anyway.
-/

namespace DescriptorTables
open FuelRuns

structure Descriptor (φ : Type) where
  file : φ
  cloexec : Bool
  deriving DecidableEq

/-- Slot `fd` of the list is descriptor `fd`. -/
abbrev Table (φ : Type) := List (Option (Descriptor φ))

namespace Table

variable {φ : Type}

/-- What is open under a number. -/
def entry (t : Table φ) (fd : ℕ) : Option (Descriptor φ) := t[fd]?.join

def lowestFree : Table φ → ℕ
  | [] => 0
  | none :: _ => 0
  | some _ :: t => lowestFree t + 1

def assign : Table φ → ℕ → Option (Descriptor φ) → Table φ
  | [], 0, d => [d]
  | [], fd + 1, d => none :: assign [] fd d
  | _ :: t, 0, d => d :: t
  | x :: t, fd + 1, d => x :: assign t fd d

/-- The table of the program that is executed. -/
def exec (t : Table φ) : Table φ := t.map fun d => d.filter fun d => !d.cloexec

@[simp] theorem entry_nil (fd : ℕ) : entry ([] : Table φ) fd = none := rfl

@[simp] theorem entry_cons_zero (d : Option (Descriptor φ)) (t : Table φ) :
    entry (d :: t) 0 = d := rfl

@[simp] theorem entry_cons_succ (d : Option (Descriptor φ)) (t : Table φ) (fd : ℕ) :
    entry (d :: t) (fd + 1) = entry t fd := rfl

theorem entry_assign (t : Table φ) (fd fd' : ℕ) (d : Option (Descriptor φ)) :
    (t.assign fd d).entry fd' = if fd' = fd then d else t.entry fd' := by
  induction t generalizing fd fd' with
  | nil =>
    induction fd generalizing fd' with
    | zero => cases fd' <;> simp [assign]
    | succ fd ih => cases fd' <;> simp [assign, ih]
  | cons x t ih =>
    cases fd with
    | zero => cases fd' <;> simp [assign]
    | succ fd => cases fd' <;> simp [assign, ih]

@[simp] theorem entry_assign_self (t : Table φ) (fd : ℕ) (d : Option (Descriptor φ)) :
    (t.assign fd d).entry fd = d := by
  rw [entry_assign, if_pos rfl]

theorem entry_assign_ne (t : Table φ) {fd fd' : ℕ} (d : Option (Descriptor φ)) (h : fd' ≠ fd) :
    (t.assign fd d).entry fd' = t.entry fd' := by
  rw [entry_assign, if_neg h]

theorem entry_exec (t : Table φ) (fd : ℕ) :
    t.exec.entry fd = (t.entry fd).filter fun d => !d.cloexec := by
  induction t generalizing fd with
  | nil => rfl
  | cons d t ih =>
    cases fd with
    | zero => rfl
    | succ fd => exact ih fd

@[simp] theorem entry_lowestFree (t : Table φ) : t.entry t.lowestFree = none := by
  induction t with
  | nil => rfl
  | cons d t ih =>
    cases d with
    | none => rfl
    | some d => exact ih

/-- Everything below the lowest free number is open. -/
theorem entry_of_lt_lowestFree {t : Table φ} {fd : ℕ} (h : fd < t.lowestFree) :
    t.entry fd ≠ none := by
  induction t generalizing fd with
  | nil => exact absurd h (Nat.not_lt_zero _)
  | cons d t ih =>
    cases d with
    | none => exact absurd h (Nat.not_lt_zero _)
    | some d =>
      cases fd with
      | zero => simp
      | succ fd => exact ih (Nat.lt_of_succ_lt_succ h)

theorem ne_lowestFree {t : Table φ} {fd : ℕ} {d : Descriptor φ} (h : t.entry fd = some d) :
    fd ≠ t.lowestFree := by
  rintro rfl
  rw [entry_lowestFree] at h
  cases h

/-- Nothing is open from `n` on. -/
def Below (n : ℕ) (t : Table φ) : Prop := ∀ fd, t.entry fd ≠ none → fd < n

theorem lowestFree_le_of_below {n : ℕ} {t : Table φ} (h : t.Below n) : t.lowestFree ≤ n := by
  by_contra hlt
  exact Nat.lt_irrefl n (h n (entry_of_lt_lowestFree (Nat.lt_of_not_le hlt)))

end Table

section Calls

variable {φ : Type} (ok : Bool)

/-- `open`, or another call that makes a descriptor. -/
def openFile (file : φ) (cloexec : Bool) : Run (Table φ) (Option ℕ) := modifyGet fun t =>
  if ok then (some t.lowestFree, t.assign t.lowestFree (some ⟨file, cloexec⟩)) else (none, t)

def close (fd : ℕ) : Run (Table φ) Unit := modify fun t => t.assign fd none

def dup (fd : ℕ) : Run (Table φ) (Option ℕ) := modifyGet fun t =>
  match t.entry fd with
  | some d =>
    if ok then (some t.lowestFree, t.assign t.lowestFree (some ⟨d.file, false⟩)) else (none, t)
  | none => (none, t)

/-- With both numbers the same nothing changes, not even the mark. -/
def dup2 (old new : ℕ) : Run (Table φ) Bool := modifyGet fun t =>
  match t.entry old with
  | some d =>
    if !ok then (false, t)
    else if old = new then (true, t)
    else (true, t.assign new (some ⟨d.file, false⟩))
  | none => (false, t)

/-- `F_GETFD`: whether the descriptor is marked; it fails only where none is open. -/
def getFd (fd : ℕ) : Run (Table φ) (Option Bool) := modifyGet fun t =>
  ((t.entry fd).map Descriptor.cloexec, t)

/-- `F_SETFD`. -/
def setFd (fd : ℕ) (cloexec : Bool) : Run (Table φ) Bool := modifyGet fun t =>
  match t.entry fd with
  | some d => if ok then (true, t.assign fd (some ⟨d.file, cloexec⟩)) else (false, t)
  | none => (false, t)

/-- The two ends of a pipe, the one to read from first. -/
def pipe (readEnd writeEnd : φ) : Run (Table φ) (Option (ℕ × ℕ)) := modifyGet fun t =>
  let fd := t.lowestFree
  let t' := t.assign fd (some ⟨readEnd, false⟩)
  if ok then (some (fd, t'.lowestFree), t'.assign t'.lowestFree (some ⟨writeEnd, false⟩))
  else (none, t)

end Calls

section Specs

variable {φ : Type} {ok : Bool} {t : Table φ} {I : Table φ → Prop}

theorem openFile_wp {file : φ} {cloexec : Bool} {Q : Option ℕ → Table φ → Prop}
    (failed : ok = false → Q none t)
    (opened : Q (some t.lowestFree) (t.assign t.lowestFree (some ⟨file, cloexec⟩))) :
    wp (openFile ok file cloexec) Q I t := by
  rw [openFile, wp_modifyGet]
  cases ok
  · exact failed rfl
  · exact opened

@[simp] theorem wp_close {fd : ℕ} {Q : Unit → Table φ → Prop} :
    wp (close fd) Q I t ↔ Q () (t.assign fd none) := Iff.rfl

theorem dup_wp {fd : ℕ} {Q : Option ℕ → Table φ → Prop}
    (failed : (ok = true → t.entry fd = none) → Q none t)
    (duplicated : ∀ d, t.entry fd = some d →
      Q (some t.lowestFree) (t.assign t.lowestFree (some ⟨d.file, false⟩))) :
    wp (dup ok fd) Q I t := by
  rw [dup, wp_modifyGet]
  cases hd : t.entry fd with
  | none => exact failed fun _ => hd
  | some d =>
    cases ok
    · exact failed (by simp)
    · exact duplicated d hd

theorem dup2_wp {old new : ℕ} {Q : Bool → Table φ → Prop} (hne : old ≠ new)
    (failed : (ok = true → t.entry old = none) → Q false t)
    (duplicated : ∀ d, t.entry old = some d → Q true (t.assign new (some ⟨d.file, false⟩))) :
    wp (dup2 ok old new) Q I t := by
  rw [dup2, wp_modifyGet]
  cases hd : t.entry old with
  | none => exact failed fun _ => hd
  | some d =>
    cases ok
    · exact failed (by simp)
    · simp only [Bool.not_true, Bool.false_eq_true, if_false, if_neg hne]
      exact duplicated d hd

@[simp] theorem wp_getFd {fd : ℕ} {Q : Option Bool → Table φ → Prop} :
    wp (getFd fd) Q I t ↔ Q ((t.entry fd).map Descriptor.cloexec) t := Iff.rfl

theorem setFd_wp {fd : ℕ} {cloexec : Bool} {Q : Bool → Table φ → Prop}
    (failed : (ok = true → t.entry fd = none) → Q false t)
    (marked : ∀ d, t.entry fd = some d → Q true (t.assign fd (some ⟨d.file, cloexec⟩))) :
    wp (setFd ok fd cloexec) Q I t := by
  rw [setFd, wp_modifyGet]
  cases hd : t.entry fd with
  | none => exact failed fun _ => hd
  | some d =>
    cases ok
    · exact failed (by simp)
    · exact marked d hd

/-- The ends of a pipe are new, and they are two. -/
theorem pipe_wp {readEnd writeEnd : φ} {Q : Option (ℕ × ℕ) → Table φ → Prop}
    (failed : ok = false → Q none t)
    (made : ok = true → ∀ rd wr, t.entry rd = none → t.entry wr = none → rd ≠ wr →
      Q (some (rd, wr))
        ((t.assign rd (some ⟨readEnd, false⟩)).assign wr (some ⟨writeEnd, false⟩))) :
    wp (pipe ok readEnd writeEnd) Q I t := by
  rw [pipe, wp_modifyGet]
  cases ok
  · exact failed rfl
  · obtain ⟨t', ht'⟩ : ∃ t', t' = t.assign t.lowestFree (some ⟨readEnd, false⟩) := ⟨_, rfl⟩
    have hfree := t'.entry_lowestFree
    have hne : t'.lowestFree ≠ t.lowestFree := by
      refine (Table.ne_lowestFree (d := ⟨readEnd, false⟩) ?_).symm
      rw [ht', Table.entry_assign_self]
    rw [ht', Table.entry_assign_ne _ _ (ht' ▸ hne)] at hfree
    exact made rfl _ _ t.entry_lowestFree hfree (ht' ▸ hne.symm)

end Specs

end DescriptorTables
