import Mathlib.Data.Finset.Card
import Mathlib.Data.List.Infix

/-!
# Interleaved processes

Processes that each go through a list of events, in any order among each other, over a shared
state that also changes by itself. What one step keeps holds in every reachable configuration,
and each process has done a beginning of its list. A shared state may keep a ledger of tickets: a
ticket is issued under a key of its own, and it is redeemed by one process at most.
-/

namespace Interleavings

variable {ι ε σ : Type*}

/-- The events of every process, what an event of a process may do to the shared state, and what
may happen to that besides. -/
structure System (ι ε σ : Type*) where
  script : ι → List ε
  act : ι → ε → σ → σ → Prop
  env : σ → σ → Prop

/-- The shared state, and what was done so far and by whom. -/
@[ext] structure Config (ι ε σ : Type*) where
  shared : σ
  trace : List (ι × ε)

/-- Nothing was done. -/
def Config.start (s : σ) : Config ι ε σ := ⟨s, []⟩

section Processes

variable [DecidableEq ι]

/-- What a process has done. -/
def Config.events (c : Config ι ε σ) (i : ι) : List ε :=
  (c.trace.filter fun p => p.1 = i).map Prod.snd

@[simp] theorem events_start (s : σ) (i : ι) : (Config.start s : Config ι ε σ).events i = [] := rfl

theorem events_append_self (s : σ) (c : Config ι ε σ) (i : ι) (e : ε) :
    (Config.mk s (c.trace ++ [(i, e)])).events i = c.events i ++ [e] := by
  simp [Config.events]

theorem events_append_other (s : σ) (c : Config ι ε σ) {i j : ι} (h : i ≠ j) (e : ε) :
    (Config.mk s (c.trace ++ [(i, e)])).events j = c.events j := by
  simp [Config.events, h]

namespace System

variable (S : System ι ε σ)

/-- The shared state changes by itself, or a process does its next event. -/
inductive Step : Config ι ε σ → Config ι ε σ → Prop where
  | env {c : Config ι ε σ} {s : σ} (henv : S.env c.shared s) : Step c ⟨s, c.trace⟩
  | act {c : Config ι ε σ} {i : ι} {e : ε} {s : σ}
    (hnext : (S.script i)[(c.events i).length]? = some e) (hact : S.act i e c.shared s) :
    Step c ⟨s, c.trace ++ [(i, e)]⟩

inductive Reachable (start : σ) : Config ι ε σ → Prop where
  | start : Reachable start (.start start)
  | step {c c' : Config ι ε σ} (hc : Reachable start c) (hstep : S.Step c c') : Reachable start c'

variable {S} {start : σ}

/-- What the start has and every step keeps. -/
theorem Reachable.invariant {P : Config ι ε σ → Prop} (hstart : P (.start start))
    (henv : ∀ c s, P c → S.env c.shared s → P ⟨s, c.trace⟩)
    (hact : ∀ c i e s, P c → (S.script i)[(c.events i).length]? = some e → S.act i e c.shared s →
      P ⟨s, c.trace ++ [(i, e)]⟩) {c : Config ι ε σ} (hc : S.Reachable start c) : P c := by
  induction hc with
  | start => exact hstart
  | step hc hstep ih =>
    cases hstep with
    | env h => exact henv _ _ ih h
    | act hnext h => exact hact _ _ _ _ ih hnext h

/-- A process has done a beginning of its list. -/
theorem Reachable.events_prefix {c : Config ι ε σ} (hc : S.Reachable start c) (i : ι) :
    c.events i <+: S.script i := by
  revert i
  refine hc.invariant (P := fun c => ∀ i, c.events i <+: S.script i) (fun i => List.nil_prefix)
    (fun c s ih _ i => ih i) ?_
  intro c j e s ih hnext _ i
  by_cases hji : j = i
  · subst hji
    rw [events_append_self]
    obtain ⟨rest, hrest⟩ := ih j
    rw [← hrest, List.getElem?_append_right le_rfl, Nat.sub_self] at hnext
    cases rest with
    | nil => cases hnext
    | cons a rest =>
      cases hnext
      exact ⟨rest, by rw [← hrest, List.append_assoc, List.singleton_append]⟩
  · rw [events_append_other s c hji]
    exact ih i

end System

end Processes

/-- The tickets issued so far, and the redemptions with the process that asked for each. -/
@[ext] structure Ledger (ι ρ : Type*) where
  issued : List ρ
  redeemed : List (ι × ρ)

namespace Ledger

variable {ρ κ : Type*} {key : ρ → κ} {l : Ledger ι ρ} {i : ι} {r : ρ}

def empty : Ledger ι ρ := ⟨[], []⟩

def issue (l : Ledger ι ρ) (r : ρ) : Ledger ι ρ := { l with issued := r :: l.issued }

def redeem (l : Ledger ι ρ) (i : ι) (r : ρ) : Ledger ι ρ :=
  { l with redeemed := l.redeemed ++ [(i, r)] }

/-- Keys are unique, what is redeemed was issued, and nothing is redeemed twice. -/
structure Balanced (key : ρ → κ) (l : Ledger ι ρ) : Prop where
  fresh : (l.issued.map key).Nodup
  issued : ∀ p ∈ l.redeemed, p.2 ∈ l.issued
  once : (l.redeemed.map fun p => key p.2).Nodup

theorem balanced_empty : (empty : Ledger ι ρ).Balanced key where
  fresh := List.nodup_nil
  issued := by simp [empty]
  once := List.nodup_nil

theorem Balanced.issue (h : l.Balanced key) (hfresh : ∀ r' ∈ l.issued, key r' ≠ key r) :
    (l.issue r).Balanced key where
  fresh := by
    rw [Ledger.issue, List.map_cons, List.nodup_cons]
    refine ⟨?_, h.fresh⟩
    rw [List.mem_map]
    rintro ⟨r', hr', heq⟩
    exact hfresh r' hr' heq
  issued p hp := List.mem_cons_of_mem _ (h.issued p hp)
  once := h.once

theorem Balanced.redeem (h : l.Balanced key) (hissued : r ∈ l.issued)
    (hunspent : ∀ p ∈ l.redeemed, key p.2 ≠ key r) : (l.redeem i r).Balanced key where
  fresh := h.fresh
  issued p hp := by
    rcases List.mem_append.mp hp with hp | hp
    · exact h.issued p hp
    · rw [List.mem_singleton.mp hp]
      exact hissued
  once := by
    rw [Ledger.redeem, List.map_append, List.map_singleton, List.nodup_append]
    refine ⟨h.once, List.nodup_singleton _, ?_⟩
    intro k hk k' hk'
    obtain ⟨p, hp, rfl⟩ := List.mem_map.mp hk
    rw [List.mem_singleton.mp hk']
    exact hunspent p hp

/-- One key is redeemed by one process. -/
theorem Balanced.eq_of_key (h : l.Balanced key) {p q : ι × ρ} (hp : p ∈ l.redeemed)
    (hq : q ∈ l.redeemed) (hkey : key p.2 = key q.2) : p = q :=
  List.inj_on_of_nodup_map h.once hp hq hkey

theorem Balanced.length_le (h : l.Balanced key) : l.redeemed.length ≤ l.issued.length := by
  have hsub : (l.redeemed.map fun p => key p.2) ⊆ l.issued.map key := by
    intro k hk
    obtain ⟨p, hp, rfl⟩ := List.mem_map.mp hk
    exact List.mem_map_of_mem (h.issued p hp)
  have hle := (List.subperm_of_subset h.once hsub).length_le
  rwa [List.length_map, List.length_map] at hle

/-- There are no more redeeming processes than tickets. -/
theorem Balanced.card_le [DecidableEq ι] (h : l.Balanced key) {s : Finset ι}
    (hs : ∀ i ∈ s, ∃ r, (i, r) ∈ l.redeemed) : s.card ≤ l.issued.length := by
  have hsub : s ⊆ (l.redeemed.map Prod.fst).toFinset := by
    intro i hi
    obtain ⟨r, hr⟩ := hs i hi
    rw [List.mem_toFinset]
    exact List.mem_map_of_mem hr
  calc s.card ≤ (l.redeemed.map Prod.fst).toFinset.card := Finset.card_le_card hsub
    _ ≤ (l.redeemed.map Prod.fst).length := List.toFinset_card_le _
    _ = l.redeemed.length := List.length_map ..
    _ ≤ l.issued.length := h.length_le

end Ledger

end Interleavings
