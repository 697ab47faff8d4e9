import OsProject.Lib.Transition
import Mathlib.Algebra.BigOperators.Group.List.Basic
import Mathlib.Tactic.Ring

/-!
# Threads over a shared state

A pool has a shared state and a list of threads with local states. A step of one thread changes
the shared state and its own local state only; a new thread is put at the end of the list.

A *weight* gives every local state an integer, and the *total* of a pool is the sum over its
threads. A counter in the shared state that every step of a thread changes by as much as the weight
of the thread changes keeps its distance from the total, in every interleaving.

## Main definitions

* `ThreadPool.Pool`, `ThreadPool.Pool.act`, `ThreadPool.Pool.spawn`.
* `ThreadPool.Pool.total` — the sum of a weight over the threads.
* `ThreadPool.Pool.count` — the number of threads of a kind.

## Main results

* `ThreadPool.Pool.counter_act`, `ThreadPool.Pool.counter_spawn` — the distance of a balanced
  counter from the total does not change.
* `ThreadPool.Pool.forall_act` — a property of all threads is kept by a step that keeps it for the
  thread that takes it.
-/

namespace ThreadPool

/-- A shared state and the local states of the threads, in the order of their creation. -/
structure Pool (σ τ : Type*) where
  shared : σ
  threads : List τ
deriving Repr, DecidableEq

namespace Pool

variable {σ τ : Type*} {p q : Pool σ τ} {i : ℕ}

/-- Thread `i` takes the step `step` of its local state and the shared state, if it is enabled. -/
def act (step : σ → τ → Option (σ × τ)) (i : ℕ) (p : Pool σ τ) : Option (Pool σ τ) :=
  p.threads[i]?.bind fun t =>
    (step p.shared t).map fun r => ⟨r.1, p.threads.set i r.2⟩

/-- A new thread with the local state `t`. -/
def spawn (t : τ) (p : Pool σ τ) : Pool σ τ :=
  { p with threads := p.threads ++ [t] }

/-- What a step of a thread does: it reads and writes the shared state and its own local state. -/
theorem act_eq_some {step : σ → τ → Option (σ × τ)} (h : act step i p = some q) :
    ∃ t t', p.threads[i]? = some t ∧ step p.shared t = some (q.shared, t') ∧
      q.threads = p.threads.set i t' := by
  obtain ⟨t, ht, h⟩ := Option.bind_eq_some_iff.mp h
  obtain ⟨⟨g, t'⟩, hstep, rfl⟩ := Option.map_eq_some_iff.mp h
  exact ⟨t, t', ht, hstep, rfl⟩

theorem act_eq {step : σ → τ → Option (σ × τ)} {t : τ} (ht : p.threads[i]? = some t) :
    act step i p = (step p.shared t).map fun r => ⟨r.1, p.threads.set i r.2⟩ := by
  rw [act, ht, Option.bind_some]

/-! ### Properties of all threads -/

/-- A step keeps a property of all threads if the thread that takes it keeps the property. -/
theorem forall_act {step : σ → τ → Option (σ × τ)} {P : τ → Prop}
    (hstep : ∀ g t g' t', step g t = some (g', t') → P t → P t')
    (h : act step i p = some q) (hp : ∀ t ∈ p.threads, P t) : ∀ t ∈ q.threads, P t := by
  obtain ⟨t, t', ht, hs, hq⟩ := act_eq_some h
  have hPt' : P t' := hstep _ _ _ _ hs (hp t (List.mem_of_getElem? ht))
  rw [hq]
  intro u hu
  rcases List.mem_or_eq_of_mem_set hu with hu | rfl
  · exact hp u hu
  · exact hPt'

theorem forall_spawn {P : τ → Prop} {t : τ} (ht : P t) (hp : ∀ u ∈ p.threads, P u) :
    ∀ u ∈ (p.spawn t).threads, P u := by
  intro u hu
  rcases List.mem_append.mp hu with hu | hu
  · exact hp u hu
  · exact List.mem_singleton.mp hu ▸ ht

/-! ### Totals and counters -/

/-- The sum of the weights of the threads. -/
def total (w : τ → ℤ) (p : Pool σ τ) : ℤ :=
  (p.threads.map w).sum

/-- The number of threads of a kind. -/
def count (P : τ → Bool) (p : Pool σ τ) : ℕ :=
  p.threads.countP P

theorem total_set {w : τ → ℤ} {t t' : τ} {l : List τ} (ht : l[i]? = some t) :
    ((l.set i t').map w).sum = (l.map w).sum + (w t' - w t) := by
  obtain ⟨hi, rfl⟩ := List.getElem?_eq_some_iff.mp ht
  rw [List.map_set, List.sum_set', dif_pos (by rwa [List.length_map]), List.getElem_map]
  ring

/-- A counter that each thread changes by as much as its own weight changes keeps its distance
from the total. A property of all threads may be used for the thread that takes the step. -/
theorem counter_act {step : σ → τ → Option (σ × τ)} {P : τ → Prop} {c : σ → ℤ} {w : τ → ℤ}
    (hstep : ∀ g t g' t', P t → step g t = some (g', t') → c g' - c g = w t' - w t)
    (hp : ∀ t ∈ p.threads, P t) (h : act step i p = some q) :
    c q.shared - q.total w = c p.shared - p.total w := by
  obtain ⟨t, t', ht, hs, hq⟩ := act_eq_some h
  have hc := hstep _ _ _ _ (hp t (List.mem_of_getElem? ht)) hs
  have hw : q.total w = p.total w + (w t' - w t) := by rw [total, hq, total_set ht, total]
  omega

theorem counter_spawn {c : σ → ℤ} {w : τ → ℤ} {t : τ} (ht : w t = 0) :
    c (p.spawn t).shared - (p.spawn t).total w = c p.shared - p.total w := by
  simp [total, spawn, ht]

/-- The total of a weight that is the difference of two kinds is the difference of their
numbers. -/
theorem total_eq_count_sub {w : τ → ℤ} {P Q : τ → Bool}
    (hw : ∀ t, w t = (if P t then 1 else 0) - (if Q t then 1 else 0)) (p : Pool σ τ) :
    p.total w = p.count P - p.count Q := by
  rw [total, count, count]
  induction p.threads with
  | nil => rfl
  | cons t l ih =>
    rw [List.map_cons, List.sum_cons, ih, hw, List.countP_cons, List.countP_cons]
    split <;> split <;> push_cast <;> ring

theorem count_eq_zero {P : τ → Bool} : p.count P = 0 ↔ ∀ t ∈ p.threads, P t = false := by
  simp [count, List.countP_eq_zero]

end Pool

end ThreadPool
