import Mathlib.Algebra.Ring.Nat
import OsProject.Lib.Transition

/-!
# Weighted round robin

Tasks stand in a queue, and each has some ticks left of its turn. The first task uses a tick; with
its last one its turn is over, and it goes to the end of the queue with its share of ticks for the
next turn. When every task starts with its share, a round gives each task one block of its share,
in the order of the queue, and leaves everything as it was.

## Main definitions

* `RoundRobin.Wheel` — the queue and what each task has left.
* `RoundRobin.system` — the ticks, labelled by the task that uses them.
* `RoundRobin.turns` — the tasks that use the ticks of a round.

## Main results

* `RoundRobin.run_rounds` — the ticks of a number of rounds.
* `RoundRobin.count_rounds` — how many ticks of these rounds each task uses.
-/

namespace RoundRobin

open Transition

variable {τ : Type*}

/-- The tasks in the order of their turns, and the ticks that each has left. -/
structure Wheel (τ : Type*) where
  queue : List τ
  left : τ → ℕ

/-- The tasks that use the ticks of a round, one block for each. -/
def turns (share : τ → ℕ) (ts : List τ) : List τ := ts.flatMap fun t => List.replicate (share t) t

/-- The tasks that use the ticks of `k` rounds. -/
def rounds (share : τ → ℕ) (ts : List τ) (k : ℕ) : List τ :=
  (List.replicate k (turns share ts)).flatten

theorem length_turns (share : τ → ℕ) (ts : List τ) :
    (turns share ts).length = (ts.map share).sum := by
  simp [turns, List.length_flatMap]

theorem length_rounds (share : τ → ℕ) (ts : List τ) (k : ℕ) :
    (rounds share ts k).length = k * (ts.map share).sum := by
  simp [rounds, length_turns]

variable [DecidableEq τ]

theorem count_turns (share : τ → ℕ) {ts : List τ} (hnd : ts.Nodup) {t : τ} (ht : t ∈ ts) :
    (turns share ts).count t = share t := by
  induction ts with
  | nil => cases ht
  | cons u ts ih =>
    obtain ⟨hu, hnd⟩ := List.nodup_cons.mp hnd
    rw [turns, List.flatMap_cons, List.count_append, List.count_replicate]
    rcases List.mem_cons.mp ht with rfl | ht
    · have hrest : (turns share ts).count t = 0 := by
        refine List.count_eq_zero.mpr fun hm => hu ?_
        obtain ⟨v, hv, hm⟩ := List.mem_flatMap.mp hm
        rwa [(List.mem_replicate.mp hm).2]
      rw [turns] at hrest
      rw [hrest]
      simp
    · have hne : u ≠ t := fun he => hu (he ▸ ht)
      have hrest := ih hnd ht
      rw [turns] at hrest
      rw [hrest]
      simp [hne]

/-- In `k` rounds each task uses `k` times its share. -/
theorem count_rounds (share : τ → ℕ) {ts : List τ} (hnd : ts.Nodup) {t : τ} (ht : t ∈ ts) (k : ℕ) :
    (rounds share ts k).count t = k * share t := by
  rw [rounds, List.count_flatten]
  simp [count_turns share hnd ht]

/-- The first task uses a tick. -/
def Wheel.tick (share : τ → ℕ) (w : Wheel τ) : Wheel τ :=
  match w.queue with
  | [] => w
  | t :: ts =>
    if w.left t = 1 then { queue := ts ++ [t], left := Function.update w.left t (share t) }
    else { w with left := Function.update w.left t (w.left t - 1) }

/-- The ticks, labelled by the task that uses them. At first every task has its share. -/
def system (share : τ → ℕ) : System (Wheel τ) τ where
  init w := ∀ t ∈ w.queue, w.left t = share t
  step w t w' := w.queue.head? = some t ∧ w' = w.tick share

variable {share left : τ → ℕ} {t : τ} {ts us : List τ}

theorem tick_of_last (hleft : left t = 1) :
    Wheel.tick share ⟨t :: ts, left⟩ = ⟨ts ++ [t], Function.update left t (share t)⟩ := by
  simp only [Wheel.tick, if_pos hleft]

theorem tick_of_more (hleft : left t ≠ 1) :
    Wheel.tick share ⟨t :: ts, left⟩ = ⟨t :: ts, Function.update left t (left t - 1)⟩ := by
  simp only [Wheel.tick, if_neg hleft]

/-- The first task runs until its turn is over. -/
theorem run_turn {n : ℕ} (hleft : left t = n + 1) :
    Run (system share) ⟨t :: ts, left⟩ (List.replicate (n + 1) t)
      ⟨ts ++ [t], Function.update left t (share t)⟩ := by
  induction n generalizing left with
  | zero => exact .cons ⟨rfl, (tick_of_last hleft).symm⟩ (.nil _)
  | succ n ih =>
    have hmore : left t ≠ 1 := by omega
    have hnext : Function.update left t (left t - 1) t = n + 1 := by
      rw [Function.update_self]
      omega
    have hrest := ih hnext
    rw [Function.update_idem] at hrest
    exact .cons ⟨rfl, (tick_of_more hmore).symm⟩ hrest

/-- Tasks at the front of the queue that all have their share take their turns, one after the
other, and follow the others then. -/
theorem run_turns (hfresh : ∀ t ∈ ts, left t = share t) (hpos : ∀ t ∈ ts, 1 ≤ share t) :
    Run (system share) ⟨ts ++ us, left⟩ (turns share ts) ⟨us ++ ts, left⟩ := by
  induction ts generalizing us with
  | nil => simpa [turns] using Run.nil _
  | cons t ts ih =>
    obtain ⟨ht, hts⟩ := List.forall_mem_cons.mp hfresh
    obtain ⟨hone, hpos⟩ := List.forall_mem_cons.mp hpos
    obtain ⟨n, hn⟩ : ∃ n, share t = n + 1 := ⟨share t - 1, by omega⟩
    have hturn : Run (system share) ⟨t :: (ts ++ us), left⟩ (List.replicate (share t) t)
        ⟨ts ++ (us ++ [t]), left⟩ := by
      have hrun : Run (system share) ⟨t :: (ts ++ us), left⟩ (List.replicate (n + 1) t)
          ⟨ts ++ us ++ [t], Function.update left t (share t)⟩ := run_turn (ht.trans hn)
      rw [← hn, ← ht, Function.update_eq_self, List.append_assoc, ht] at hrun
      exact hrun
    have hrest : Run (system share) ⟨ts ++ (us ++ [t]), left⟩ (turns share ts)
        ⟨us ++ [t] ++ ts, left⟩ := ih hts hpos
    rw [List.append_assoc, List.singleton_append] at hrest
    rw [turns, List.flatMap_cons]
    exact hturn.append hrest

/-- In a number of rounds the tasks take their turns in the order of the queue. After them
everything is as it was. -/
theorem run_rounds (hfresh : ∀ t ∈ ts, left t = share t) (hpos : ∀ t ∈ ts, 1 ≤ share t) (k : ℕ) :
    Run (system share) ⟨ts, left⟩ (rounds share ts k) ⟨ts, left⟩ := by
  have hround : Run (system share) ⟨ts, left⟩ (turns share ts) ⟨ts, left⟩ := by
    have hrun : Run (system share) ⟨ts ++ [], left⟩ (turns share ts) ⟨[] ++ ts, left⟩ :=
      run_turns hfresh hpos
    rwa [List.append_nil, List.nil_append] at hrun
  induction k with
  | zero => exact .nil _
  | succ k ih =>
    rw [rounds, List.replicate_succ, List.flatten_cons]
    exact hround.append ih

end RoundRobin
