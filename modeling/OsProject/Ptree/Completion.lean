import Mathlib.Algebra.Ring.Nat
import OsProject.Ptree.Survival

/-!
# The walk ends

The processes that are to come on the lists of the stack, with all their descendants, bound the
steps that a call takes when it is left alone. So once the last fork and the last exit have
happened, the call ends, and if no exit has disturbed it, it has recorded no process twice.

## Main definitions

* `Processes.weight` — a bound on the steps of the loop for a process.
* `Call.cost` — a bound on the steps of a call.
* `Survives` — the call ends, and records no process twice.

## Main results

* `Call.Steps.cost_lt` — every step makes the bound smaller.
* `survives_of_undisturbed`.
-/

namespace OsProject.Ptree

open Intrusive

variable {τ : Type*}

/-! ### Bounds -/

/-- The steps for the children of a process and their descendants, up to a number of generations. -/
def weight (children : τ → List τ) : ℕ → τ → ℕ
  | 0, _ => 0
  | n + 1, p => ((children p).map fun c => 12 + weight children n c).sum

/-- There are no more generations than births after that of the process. -/
theorem Family.weight_succ {k : Kernel τ} {reaper : τ} {children : τ → List τ} {birth : τ → ℕ}
    {now : ℕ} (F : Family k reaper children birth now) {n : ℕ} {p : τ} (hn : now - birth p ≤ n) :
    weight children (n + 1) p = weight children n p := by
  induction n generalizing p with
  | zero =>
    have := F.birth_lt_now p
    omega
  | succ n ih =>
    rw [weight, weight]
    congr 1
    refine List.map_congr_left fun c hc => ?_
    have := F.birth_lt p c hc
    have := F.birth_lt_now p
    rw [ih (by omega)]

namespace Processes

variable (P : Processes τ)

/-- A bound on the steps of the loop for a process. -/
def weight (p : τ) : ℕ := Ptree.weight P.children P.now p

/-- A bound on the steps for the processes of a list. -/
def listCost (l : List τ) : ℕ := (l.map fun c => 12 + P.weight c).sum

theorem weight_eq (p : τ) : P.weight p = P.listCost (P.children p) := by
  obtain ⟨m, hm⟩ : ∃ m, P.now = m + 1 := ⟨P.now - 1, by
    have := P.family.birth_lt_now p
    omega⟩
  rw [weight, hm, Ptree.weight, listCost]
  congr 1
  refine List.map_congr_left fun c hc => ?_
  have := P.family.child_born hc
  rw [weight, hm, P.family.weight_succ (by omega)]

theorem listCost_cons (c : τ) (l : List τ) :
    P.listCost (c :: l) = 12 + P.weight c + P.listCost l := by
  rw [listCost, List.map_cons, List.sum_cons]
  rfl

end Processes

/-- The steps from the store of a field on, with the recursive call. -/
def Field.cost : Field → ℕ
  | .parentPid => 11
  | .pid => 10
  | .firstChildPid => 9
  | .nextSiblingPid => 8
  | .state => 7
  | .uid => 6
  | .comm => 5
  | .layer => 4

theorem Field.lt_cost (g : Field) : 3 < g.cost := by
  cases g <;> decide

theorem Field.cost_next_lt {g g' : Field} (h : g.next = some g') : g'.cost < g.cost := by
  cases g <;> cases h <;> decide

namespace Call

variable [DecidableEq τ] (P : Processes τ)

/-- The steps that the place where the call stands takes besides those of the loops. -/
def placeCost (c : Call τ) : ℕ :=
  match c.pc with
  | .root => 4 + P.weight P.kernel.initTask
  | .advance => 1
  | .entry => ((c.stack.head?.bind fun f => listEntry f.list).map fun t => 12 + P.weight t).getD 0
  | .store g t => g.cost + P.weight t
  | .done => 0
  | .wild => 0

/-- A bound on the steps of a call that is left alone. -/
def cost (c : Call τ) : ℕ :=
  (c.stack.map fun f => 2 + P.listCost (f.rest P.children)).sum + c.placeCost P

variable {P} {nr : ℤ} {c d : Call τ}

theorem cost_descend (c : Call τ) (t : τ) :
    (c.descend t).cost P =
      3 + P.weight t + (c.stack.map fun f => 2 + P.listCost (f.rest P.children)).sum := by
  rw [P.weight_eq]
  simp only [cost, descend, placeCost, List.map_cons, List.sum_cons, Frame.rest, restOf]
  omega

omit [DecidableEq τ] in
theorem cost_entry {f : Frame τ} {fs : List (Frame τ)} {t : τ} (hpc : c.pc = .entry)
    (hstack : c.stack = f :: fs) (ht : f.list = .sibling t) : c.placeCost P = 12 + P.weight t := by
  simp only [placeCost, hpc, hstack, List.head?_cons, Option.bind_some, ht, listEntry,
    Option.map_some, Option.getD_some]

/-- Every step makes the bound smaller, until the call is done. -/
theorem Steps.cost_lt (h : c.Steps P nr d) (hdone : c.pc ≠ .done) : d.cost P < c.cost P := by
  cases h with
  | root hpc hroom hw =>
    rw [cost_descend]
    simp only [cost, placeCost, hpc]
    omega
  | rootFull hpc hfull =>
    rw [cost_descend]
    simp only [cost, placeCost, hpc]
    omega
  | finish hpc hstack hw =>
    simp only [cost, placeCost, hpc]
    omega
  | back hpc hstack hrest hw =>
    simp only [cost, placeCost, hpc, hstack, List.map_cons, List.sum_cons]
    omega
  | @next f fs t ts hpc hstack hrest ht hts =>
    have hentry : placeCost P { c with
        pc := .entry
        stack := { f with list := .sibling t } :: fs } = 12 + P.weight t :=
      cost_entry rfl rfl rfl
    have hcost : c.placeCost P = 1 := by rw [placeCost, hpc]
    rw [cost, cost, hentry, hcost, hstack, List.map_cons, List.map_cons, List.sum_cons,
      List.sum_cons, hrest, P.listCost_cons, Frame.rest, hts]
    omega
  | enter hpc hstack ht hroom hnot =>
    rw [cost, cost, cost_entry hpc hstack ht]
    simp only [placeCost, Field.cost]
    omega
  | pass hpc hstack ht hfull =>
    rw [cost_descend, cost, cost_entry hpc hstack ht]
    omega
  | put hpc hstack ht hnext hw =>
    have := Field.cost_next_lt hnext
    simp only [cost, placeCost, hpc]
    omega
  | @putLast w f fs g t hpc hstack ht hnext hnot hw =>
    have := g.lt_cost
    rw [cost_descend]
    simp only [cost, placeCost, hpc]
    omega
  | done hpc => exact absurd hpc hdone

end Call

/-! ### Schedules -/

section Schedule

variable [DecidableEq τ] {nr : ℤ} {w : World τ} {sched : ℕ → Option (Edit τ)}

/-- The invariant holds all the time under a schedule of edits that do not disturb the call. -/
theorem World.Inv.run (h : w.Inv nr)
    (hclear : ∀ n, (w.run nr sched n).Undisturbed nr (sched n)) (n : ℕ) :
    (w.run nr sched n).Inv nr := by
  induction n with
  | zero => exact h
  | succ n ih => exact ih.exec (hclear n)

/-- The call ends after the last edit. -/
theorem World.exists_done (hinv : ∀ n, (w.run nr sched n).Inv nr) {N : ℕ}
    (hlast : ∀ n ≥ N, sched n = none) : ∃ n, (w.run nr sched n).call.pc = .done := by
  -- by induction on the bound for the call, from any moment after the last edit on
  have hbound : ∀ b n, N ≤ n → (w.run nr sched n).call.cost (w.run nr sched n).procs ≤ b →
      ∃ n, (w.run nr sched n).call.pc = .done := by
    intro b
    induction b with
    | zero =>
      intro n hn hb
      by_contra hdone
      have hstep := Call.steps_step (hinv n).sound (hinv n).placed
      have := hstep.cost_lt fun hpc => hdone ⟨n, hpc⟩
      omega
    | succ b ih =>
      intro n hn hb
      by_cases hdone : (w.run nr sched n).call.pc = .done
      · exact ⟨n, hdone⟩
      · have hstep := Call.steps_step (hinv n).sound (hinv n).placed
        have hlt := hstep.cost_lt hdone
        refine ih (n + 1) (by omega) ?_
        rw [World.run, hlast n hn]
        exact Nat.le_of_lt_succ (Nat.lt_of_lt_of_le hlt hb)
  exact hbound _ N (le_refl _) (le_refl _)

/-- The call of `ptree` ends, and no process is recorded twice at any time. -/
def Survives (nr : ℤ) (P : Processes τ) (buf : UserBuf) (sched : ℕ → Option (Edit τ)) : Prop :=
  (∃ n, ((World.start P buf).run nr sched n).call.pc = .done) ∧
    ∀ n, ((World.start P buf).run nr sched n).call.recorded.Nodup

/-- A call of `ptree` among finitely many forks and exits survives if no exit disturbs it. -/
theorem survives_of_undisturbed (P : Processes τ) (buf : UserBuf) (nr : ℤ)
    (sched : ℕ → Option (Edit τ)) (hfinite : ∃ N, ∀ n ≥ N, sched n = none)
    (hclear : ∀ n, ((World.start P buf).run nr sched n).Undisturbed nr (sched n)) :
    Survives nr P buf sched := by
  have hinv := (World.inv_start P buf).run hclear
  obtain ⟨N, hlast⟩ := hfinite
  exact ⟨World.exists_done hinv hlast, fun n => (hinv n).sound.nodup⟩

end Schedule

end OsProject.Ptree
