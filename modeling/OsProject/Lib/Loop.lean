import Mathlib.Logic.Relation
import Mathlib.Data.List.Basic

/-!
# Loops

The body of a loop maps the variables of the loop to the variables of the next pass, or to the
result if the loop is left there. A natural number that every pass makes smaller bounds the passes,
so the loop is a total function of its variables.

## Main definitions

* `Loop` — the body of a loop, with the number that bounds its passes.
* `Loop.run` — the result of the loop.
* `Loop.Reaches` — the variables at a later pass.

## Main results

* `Loop.run_of_inl`, `Loop.run_of_inr` — the result after one pass.
* `Loop.exists_last` — the loop has a last pass.
* `Loop.Reaches.step_cases` — a pass of the loop is the last one, or another one follows.
* `Loop.Reaches.invariant` — what every pass preserves holds of every pass.
-/

/-- The body of a loop with variables in `σ` and results in `ρ`. -/
structure Loop (σ ρ : Type*) where
  body : σ → ρ ⊕ σ
  bound : σ → ℕ
  bound_lt : ∀ s t, body s = .inr t → bound t < bound s

namespace Loop

variable {σ ρ : Type*} (L : Loop σ ρ)

/-- The result of the loop, if it is left within `n` passes. -/
def runFor : ℕ → σ → Option ρ
  | 0, _ => none
  | n + 1, s =>
    match L.body s with
    | .inl r => some r
    | .inr t => runFor n t

theorem isSome_runFor {n : ℕ} {s : σ} (h : L.bound s < n) : (L.runFor n s).isSome := by
  induction n generalizing s with
  | zero => omega
  | succ n ih =>
    rw [runFor]
    split
    · rfl
    · next t hs =>
      have := L.bound_lt s t hs
      exact ih (by omega)

/-- More passes than needed do not change the result. -/
theorem runFor_eq_of_le {m n : ℕ} {s : σ} (h : L.bound s < m) (hmn : m ≤ n) :
    L.runFor n s = L.runFor m s := by
  induction m generalizing n s with
  | zero => omega
  | succ m ih =>
    obtain ⟨n, rfl⟩ : ∃ k, n = k + 1 := ⟨n - 1, by omega⟩
    rw [runFor, runFor]
    split
    · rfl
    · next t hs =>
      have := L.bound_lt s t hs
      exact ih (by omega) (by omega)

/-- The result of the loop. -/
def run (s : σ) : ρ := (L.runFor (L.bound s + 1) s).get (L.isSome_runFor (Nat.lt_succ_self _))

theorem some_run (s : σ) : some (L.run s) = L.runFor (L.bound s + 1) s := Option.some_get _

variable {L} {s t u : σ} {r : ρ}

theorem run_of_inl (h : L.body s = .inl r) : L.run s = r := by
  have hrun := L.some_run s
  rw [runFor, h] at hrun
  exact Option.some.inj hrun

theorem run_of_inr (h : L.body s = .inr t) : L.run s = L.run t := by
  have hrun : some (L.run s) = L.runFor (L.bound s) t := by rw [L.some_run, runFor, h]
  rw [L.runFor_eq_of_le (Nat.lt_succ_self _) (L.bound_lt s t h), ← L.some_run] at hrun
  exact Option.some.inj hrun

variable (L) in
/-- The variables `t` are those of a later pass of the loop with the variables `s`. -/
def Reaches : σ → σ → Prop := Relation.ReflTransGen fun s t => L.body s = .inr t

namespace Reaches

theorem refl (s : σ) : L.Reaches s s := Relation.ReflTransGen.refl

theorem tail (h : L.Reaches s t) (ht : L.body t = .inr u) : L.Reaches s u :=
  Relation.ReflTransGen.tail h ht

theorem head (hs : L.body s = .inr t) (h : L.Reaches t u) : L.Reaches s u :=
  Relation.ReflTransGen.head hs h

/-- What every pass preserves holds of every pass. -/
theorem invariant {P : σ → Prop} (hstep : ∀ s t, P s → L.body s = .inr t → P t)
    (h : L.Reaches s t) (hs : P s) : P t := by
  induction h with
  | refl => exact hs
  | tail _ ht ih => exact hstep _ _ ih ht

theorem run_eq (h : L.Reaches s t) : L.run s = L.run t := by
  induction h with
  | refl => rfl
  | tail _ ht ih => rw [ih, run_of_inr ht]

/-- A pass of the loop is the last one, with the result of the loop, or another one follows. -/
theorem step_cases (h : L.Reaches s t) :
    L.body t = .inl (L.run s) ∨ ∃ u, L.body t = .inr u ∧ L.Reaches s u := by
  rw [h.run_eq]
  cases ht : L.body t with
  | inl r => exact .inl (by rw [run_of_inl ht])
  | inr u => exact .inr ⟨u, rfl, h.tail ht⟩

end Reaches

variable (L) in
/-- The loop has a last pass. -/
theorem exists_last (s : σ) : ∃ t, L.Reaches s t ∧ L.body t = .inl (L.run s) := by
  induction hn : L.bound s using Nat.strongRecOn generalizing s with
  | ind n ih =>
    subst hn
    cases hs : L.body s with
    | inl r => exact ⟨s, .refl s, by rw [hs, run_of_inl hs]⟩
    | inr t =>
      obtain ⟨u, hu, hlast⟩ := ih _ (L.bound_lt s t hs) t rfl
      exact ⟨u, .head hs hu, by rw [hlast, run_of_inr hs]⟩

end Loop
