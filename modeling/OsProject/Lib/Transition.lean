import Mathlib.Logic.Basic
import Mathlib.Data.List.Basic

/-!
# Labelled transition systems

A system has initial states and labelled steps. Its *reachable* states are those of the finite
runs from an initial state. A system is *restricted* to the steps that meet a condition on the
state before the step and on its label; a property proved of the restricted system holds in every
run all of whose steps meet the condition.

Systems given by an executable partial step function can be run on a list of labels.

## Main definitions

* `Transition.System`, `Transition.Reachable`, `Transition.Run`.
* `Transition.System.restrict` — the same system under a condition on its steps.
* `Transition.System.ofExec`, `Transition.execAll` — systems with an executable step.
* `Transition.execTrace` — an execution, with what is seen on the way.

## Main results

* `Transition.Reachable.invariant` — the induction rule for invariants.
* `Transition.Run.invariant` — what every step preserves, every run preserves.
* `Transition.Run.length_le` — runs end when every step makes a number smaller.
* `Transition.Reachable.run`.
* `Transition.execTrace_of_run` — an execution that simulates a system.
-/

namespace Transition

variable {σ α β ω : Type*}

/-- Initial states, and steps `step s a s'` from `s` to `s'` under the label `a`. -/
structure System (σ α : Type*) where
  init : σ → Prop
  step : σ → α → σ → Prop

/-- The states of the finite runs from an initial state. -/
inductive Reachable (S : System σ α) : σ → Prop
  | init {s : σ} (h : S.init s) : Reachable S s
  | step {s s' : σ} {a : α} (hs : Reachable S s) (h : S.step s a s') : Reachable S s'

/-- The finite runs, with the labels of their steps in order. -/
inductive Run (S : System σ α) : σ → List α → σ → Prop
  | nil (s : σ) : Run S s [] s
  | cons {s t u : σ} {a : α} {as : List α} (h : S.step s a t) (hr : Run S t as u) :
      Run S s (a :: as) u

/-- A property is an invariant if it holds initially and every step from a reachable state
preserves it. Invariants proved before may be used for the reachable state. -/
theorem Reachable.invariant {S : System σ α} {P : σ → Prop} (hinit : ∀ s, S.init s → P s)
    (hstep : ∀ s a s', Reachable S s → P s → S.step s a s' → P s') {s : σ}
    (h : Reachable S s) : P s := by
  induction h with
  | init h => exact hinit _ h
  | step hs h ih => exact hstep _ _ _ hs ih h

namespace Run

variable {S : System σ α} {s t u : σ} {as bs : List α}

/-- What every step preserves, every run preserves. -/
theorem invariant {P : σ → Prop} (hstep : ∀ s a s', P s → S.step s a s' → P s')
    (h : Run S s as t) (hs : P s) : P t := by
  induction h with
  | nil => exact hs
  | cons h _ ih => exact ih (hstep _ _ _ hs h)

/-- When every step makes a number smaller, runs are no longer than this number. -/
theorem length_le {P : σ → Prop} {m : σ → ℕ}
    (hstep : ∀ s a s', P s → S.step s a s' → P s' ∧ m s' < m s) (h : Run S s as t) (hs : P s) :
    as.length ≤ m s := by
  induction h with
  | nil => exact Nat.zero_le _
  | cons h _ ih =>
    obtain ⟨ht, hlt⟩ := hstep _ _ _ hs h
    exact Nat.succ_le_of_lt (Nat.lt_of_le_of_lt (ih ht) hlt)

/-- What holds of the label of every step holds of the labels of a run. -/
theorem forall_labels {P : σ → Prop} {Q : α → Prop}
    (hstep : ∀ s a s', P s → S.step s a s' → P s' ∧ Q a) (h : Run S s as t) (hs : P s) :
    ∀ a ∈ as, Q a := by
  induction h with
  | nil => simp
  | cons h _ ih =>
    obtain ⟨ht, hQ⟩ := hstep _ _ _ hs h
    exact List.forall_mem_cons.mpr ⟨hQ, ih ht⟩

theorem append (h₁ : Run S s as t) (h₂ : Run S t bs u) : Run S s (as ++ bs) u := by
  induction h₁ with
  | nil => exact h₂
  | cons h _ ih => exact .cons h (ih h₂)

/-- A run over a concatenation passes through a state between the two parts. -/
theorem split : ∀ {as : List α} {s : σ}, Run S s (as ++ bs) u → ∃ t, Run S s as t ∧ Run S t bs u
  | [], s, h => ⟨s, .nil s, h⟩
  | _ :: _, _, .cons h hr => by
    obtain ⟨t, h₁, h₂⟩ := hr.split
    exact ⟨t, .cons h h₁, h₂⟩

end Run

/-- A run from a reachable state ends in a reachable state. -/
theorem Reachable.run {S : System σ α} {s t : σ} {as : List α} (hs : Reachable S s)
    (h : Run S s as t) : Reachable S t :=
  h.invariant (fun _ _ _ hs h => hs.step h) hs

/-! ### Conditions on steps -/

/-- The steps of `S` that meet the condition `ok`. -/
def System.restrict (S : System σ α) (ok : σ → α → Prop) : System σ α where
  init := S.init
  step s a s' := ok s a ∧ S.step s a s'

theorem Reachable.of_restrict {S : System σ α} {ok : σ → α → Prop} {s : σ}
    (h : Reachable (S.restrict ok) s) : Reachable S s := by
  induction h with
  | init h => exact .init h
  | step _ h ih => exact ih.step h.2

theorem Run.of_restrict {S : System σ α} {ok : σ → α → Prop} {s t : σ} {as : List α}
    (h : Run (S.restrict ok) s as t) : Run S s as t := by
  induction h with
  | nil s => exact .nil s
  | cons h _ ih => exact .cons h.2 ih

/-- A run over labels that always meet the condition is a run of the restricted system. -/
theorem Run.restrict {S : System σ α} {ok : σ → α → Prop} {s t : σ} {as : List α}
    (h : Run S s as t) (hok : ∀ s, ∀ a ∈ as, ok s a) : Run (S.restrict ok) s as t := by
  induction h with
  | nil s => exact .nil s
  | cons h _ ih =>
    exact .cons ⟨hok _ _ (List.mem_cons_self ..), h⟩
      (ih fun s a ha => hok s a (List.mem_cons_of_mem _ ha))

/-- A run under one condition is a run under another that follows from it in the states of an
invariant. -/
theorem Run.restrict_mono {S : System σ α} {ok ok' : σ → α → Prop} {P : σ → Prop}
    (hstep : ∀ s a s', P s → S.step s a s' → P s') (hok : ∀ s a, P s → ok s a → ok' s a) {s t : σ}
    {as : List α} (h : Run (S.restrict ok) s as t) (hs : P s) : Run (S.restrict ok') s as t := by
  induction h with
  | nil s => exact .nil s
  | cons h _ ih => exact .cons ⟨hok _ _ hs h.1, h.2⟩ (ih (hstep _ _ _ hs h.2))

/-! ### Executable steps -/

/-- The system of a partial step function. -/
def System.ofExec (init : σ → Prop) (exec : σ → α → Option σ) : System σ α where
  init := init
  step s a s' := exec s a = some s'

/-- Execute a list of labels in order. -/
def execAll (exec : σ → α → Option σ) : σ → List α → Option σ
  | s, [] => some s
  | s, a :: as => (exec s a).bind fun t => execAll exec t as

/-- An execution is a run. -/
theorem run_of_execAll {init : σ → Prop} {exec : σ → α → Option σ} :
    ∀ {as : List α} {s t : σ}, execAll exec s as = some t → Run (.ofExec init exec) s as t
  | [], s, t, h => by
    obtain rfl : s = t := by simpa [execAll] using h
    exact .nil s
  | a :: as, s, t, h => by
    obtain ⟨u, hu, hrest⟩ := Option.bind_eq_some_iff.mp h
    exact .cons hu (run_of_execAll hrest)

/-- An execution of steps that all meet a condition is a run of the restricted system. -/
theorem run_restrict_of_execAll {init : σ → Prop} {exec : σ → α → Option σ} {ok : σ → α → Prop}
    [∀ s a, Decidable (ok s a)] : ∀ {as : List α} {s t : σ},
      execAll (fun s a => if ok s a then exec s a else none) s as = some t →
        Run ((System.ofExec init exec).restrict ok) s as t
  | [], s, t, h => by
    obtain rfl : s = t := by simpa [execAll] using h
    exact .nil s
  | a :: as, s, t, h => by
    obtain ⟨u, hu, hrest⟩ := Option.bind_eq_some_iff.mp h
    dsimp only at hu
    split at hu
    · next hok => exact .cons ⟨hok, hu⟩ (run_restrict_of_execAll hrest)
    · cases hu

/-- Every step of the execution of a list of labels meets a condition on the state before it and on
its label. -/
def Along (exec : σ → α → Option σ) (P : σ → α → Prop) : σ → List α → Prop
  | _, [] => True
  | s, a :: as => P s a ∧ ∀ t, exec s a = some t → Along exec P t as

/-- An execution of steps that all meet a condition meets it along the way. -/
theorem along_of_execAll {exec : σ → α → Option σ} {P : σ → α → Prop}
    [∀ s a, Decidable (P s a)] : ∀ {as : List α} {s t : σ},
      execAll (fun s a => if P s a then exec s a else none) s as = some t → Along exec P s as
  | [], _, _, _ => trivial
  | a :: as, s, t, h => by
    obtain ⟨u, hu, hrest⟩ := Option.bind_eq_some_iff.mp h
    obtain ⟨hP, hu⟩ := Option.ite_none_right_eq_some.mp hu
    refine ⟨hP, fun u' hu' => ?_⟩
    obtain rfl : u = u' := Option.some.inj (hu.symm.trans hu')
    exact along_of_execAll hrest

/-- Two conditions that are equivalent under an invariant are equivalent along an execution, when
steps that meet the second keep the invariant. -/
theorem along_congr {exec : σ → α → Option σ} {P Q : σ → α → Prop} {I : σ → Prop} {L : α → Prop}
    (hPQ : ∀ s a, I s → L a → (P s a ↔ Q s a))
    (hI : ∀ s a t, I s → L a → Q s a → exec s a = some t → I t) :
    ∀ {as : List α} {s : σ}, I s → (∀ a ∈ as, L a) → (Along exec P s as ↔ Along exec Q s as)
  | [], _, _, _ => Iff.rfl
  | a :: as, s, hs, hL => by
    have ha := hL a (List.mem_cons_self ..)
    have hrest : ∀ t, Q s a → exec s a = some t → (Along exec P t as ↔ Along exec Q t as) :=
      fun t hQ ht => along_congr hPQ hI (hI s a t hs ha hQ ht)
        fun b hb => hL b (List.mem_cons_of_mem _ hb)
    simp only [Along, hPQ s a hs ha]
    exact and_congr_right fun hQ => forall₂_congr fun t ht => hrest t hQ ht

/-- Execute a list of labels in order, and list what is seen of the states at which the steps
start. -/
def execTrace (exec : σ → α → Option σ) (see : σ → β) : σ → List α → Option (List β × σ)
  | s, [] => some ([], s)
  | s, a :: as =>
    (exec s a).bind fun t => (execTrace exec see t as).map fun r => (see s :: r.1, r.2)

/-- When every step of a system is met by a step of the execution, whatever its label, then the
execution goes as far as the runs of the system go, and what is seen on the way are the labels of
the run. -/
theorem execTrace_of_run {S : System ω β} {exec : σ → α → Option σ} {see : σ → β}
    {R : σ → ω → Prop}
    (hstep : ∀ s w b w' a, R s w → S.step w b w' → see s = b ∧ ∃ s', exec s a = some s' ∧ R s' w')
    {w w' : ω} {bs : List β} (hrun : Run S w bs w') {s : σ} (hs : R s w) {as : List α}
    (hlen : as.length = bs.length) : ∃ s', execTrace exec see s as = some (bs, s') ∧ R s' w' := by
  induction hrun generalizing s as with
  | nil w =>
    obtain rfl := List.length_eq_zero_iff.mp hlen
    exact ⟨s, rfl, hs⟩
  | @cons w u w' b bs h _ ih =>
    obtain ⟨a, as, rfl⟩ := List.exists_cons_of_length_eq_add_one hlen
    obtain ⟨rfl, t, ht, hR⟩ := hstep s w b u a hs h
    obtain ⟨s', hs', hR'⟩ := ih hR (Nat.succ.inj hlen)
    exact ⟨s', by rw [execTrace, ht, Option.bind_some, hs', Option.map_some], hR'⟩

theorem execAll_append {exec : σ → α → Option σ} {bs : List α} :
    ∀ {as : List α} {s : σ},
      execAll exec s (as ++ bs) = (execAll exec s as).bind fun t => execAll exec t bs
  | [], s => rfl
  | a :: as, s => by
    simp only [List.cons_append, execAll, execAll_append, Option.bind_assoc]

end Transition
