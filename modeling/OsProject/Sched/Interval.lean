import OsProject.Sched.Reference
import OsProject.Sched.Slices

/-!
# Queries of the round robin interval

`sched_rr_get_interval` returns the slice that a task would be granted. For a RAS task it also
grants it: the running turn of a queued task starts anew. Two runs are compared, one with queries
inserted at any points and one without them, by all that the other steps show of the scheduler: the
task that runs after a step, the task whose slice expires at it, and the state but for the weights
and slices kept in the entities.

## Main definitions

* `Inserted` — the steps of a run with inserted queries.
* `observed` — what a run shows of its own steps.
* `Fresh` — the task is not in the middle of a turn.

## Main results

* `fresh_queries_unobserved` — queries of such tasks go unnoticed.
* `not_queries_unobserved` — a query of a running task lengthens its turn.

Source: `kernel/sched/core.c`, `kernel/sched/ras.c`.
-/

namespace OsProject.Sched

open Intrusive Transition

/-- The steps of a run with inserted queries. -/
inductive Inserted (τ : Type*)
  | own (e : Event τ)
  | query (now : ℤ) (p : τ)

def Inserted.event {τ : Type*} : Inserted τ → Event τ
  | own e => e
  | query now p => ⟨now, .schedRrGetInterval p⟩

def Inserted.isOwn {τ : Type*} : Inserted τ → Bool
  | own _ => true
  | query _ _ => false

/-- What a step shows of the scheduler. -/
structure Observation (τ Q : Type*) where
  /-- The task that runs after the step. -/
  picked : τ
  /-- The RAS task whose slice expires at the step. -/
  expired : Option τ
  /-- All of the state but the weights and slices in the entities. -/
  rest : Rq τ Q

variable {τ Q : Type*} [DecidableEq τ] {K : Kernel τ Q} {s s' : Rq τ Q} {p : τ}

omit [DecidableEq τ] in
/-- The RAS task whose slice expires at a step. -/
def expires (s : Rq τ Q) : Op τ → Option τ
  | .schedulerTick =>
    if (s.task s.curr).schedClass = .ras ∧ (s.task s.curr).ras.timeSlice - 1 = 0 then some s.curr
    else none
  | _ => none

omit [DecidableEq τ] in
def observe (s : Rq τ Q) (e : Event τ) (s' : Rq τ Q) : Observation τ Q where
  picked := s'.curr
  expired := expires s e.op
  rest := s'.withSlices fun _ => (0, 0)

/-- What a run shows of its own steps; no value stands for a run that is not possible. -/
def observed (K : Kernel τ Q) : Rq τ Q → List (Inserted τ) → Option (List (Observation τ Q))
  | _, [] => some []
  | s, .own e :: is => (exec K s e).bind fun s' => (observed K s' is).map (observe s e s' :: ·)
  | s, .query now p :: is =>
    (exec K s ⟨now, .schedRrGetInterval p⟩).bind fun s' => observed K s' is

/-- The slice of a task that is queued in the RAS class is the one it would be granted. -/
def Fresh (K : Kernel τ Q) (s : Rq τ Q) (p : τ) : Prop :=
  (s.task p).onRq = true → (s.task p).schedClass = .ras →
    (s.task p).ras.timeSlice = rasSlice K.hz (s.task p)

instance (s : Rq τ Q) (p : τ) : Decidable (Fresh K s p) :=
  inferInstanceAs (Decidable (_ → _ → _))

/-- A query finds the task fresh. -/
def FreshQuery (K : Kernel τ Q) (s : Rq τ Q) : Inserted τ → Prop
  | .own _ => True
  | .query _ p => Fresh K s p

instance (s : Rq τ Q) : ∀ i, Decidable (FreshQuery K s i)
  | .own _ => .isTrue trivial
  | .query _ p => inferInstanceAs (Decidable (Fresh K s p))

/-! ### Two runs -/

/-- Two states that are alike but for the clock, which every step reads anew. -/
def AlikeAnytime (s s' : Rq τ Q) : Prop := ∀ now, Alike (atTime s now) (atTime s' now)

omit [DecidableEq τ] in
theorem Alike.anytime (h : Alike s s') : AlikeAnytime s s' := fun now =>
  h.map_of_ctl (f := fun s => atTime s now) (fun _ _ => rfl) rfl

omit [DecidableEq τ] in
theorem enabled_atTime_iff (s : Rq τ Q) (now : ℤ) (op : Op τ) :
    Enabled (atTime s now) op ↔ Enabled s op := by
  cases op <;> exact Iff.rfl

omit [DecidableEq τ] in
/-- The same steps are allowed in both states. -/
theorem AlikeAnytime.enabled_iff (h : AlikeAnytime s s') (op : Op τ) :
    Enabled s' op ↔ Enabled s op := by
  rw [← enabled_atTime_iff s 0, ← enabled_atTime_iff s' 0]
  obtain ⟨r, hr, -⟩ := h 0
  rw [hr]
  cases op <;> exact Iff.rfl

/-- The same slice expires at a step from both states. -/
theorem Alike.expires_eq (h : Alike s s') (hinv : Inv K s) (op : Op τ) :
    expires s' op = expires s op := by
  have hclass : (s'.task s.curr).schedClass = (s.task s.curr).schedClass :=
    congrArg (fun c => (c s.curr).schedClass) (AlikeOn.ctl h)
  cases op with
  | schedulerTick =>
    rw [expires, expires, AlikeOn.curr h, hclass]
    by_cases hras : (s.task s.curr).schedClass = .ras
    · have hon : (s.ctl s.curr).onRq = true := hinv.curr.resolve_left fun hidle => by
        have hc := hinv.idle_class
        rw [← hidle] at hc
        cases hras.symm.trans hc
      rw [AlikeOn.timeSlice h ⟨hon, hras⟩]
    · rw [if_neg fun hc => hras hc.1, if_neg fun hc => hras hc.1]
  | _ => rfl

theorem AlikeAnytime.expires_eq (h : AlikeAnytime s s') (hinv : Inv K s) (op : Op τ) :
    expires s' op = expires s op := by
  have hnow (s : Rq τ Q) : expires (atTime s 0) op = expires s op := by cases op <;> rfl
  rw [← hnow s, ← hnow s']
  exact (h 0).expires_eq (hinv.atTime 0) op

/-- A step is possible from both states or from neither, and shows the same. -/
theorem AlikeAnytime.exec (h : AlikeAnytime s s') (hinv : Inv K s) (e : Event τ) :
    (Sched.exec K s e = none ∧ Sched.exec K s' e = none) ∨
      ∃ t t', Sched.exec K s e = some t ∧ Sched.exec K s' e = some t' ∧ AlikeAnytime t t' ∧
        observe s' e t' = observe s e t := by
  rw [Sched.exec, Sched.exec]
  by_cases henabled : Enabled s e.op
  · rw [if_pos henabled, if_pos ((h.enabled_iff e.op).mpr henabled)]
    have hrel := (h e.now).execOp (hinv.atTime e.now) ((enabled_atTime_iff s e.now e.op).mpr henabled)
    generalize hx : execOp K (atTime s e.now) e.op = x at hrel
    generalize hx' : execOp K (atTime s' e.now) e.op = x' at hrel
    cases hrel with
    | none => exact .inl ⟨rfl, rfl⟩
    | @some t t' ht =>
      refine .inr ⟨t, t', rfl, rfl, ht.anytime, ?_⟩
      rw [observe, observe, h.expires_eq hinv, AlikeOn.curr ht]
      obtain ⟨r, rfl, -⟩ := ht
      rw [withSlices_withSlices]
  · exact .inl ⟨if_neg henabled, if_neg fun he => henabled ((h.enabled_iff e.op).mp he)⟩

/-- A fresh task is granted the slice that it has. -/
theorem Fresh.alike_grantSlice (h : Fresh K s p) : Alike s (s.modifyTask p (grantSlice K.hz)) := by
  obtain ⟨granted, hgranted⟩ : ∃ granted, granted = s.modifyTask p (grantSlice K.hz) := ⟨_, rfl⟩
  rw [← hgranted]
  refine ⟨fun t => ((granted.task t).ras.weight, (granted.task t).ras.timeSlice), ?_, fun t ht => ?_⟩
  · rw [hgranted, Rq.modifyTask, Rq.withSlices]
    congr 1
    funext t
    by_cases htp : t = p
    · subst htp
      simp only [Function.update_self]
      rfl
    · simp only [Function.update_of_ne htp]
      rfl
  · by_cases htp : t = p
    · subst htp
      simpa [hgranted, Rq.modifyTask, grantSlice] using (h ht.1 ht.2).symm
    · simp only [hgranted, Rq.modifyTask, Function.update_of_ne htp]

theorem AlikeAnytime.query {t : Rq τ Q} {now : ℤ} (h : AlikeAnytime s s') (hfresh : Fresh K s p)
    (ht : Sched.exec K s ⟨now, .schedRrGetInterval p⟩ = some t) : AlikeAnytime t s' := by
  obtain ⟨-, hquery⟩ := Option.ite_none_right_eq_some.mp ht
  obtain rfl := Option.some.inj hquery
  intro now'
  have hgrant : Alike (atTime s now') (atTime (schedRrGetInterval K (atTime s now) p).2 now') := by
    rw [schedRrGetInterval]
    cases ((atTime s now).task p).schedClass with
    | ras =>
      simp only [getRrIntervalRas_eq]
      exact Fresh.alike_grantSlice (s := atTime s now') hfresh
    | rt | stop | fair | idle => exact .refl _
  exact hgrant.symm.trans (h now')

/-- Queries that find their task fresh show in no other step: the same tasks run, the same slices
expire at the same ticks, and the rest of the state is the same after every step. -/
theorem fresh_queries_unobserved (hs : Reachable (system K) s) {is : List (Inserted τ)}
    (h : Along (fun s i => exec K s i.event) (FreshQuery K) s is) :
    observed K s is = observed K s (is.filter Inserted.isOwn) := by
  suffices hboth : ∀ s', AlikeAnytime s s' →
      observed K s is = observed K s' (is.filter Inserted.isOwn) from
    hboth s (Alike.refl s).anytime
  induction is generalizing s with
  | nil => exact fun _ _ => rfl
  | cons i is ih =>
    intro s' halike
    obtain ⟨hi, hrest⟩ := h
    cases i with
    | own e =>
      rw [List.filter_cons_of_pos rfl, observed, observed]
      rcases halike.exec (reachable_inv hs) e with ⟨hx, hx'⟩ | ⟨t, t', hx, hx', ht, hobs⟩
      · rw [hx, hx']
        rfl
      · rw [hx, hx', Option.bind_some, Option.bind_some, hobs, ih (hs.step hx) (hrest t hx) t' ht]
    | query now p =>
      rw [List.filter_cons_of_neg Bool.false_ne_true, observed]
      obtain ⟨t, hx⟩ : ∃ t, exec K s ⟨now, .schedRrGetInterval p⟩ = some t := ⟨_, rfl⟩
      rw [hx, Option.bind_some]
      exact ih (hs.step hx) (hrest t hx) s' (halike.query hi hx)

/-- Two RAS tasks. The first one runs, with a slice of three ticks. -/
def shortTurn : List (Op ℕ) :=
  [.schedMoveTask 1 { path := "/bg_non_interactive" }, .writeTrace 1 8192 0,
    setschedulerNocheck 1 6 0, .wakeUpNewTask 1, setschedulerNocheck 2 6 0, .wakeUpNewTask 2,
    reschedule]

/-- The waiting task is queried during the turn, and the other one after it. -/
def askedBetweenTurns : List (Inserted ℕ) :=
  [.own ⟨1, .schedulerTick⟩, .query 1 2, .own ⟨2, .schedulerTick⟩, .query 3 2,
    .own ⟨3, .schedulerTick⟩, .query 4 1, .own ⟨4, reschedule⟩]

theorem fresh_queries_unobserved_betweenTurns :
    ∃ s, referenceRun shortTurn = some s ∧
      observed (referenceKernel ℕ) s askedBetweenTurns =
        observed (referenceKernel ℕ) s (askedBetweenTurns.filter Inserted.isOwn) ∧
      (observed (referenceKernel ℕ) s askedBetweenTurns).map (List.map Observation.picked) =
        some [1, 1, 1, 2] := by
  obtain ⟨s, hs⟩ : ∃ s, s = (referenceRun shortTurn).get (by decide +kernel) := ⟨_, rfl⟩
  have hrun : referenceRun shortTurn = some s := by simp [hs]
  obtain ⟨t, ht⟩ : ∃ t, execAll (fun s i => if FreshQuery (referenceKernel ℕ) s i then
      exec (referenceKernel ℕ) s i.event else none) s askedBetweenTurns = some t :=
    Option.isSome_iff_exists.mp (by rw [hs]; decide +kernel)
  exact ⟨s, hrun, fresh_queries_unobserved (reachable_referenceRun hrun) (along_of_execAll ht),
    by rw [hs]; decide +kernel⟩

/-- The running task is queried when one tick of its slice is left. -/
def askedMidTurn : List (Inserted ℕ) :=
  [.own ⟨1, .schedulerTick⟩, .own ⟨2, .schedulerTick⟩, .query 2 1, .own ⟨3, .schedulerTick⟩]

theorem not_queries_unobserved :
    (¬ ∀ s, Reachable (system (referenceKernel ℕ)) s → ∀ is,
      observed (referenceKernel ℕ) s is =
        observed (referenceKernel ℕ) s (is.filter Inserted.isOwn)) ∧
    ∃ s, referenceRun shortTurn = some s ∧
      (observed (referenceKernel ℕ) s askedMidTurn).map (List.map Observation.expired) =
        some [none, none, none] ∧
      (observed (referenceKernel ℕ) s (askedMidTurn.filter Inserted.isOwn)).map
        (List.map Observation.expired) = some [none, none, some 1] := by
  obtain ⟨s, hs⟩ : ∃ s, s = (referenceRun shortTurn).get (by decide +kernel) := ⟨_, rfl⟩
  have hrun : referenceRun shortTurn = some s := by simp [hs]
  have hasked : (observed (referenceKernel ℕ) s askedMidTurn).map (List.map Observation.expired) =
      some [none, none, none] := by
    rw [hs]
    decide +kernel
  have hunasked : (observed (referenceKernel ℕ) s (askedMidTurn.filter Inserted.isOwn)).map
      (List.map Observation.expired) = some [none, none, some 1] := by
    rw [hs]
    decide +kernel
  refine ⟨fun h => ?_, s, hrun, hasked, hunasked⟩
  rw [h s (reachable_referenceRun hrun) askedMidTurn, hunasked] at hasked
  revert hasked
  decide

end OsProject.Sched
