import OsProject.Server.Serve

/-!
# Admission of clients

`nserv` counts up when a client is admitted, and only then, but it counts down at the end of every
thread, also of one whose client was never admitted. It is therefore the number of the clients that
are served less the number of the threads that left without having been admitted. So it is right,
and the bound on the clients that are served holds, exactly as long as no such thread has left.

## Main results

* `nserv_eq` — `nserv` in every reachable state.
* `admission_invariant_iff` — the states of a run have the right count if and only if every thread
  that leaves during the run was admitted.
-/

namespace OsProject.Server

open ThreadPool Transition

/-- The places after `nserv--`. -/
def Place.decremented : Place → Bool
  | .closing | .done => true
  | .reading | .admitting | .answering | .leaving => false

/-- The client of the thread is served: it was admitted, and `nserv--` is still to come. -/
def Session.served (t : Session) : Bool :=
  t.start && !t.place.decremented

/-- The thread has executed `nserv--` although its client was never admitted. -/
def Session.stray (t : Session) : Bool :=
  !t.start && t.place.decremented

/-- The counter is the number of the clients that are served, and is within its bounds. -/
structure AdmissionInvariant (s : Process) : Prop where
  nserv_eq : s.shared.nserv = s.count Session.served
  nonneg : 0 ≤ s.shared.nserv
  le : s.shared.nserv ≤ maxCliBuf
  served_le : (s.count Session.served : ℤ) ≤ maxCliBuf

/-! ### The counter -/

/-- A thread is admitted at most once. -/
def Session.Unadmitted (t : Session) : Prop :=
  t.place = .admitting → t.start = false

/-- What a thread contributes to `nserv`. -/
def Session.weight (t : Session) : ℤ :=
  (if t.served then 1 else 0) - (if t.stray then 1 else 0)

/-- What each step of `serve` does to the place of the thread, to `start` and to `nserv`: it admits
the client, or executes `nserv--`, or changes neither `start` nor `nserv`. -/
theorem threadStep_cases {e : Event} {i : ℕ} {step : Globals → Session → Option (Globals × Session)}
    (he : e.threadStep = some (i, step)) {g g' : Globals} {t t' : Session}
    (h : step g t = some (g', t')) :
    (t.place = .admitting ∧ g.nserv < maxCliBuf ∧ t'.place = .answering ∧ t'.start = true ∧
      g'.nserv = g.nserv + 1) ∨
    (e = .leave i ∧ t.place = .leaving ∧ t'.place = .closing ∧ t'.start = t.start ∧
      g'.nserv = g.nserv - 1) ∨
    (t'.start = t.start ∧ g'.nserv = g.nserv ∧ (t'.place = .admitting → t.start = false) ∧
      t'.place.decremented = t.place.decremented) := by
  cases e with
  | connect | acceptFails | createFails => cases he
  | readLine j reads =>
    obtain ⟨rfl, rfl⟩ := Prod.mk.inj (Option.some.inj he)
    obtain ⟨rfl, hp, hs, -, hp'⟩ := Session.readLine_cases h
    refine .inr (.inr ⟨hs, rfl, ?_⟩)
    cases hstart : t.start <;> rcases hp' with hp' | hp' <;>
      simp [hp, hp', hstart, Place.decremented]
  | tryStart j =>
    obtain ⟨rfl, rfl⟩ := Prod.mk.inj (Option.some.inj he)
    obtain ⟨hp, ⟨hroom, rfl, rfl⟩ | ⟨-, rfl, rfl⟩⟩ := Session.tryStart_cases h
    · exact .inl ⟨hp, hroom, rfl, rfl, rfl⟩
    · simp [hp, Place.decremented]
  | quit j =>
    obtain ⟨rfl, rfl⟩ := Prod.mk.inj (Option.some.inj he)
    obtain ⟨⟨hp, -⟩, rfl, rfl⟩ := Session.quit_cases h
    simp [hp, Place.decremented]
  | reply j written =>
    obtain ⟨rfl, rfl⟩ := Prod.mk.inj (Option.some.inj he)
    obtain ⟨hp, -, ⟨n, -, -, rfl, rfl⟩ | ⟨-, rfl, rfl⟩⟩ := Session.reply_cases h
    · simp [hp, Place.decremented]
    · simp [hp, Place.decremented]
  | leave j =>
    obtain ⟨rfl, rfl⟩ := Prod.mk.inj (Option.some.inj he)
    obtain ⟨hp, rfl, rfl⟩ := Session.leave_cases h
    exact .inr (.inl ⟨rfl, hp, rfl, rfl, rfl⟩)
  | close j success =>
    obtain ⟨rfl, rfl⟩ := Prod.mk.inj (Option.some.inj he)
    obtain ⟨hp, ⟨-, rfl, rfl⟩ | ⟨-, rfl, rfl⟩⟩ := Session.close_cases h
    · simp [hp, Place.decremented]
    · simp [hp]

/-- The place `admitting` is reached only with `start == 0`. -/
theorem threadStep_unadmitted {e : Event} {i : ℕ}
    {step : Globals → Session → Option (Globals × Session)} (he : e.threadStep = some (i, step))
    (g : Globals) (t : Session) (g' : Globals) (t' : Session) (h : step g t = some (g', t')) :
    t'.Unadmitted := by
  rcases threadStep_cases he h with ⟨-, -, hp, -⟩ | ⟨-, -, hp, -⟩ | ⟨hs, -, ha, -⟩
  · exact fun ha => absurd (hp.symm.trans ha) (by decide)
  · exact fun ha => absurd (hp.symm.trans ha) (by decide)
  · exact fun hp => hs.trans (ha hp)

/-- Every step of `serve` changes `nserv` by as much as the contribution of its thread changes. -/
theorem threadStep_balanced {e : Event} {i : ℕ}
    {step : Globals → Session → Option (Globals × Session)} (he : e.threadStep = some (i, step))
    (g : Globals) (t : Session) (g' : Globals) (t' : Session) (hu : t.Unadmitted)
    (h : step g t = some (g', t')) : g'.nserv - g.nserv = t'.weight - t.weight := by
  rcases threadStep_cases he h with ⟨hp, -, hp', hs', hn⟩ | ⟨-, hp, hp', hs, hn⟩ | ⟨hs, hn, -, hd⟩
  · have hs : t.start = false := hu hp
    simp [Session.weight, Session.served, Session.stray, Place.decremented, hp, hp', hs, hs', hn]
  · cases ht : t.start <;>
      simp [Session.weight, Session.served, Session.stray, Place.decremented, hp, hp', hs, ht, hn]
  · rw [hn, Session.weight, Session.weight, Session.served, Session.served, Session.stray,
      Session.stray, hs, hd, sub_self, sub_self]

/-! ### Reachable states -/

variable {s t : Process}

theorem unadmitted_of_reachable (hs : Reachable system s) : ∀ t ∈ s.threads, t.Unadmitted := by
  induction hs with
  | init h => exact h ▸ fun _ ht => absurd ht List.not_mem_nil
  | step _ h ih =>
    rcases exec_cases h with ⟨stack, -, rfl⟩ | ⟨-, ht, -⟩ | ⟨i, step, he, h⟩
    · exact Pool.forall_spawn (fun _ => rfl) ih
    · exact ht ▸ ih
    · exact Pool.forall_act (fun g t g' t' h _ => threadStep_unadmitted he g t g' t' h) h ih

/-- A new thread does not count. -/
theorem counter_connect (stack : List UInt8) :
    (s.spawn (Session.fresh stack)).shared.nserv -
      (s.spawn (Session.fresh stack)).total Session.weight =
    s.shared.nserv - s.total Session.weight :=
  @Pool.counter_spawn _ _ s Globals.nserv Session.weight (Session.fresh stack) rfl

/-- In every reachable state `nserv` is the number of the clients that are served, less the number
of the threads that left without having been admitted. -/
theorem nserv_eq (hs : Reachable system s) :
    s.shared.nserv = s.count Session.served - s.count Session.stray := by
  have hbalance : s.shared.nserv - s.total Session.weight = 0 := by
    induction hs with
    | init h => rw [h]; rfl
    | step hs h ih =>
      rcases exec_cases h with ⟨stack, -, rfl⟩ | ⟨-, ht, hn⟩ | ⟨i, step, he, h⟩
      · exact (counter_connect stack).trans ih
      · rw [hn, Pool.total, ht]; exact ih
      · exact (Pool.counter_act (threadStep_balanced he) (unadmitted_of_reachable hs) h).trans ih
  rw [← Pool.total_eq_count_sub (fun _ => rfl)]
  exact sub_eq_zero.mp hbalance

/-- A client is admitted only while `nserv < MAXCLIBUF`. -/
theorem nserv_le (hs : Reachable system s) : s.shared.nserv ≤ maxCliBuf := by
  induction hs with
  | init h => rw [h]; decide
  | step _ h ih =>
    rcases exec_cases h with ⟨stack, -, rfl⟩ | ⟨-, -, hn⟩ | ⟨i, step, he, h⟩
    · exact ih
    · exact hn ▸ ih
    · obtain ⟨t, t', -, hstep, -⟩ := Pool.act_eq_some h
      rcases threadStep_cases he hstep with ⟨-, hlt, -, -, hn⟩ | ⟨-, -, -, -, hn⟩ | ⟨-, hn, -⟩
      all_goals omega

/-- The admission invariant holds in a reachable state if and only if no thread has executed
`nserv--` without having been admitted. -/
theorem admissionInvariant_iff (hs : Reachable system s) :
    AdmissionInvariant s ↔ ∀ t ∈ s.threads, t.stray = false := by
  have hn := nserv_eq hs
  have hle := nserv_le hs
  rw [← Pool.count_eq_zero]
  constructor
  · intro h
    have := h.nserv_eq
    omega
  · intro h
    constructor <;> omega

/-! ### Runs -/

/-- Thread `i` exists and its client was admitted. -/
def Admitted (i : ℕ) (s : Process) : Prop :=
  ∃ t, s.threads[i]? = some t ∧ t.start = true

/-- A step after which there is a stray thread, although there was none before, is the `nserv--`
of a thread that was not admitted. -/
theorem stray_exec {e : Event} (h : exec s e = some t)
    (he : ∀ i, e = .leave i → Admitted i s) (hs : ∀ u ∈ s.threads, u.stray = false) :
    ∀ u ∈ t.threads, u.stray = false := by
  rcases exec_cases h with ⟨stack, -, rfl⟩ | ⟨-, ht, -⟩ | ⟨i, step, hstep, h⟩
  · exact Pool.forall_spawn rfl hs
  · exact ht ▸ hs
  · obtain ⟨u, u', hu, hu', ht⟩ := Pool.act_eq_some h
    have hstray := hs u (List.mem_of_getElem? hu)
    have hstray' : u'.stray = false := by
      rcases threadStep_cases hstep hu' with ⟨-, -, -, hst, -⟩ | ⟨rfl, -, -, hst, -⟩ | ⟨hst, -, -, hd⟩
      · simp [Session.stray, hst]
      · obtain ⟨v, hv, hadmitted⟩ := he i rfl
        obtain rfl : u = v := Option.some.inj (hu.symm.trans hv)
        simp [Session.stray, hst, hadmitted]
      · rw [← hstray, Session.stray, Session.stray, hst, hd]
    rw [ht]
    intro v hv
    rcases List.mem_or_eq_of_mem_set hv with hv | rfl
    · exact hs v hv
    · exact hstray'

/-- After `nserv--` of a thread that was not admitted there is a stray thread. -/
theorem admitted_of_not_stray {i : ℕ} (h : exec s (.leave i) = some t)
    (ht : ∀ u ∈ t.threads, u.stray = false) : Admitted i s := by
  rcases exec_cases h with ⟨stack, he, -⟩ | ⟨he, -⟩ | ⟨j, step, he, h⟩
  · cases he
  · cases he
  · obtain ⟨rfl, rfl⟩ := Prod.mk.inj (Option.some.inj he)
    obtain ⟨u, u', hu, hu', hset⟩ := Pool.act_eq_some h
    refine ⟨u, hu, ?_⟩
    have hi : i < s.threads.length := (List.getElem?_eq_some_iff.mp hu).1
    have hstray : u'.stray = false := ht u' (hset ▸ List.mem_set hi u')
    unfold Session.leave at hu'
    split at hu'
    · obtain ⟨-, rfl⟩ := Prod.mk.inj (Option.some.inj hu')
      simpa [Session.stray, Place.decremented] using hstray
    · cases hu'

theorem reachable_of_execAll {es : List Event} (h : execAll exec .initial es = some s) :
    Reachable system s :=
  (Reachable.init rfl).run (run_of_execAll h)

/-- The states of a run all satisfy the admission invariant if and only if every thread that
executes `nserv--` in it was admitted before. -/
theorem admission_invariant_iff (evs : List Event) :
    (∀ es t, es <+: evs → execAll exec .initial es = some t → AdmissionInvariant t) ↔
    (∀ es i t u, es ++ [.leave i] <+: evs → execAll exec .initial es = some t →
      exec t (.leave i) = some u → Admitted i t) := by
  constructor
  · intro hinv es i t u hpart ht hu
    have hrun : execAll exec .initial (es ++ [.leave i]) = some u := by
      rw [execAll_append, ht, Option.bind_some, execAll, hu]
      rfl
    exact admitted_of_not_stray hu
      ((admissionInvariant_iff (reachable_of_execAll hrun)).mp (hinv _ u hpart hrun))
  · intro hleave es t hpart ht
    rw [admissionInvariant_iff (reachable_of_execAll ht)]
    induction es using List.reverseRecOn generalizing t with
    | nil =>
      obtain rfl : Process.initial = t := Option.some.inj ht
      exact fun u hu => absurd hu List.not_mem_nil
    | append_singleton es e ih =>
      rw [execAll_append] at ht
      obtain ⟨u, hu, ht⟩ := Option.bind_eq_some_iff.mp ht
      obtain ⟨t', hexec, ht⟩ := Option.bind_eq_some_iff.mp ht
      obtain rfl : t' = t := Option.some.inj ht
      have hprev := ih u ((List.prefix_append es [e]).trans hpart) hu
      exact stray_exec hexec (fun i hi => hleave es i u t' (hi ▸ hpart) hu (hi ▸ hexec)) hprev

/-- The line of one letter, as one `read` delivers it. -/
def letterLine : ReadResult := .data ⟨[97, newline], by decide⟩

/-- A client that disconnects before its first line, and three clients that send a line each. -/
def disconnectThenThree : List Event :=
  [.connect [], .readLine 0 [.eof], .leave 0, .close 0 true,
    .connect [], .connect [], .connect [],
    .readLine 1 [letterLine], .tryStart 1, .readLine 2 [letterLine], .tryStart 2,
    .readLine 3 [letterLine], .tryStart 3]

/-- After a client that disconnects before its first line, three clients are served at the same
time. -/
theorem not_admission_invariant : ¬ ∀ s, Reachable system s → AdmissionInvariant s := by
  intro h
  have hrun : execAll exec .initial disconnectThenThree =
      some ((execAll exec .initial disconnectThenThree).get (by decide +kernel)) := by simp
  exact absurd (h _ (reachable_of_execAll hrun)).served_le (by decide +kernel)

end OsProject.Server
