import OsProject.Server.Admission
import OsProject.Server.ReadLine

/-!
# Isolation of the sessions

A process of the server runs beside a second one, in which a client whose `read`, `write` or `close`
fails disconnects cleanly at that point instead. A failing `write` or `close` ends the first process
and with it all sessions. After a failing `read` the thread goes on, as `read_line` returns a large
number then, and keeps or takes one of the places for the clients that are served; the sessions of the
others are the same in both processes as long as this does not change who of them is admitted.

## Main definitions

* `disconnect` — the end of a thread whose `read` returns 0 instead of failing.
* `Twin` — the two processes, the clients that failed and the places that they hold.
* `Twin.Isolated` — the sessions of the other clients are the same in both.
* `Twin.Contained` — the condition on the steps.

## Main results

* `Twin.isolated_iff`.
-/

namespace OsProject.Server

open ThreadPool Transition

/-! ### A read that fails -/

/-- The outcome of `read` for a client that disconnects instead of failing. -/
def ReadResult.clean : ReadResult → ReadResult
  | .error => .eof
  | r => r

theorem clean_data (bytes : { l : List UInt8 // 0 < l.length ∧ l.length ≤ maxBuffer }) :
    (ReadResult.data bytes).clean = .data bytes := rfl

theorem clean_intr : ReadResult.intr.clean = .intr := rfl

theorem clean_error : ReadResult.error.clean = .eof := rfl

/-- Before a call of `read` that fails, `read_from_buf` does what it does before the end of the
stream. -/
theorem readFromBuf_clean {unread unread' : List UInt8} {reads reads' : List ReadResult} {rc : Rc}
    (herror : .error ∈ reads) (h : readFromBuf unread reads = some (rc, unread', reads')) :
    (∃ c, rc = .byte c ∧ .error ∈ reads' ∧ stream unread reads = c :: stream unread' reads' ∧
      readFromBuf unread (reads.map .clean) = some (.byte c, unread', reads'.map .clean)) ∨
    (rc = .eof ∧ .error ∈ reads') ∨
    (rc = .error ∧ stream unread reads = stream [] reads' ∧
      readFromBuf unread (reads.map .clean) = some (.eof, [], reads'.map .clean)) := by
  cases unread with
  | cons c unread =>
    rw [readFromBuf] at h
    cases h
    exact .inl ⟨c, rfl, herror, rfl, by rw [readFromBuf]⟩
  | nil =>
    induction reads with
    | nil => cases herror
    | cons r reads ih =>
      have htail : r ≠ .error → .error ∈ reads := fun hr =>
        (List.mem_cons.mp herror).resolve_left (Ne.symm hr)
      cases r with
      | data bytes =>
        obtain ⟨bytes, hpos, hle⟩ := bytes
        cases bytes with
        | nil => exact absurd hpos (Nat.lt_irrefl 0)
        | cons c bytes =>
          rw [readFromBuf, readFromBuf] at h
          cases h
          refine .inl ⟨c, rfl, htail (by simp), rfl, ?_⟩
          rw [List.map_cons, clean_data, readFromBuf, readFromBuf]
      | eof =>
        rw [readFromBuf] at h
        cases h
        exact .inr (.inl ⟨rfl, htail (by simp)⟩)
      | intr =>
        rw [readFromBuf] at h
        rw [List.map_cons, clean_intr, readFromBuf]
        exact ih (htail (by simp)) h
      | error =>
        rw [readFromBuf] at h
        cases h
        refine .inr (.inr ⟨rfl, rfl, ?_⟩)
        rw [List.map_cons, clean_error, readFromBuf]

/-- A call of `read_line` that ends with a failing `read` returns -1. At the end of the stream instead,
it returns what it has got so far. -/
theorem readLineLoop_clean {line got unread : List UInt8} {reads : List ReadResult} {room : ℕ}
    {r : LineRead} (herror : .error ∈ reads)
    (h : readLineLoop line room got unread reads = some r) (hused : r.reads = []) :
    r.ret = -1 ∧ ∃ line', readLineLoop line room got unread (reads.map .clean) =
      some ⟨.ofNat (got ++ stream unread reads).length, line', [], []⟩ ∧
        (stream unread reads).length < room := by
  induction room generalizing got unread reads with
  | zero =>
    obtain rfl := Option.some.inj h
    rw [show reads = [] from hused] at herror
    cases herror
  | succ room ih =>
    rw [readLineLoop] at h
    obtain ⟨⟨rc, unread', reads'⟩, hread, h⟩ := Option.bind_eq_some_iff.mp h
    rcases readFromBuf_clean herror hread with
      ⟨c, rfl, herror', hstream, hclean⟩ | ⟨rfl, herror'⟩ | ⟨rfl, hstream, hclean⟩
    · dsimp only at h
      split at h
      · obtain rfl := Option.some.inj h
        rw [show reads' = [] from hused] at herror'
        cases herror'
      · next hc =>
        obtain ⟨hret, line', hloop, hlen⟩ := ih herror' h
        refine ⟨hret, line', ?_, ?_⟩
        · rw [readLineLoop, hclean, Option.bind_some]
          dsimp only
          rw [if_neg hc, hloop, hstream, List.append_assoc, List.singleton_append]
        · rw [hstream]
          exact Nat.succ_lt_succ hlen
    · dsimp only at h
      split at h <;>
        (obtain rfl := Option.some.inj h
         rw [show reads' = [] from hused] at herror'
         cases herror')
    · obtain rfl := Option.some.inj h
      obtain rfl : reads' = [] := hused
      rw [stream_nil_right] at hstream
      refine ⟨rfl, ?_⟩
      rw [readLineLoop, hclean, Option.bind_some, hstream, List.append_nil]
      dsimp only
      cases got with
      | nil => exact ⟨line, rfl, Nat.succ_pos room⟩
      | cons c got => exact ⟨_, rfl, Nat.succ_pos room⟩

namespace Session

variable {g : Globals} {t : Session} {reads : List ReadResult}

/-- After a failing `read` the thread goes on in its loop. -/
theorem readLine_fails {g' : Globals} {t' : Session} (herror : .error ∈ reads)
    (h : readLine reads g t = some (g', t')) :
    t.place = .reading ∧ g' = g ∧ t'.start = t.start ∧
      t'.place = (if t.start then .answering else .admitting) ∧
      ∃ line, readLine (reads.map .clean) g t = some (g, { t with
        place := if stream t.unread reads = [] then .leaving
          else if t.start then .answering else .admitting
        line := line
        unread := [] }) := by
  rw [readLine] at h
  split at h
  · next hp =>
    obtain ⟨r, hr, h⟩ := Option.bind_eq_some_iff.mp h
    split at h
    · next hused =>
      obtain ⟨hret, line, hclean, hlen⟩ := readLineLoop_clean herror hr (List.isEmpty_iff.mp hused)
      rw [hret, if_pos (by decide)] at h
      cases h
      refine ⟨hp, rfl, rfl, rfl, line, ?_⟩
      have hpos : (0 : UInt32) < .ofNat ([] ++ stream t.unread reads).length ↔
          stream t.unread reads ≠ [] := by
        rw [List.nil_append, UInt32.lt_iff_toNat_lt, UInt32.toNat_ofNat_of_lt',
          ← List.length_pos_iff]
        · rfl
        · exact Nat.lt_trans hlen (by decide)
      rw [readLine, if_pos hp, Server.readLine, hclean, Option.bind_some]
      simp only [List.isEmpty_nil, if_true, hpos]
      by_cases hnil : stream t.unread reads = []
      · rw [if_neg (not_not.mpr hnil), if_pos hnil]
      · rw [if_pos hnil, if_neg hnil]
    · cases h
  · cases h

/-- With nothing left in the buffer, the end of the stream ends the loop. -/
theorem readLine_eof (hp : t.place = .reading) (hunread : t.unread = []) :
    readLine [.eof] g t = some (g, { t with place := .leaving }) := by
  rw [readLine, if_pos hp, hunread]
  rfl

end Session

/-! ### A client that disconnects -/

/-- A step of a thread that is taken if it can be. -/
def Event.attempt (e : Event) (r : Globals × Session) : Globals × Session :=
  (e.threadStep.bind fun p => p.2 r.1 r.2).getD r

/-- A step of the process that is taken if it can be. -/
def Process.attempt (s : Process) (e : Event) : Process := (exec s e).getD s

/-- The end of a thread behind `read_line`. It answers what it has got of a line. It does not matter
what is written to the client, which has disconnected. -/
def finishEvents (i : ℕ) : List Event :=
  [.tryStart i, .quit i, .reply i (some 0), .readLine i [.eof], .leave i, .close i true]

/-- The thread from the failing call of `read` on, if that returned 0 instead. -/
def disconnectEvents (i : ℕ) (reads : List ReadResult) : List Event :=
  .readLine i (reads.map .clean) :: finishEvents i

section Finish

variable {i : ℕ} {g : Globals} {t : Session}

theorem finish_leaving (hp : t.place = .leaving) :
    (finishEvents i).foldl (fun r e => e.attempt r) (g, t) =
      ({ g with nserv := g.nserv - 1 }, { t with place := .done }) := by
  simp [finishEvents, Event.attempt, Event.threadStep, Session.tryStart, Session.quit,
    Session.reply, Session.readLine, Session.leave, Session.close, hp]

theorem finish_answering (hp : t.place = .answering) (hunread : t.unread = []) :
    ∃ t', (finishEvents i).foldl (fun r e => e.attempt r) (g, t) =
      ({ g with nserv := g.nserv - 1 }, t') ∧ t'.place = .done := by
  by_cases hquit : t.start ∧ cString t.line = quitLine
  · refine ⟨{ t with place := .done }, ?_, rfl⟩
    simp [finishEvents, Event.attempt, Event.threadStep, Session.tryStart, Session.quit,
      Session.reply, Session.readLine, Session.leave, Session.close, hp, hquit]
  · set u : Session := { t with
      line := putString t.line t.answer
      sent := t.sent ++ t.answer.take 0
      place := .reading } with hu
    have hreply : Session.reply (some 0) g t = some (g, u) := by
      rw [Session.reply, if_pos ⟨hp, hquit⟩]
      exact if_pos (Nat.zero_le _)
    have hread : Session.readLine [.eof] g u = some (g, { u with place := .leaving }) :=
      Session.readLine_eof rfl hunread
    refine ⟨{ u with place := .done }, ?_, rfl⟩
    simp [finishEvents, Event.attempt, Event.threadStep, Session.tryStart, Session.quit,
      hp, hquit, hreply, hread, Session.leave, Session.close]

theorem finish_admitting (hp : t.place = .admitting) (hunread : t.unread = []) :
    ∃ t', (finishEvents i).foldl (fun r e => e.attempt r) (g, t) =
      ({ g with nserv := if g.nserv < maxCliBuf then g.nserv else g.nserv - 1 }, t') ∧
      t'.place = .done := by
  -- from the second step on the thread is as one that was answering
  have hskip (g : Globals) (u : Session) (hu : u.place = .answering) :
      (Event.tryStart i).attempt (g, u) = (g, u) := by
    simp [Event.attempt, Event.threadStep, Session.tryStart, hu]
  by_cases hroom : g.nserv < maxCliBuf
  · have hstart : (Event.tryStart i).attempt (g, t) =
        ({ g with nserv := g.nserv + 1 }, { t with start := true, place := .answering }) := by
      simp [Event.attempt, Event.threadStep, Session.tryStart, hp, hroom]
    obtain ⟨t', heq, ht'⟩ := finish_answering (i := i) (g := { g with nserv := g.nserv + 1 })
      (t := { t with start := true, place := .answering }) rfl hunread
    rw [finishEvents, List.foldl_cons, hskip _ _ rfl] at heq
    refine ⟨t', ?_, ht'⟩
    rw [finishEvents, List.foldl_cons, hstart, heq, if_pos hroom]
    simp
  · have hstart : (Event.tryStart i).attempt (g, t) = (g, { t with place := .answering }) := by
      simp [Event.attempt, Event.threadStep, Session.tryStart, hp, hroom]
    obtain ⟨t', heq, ht'⟩ := finish_answering (i := i) (g := g)
      (t := { t with place := .answering }) rfl hunread
    rw [finishEvents, List.foldl_cons, hskip _ _ rfl] at heq
    refine ⟨t', ?_, ht'⟩
    rw [finishEvents, List.foldl_cons, hstart, heq, if_neg hroom]

/-- The thread of a client that disconnects in the middle of `read_line` comes to its end, and the place
that it holds is free again. A client that was not admitted gets a place for the rest of a line and
gives it back, or `nserv--` is executed without `nserv++`. -/
theorem disconnect_session {g' : Globals} {t' : Session} {reads : List ReadResult}
    (herror : .error ∈ reads) (h : Session.readLine reads g t = some (g', t')) :
    ∃ t', (disconnectEvents i reads).foldl (fun r e => e.attempt r) (g, t) =
      ({ g with nserv :=
          if t.start ∨ stream t.unread reads = [] ∨ ¬g.nserv < maxCliBuf then g.nserv - 1
          else g.nserv }, t') ∧ t'.place = .done := by
  obtain ⟨-, -, -, -, line, hclean⟩ := Session.readLine_fails herror h
  have hread := congrArg (fun r => r.getD (g, t)) hclean
  rw [Option.getD_some] at hread
  rw [disconnectEvents, List.foldl_cons, show (Event.readLine i (reads.map .clean)).attempt (g, t) = _
    from hread]
  by_cases hnil : stream t.unread reads = []
  · have hgone : t.start ∨ stream t.unread reads = [] ∨ ¬g.nserv < maxCliBuf := .inr (.inl hnil)
    refine ⟨{ t with place := .done, line := line, unread := [] }, ?_, rfl⟩
    rw [finish_leaving (if_pos hnil), if_pos hgone]
  · by_cases hstart : t.start
    · have hgone : t.start ∨ stream t.unread reads = [] ∨ ¬g.nserv < maxCliBuf := .inl hstart
      obtain ⟨u, heq, hu⟩ := finish_answering (i := i) (g := g) (t := { t with
        place := if stream t.unread reads = [] then .leaving
          else if t.start then .answering else .admitting
        line := line
        unread := [] }) (by simp [hnil, hstart]) rfl
      exact ⟨u, by rw [heq, if_pos hgone], hu⟩
    · obtain ⟨u, heq, hu⟩ := finish_admitting (i := i) (g := g) (t := { t with
        place := if stream t.unread reads = [] then .leaving
          else if t.start then .answering else .admitting
        line := line
        unread := [] }) (by simp [hnil, hstart]) rfl
      refine ⟨u, ?_, hu⟩
      rw [heq]
      by_cases hroom : g.nserv < maxCliBuf
      · have hgone : ¬(t.start ∨ stream t.unread reads = [] ∨ ¬g.nserv < maxCliBuf) := by
          simp [hstart, hnil, hroom]
        rw [if_pos hroom, if_neg hgone]
      · have hgone : t.start ∨ stream t.unread reads = [] ∨ ¬g.nserv < maxCliBuf :=
          .inr (.inr hroom)
        rw [if_neg hroom, if_pos hgone]

end Finish

/-- The step is that of a failing call: of `read` in `read_line`, of `write` or of `close`. -/
def Event.fails : Event → Bool
  | .readLine _ reads => reads.contains .error
  | .reply _ written => written.isNone
  | .close _ success => !success
  | _ => false

/-- The thread that takes the step. -/
def Event.thread (e : Event) : Option ℕ := e.threadStep.map Prod.fst

/-- The step is that of a failing call of `write` or `close`. -/
def Event.exits : Event → Bool
  | .reply _ none | .close _ false => true
  | _ => false

theorem Event.exits_of_fails {e : Event} (h : e.fails = false) : e.exits = false := by
  cases e with
  | reply i written => cases written <;> first | rfl | cases h
  | close i success => cases success <;> first | rfl | cases h
  | _ => rfl

/-- A failing call of `read` does not end the process. -/
theorem Event.readLine_of_fails {e : Event} (hfails : e.fails = true) (hexits : e.exits = false) :
    ∃ i reads, e = .readLine i reads ∧ .error ∈ reads := by
  cases e with
  | readLine i reads =>
    rw [Event.fails, List.contains_eq_mem] at hfails
    exact ⟨i, reads, rfl, of_decide_eq_true hfails⟩
  | reply i written =>
    cases written with
    | none => cases hexits
    | some n => cases hfails
  | close i success =>
    cases success with
    | false => cases hexits
    | true => cases hfails
  | _ => cases hfails

/-- The process goes on after a step of a thread, unless a call of `write` or `close` fails. -/
theorem threadStep_exited {e : Event} {i : ℕ} {step : Globals → Session → Option (Globals × Session)}
    (he : e.threadStep = some (i, step)) {g g' : Globals} {t t' : Session}
    (h : step g t = some (g', t')) : g'.exited = (g.exited || e.exits) := by
  cases e with
  | connect | acceptFails | createFails => cases he
  | readLine j reads =>
    obtain ⟨rfl, rfl⟩ := Prod.mk.inj (Option.some.inj he)
    rw [(Session.readLine_cases h).1]
    exact (Bool.or_false _).symm
  | tryStart j =>
    obtain ⟨rfl, rfl⟩ := Prod.mk.inj (Option.some.inj he)
    obtain ⟨-, ⟨-, rfl, -⟩ | ⟨-, rfl, -⟩⟩ := Session.tryStart_cases h
    · exact (Bool.or_false _).symm
    · exact (Bool.or_false _).symm
  | quit j =>
    obtain ⟨rfl, rfl⟩ := Prod.mk.inj (Option.some.inj he)
    obtain ⟨-, rfl, -⟩ := Session.quit_cases h
    exact (Bool.or_false _).symm
  | reply j written =>
    obtain ⟨rfl, rfl⟩ := Prod.mk.inj (Option.some.inj he)
    obtain ⟨-, -, ⟨n, rfl, -, rfl, -⟩ | ⟨rfl, rfl, -⟩⟩ := Session.reply_cases h
    · exact (Bool.or_false _).symm
    · exact (Bool.or_true _).symm
  | leave j =>
    obtain ⟨rfl, rfl⟩ := Prod.mk.inj (Option.some.inj he)
    obtain ⟨-, rfl, -⟩ := Session.leave_cases h
    exact (Bool.or_false _).symm
  | close j success =>
    obtain ⟨rfl, rfl⟩ := Prod.mk.inj (Option.some.inj he)
    obtain ⟨-, ⟨rfl, rfl, -⟩ | ⟨rfl, rfl, -⟩⟩ := Session.close_cases h
    · exact (Bool.or_false _).symm
    · exact (Bool.or_true _).symm

/-- A step of a thread, as long as the process goes on. -/
theorem exec_thread {s : Process} {e : Event} {i : ℕ}
    {step : Globals → Session → Option (Globals × Session)} (he : e.threadStep = some (i, step))
    (hs : s.shared.exited = false) : exec s e = s.act step i := by
  unfold exec
  rw [if_neg (by simp [hs])]
  cases e with
  | connect | acceptFails | createFails => cases he
  | readLine | tryStart | quit | reply | leave | close =>
    obtain ⟨rfl, rfl⟩ := Prod.mk.inj (Option.some.inj he)
    rfl

theorem attempt_eq {s : Process} {e : Event} {i : ℕ} {t : Session} (he : e.thread = some i)
    (hs : s.shared.exited = false) (ht : s.threads[i]? = some t) :
    s.attempt e = ⟨(e.attempt (s.shared, t)).1, s.threads.set i (e.attempt (s.shared, t)).2⟩ := by
  obtain ⟨⟨j, step⟩, hstep, rfl⟩ := Option.map_eq_some_iff.mp he
  rw [Process.attempt, exec_thread hstep hs, Pool.act_eq ht, Event.attempt, hstep, Option.bind_some]
  dsimp only
  cases hr : step s.shared t with
  | none =>
    obtain ⟨hlt, rfl⟩ := List.getElem?_eq_some_iff.mp ht
    simp
  | some r => rfl

theorem attempt_exited {e : Event} {g : Globals} {t : Session} (he : e.fails = false) :
    (e.attempt (g, t)).1.exited = g.exited := by
  rw [Event.attempt]
  cases hstep : e.threadStep with
  | none => rfl
  | some p =>
    obtain ⟨i, step⟩ := p
    rw [Option.bind_some]
    dsimp only
    cases hr : step g t with
    | none => rfl
    | some r =>
      exact (threadStep_exited hstep hr).trans (by rw [Event.exits_of_fails he, Bool.or_false])

/-- Steps of one thread that are taken if they can be. -/
theorem foldl_attempt {s : Process} {i : ℕ} {t : Session} {es : List Event}
    (hes : ∀ e ∈ es, e.thread = some i ∧ e.fails = false) (hs : s.shared.exited = false)
    (ht : s.threads[i]? = some t) :
    es.foldl Process.attempt s =
      ⟨(es.foldl (fun r e => e.attempt r) (s.shared, t)).1,
        s.threads.set i (es.foldl (fun r e => e.attempt r) (s.shared, t)).2⟩ := by
  have hlt : i < s.threads.length := (List.getElem?_eq_some_iff.mp ht).1
  induction es generalizing s t with
  | nil =>
    obtain ⟨-, rfl⟩ := List.getElem?_eq_some_iff.mp ht
    rw [List.foldl_nil, List.foldl_nil, List.set_getElem_self]
  | cons e es ih =>
    obtain ⟨hthread, hfails⟩ := hes e (List.mem_cons_self ..)
    rw [List.foldl_cons, List.foldl_cons, attempt_eq hthread hs ht,
      ih (fun e he => hes e (List.mem_cons_of_mem _ he)) ((attempt_exited hfails).trans hs)
        (List.getElem?_set_self hlt) (by rwa [List.length_set]), List.set_set]

/-- The thread disconnects, and the others stay as they are. -/
def Process.disconnect (s : Process) (i : ℕ) (reads : List ReadResult) : Process :=
  (disconnectEvents i reads).foldl Process.attempt s

theorem clean_ne_error (r : ReadResult) : r.clean ≠ .error := by
  cases r <;> simp [ReadResult.clean]

theorem disconnectEvents_spec {i : ℕ} {reads : List ReadResult} :
    ∀ e ∈ disconnectEvents i reads, e.thread = some i ∧ e.fails = false := by
  intro e he
  rcases List.mem_cons.mp he with rfl | he
  · refine ⟨rfl, ?_⟩
    rw [Event.fails, List.contains_eq_mem, decide_eq_false_iff_not, List.mem_map]
    rintro ⟨r, -, hr⟩
    exact clean_ne_error r hr
  · simp only [finishEvents, List.mem_cons, List.not_mem_nil, or_false] at he
    rcases he with rfl | rfl | rfl | rfl | rfl | rfl <;> exact ⟨rfl, rfl⟩

/-- A client that disconnects instead of failing ends its own thread only. -/
theorem Process.disconnect_eq {s : Process} {i : ℕ} {t t' : Session} {g : Globals}
    {reads : List ReadResult} (hs : s.shared.exited = false) (ht : s.threads[i]? = some t)
    (herror : .error ∈ reads) (h : Session.readLine reads s.shared t = some (g, t')) :
    ∃ u, u.place = .done ∧ s.disconnect i reads =
      ⟨{ s.shared with nserv :=
          if t.start ∨ stream t.unread reads = [] ∨ ¬s.shared.nserv < maxCliBuf then
            s.shared.nserv - 1
          else s.shared.nserv }, s.threads.set i u⟩ := by
  obtain ⟨u, heq, hu⟩ := disconnect_session (i := i) herror h
  exact ⟨u, hu, by rw [disconnect, foldl_attempt disconnectEvents_spec hs ht, heq]⟩

/-! ### The two processes -/

/-- All threads but those in the list have returned. -/
def Process.RestDone (s : Process) (failed : List ℕ) : Prop :=
  ∀ j < s.threads.length, j ∉ failed → s.threads[j]?.map Session.place = some .done

instance (s : Process) (failed : List ℕ) : Decidable (s.RestDone failed) :=
  inferInstanceAs (Decidable (∀ j < _, _ → _))

/-- The process, the process with clients that disconnect instead of failing, the threads of the
clients that failed, and by how much `nserv` of the first process is greater because of them. -/
structure Twin where
  actual : Process
  reference : Process
  failed : List ℕ
  slots : ℤ

namespace Twin

def initial : Twin := ⟨.initial, .initial, [], 0⟩

/-- What a client whose `read` fails now keeps of `nserv`, compared with its end: its own place, or the
`nserv--` of a client that was not admitted. -/
def kept (s : Twin) (i : ℕ) (reads : List ReadResult) : ℤ :=
  match s.actual.threads[i]? with
  | some t =>
    if t.start ∨ stream t.unread reads = [] ∨ ¬s.actual.shared.nserv - s.slots < maxCliBuf then 1
    else 0
  | none => 0

/-- A step of the process, and that of the second process beside it. Clients that failed have no
steps there any more, and what they do to `nserv` is counted. -/
def exec (s : Twin) (e : Event) : Option Twin :=
  (Server.exec s.actual e).map fun actual =>
    match e.thread with
    | none => { s with actual := actual, reference := s.reference.attempt e }
    | some i =>
      if i ∈ s.failed then
        { s with
          actual := actual
          slots := s.slots + (actual.shared.nserv - s.actual.shared.nserv) }
      else if e.fails then
        match e with
        | .readLine i reads =>
          { actual := actual
            reference := s.reference.disconnect i reads
            failed := i :: s.failed
            slots := s.slots + s.kept i reads }
        | _ => { s with actual := actual, failed := i :: s.failed }
      else { s with actual := actual, reference := s.reference.attempt e }

/-- The other sessions are the same as if the clients that failed had disconnected, with the replies
that they were sent, and they go on unless they are over. -/
structure Isolated (s : Twin) : Prop where
  same : ∀ j ∉ s.failed, s.actual.threads[j]? = s.reference.threads[j]?
  continues : s.actual.shared.exited → ¬s.reference.shared.exited → s.actual.RestDone s.failed

/-- A failing `write` or `close` comes when all other sessions are over, and the places that failing
clients hold make no difference to another client that asks for one. -/
def Safe (s : Twin) : Event → Prop
  | .tryStart j => j ∉ s.failed →
    (s.actual.shared.nserv < maxCliBuf ↔ s.actual.shared.nserv - s.slots < maxCliBuf)
  | .reply i none | .close i false => s.actual.RestDone (i :: s.failed)
  | _ => True

/-- The condition on the steps that are taken. -/
def Contained (s : Twin) (e : Event) : Prop := (Server.exec s.actual e).isSome → s.Safe e

/-- The invariant of the two processes while they go on. -/
structure Linked (s : Twin) : Prop where
  length_eq : s.reference.threads.length = s.actual.threads.length
  nserv_eq : s.reference.shared.nserv = s.actual.shared.nserv - s.slots
  running : s.reference.shared.exited = false
  unadmitted : ∀ t ∈ s.actual.threads, t.Unadmitted

variable {s t : Twin} {e : Event} {i : ℕ}

/-! ### Steps of one process -/

theorem exec_running {s t : Process} (h : Server.exec s e = some t) : s.shared.exited = false := by
  by_contra hne
  unfold Server.exec at h
  rw [if_pos (by simpa using hne)] at h
  cases h

/-- What a thread does, and that it leaves the others alone. -/
theorem exec_of_thread {s t : Process} (h : Server.exec s e = some t) (he : e.thread = some i) :
    ∃ step u g u', e.threadStep = some (i, step) ∧ s.threads[i]? = some u ∧
      step s.shared u = some (g, u') ∧ t = ⟨g, s.threads.set i u'⟩ := by
  obtain ⟨⟨j, step⟩, hstep, rfl⟩ := Option.map_eq_some_iff.mp he
  rw [exec_thread hstep (exec_running h)] at h
  obtain ⟨u, u', hu, hu', hset⟩ := Pool.act_eq_some h
  exact ⟨step, u, t.shared, u', hstep, hu, hu', by rw [← hset]⟩

theorem unadmitted_exec {s t : Process} (h : Server.exec s e = some t)
    (hs : ∀ t ∈ s.threads, t.Unadmitted) : ∀ u ∈ t.threads, u.Unadmitted := by
  rcases exec_cases h with ⟨stack, -, rfl⟩ | ⟨-, ht, -⟩ | ⟨i, step, he, h⟩
  · exact Pool.forall_spawn (fun _ => rfl) hs
  · exact ht ▸ hs
  · exact Pool.forall_act (fun g t g' t' h _ => threadStep_unadmitted he g t g' t' h) h hs

theorem restDone_congr {s t : Process} {failed : List ℕ}
    (hlen : t.threads.length = s.threads.length)
    (h : ∀ j ∉ failed, t.threads[j]? = s.threads[j]?) : t.RestDone failed ↔ s.RestDone failed := by
  rw [Process.RestDone, Process.RestDone, hlen]
  refine forall₂_congr fun j _ => forall_congr' fun hj => ?_
  rw [h j hj]

theorem getElem?_set_of_notMem {l : List Session} {u : Session} {failed : List ℕ} {j : ℕ}
    (hi : i ∈ failed) (hj : j ∉ failed) : (l.set i u)[j]? = l[j]? :=
  List.getElem?_set_ne fun (h : i = j) => hj (h ▸ hi)

theorem restDone_cons_of_mem {s : Process} {failed : List ℕ} (hi : i ∈ failed) :
    s.RestDone (i :: failed) ↔ s.RestDone failed := by
  refine forall₂_congr fun j _ => imp_congr_left ?_
  rw [List.mem_cons, not_or]
  exact and_iff_right_of_imp fun hj hji => hj (hji ▸ hi)

theorem safe_of_exits (he : e.thread = some i) (h : e.exits = true) :
    s.Safe e ↔ s.actual.RestDone (i :: s.failed) := by
  cases e with
  | reply j written =>
    obtain rfl := Option.some.inj he
    cases written <;> first | rfl | cases h
  | close j success =>
    obtain rfl := Option.some.inj he
    cases success <;> first | rfl | cases h
  | _ => cases h

theorem safe_of_not_exits (h : e.exits = false) (hne : ∀ j, e ≠ .tryStart j) : s.Safe e := by
  cases e with
  | reply j written => cases written <;> trivial
  | close j success => cases success <;> trivial
  | tryStart j => exact absurd rfl (hne j)
  | _ => trivial

/-- A step that neither fails nor asks for admission does the same under other values of the
globals. -/
theorem threadStep_globals {step : Globals → Session → Option (Globals × Session)}
    (he : e.threadStep = some (i, step)) (hfails : e.fails = false) (hne : e ≠ .tryStart i)
    {g g' : Globals} {u u' : Session} (h : step g u = some (g', u')) (k : Globals) :
    ∃ k', step k u = some (k', u') ∧ k'.nserv - k.nserv = g'.nserv - g.nserv := by
  cases e with
  | connect | acceptFails | createFails => cases he
  | readLine j reads =>
    obtain ⟨rfl, rfl⟩ := Prod.mk.inj (Option.some.inj he)
    obtain rfl := (Session.readLine_cases h).1
    exact ⟨k, Session.readLine_globals h k, by omega⟩
  | tryStart j =>
    obtain ⟨rfl, rfl⟩ := Prod.mk.inj (Option.some.inj he)
    exact absurd rfl hne
  | quit j =>
    obtain ⟨rfl, rfl⟩ := Prod.mk.inj (Option.some.inj he)
    obtain ⟨hq, rfl, rfl⟩ := Session.quit_cases h
    exact ⟨k, if_pos hq, by omega⟩
  | reply j written =>
    obtain ⟨rfl, rfl⟩ := Prod.mk.inj (Option.some.inj he)
    obtain ⟨hp, hq, ⟨n, rfl, hn, rfl, rfl⟩ | ⟨rfl, -, -⟩⟩ := Session.reply_cases h
    · refine ⟨k, ?_, by omega⟩
      rw [Session.reply, if_pos ⟨hp, hq⟩]
      exact if_pos hn
    · cases hfails
  | leave j =>
    obtain ⟨rfl, rfl⟩ := Prod.mk.inj (Option.some.inj he)
    obtain ⟨hp, rfl, rfl⟩ := Session.leave_cases h
    exact ⟨_, if_pos hp, by dsimp only; omega⟩
  | close j success =>
    obtain ⟨rfl, rfl⟩ := Prod.mk.inj (Option.some.inj he)
    obtain ⟨hp, ⟨rfl, rfl, rfl⟩ | ⟨rfl, -, -⟩⟩ := Session.close_cases h
    · exact ⟨k, if_pos hp, by omega⟩
    · cases hfails

/-! ### Steps of both processes -/

/-- A new thread, or a step of `main`. -/
theorem step_main (hs : s.Isolated) (hl : s.Linked) (he : e.thread = none)
    (h : s.exec e = some t) : t.Isolated ∧ (t.actual.shared.exited = false → t.Linked) := by
  obtain ⟨actual, hactual, rfl⟩ := Option.map_eq_some_iff.mp h
  have hrun := exec_running hactual
  have hunadmitted := unadmitted_exec hactual hl.unadmitted
  simp only [he]
  unfold Server.exec at hactual
  rw [if_neg (by simp [hrun])] at hactual
  cases e with
  | connect stack =>
    obtain rfl := Option.some.inj hactual
    have hreference : s.reference.attempt (.connect stack) =
        s.reference.spawn (Session.fresh stack) := by
      simp [Process.attempt, Server.exec, hl.running]
    rw [hreference]
    refine ⟨⟨fun j hj => ?_, fun hexited => ?_⟩, fun _ => ⟨?_, hl.nserv_eq, hl.running, hunadmitted⟩⟩
    · have hsame := hs.same j hj
      dsimp only [Pool.spawn]
      rw [List.getElem?_append, List.getElem?_append, hl.length_eq, hsame]
    · exact absurd hexited (by simp [Pool.spawn, hrun])
    · dsimp only [Pool.spawn]
      rw [List.length_append, List.length_append, hl.length_eq]
  | acceptFails =>
    obtain rfl := Option.some.inj hactual
    have hreference : s.reference.attempt .acceptFails = s.reference := by
      simp [Process.attempt, Server.exec, hl.running]
    rw [hreference]
    exact ⟨hs, fun _ => hl⟩
  | createFails =>
    obtain rfl := Option.some.inj hactual
    have hreference : s.reference.attempt .createFails =
        { s.reference with shared := { s.reference.shared with exited := true } } := by
      simp [Process.attempt, Server.exec, hl.running]
    rw [hreference]
    refine ⟨⟨hs.same, fun _ hrunning => absurd rfl hrunning⟩, fun hexited => ?_⟩
    cases hexited
  | readLine | tryStart | quit | reply | leave | close => cases he

/-- A step of a thread whose client failed before. -/
theorem step_failed (hs : s.Isolated) (hl : s.Linked) (he : e.thread = some i) (hi : i ∈ s.failed)
    (h : s.exec e = some t) :
    (t.Isolated ↔ s.Safe e) ∧ (t.actual.shared.exited = false → t.Linked) := by
  obtain ⟨actual, hactual, rfl⟩ := Option.map_eq_some_iff.mp h
  have hrun := exec_running hactual
  have hunadmitted := unadmitted_exec hactual hl.unadmitted
  obtain ⟨step, u, g, u', hstep, hu, hu', rfl⟩ := exec_of_thread hactual he
  simp only [he, if_pos hi]
  have hothers : ∀ j ∉ s.failed, (s.actual.threads.set i u')[j]? = s.actual.threads[j]? :=
    fun j hj => getElem?_set_of_notMem hi hj
  have hdone : Process.RestDone ⟨g, s.actual.threads.set i u'⟩ s.failed ↔
      s.actual.RestDone s.failed := restDone_congr (List.length_set ..) hothers
  constructor
  · have hcontinues : Isolated ⟨⟨g, s.actual.threads.set i u'⟩, s.reference, s.failed,
        s.slots + (g.nserv - s.actual.shared.nserv)⟩ ↔ (g.exited → s.actual.RestDone s.failed) := by
      constructor
      · exact fun hisolated hexited => hdone.mp (hisolated.continues hexited (by simp [hl.running]))
      · exact fun hcontinues => ⟨fun j hj => (hothers j hj).trans (hs.same j hj),
          fun hexited _ => hdone.mpr (hcontinues hexited)⟩
    rw [hcontinues, threadStep_exited hstep hu', hrun, Bool.false_or]
    cases hexits : e.exits with
    | true =>
      rw [safe_of_exits he hexits, restDone_cons_of_mem hi]
      exact ⟨fun h => h rfl, fun h _ => h⟩
    | false =>
      have hsafe : s.Safe e := by
        by_cases htry : ∃ j, e = .tryStart j
        · obtain ⟨j, rfl⟩ := htry
          obtain rfl := Option.some.inj he
          exact fun hj => absurd hi hj
        · exact safe_of_not_exits hexits fun j hj => htry ⟨j, hj⟩
      exact ⟨fun _ => hsafe, fun _ h => by cases h⟩
  · intro hexited
    refine ⟨?_, ?_, hl.running, hunadmitted⟩
    · rw [List.length_set]
      exact hl.length_eq
    · dsimp only
      rw [hl.nserv_eq]
      omega

/-- The `read` of a client fails. -/
theorem step_read {reads : List ReadResult} (hs : s.Isolated) (hl : s.Linked) (hi : i ∉ s.failed)
    (herror : .error ∈ reads) (h : s.exec (.readLine i reads) = some t) :
    t.Isolated ∧ t.Linked := by
  obtain ⟨actual, hactual, rfl⟩ := Option.map_eq_some_iff.mp h
  have hrun := exec_running hactual
  have hunadmitted := unadmitted_exec hactual hl.unadmitted
  obtain ⟨step, u, g, u', hstep, hu, hu', rfl⟩ := exec_of_thread (i := i) hactual rfl
  obtain ⟨-, rfl⟩ := Prod.mk.inj (Option.some.inj hstep)
  obtain rfl := (Session.readLine_cases hu').1
  have hreference : s.reference.threads[i]? = some u := (hs.same i hi).symm.trans hu
  obtain ⟨v, -, hdisconnect⟩ := Process.disconnect_eq hl.running hreference herror
    (Session.readLine_globals hu' s.reference.shared)
  have hfails : (Event.readLine i reads).fails = true := by
    rw [Event.fails, List.contains_eq_mem, decide_eq_true herror]
  have hthread : (Event.readLine i reads).thread = some i := rfl
  simp only [hthread, if_neg hi, if_pos hfails, hdisconnect]
  refine ⟨⟨fun j hj => ?_, fun hexited => ?_⟩, ?_, ?_, hl.running, hunadmitted⟩
  · dsimp only
    have hi' : i ∈ i :: s.failed := List.mem_cons_self ..
    rw [getElem?_set_of_notMem hi' hj, getElem?_set_of_notMem hi' hj]
    exact hs.same j fun hmem => hj (List.mem_cons_of_mem i hmem)
  · exact absurd hexited (by simp [hrun])
  · rw [List.length_set, List.length_set]
    exact hl.length_eq
  · dsimp only
    rw [kept, hu, hl.nserv_eq]
    dsimp only
    split <;> omega

/-- A call of `write` or `close` fails for a client that had no failure before. -/
theorem step_exit (hs : s.Isolated) (hl : s.Linked) (he : e.thread = some i) (hi : i ∉ s.failed)
    (hexits : e.exits = true) (h : s.exec e = some t) :
    (t.Isolated ↔ s.Safe e) ∧ t.actual.shared.exited = true := by
  obtain ⟨actual, hactual, ht⟩ := Option.map_eq_some_iff.mp h
  have hrun := exec_running hactual
  obtain ⟨step, u, g, u', hstep, hu, hu', rfl⟩ := exec_of_thread hactual he
  have hexited : g.exited = true := by
    rw [threadStep_exited hstep hu', hexits, Bool.or_true]
  have hfails : e.fails = true := by
    by_contra hfails
    rw [Event.exits_of_fails (Bool.eq_false_of_not_eq_true hfails)] at hexits
    cases hexits
  obtain rfl : t = ⟨⟨g, s.actual.threads.set i u'⟩, s.reference, i :: s.failed, s.slots⟩ := by
    rw [← ht]
    simp only [he, if_neg hi, if_pos hfails]
    cases e with
    | readLine => cases hexits
    | _ => rfl
  have hothers : ∀ j ∉ i :: s.failed, (s.actual.threads.set i u')[j]? = s.actual.threads[j]? :=
    fun j hj => getElem?_set_of_notMem (List.mem_cons_self ..) hj
  have hdone : Process.RestDone ⟨g, s.actual.threads.set i u'⟩ (i :: s.failed) ↔
      s.actual.RestDone (i :: s.failed) := restDone_congr (List.length_set ..) hothers
  refine ⟨?_, hexited⟩
  rw [safe_of_exits he hexits]
  constructor
  · exact fun hisolated => hdone.mp (hisolated.continues hexited (by simp [hl.running]))
  · intro hrest
    refine ⟨fun j hj => (hothers j hj).trans ?_, fun _ _ => hdone.mpr hrest⟩
    exact hs.same j fun hmem => hj (List.mem_cons_of_mem i hmem)

/-- The sessions stay the same if and only if the thread does the same in both processes. -/
theorem isolated_set_iff {g k : Globals} {u v : Session} (hs : s.Isolated) (hi : i ∉ s.failed)
    (hlt : i < s.actual.threads.length) (hlen : s.reference.threads.length = s.actual.threads.length)
    (hg : g.exited = false) :
    Isolated ⟨⟨g, s.actual.threads.set i u⟩, ⟨k, s.reference.threads.set i v⟩, s.failed, s.slots⟩ ↔
      u = v := by
  constructor
  · intro h
    have hsame := h.same i hi
    dsimp only at hsame
    rw [List.getElem?_set_self hlt, List.getElem?_set_self (hlen ▸ hlt)] at hsame
    exact Option.some.inj hsame
  · rintro rfl
    refine ⟨fun j hj => ?_, fun hexited => ?_⟩
    · dsimp only
      rw [List.getElem?_set, List.getElem?_set, hs.same j hj, hlen]
    · rw [hg] at hexited
      cases hexited

/-- A step of a client that had no failure. -/
theorem step_both (hs : s.Isolated) (hl : s.Linked) (he : e.thread = some i) (hi : i ∉ s.failed)
    (hfails : e.fails = false) (h : s.exec e = some t) :
    (t.Isolated ↔ s.Safe e) ∧ (s.Safe e → t.Linked) := by
  obtain ⟨actual, hactual, ht⟩ := Option.map_eq_some_iff.mp h
  have hrun := exec_running hactual
  have hunadmitted := unadmitted_exec hactual hl.unadmitted
  obtain ⟨step, u, g, u', hstep, hu, hu', rfl⟩ := exec_of_thread hactual he
  have hlt : i < s.actual.threads.length := (List.getElem?_eq_some_iff.mp hu).1
  have hexits := Event.exits_of_fails hfails
  have hg : g.exited = false := by rw [threadStep_exited hstep hu', hrun, hexits]; rfl
  have hreference : s.reference.threads[i]? = some u := (hs.same i hi).symm.trans hu
  simp only [he, if_neg hi, hfails, Bool.false_eq_true, if_false] at ht
  rw [attempt_eq he hl.running hreference] at ht
  have hattempt : e.attempt (s.reference.shared, u) =
      (step s.reference.shared u).getD (s.reference.shared, u) := by
    rw [Event.attempt, hstep, Option.bind_some]
  have hrefexited := (attempt_exited (g := s.reference.shared) (t := u) hfails).trans hl.running
  by_cases htry : e = .tryStart i
  · subst htry
    obtain ⟨-, rfl⟩ := Prod.mk.inj (Option.some.inj hstep)
    obtain ⟨hp, hcases⟩ := Session.tryStart_cases hu'
    have hstart : u.start = false := hl.unadmitted u (List.mem_of_getElem? hu) hp
    have hnserv := hl.nserv_eq
    have hsafe : s.Safe (.tryStart i) ↔
        (s.actual.shared.nserv < maxCliBuf ↔ s.reference.shared.nserv < maxCliBuf) := by
      rw [hnserv]
      exact ⟨fun h => h hi, fun h _ => h⟩
    have hlen : ∀ v : Session, (s.reference.threads.set i v).length =
        (s.actual.threads.set i u').length := by
      intro v
      rw [List.length_set, List.length_set]
      exact hl.length_eq
    rw [hattempt, Session.tryStart, if_pos hp] at ht
    rw [hsafe]
    rcases hcases with ⟨hroom, rfl, rfl⟩ | ⟨hroom, rfl, rfl⟩
    · by_cases hroom' : s.reference.shared.nserv < maxCliBuf
      · rw [if_pos hroom', Option.getD_some] at ht
        subst ht
        rw [isolated_set_iff hs hi hlt hl.length_eq hg]
        refine ⟨⟨fun _ => iff_of_true hroom hroom', fun _ => rfl⟩,
          fun _ => ⟨hlen _, ?_, hl.running, hunadmitted⟩⟩
        dsimp only
        omega
      · rw [if_neg hroom', Option.getD_some] at ht
        subst ht
        rw [isolated_set_iff hs hi hlt hl.length_eq hg]
        refine ⟨⟨fun heq => ?_, fun hiff => absurd (hiff.mp hroom) hroom'⟩,
          fun hiff => absurd (hiff.mp hroom) hroom'⟩
        rw [Session.mk.injEq, hstart] at heq
        cases heq.2.1
    · by_cases hroom' : s.reference.shared.nserv < maxCliBuf
      · rw [if_pos hroom', Option.getD_some] at ht
        subst ht
        rw [isolated_set_iff hs hi hlt hl.length_eq hg]
        refine ⟨⟨fun heq => ?_, fun hiff => absurd (hiff.mpr hroom') hroom⟩,
          fun hiff => absurd (hiff.mpr hroom') hroom⟩
        rw [Session.mk.injEq, hstart] at heq
        cases heq.2.1
      · rw [if_neg hroom', Option.getD_some] at ht
        subst ht
        rw [isolated_set_iff hs hi hlt hl.length_eq hg]
        exact ⟨⟨fun _ => iff_of_false hroom hroom', fun _ => rfl⟩,
          fun _ => ⟨hlen _, hnserv, hl.running, hunadmitted⟩⟩
  · obtain ⟨k, hk, hnserv⟩ := threadStep_globals hstep hfails htry hu' s.reference.shared
    have hsafe : s.Safe e := by
      refine safe_of_not_exits hexits fun j hj => htry ?_
      subst hj
      obtain rfl : j = i := Option.some.inj he
      rfl
    rw [hattempt, hk, Option.getD_some] at ht hrefexited
    subst ht
    rw [isolated_set_iff hs hi hlt hl.length_eq hg]
    refine ⟨⟨fun _ => hsafe, fun _ => rfl⟩, fun _ => ⟨?_, ?_, hrefexited, hunadmitted⟩⟩
    · rw [List.length_set, List.length_set]
      exact hl.length_eq
    · have := hl.nserv_eq
      dsimp only
      omega

/-- What a step of both processes does to the isolation of the sessions. -/
theorem step (hs : s.Isolated) (hl : s.Linked) (h : s.exec e = some t) :
    (t.Isolated ↔ s.Safe e) ∧ (s.Safe e → t.actual.shared.exited = false → t.Linked) := by
  cases he : e.thread with
  | none =>
    have hsafe : s.Safe e := by
      cases e with
      | connect | acceptFails | createFails => trivial
      | readLine | tryStart | quit | reply | leave | close => cases he
    obtain ⟨ht, hlinked⟩ := step_main hs hl he h
    exact ⟨⟨fun _ => hsafe, fun _ => ht⟩, fun _ => hlinked⟩
  | some i =>
    by_cases hi : i ∈ s.failed
    · obtain ⟨hiff, hlinked⟩ := step_failed hs hl he hi h
      exact ⟨hiff, fun _ => hlinked⟩
    · cases hexits : e.exits with
      | true =>
        obtain ⟨hiff, hexited⟩ := step_exit hs hl he hi hexits h
        exact ⟨hiff, fun _ hrunning => absurd (hexited.symm.trans hrunning) (by decide)⟩
      | false =>
        cases hfails : e.fails with
        | true =>
          obtain ⟨j, reads, rfl, herror⟩ := Event.readLine_of_fails hfails hexits
          obtain rfl : j = i := Option.some.inj he
          obtain ⟨ht, hlinked⟩ := step_read hs hl hi herror h
          exact ⟨⟨fun _ => trivial, fun _ => ht⟩, fun _ _ => hlinked⟩
        | false =>
          obtain ⟨hiff, hlinked⟩ := step_both hs hl he hi hfails h
          exact ⟨hiff, fun hsafe _ => hlinked hsafe⟩

/-! ### Whole runs -/

/-- The two processes as a system. -/
def system : Transition.System Twin Event := .ofExec (· = initial) exec

/-- The first process is the server. -/
theorem actual_reachable (h : Reachable system s) : Reachable Server.system s.actual := by
  induction h with
  | init h => exact h ▸ .init rfl
  | @step s t e _ h ih =>
    obtain ⟨actual, hactual, rfl⟩ := Option.map_eq_some_iff.mp h
    have hstep : Reachable Server.system actual := ih.step hactual
    split
    · exact hstep
    · split
      · exact hstep
      · split
        · split <;> exact hstep
        · exact hstep

theorem reachable_attempt {p : Process} (he : e.fails = false)
    (hp : Reachable (Server.system.restrict fun _ e => e.fails = false) p) :
    Reachable (Server.system.restrict fun _ e => e.fails = false) (p.attempt e) := by
  rw [Process.attempt]
  cases h : Server.exec p e with
  | none => exact hp
  | some q => exact hp.step ⟨he, h⟩

theorem reachable_foldl_attempt {p : Process} {es : List Event} (hes : ∀ e ∈ es, e.fails = false)
    (hp : Reachable (Server.system.restrict fun _ e => e.fails = false) p) :
    Reachable (Server.system.restrict fun _ e => e.fails = false) (es.foldl Process.attempt p) := by
  induction es generalizing p with
  | nil => exact hp
  | cons e es ih =>
    exact ih (fun e he => hes e (List.mem_cons_of_mem _ he))
      (reachable_attempt (hes e (List.mem_cons_self ..)) hp)

/-- The second process is the server without a failing call. -/
theorem reference_reachable (h : Reachable system s) :
    Reachable (Server.system.restrict fun _ e => e.fails = false) s.reference := by
  induction h with
  | init h => exact h ▸ .init rfl
  | @step s t e _ h ih =>
    obtain ⟨actual, hactual, rfl⟩ := Option.map_eq_some_iff.mp h
    cases he : e.thread with
    | none =>
      refine reachable_attempt ?_ ih
      cases e with
      | connect | acceptFails | createFails => rfl
      | readLine | tryStart | quit | reply | leave | close => cases he
    | some i =>
      dsimp only
      split
      · exact ih
      · split
        · split
          · exact reachable_foldl_attempt (fun e he => (disconnectEvents_spec e he).2) ih
          · exact ih
        · next hfails => exact reachable_attempt (Bool.eq_false_of_not_eq_true hfails) ih

theorem isolated_initial : initial.Isolated :=
  ⟨fun _ _ => rfl, fun hexited => by cases hexited⟩

theorem linked_initial : initial.Linked :=
  ⟨rfl, rfl, rfl, fun _ ht => absurd ht List.not_mem_nil⟩

/-- In a run of the server the sessions of the clients without a failure are those that they would
be if the others had disconnected, and go on, if and only if each `write` or `close` that fails comes
when the other sessions are over, and no client is admitted or refused because of the places that
clients with a failing `read` hold. -/
theorem isolated_iff (es : List Event) :
    Along exec (fun s e => ∀ t, s.exec e = some t → t.Isolated) initial es ↔
      Along exec Contained initial es := by
  refine along_congr (I := fun s => s.Isolated ∧ (s.actual.shared.exited = false → s.Linked))
    (L := fun _ => True) (fun s e hs _ => ?_) (fun s e t hs _ hcontained ht => ?_)
    ⟨isolated_initial, fun _ => linked_initial⟩ (fun _ _ => trivial)
  · have hexec : ∀ t, s.exec e = some t → s.actual.shared.exited = false := by
      intro t ht
      obtain ⟨actual, hactual, -⟩ := Option.map_eq_some_iff.mp ht
      exact exec_running hactual
    constructor
    · intro hall hsome
      obtain ⟨actual, hactual⟩ := Option.isSome_iff_exists.mp hsome
      have ht : ∃ t, s.exec e = some t := by
        rw [exec, hactual]
        exact ⟨_, rfl⟩
      obtain ⟨t, ht⟩ := ht
      exact (step hs.1 (hs.2 (hexec t ht)) ht).1.mp (hall t ht)
    · intro hcontained t ht
      obtain ⟨actual, hactual, -⟩ := Option.map_eq_some_iff.mp ht
      exact (step hs.1 (hs.2 (hexec t ht)) ht).1.mpr (hcontained (by rw [hactual]; rfl))
  · obtain ⟨actual, hactual, -⟩ := Option.map_eq_some_iff.mp ht
    have hsafe := hcontained (by rw [hactual]; rfl)
    obtain ⟨hiff, hlinked⟩ := step hs.1 (hs.2 (exec_running hactual)) ht
    exact ⟨hiff.mpr hsafe, hlinked hsafe⟩

/-- Two clients, and a `write` to the first one fails. -/
def writeFails : List Event :=
  [.connect [], .connect [], .readLine 0 [letterLine], .tryStart 0, .reply 0 none]

/-- A failing `write` to one client ends the session of another one. -/
theorem not_isolated : ¬ ∀ s, Reachable system s → s.Isolated := by
  intro h
  have hrun : execAll exec initial writeFails =
      some ((execAll exec initial writeFails).get (by decide +kernel)) := by simp
  have hreachable := (Reachable.init (S := system) rfl).run (run_of_execAll hrun)
  exact absurd ((h _ hreachable).continues (by decide +kernel) (by decide +kernel))
    (by decide +kernel)

end Twin

end OsProject.Server
