import OsProject.Server.Conversation

/-!
# A read that fails

When `read` fails, `read_line` returns -1 as an `unsigned`, which is greater than 0, so that `serve`
goes on with what stands in the array `line`: the bytes that this call has stored, and behind them
what was there before. It ends the session, without writing anything, if and only if the client is
served or gets a place now, and the array happens to hold the line that quits.

## Main definitions

* `Session.EndsSilently` — nothing is written or read any more, and the thread runs to its end.

## Main results

* `Session.exec_readLine_error` — what a failing call of `read_line` leaves behind.
* `Session.endsSilently_iff`.
-/

namespace OsProject.Server

open LineStream Transition

/-- The sessions, when `nserv` has this value whenever they ask for admission. -/
def sessionSystemAt (nserv : ℤ) : System Session SessionEvent :=
  sessionSystem.restrict fun _ e => ∀ n, e = .tryStart n → n = nserv

/-- A step that neither reads nor writes. -/
def SessionEvent.Silent (e : SessionEvent) : Prop :=
  (∀ reads, e ≠ .readLine reads) ∧ ∀ written, e ≠ .reply written

/-- How far a place is from the end of the thread. -/
def Place.rank : Place → ℕ
  | .reading => 5
  | .admitting => 4
  | .answering => 3
  | .leaving => 2
  | .closing => 1
  | .done => 0

namespace Session

variable {nserv : ℤ} {t t' : Session} {reads : List ReadResult}

/-- The session writes nothing and reads nothing any more, and its thread leaves the loop, closes
the socket and ends. -/
structure EndsSilently (nserv : ℤ) (t : Session) : Prop where
  silent : ∀ es t', Run (sessionSystemAt nserv) t es t' → ∀ e ∈ es, e.Silent
  /-- It does not go on for ever. -/
  bounded : ∃ n, ∀ es t', Run (sessionSystemAt nserv) t es t' → es.length ≤ n
  /-- It does not get stuck. -/
  goesOn : ∀ es t', Run (sessionSystemAt nserv) t es t' → t'.place ≠ .done →
    ∃ e t'', (sessionSystemAt nserv).step t' e t''

/-! ### The call that fails -/

/-- A call of `read` that fails is the last one of `read_line`. The array has the bytes that the call
has stored and its old contents behind them, and `serve` goes on as after a line. -/
theorem exec_readLine_error (h : t.exec (.readLine reads) = some t')
    (herror : ReadResult.error ∈ reads) :
    t.place = .reading ∧ t' = { t with
      place := if t.start then .answering else .admitting
      line := stream t.unread reads ++ t.line.drop (stream t.unread reads).length
      unread := [] } := by
  obtain ⟨hp, r, hr, hused, hcases⟩ := exec_readLine_cases h
  refine ⟨hp, ?_⟩
  rw [Server.readLine] at hr
  rcases goes_or_split reads with hall | ⟨ds, x, tail, rfl, hds, hx⟩
  · exact absurd rfl (hall _ herror).2
  · by_cases hhas : HasLine newline (maxLine - 1) (stream t.unread ds)
    · obtain ⟨unread', reads', heq, -, -⟩ := readLineLoop_of_hasLine t.line [] hds (x :: tail) hhas
      obtain rfl := Option.some.inj (hr.symm.trans heq)
      exact absurd hused (by simp)
    · obtain ⟨room, -, heq⟩ := readLineLoop_of_not_hasLine t.line [] hds (x :: tail) hhas
      rw [heq, List.nil_append, readLineLoop] at hr
      rcases hx with rfl | rfl
      · -- the end of the stream comes first, and the calls behind it are not used
        rw [readFromBuf, Option.bind_some] at hr
        have hnot : ReadResult.error ∉ ds := fun hmem => (hds _ hmem).2 rfl
        have htail : tail ≠ [] := by
          rintro rfl
          simp [hnot] at herror
        dsimp only at hr
        split at hr <;>
        · obtain rfl := Option.some.inj hr
          exact absurd hused htail
      · rw [readFromBuf, Option.bind_some] at hr
        obtain rfl := Option.some.inj hr
        obtain rfl : tail = [] := hused
        have hstream : stream t.unread (ds ++ [.error]) = stream t.unread ds := by
          rw [stream_append, List.flatMap_singleton]
          exact List.append_nil _
        rw [hstream]
        rcases hcases with ⟨-, rfl⟩ | ⟨hret, -⟩
        · rfl
        · have hminus : (-1 : UInt32) ≠ 0 := by decide
          exact absurd hret hminus

/-! ### The rest of the session -/

/-- The session is about to quit, or out of its loop. -/
inductive Quitting (nserv : ℤ) (t : Session) : Prop
  | admitting (hp : t.place = .admitting) (hroom : nserv < maxCliBuf)
      (hline : cString t.line = quitLine)
  | answering (hp : t.place = .answering) (hstart : t.start = true)
      (hline : cString t.line = quitLine)
  | ended (h : ¬t.place.InLoop)

/-- In the loop it has the line that quits, and has or gets a place. -/
theorem Quitting.inHand (ht : t.Quitting nserv) (hp : t.place.InLoop) :
    t.place ≠ .reading ∧ (t.place = .admitting → nserv < maxCliBuf) ∧
      (t.place = .answering → t.start = true) ∧ cString t.line = quitLine := by
  cases ht with
  | admitting hplace hroom hline => simp [hplace, hroom, hline]
  | answering hplace hstart hline => simp [hplace, hstart, hline]
  | ended h => exact absurd hp h

theorem quitting_leaves {place : Place} (h : place = .leaving ∨ place = .closing ∨ place = .done) :
    Quitting nserv { t with place := place } := by
  refine .ended ?_
  rcases h with rfl | rfl | rfl <;> simp [Place.InLoop, Place.InHand]

/-- A session that is about to quit gets closer to its end with each step. -/
theorem Quitting.step (ht : t.Quitting nserv) {e : SessionEvent}
    (h : (sessionSystemAt nserv).step t e t') :
    t'.Quitting nserv ∧ t'.place.rank < t.place.rank ∧ e.Silent := by
  obtain ⟨hat, h⟩ := h
  cases e with
  | readLine reads =>
    obtain ⟨hp, -⟩ := exec_readLine_cases h
    exact absurd hp (ht.inHand (.inl hp)).1
  | tryStart n =>
    obtain rfl : n = nserv := hat n rfl
    obtain ⟨⟨g, u⟩, hstart, rfl⟩ := Option.map_eq_some_iff.mp h
    obtain ⟨hp, hcases⟩ := tryStart_cases hstart
    obtain ⟨-, hroom, -, hline⟩ := ht.inHand (.inr (.inl hp))
    rcases hcases with ⟨-, -, rfl⟩ | ⟨hfull, -⟩
    · exact ⟨.answering rfl rfl hline, by simp [hp, Place.rank], by simp [SessionEvent.Silent]⟩
    · exact absurd (hroom hp) hfull
  | quit =>
    obtain ⟨⟨g, u⟩, hquit, rfl⟩ := Option.map_eq_some_iff.mp h
    obtain ⟨⟨hp, -⟩, -, rfl⟩ := quit_cases hquit
    exact ⟨quitting_leaves (.inl rfl), by simp [hp, Place.rank], by simp [SessionEvent.Silent]⟩
  | reply written =>
    obtain ⟨⟨g, u⟩, hreply, rfl⟩ := Option.map_eq_some_iff.mp h
    obtain ⟨hp, hno, -⟩ := reply_cases hreply
    obtain ⟨-, -, hstart, hline⟩ := ht.inHand (.inr (.inr hp))
    exact absurd ⟨hstart hp, hline⟩ hno
  | leave =>
    obtain ⟨⟨g, u⟩, hleave, rfl⟩ := Option.map_eq_some_iff.mp h
    obtain ⟨hp, -, rfl⟩ := leave_cases hleave
    exact ⟨quitting_leaves (.inr (.inl rfl)), by simp [hp, Place.rank],
      by simp [SessionEvent.Silent]⟩
  | close =>
    obtain ⟨⟨g, u⟩, hclose, rfl⟩ := Option.map_eq_some_iff.mp h
    obtain ⟨hp, ⟨-, -, rfl⟩ | ⟨hfail, -⟩⟩ := close_cases hclose
    · exact ⟨quitting_leaves (.inr (.inr rfl)), by simp [hp, Place.rank],
        by simp [SessionEvent.Silent]⟩
    · cases hfail

/-- A session that is about to quit, or out of its loop, can take its next step. -/
theorem Quitting.goesOn (ht : t.Quitting nserv) (hdone : t.place ≠ .done) :
    ∃ e t', (sessionSystemAt nserv).step t e t' := by
  cases ht with
  | admitting hp hroom hline =>
    exact ⟨.tryStart nserv, _, fun n hn => (SessionEvent.tryStart.inj hn).symm,
      exec_tryStart_of_room hp hroom⟩
  | answering hp hstart hline =>
    exact ⟨.quit, _, fun n hn => SessionEvent.noConfusion hn, exec_quit ⟨hp, hstart, hline⟩⟩
  | ended h =>
    by_cases hp : t.place = .leaving
    · exact ⟨.leave, _, fun n hn => SessionEvent.noConfusion hn, exec_leave hp⟩
    · have hclosing : t.place = .closing := by
        cases hplace : t.place <;> simp_all [Place.InLoop, Place.InHand]
      exact ⟨.close, _, fun n hn => SessionEvent.noConfusion hn, exec_close hclosing⟩

theorem Quitting.endsSilently (ht : t.Quitting nserv) : t.EndsSilently nserv := by
  refine ⟨fun es t' hr => ?_, ⟨t.place.rank, fun es t' hr => ?_⟩, fun es t' hr hdone => ?_⟩
  · exact hr.forall_labels (P := Quitting nserv)
      (fun s a s' hs hstep => ⟨(hs.step hstep).1, (hs.step hstep).2.2⟩) ht
  · exact hr.length_le (P := Quitting nserv) (m := fun t => t.place.rank)
      (fun s a s' hs hstep => ⟨(hs.step hstep).1, (hs.step hstep).2.1⟩) ht
  · have ht' : t'.Quitting nserv := hr.invariant (fun s a s' hs hstep => (hs.step hstep).1) ht
    exact ht'.goesOn hdone

/-- A session that has not the line that quits, or is not served, answers. -/
theorem not_endsSilently_of_answering (hp : t.place = .answering)
    (hno : ¬(t.start = true ∧ cString t.line = quitLine)) : ¬t.EndsSilently nserv := by
  intro hends
  have hstep := exec_reply hp hno (Nat.zero_le _)
  have hrun := Run.cons (S := sessionSystemAt nserv)
    ⟨fun n hn => SessionEvent.noConfusion hn, hstep⟩ (.nil _)
  exact (hends.silent _ _ hrun _ (List.mem_singleton_self _)).2 0 rfl

theorem not_endsSilently_of_admitting (hp : t.place = .admitting) (hstart : ¬t.start = true)
    (hno : ¬(nserv < maxCliBuf ∧ cString t.line = quitLine)) : ¬t.EndsSilently nserv := by
  intro hends
  have hafter : ∃ u, t.exec (.tryStart nserv) = some u ∧ u.place = .answering ∧
      ¬(u.start = true ∧ cString u.line = quitLine) := by
    by_cases hroom : nserv < maxCliBuf
    · exact ⟨_, exec_tryStart_of_room hp hroom, rfl, fun h => hno ⟨hroom, h.2⟩⟩
    · exact ⟨_, exec_tryStart_of_full hp hroom, rfl, fun h => hstart h.1⟩
  obtain ⟨u, hu, hplace, hno'⟩ := hafter
  have hstep := exec_reply hplace hno' (Nat.zero_le _)
  have hrun := Run.cons (S := sessionSystemAt nserv)
    ⟨fun n hn => (SessionEvent.tryStart.inj hn).symm, hu⟩
    (.cons ⟨fun n hn => SessionEvent.noConfusion hn, hstep⟩ (.nil _))
  have hsilent := hends.silent _ _ hrun (.reply 0) (List.mem_cons_of_mem _ (List.mem_singleton_self _))
  exact hsilent.2 0 rfl

/-- After a call of `read` that fails, the session ends, and writes and reads nothing any more, if
and only if the client is served or gets a place now, and the bytes that the call has stored and the
old contents of the array behind them happen to be the line that quits. -/
theorem endsSilently_iff (nserv : ℤ) (h : t.exec (.readLine reads) = some t')
    (herror : ReadResult.error ∈ reads) :
    t'.EndsSilently nserv ↔ (t.start = true ∨ nserv < maxCliBuf) ∧
      cString (stream t.unread reads ++ t.line.drop (stream t.unread reads).length) = quitLine := by
  obtain ⟨-, rfl⟩ := exec_readLine_error h herror
  set line := stream t.unread reads ++ t.line.drop (stream t.unread reads).length with hdef
  by_cases hstart : t.start = true
  · rw [if_pos hstart]
    by_cases hline : cString line = quitLine
    · refine iff_of_true (Quitting.endsSilently (.answering rfl hstart ?_)) ⟨.inl hstart, hline⟩
      exact hline
    · refine iff_of_false (not_endsSilently_of_answering rfl fun hno => hline ?_)
        fun hno => hline hno.2
      exact hno.2
  · rw [if_neg hstart]
    by_cases hquit : nserv < maxCliBuf ∧ cString line = quitLine
    · refine iff_of_true (Quitting.endsSilently (.admitting rfl hquit.1 ?_)) ⟨.inr hquit.1, hquit.2⟩
      exact hquit.2
    · refine iff_of_false (not_endsSilently_of_admitting rfl hstart fun hno => hquit ?_)
        fun hno => hquit ⟨hno.1.resolve_left hstart, hno.2⟩
      exact hno

/-- A call that fails when the array, which is not initialised, happens to hold the line that
quits. -/
theorem endsSilently_iff_stack : ∃ t', (fresh (quitLine ++ [0])).exec (.readLine [.error]) = some t' ∧
    (t'.EndsSilently 0 ↔ ((fresh (quitLine ++ [0])).start = true ∨ (0 : ℤ) < maxCliBuf) ∧
      cString (stream [] [.error] ++ (quitLine ++ [0]).drop (stream [] [.error]).length) =
        quitLine) := by
  have hsome : ((fresh (quitLine ++ [0])).exec (.readLine [.error])).isSome := by decide +kernel
  obtain ⟨t', ht'⟩ := Option.isSome_iff_exists.mp hsome
  exact ⟨t', ht', endsSilently_iff 0 ht' (List.mem_singleton_self _)⟩

/-- A session that was served the line `"hi\n"`, and whose next call of `read` fails. -/
def failing : Option Session :=
  execAll exec (fresh []) [.readLine [.data ⟨[104, 105, newline], by decide⟩], .tryStart 0, .reply 3]

/-- The array still has the answer `"kl\n"`, and `serve` encrypts and sends it once more. -/
theorem not_endsSilently : ¬∀ nserv t t' reads, Reachable sessionSystem t →
    t.exec (.readLine reads) = some t' → ReadResult.error ∈ reads → t'.EndsSilently nserv := by
  intro hall
  have hafter : (failing.bind fun t => (t.exec (.readLine [.error])).map fun t' =>
      (t'.place, cString t'.line)) = some (.answering, [107, 108, newline]) := by decide +kernel
  obtain ⟨t, ht, hafter⟩ := Option.bind_eq_some_iff.mp hafter
  obtain ⟨t', ht', hafter⟩ := Option.map_eq_some_iff.mp hafter
  obtain ⟨hplace, hline⟩ := Prod.mk.inj hafter
  have hinit : Reachable sessionSystem (fresh []) := .init ⟨[], rfl⟩
  have hreachable : Reachable sessionSystem t := hinit.run (run_of_execAll ht)
  refine not_endsSilently_of_answering hplace ?_
    (hall 0 t t' [.error] hreachable ht' (List.mem_singleton_self _))
  rw [hline]
  exact fun h => absurd h.2 (by decide)

end Session

end OsProject.Server
