import OsProject.Server.Exchange

/-!
# The client gets an answer

The client writes once and then waits. If what it writes ends with a newline, then as long as it
waits there are bytes for it, or the server is about to answer or to close the connection, or there
is a line for the server to read. The patch of the array makes it so for pieces of the input that
are too long. It is not so for a piece without a newline that is short or has a NUL, such as the
empty one at the end of the input: the server then waits for the rest of the line, and the client for
the answer.

## Main results

* `client_answered` — a client whose requests are complete never waits for nothing.
* `not_answerPending` — a client at the end of its input does.
-/

namespace OsProject.Server

open LineStream Transition

/-- The piece that `fgets` reads next has no NUL in the part that is sent, and ends with a newline
or fills that part. -/
def CompleteRequest (stdin : List UInt8) : Prop :=
  0 ∉ (fgetsLine stdin).1.take (maxBuffer - 2) ∧
    (newline ∈ (fgetsLine stdin).1 ∨ maxBuffer - 2 ≤ (fgetsLine stdin).1.length)

instance (stdin : List UInt8) : Decidable (CompleteRequest stdin) :=
  inferInstanceAs (Decidable (_ ∧ _))

/-- A complete request ends with a newline. -/
theorem request_of_complete {stdin : List UInt8} (h : CompleteRequest stdin) :
    ∃ body, request stdin = body ++ [newline] := by
  obtain ⟨hzero, hend⟩ := h
  have hbody : requestBody stdin = (fgetsLine stdin).1.take (maxBuffer - 2) := by
    rw [requestBody, cString, List.takeWhile_eq_self_iff]
    exact fun c hc => decide_eq_true fun h0 => hzero (h0 ▸ hc)
  have hlen : (requestBody stdin).length = min (maxBuffer - 2) (fgetsLine stdin).1.length := by
    rw [hbody, List.length_take]
  rw [request_eq]
  by_cases hfull : maxBuffer - 2 ≤ (fgetsLine stdin).1.length
  · rw [if_pos (by omega)]
    exact ⟨_, rfl⟩
  · rw [if_neg (by omega), hbody, List.take_of_length_le (by omega)]
    have hnewline := hend.resolve_right hfull
    have hmark := mark_notMem_dropLast newline (maxBuffer - 1) stdin
    have hne : (fgetsLine stdin).1 ≠ [] := List.ne_nil_of_mem hnewline
    rw [← List.dropLast_append_getLast hne] at hnewline ⊢
    rcases List.mem_append.mp hnewline with hmem | hmem
    · exact absurd hmem hmark
    · exact ⟨_, by rw [List.mem_singleton.mp hmem]⟩

namespace Pair

variable {s t : Pair}

/-- There is something to come for the client: bytes, the end of the stream, or the answer to a line
that the server has read or that `read_line` will return. -/
def AnswerPending (s : Pair) : Prop :=
  s.toClient ≠ [] ∨
    match s.server.place with
    | .reading => HasLine newline (maxLine - 1) s.upstream ∧ 0 ∉ s.nextCut.1
    | .admitting | .answering => cString s.server.line ≠ []
    | .leaving | .closing | .done => True

/-- The invariant of a client whose requests are complete. -/
structure Progressing (s : Pair) : Prop where
  noZero : 0 ∉ s.upstream
  ends : s.upstream ≠ [] → ∃ body, s.upstream = body ++ [newline]
  line : s.server.place = .admitting ∨ s.server.place = .answering → cString s.server.line ≠ []
  received_le : s.received ≤ s.server.sent.length
  waits : s.client = .waiting → s.toClient ≠ [] ∨ s.server.place ≠ .reading ∨ s.upstream ≠ []

theorem nextCut_append (s : Pair) : s.nextCut.1 ++ s.nextCut.2 = s.upstream :=
  cutLine_append newline _ _

theorem Progressing.noZero_line (hs : s.Progressing) : 0 ∉ s.nextCut.1 :=
  fun h => hs.noZero (nextCut_append s ▸ List.mem_append_left _ h)

/-- What waits in the stream makes a line. -/
theorem Progressing.hasLine (hs : s.Progressing) (hne : s.upstream ≠ []) :
    HasLine newline (maxLine - 1) s.upstream := by
  obtain ⟨body, hbody⟩ := hs.ends hne
  exact hasLine_iff.mpr (.inl (by simp [hbody]))

theorem Progressing.answerPending (hs : s.Progressing) (hw : s.client = .waiting) :
    s.AnswerPending := by
  by_cases hnil : s.toClient = []
  · refine .inr ?_
    split
    · next hp =>
      have hne : s.upstream ≠ [] := by
        rcases hs.waits hw with h | h | h
        · exact absurd hnil h
        · exact absurd hp h
        · exact h
      exact ⟨hs.hasLine hne, hs.noZero_line⟩
    · next hp => exact hs.line (.inl hp)
    · next hp => exact hs.line (.inr hp)
    · trivial
    · trivial
    · trivial
  · exact .inl hnil

theorem Delivers.progressing (hs : s.Progressing) (h : s.Delivers t) : t.Progressing := by
  have hup := h.upstream
  have hcut := nextCut_append s
  have hline : s.nextCut.1 ≠ [] := by
    apply cutLine_ne_nil (by decide)
    intro hnil
    have := h.hasLine
    rw [hnil] at this
    exact this
  have hzero := hs.noZero_line
  obtain ⟨unread, toServer, -, rfl⟩ := h.eq
  refine ⟨?_, fun hne => ?_, fun _ => ?_, hs.received_le, fun _ => .inr (.inl ?_)⟩
  · rw [hup]
    exact fun h0 => hs.noZero (hcut ▸ List.mem_append_right _ h0)
  · -- the last byte under way stays the same
    rw [hup] at hne ⊢
    have hne' : s.upstream ≠ [] := by
      rw [← hcut]
      exact List.append_ne_nil_of_right_ne_nil _ hne
    obtain ⟨body, hbody⟩ := hs.ends hne'
    have hlast := congrArg List.getLast? hcut
    rw [List.getLast?_append_of_ne_nil _ hne, hbody, List.getLast?_concat] at hlast
    exact List.getLast?_eq_some_iff.mp hlast
  · change cString (terminated _ _) ≠ []
    rw [terminated, cString_append_zero hzero]
    exact hline
  · change (if s.server.start then Place.answering else Place.admitting) ≠ .reading
    cases s.server.start <;> decide

/-- The answer to a line that is not empty is not empty. -/
theorem answer_ne_nil {u : Session} (h : cString u.line ≠ []) : u.answer ≠ [] := by
  rw [Session.answer]
  split
  · simpa using h
  · decide

/-- After the answer there are bytes for the client. -/
theorem toClient_reply (hreceived : s.received ≤ s.server.sent.length)
    (hline : cString s.server.line ≠ []) :
    (s.server.sent ++ s.server.answer).drop s.received ≠ [] := by
  have hanswer : 0 < s.server.answer.length := List.length_pos_iff.mpr (answer_ne_nil hline)
  rw [← List.length_pos_iff, List.length_drop, List.length_append]
  omega

theorem Progressing.exec {e : PairEvent} (hstream : s.Streaming) (hs : s.Progressing)
    (hcomplete : e = .type → CompleteRequest s.stdin) (h : s.exec e = some t) : t.Progressing := by
  cases e with
  | type =>
    obtain ⟨-, ⟨⟩⟩ := Option.ite_none_right_eq_some.mp h
    obtain ⟨body, hbody⟩ := request_of_complete (hcomplete rfl)
    have hup : stream s.server.unread s.reads ++ (s.toServer ++ request s.stdin) =
        s.upstream ++ request s.stdin := (List.append_assoc ..).symm
    refine ⟨?_, fun _ => ?_, hs.line, hs.received_le, fun _ => .inr (.inr ?_)⟩
    · rw [Pair.upstream, hup, List.mem_append, not_or]
      exact ⟨hs.noZero, zero_notMem_request s.stdin⟩
    · exact ⟨s.upstream ++ body, by rw [Pair.upstream, hup, hbody, List.append_assoc]⟩
    · rw [Pair.upstream, hup, hbody]
      simp
  | clientRead n =>
    obtain ⟨⟨-, -, -, hn⟩, ⟨⟩⟩ := Option.ite_none_right_eq_some.mp h
    refine ⟨hs.noZero, hs.ends, hs.line, ?_, by simp⟩
    rw [toClient, List.length_drop] at hn
    have := hs.received_le
    dsimp only
    omega
  | clientEof =>
    obtain ⟨-, ⟨⟩⟩ := Option.ite_none_right_eq_some.mp h
    exact ⟨hs.noZero, hs.ends, hs.line, hs.received_le, by simp⟩
  | serverRead r =>
    rcases serverRead_cases hstream h with ⟨-, hup, -, rfl⟩ | hdelivers
    · refine ⟨?_, ?_, hs.line, hs.received_le, ?_⟩
      · rw [hup]; exact hs.noZero
      · rw [hup]; exact hs.ends
      · rw [hup]; exact hs.waits
    · exact hdelivers.progressing hs
  | nextLine => exact (nextLine_delivers hstream h).progressing hs
  | tryStart =>
    obtain ⟨g, u, hstep, rfl⟩ := serve_eq_some h
    obtain ⟨hp, ⟨-, rfl, rfl⟩ | ⟨-, rfl, rfl⟩⟩ := Session.tryStart_cases hstep
    · exact ⟨hs.noZero, hs.ends, fun _ => hs.line (.inl hp), hs.received_le,
        fun _ => .inr (.inl (by simp))⟩
    · exact ⟨hs.noZero, hs.ends, fun _ => hs.line (.inl hp), hs.received_le,
        fun _ => .inr (.inl (by simp))⟩
  | quit =>
    obtain ⟨g, u, hstep, rfl⟩ := serve_eq_some h
    obtain ⟨-, rfl, rfl⟩ := Session.quit_cases hstep
    exact ⟨hs.noZero, hs.ends, by simp, hs.received_le, fun _ => .inr (.inl (by simp))⟩
  | reply =>
    obtain ⟨g, u, hstep, rfl⟩ := serve_eq_some h
    obtain ⟨hp, -, ⟨n, hn, -, rfl, rfl⟩ | ⟨hn, -, -⟩⟩ := Session.reply_cases hstep
    · obtain rfl := Option.some.inj hn
      have hreceived := hs.received_le
      rw [List.take_length]
      refine ⟨hs.noZero, hs.ends, by simp, ?_, fun _ => .inl ?_⟩
      · rw [List.length_append]
        exact Nat.le_add_right_of_le hreceived
      · exact toClient_reply hs.received_le (hs.line (.inr hp))
    · cases hn
  | leave =>
    obtain ⟨g, u, hstep, rfl⟩ := serve_eq_some h
    obtain ⟨-, rfl, rfl⟩ := Session.leave_cases hstep
    exact ⟨hs.noZero, hs.ends, by simp, hs.received_le, fun _ => .inr (.inl (by simp))⟩
  | close =>
    obtain ⟨g, u, hstep, rfl⟩ := serve_eq_some h
    obtain ⟨-, ⟨-, rfl, rfl⟩ | ⟨hfail, -, -⟩⟩ := Session.close_cases hstep
    · exact ⟨hs.noZero, hs.ends, by simp, hs.received_le, fun _ => .inr (.inl (by simp))⟩
    · cases hfail
  | others nserv =>
    obtain rfl := Option.some.inj h
    exact ⟨hs.noZero, hs.ends, hs.line, hs.received_le, hs.waits⟩

theorem progressing_initial (stdin : List UInt8) (nserv : ℤ) (stack : List UInt8) :
    (initial stdin nserv stack).Progressing := by
  refine ⟨?_, ?_, ?_, ?_, ?_⟩ <;> simp [initial, upstream, Session.fresh]

/-! ### The way to the answer -/

/-- The pair can go on until the client does not wait any more. -/
def Answerable (s : Pair) : Prop :=
  ∃ es t, Run pairSystem s es t ∧ t.client ≠ .waiting

theorem Answerable.of_exec {e : PairEvent} (h : s.exec e = some t) (ht : t.Answerable) :
    s.Answerable := by
  obtain ⟨es, u, hrun, hu⟩ := ht
  exact ⟨e :: es, u, .cons h hrun, hu⟩

theorem answerable_of_client {e : PairEvent} (h : s.exec e = some t) (ht : t.client ≠ .waiting) :
    s.Answerable := .of_exec h ⟨[], t, .nil t, ht⟩

theorem answerable_of_toClient (hw : s.client = .waiting) (h : s.toClient ≠ []) :
    s.Answerable := by
  have hlen : 1 ≤ s.toClient.length := List.length_pos_iff.mpr h
  exact answerable_of_client (e := .clientRead 1)
    (if_pos ⟨hw, Nat.one_pos, by decide, hlen⟩) (by simp)

theorem answerable_of_done (hw : s.client = .waiting) (hp : s.server.place = .done) :
    s.Answerable := by
  by_cases h : s.toClient = []
  · exact answerable_of_client (e := .clientEof) (if_pos ⟨hw, h, hp⟩) (by simp)
  · exact answerable_of_toClient hw h

theorem answerable_of_closing (hw : s.client = .waiting) (hp : s.server.place = .closing) :
    s.Answerable := by
  have h : s.exec .close = some { s with server := { s.server with place := .done } } := by
    rw [exec, serve, Session.close, if_pos hp]
    rfl
  exact .of_exec h (answerable_of_done hw rfl)

theorem answerable_of_leaving (hw : s.client = .waiting) (hp : s.server.place = .leaving) :
    s.Answerable := by
  have h : s.exec .leave = some { s with
      globals := { s.globals with nserv := s.globals.nserv - 1 }
      server := { s.server with place := .closing } } := by
    rw [exec, serve, Session.leave, if_pos hp]
    rfl
  exact .of_exec h (answerable_of_closing hw rfl)

theorem answerable_of_answering (hw : s.client = .waiting) (hp : s.server.place = .answering)
    (hreceived : s.received ≤ s.server.sent.length) (hline : cString s.server.line ≠ []) :
    s.Answerable := by
  by_cases hquit : s.server.start ∧ cString s.server.line = quitLine
  · have h : s.exec .quit = some { s with server := { s.server with place := .leaving } } := by
      rw [exec, serve, Session.quit, if_pos ⟨hp, hquit⟩]
      rfl
    exact .of_exec h (answerable_of_leaving hw rfl)
  · have h : s.exec .reply = some { s with
        server := { s.server with
          line := putString s.server.line s.server.answer
          sent := s.server.sent ++ s.server.answer
          place := .reading } } := by
      rw [exec, serve, Session.reply, if_pos ⟨hp, hquit⟩]
      simp
    exact .of_exec h (answerable_of_toClient hw (toClient_reply hreceived hline))

theorem answerable_of_admitting (hw : s.client = .waiting) (hp : s.server.place = .admitting)
    (hreceived : s.received ≤ s.server.sent.length) (hline : cString s.server.line ≠ []) :
    s.Answerable := by
  by_cases hroom : s.globals.nserv < maxCliBuf
  · have h : s.exec .tryStart = some { s with
        globals := { s.globals with nserv := s.globals.nserv + 1 }
        server := { s.server with start := true, place := .answering } } := by
      rw [exec, serve, Session.tryStart, if_pos hp, if_pos hroom]
      rfl
    exact .of_exec h (answerable_of_answering hw rfl hreceived hline)
  · have h : s.exec .tryStart = some { s with server := { s.server with place := .answering } } := by
      rw [exec, serve, Session.tryStart, if_pos hp, if_neg hroom]
      rfl
    exact .of_exec h (answerable_of_answering hw rfl hreceived hline)

/-- Once `read_line` has returned a line, the client gets an answer. -/
theorem Delivers.answerable (h : s.Delivers t) (hs : s.Progressing) (hw : s.client = .waiting) :
    t.Answerable := by
  have ht := h.progressing hs
  obtain ⟨unread, toServer, -, rfl⟩ := h.eq
  by_cases hstart : s.server.start
  · have hp : (if s.server.start then Place.answering else Place.admitting) = .answering :=
      if_pos hstart
    exact answerable_of_answering hw hp ht.received_le (ht.line (.inr hp))
  · have hp : (if s.server.start then Place.answering else Place.admitting) = .admitting :=
      if_neg hstart
    exact answerable_of_admitting hw hp ht.received_le (ht.line (.inl hp))

/-- The server reads until it has the line that is on the way. -/
theorem answerable_of_reading (hstream : s.Streaming) (hs : s.Progressing)
    (hw : s.client = .waiting) (hp : s.server.place = .reading)
    (hline : HasLine newline (maxLine - 1) s.upstream) : s.Answerable := by
  induction hn : s.toServer.length using Nat.strong_induction_on generalizing s with
  | _ n ih =>
    by_cases hbuffer : HasLine newline (maxLine - 1) (stream s.server.unread s.reads)
    · have hnil : s.reads = [] := by
        by_contra hne
        exact (hstream.noLine hne).2 hbuffer
      have h : s.exec .nextLine = some s.returnLine :=
        if_pos ⟨hp, hnil, fun hreading => ((reading_iff hstream).mp hreading).2 hbuffer⟩
      exact .of_exec h ((nextLine_delivers hstream h).answerable hs hw)
    · obtain ⟨c, rest, hcons⟩ : ∃ c rest, s.toServer = c :: rest := by
        rw [← List.ne_nil_iff_exists_cons]
        intro hnil
        rw [Pair.upstream, hnil, List.append_nil] at hline
        exact hbuffer hline
      have hlen : 0 < [c].length ∧ [c].length ≤ maxBuffer := ⟨Nat.one_pos, by simp [maxBuffer]⟩
      have hoffers : s.Offers (.data ⟨[c], hlen⟩) := ⟨rest, hcons.symm⟩
      have h : ∃ t, s.exec (.serverRead (.data ⟨[c], hlen⟩)) = some t :=
        ⟨_, if_pos ⟨(reading_iff hstream).mpr ⟨hp, hbuffer⟩, hoffers⟩⟩
      obtain ⟨t, h⟩ := h
      refine .of_exec h ?_
      rcases serverRead_cases hstream h with ⟨-, hup, ht, heq⟩ | hdelivers
      · have hprogress := hs.exec hstream (by simp) h
        have hlen : t.toServer.length < n := by
          rw [heq, ← hn, hcons]
          simp [ReadResult.bytes]
        exact ih _ hlen ht hprogress (by rw [heq]; exact hw) (by rw [heq]; exact hp)
          (by rw [hup]; exact hline) rfl
      · exact hdelivers.answerable hs hw

theorem Progressing.answerable (hstream : s.Streaming) (hs : s.Progressing)
    (hw : s.client = .waiting) : s.Answerable := by
  by_cases h : s.toClient = []
  · cases hp : s.server.place with
    | reading =>
      have hne : s.upstream ≠ [] := ((hs.waits hw).resolve_left (by simpa using h)).resolve_left
        (by simpa using hp)
      exact answerable_of_reading hstream hs hw hp (hs.hasLine hne)
    | admitting => exact answerable_of_admitting hw hp hs.received_le (hs.line (.inl hp))
    | answering => exact answerable_of_answering hw hp hs.received_le (hs.line (.inr hp))
    | leaving => exact answerable_of_leaving hw hp
    | closing => exact answerable_of_closing hw hp
    | done => exact answerable_of_done hw hp
  · exact answerable_of_toClient hw h

/-- The client writes complete requests. -/
def TypesComplete (s : Pair) (e : PairEvent) : Prop :=
  e = .type → CompleteRequest s.stdin

instance (s : Pair) (e : PairEvent) : Decidable (s.TypesComplete e) :=
  inferInstanceAs (Decidable (_ → _))

theorem progressing_of_reachable (h : Reachable (pairSystem.restrict TypesComplete) s) :
    s.Progressing := by
  induction h with
  | init h =>
    obtain ⟨stdin, nserv, stack, rfl⟩ := h
    exact progressing_initial stdin nserv stack
  | step hr h ih => exact ih.exec (streaming_of_reachable hr.of_restrict) h.1 h.2

/-- As long as all requests are complete, a client that waits has an answer to come, and the pair
can go on until the client has it. -/
theorem client_answered (h : Reachable (pairSystem.restrict TypesComplete) s)
    (hw : s.client = .waiting) : s.AnswerPending ∧ s.Answerable := by
  have hs := progressing_of_reachable h
  exact ⟨hs.answerPending hw, hs.answerable (streaming_of_reachable h.of_restrict) hw⟩

/-- A client that types one letter and a newline, the server waiting for the second byte. -/
theorem client_answered_letter :
    ∃ s : Pair, s.client = .waiting ∧ s.toServer = [newline] ∧ s.AnswerPending ∧ s.Answerable := by
  obtain ⟨s, hs⟩ : ∃ s, s = (execAll
      (fun s e => if TypesComplete s e then exec s e else none) (initial [97, newline] 0 [])
      [.type, .serverRead (.data ⟨[97], by decide⟩)]).get (by decide +kernel) := ⟨_, rfl⟩
  have hrun : Run (pairSystem.restrict TypesComplete) (initial [97, newline] 0 [])
      [.type, .serverRead (.data ⟨[97], by decide⟩)] s :=
    run_restrict_of_execAll (by simp [hs])
  have hw : s.client = .waiting := by rw [hs]; decide +kernel
  have hreachable := (Reachable.init (S := pairSystem.restrict TypesComplete)
    ⟨[97, newline], 0, [], rfl⟩).run hrun
  exact ⟨s, hw, by rw [hs]; decide +kernel, client_answered hreachable hw⟩

/-- At the end of its input the client writes nothing and waits for an answer, for which the
server has nothing to read. -/
theorem not_answerPending :
    ¬ ∀ s, Reachable pairSystem s → s.client = .waiting → s.AnswerPending := by
  intro h
  have hexec : exec (initial [] 0 []) .type = some { initial [] 0 [] with client := .waiting } := by
    decide +kernel
  have hreachable := (Reachable.init (S := pairSystem) ⟨[], 0, [], rfl⟩).step hexec
  rcases h _ hreachable rfl with hbytes | ⟨hline, -⟩
  · exact hbytes rfl
  · rcases hasLine_iff.mp hline with hmem | hlen
    · exact absurd hmem List.not_mem_nil
    · exact absurd hlen (by decide)

end Pair

end OsProject.Server
