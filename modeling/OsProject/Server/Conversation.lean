import OsProject.Server.Framing
import OsProject.Server.Exchange

/-!
# One session of the server

The thread of one client, seen alone: `nserv` has any value when the client asks for admission, as
the other threads write it too. A failing `write` or `close` ends the process, and the session with
it.

A *conversation* is a session together with the stream of its client, in which no call of `read`
fails, and with what was said so far. It has one *turn* for each piece of the stream that
`read_line` returned and `serve` has answered or quit at.

## Main definitions

* `sessionSystem` — the steps of one thread.
* `Turn`, `Conversation`, `conversationSystem` — a session with its stream and its turns.

## Main results

* `session_of_reachable` — the threads of the server are sessions.
* `Conversation.wellFramed_of_reachable` — the turns are about the pieces of the stream, in order.
-/

namespace OsProject.Server

open LineStream Transition

/-! ### The thread of one client -/

/-- The steps of a session. -/
inductive SessionEvent
  | readLine (reads : List ReadResult)
  /-- The section under the mutex in the loop, with the value of `nserv` that it sees. -/
  | tryStart (nserv : ℤ)
  | quit
  /-- `write` takes so many bytes of the answer. -/
  | reply (written : ℕ)
  | leave
  | close
deriving DecidableEq

/-- The effect of a step on the session. Apart from the admission it does not depend on the shared
variables. -/
def Session.exec (t : Session) : SessionEvent → Option Session
  | .readLine reads => (t.readLine reads ⟨0, false⟩).map Prod.snd
  | .tryStart nserv => (t.tryStart ⟨nserv, false⟩).map Prod.snd
  | .quit => (t.quit ⟨0, false⟩).map Prod.snd
  | .reply written => (t.reply (some written) ⟨0, false⟩).map Prod.snd
  | .leave => (t.leave ⟨0, false⟩).map Prod.snd
  | .close => (t.close true ⟨0, false⟩).map Prod.snd

/-- The sessions, with any contents of the uninitialised array `line`. -/
def sessionSystem : System Session SessionEvent :=
  .ofExec (fun t => ∃ stack, t = .fresh stack) Session.exec

/-! Which steps can be taken. -/

namespace Session

variable {t : Session}

theorem exec_tryStart_of_room (hp : t.place = .admitting) {nserv : ℤ} (hroom : nserv < maxCliBuf) :
    t.exec (.tryStart nserv) = some { t with start := true, place := .answering } := by
  rw [exec, tryStart, if_pos hp, if_pos hroom]
  rfl

theorem exec_tryStart_of_full (hp : t.place = .admitting) {nserv : ℤ} (hfull : ¬nserv < maxCliBuf) :
    t.exec (.tryStart nserv) = some { t with place := .answering } := by
  rw [exec, tryStart, if_pos hp, if_neg hfull]
  rfl

theorem exec_quit (h : t.place = .answering ∧ t.start = true ∧ cString t.line = quitLine) :
    t.exec .quit = some { t with place := .leaving } := by
  rw [exec, quit, if_pos h]
  rfl

theorem exec_reply (hp : t.place = .answering)
    (hno : ¬(t.start = true ∧ cString t.line = quitLine)) {n : ℕ} (hn : n ≤ t.answer.length) :
    t.exec (.reply n) = some { t with
      line := putString t.line t.answer
      sent := t.sent ++ t.answer.take n
      place := .reading } := by
  rw [exec, reply, if_pos ⟨hp, hno⟩]
  dsimp only
  rw [if_pos hn]
  rfl

theorem exec_leave (hp : t.place = .leaving) : t.exec .leave = some { t with place := .closing } := by
  rw [exec, leave, if_pos hp]
  rfl

theorem exec_close (hp : t.place = .closing) : t.exec .close = some { t with place := .done } := by
  rw [exec, close, if_pos hp]
  rfl

end Session

/-- What a call of `read_line` does to a session. -/
theorem Session.exec_readLine_cases {t t' : Session} {reads : List ReadResult}
    (h : t.exec (.readLine reads) = some t') :
    t.place = .reading ∧ ∃ r, Server.readLine t.line t.unread reads maxLine = some r ∧
      r.reads = [] ∧
      ((0 < r.ret ∧ t' = { t with
          line := r.line
          unread := r.unread
          place := if t.start then .answering else .admitting }) ∨
        (r.ret = 0 ∧ t' = { t with line := r.line, unread := r.unread, place := .leaving })) := by
  obtain ⟨⟨g, u⟩, hread, rfl⟩ := Option.map_eq_some_iff.mp h
  obtain ⟨hp, hread⟩ := Option.ite_none_right_eq_some.mp hread
  obtain ⟨r, hr, hread⟩ := Option.bind_eq_some_iff.mp hread
  obtain ⟨hused, hread⟩ := Option.ite_none_right_eq_some.mp hread
  refine ⟨hp, r, hr, List.isEmpty_iff.mp hused, ?_⟩
  dsimp only at hread
  by_cases hret : 0 < r.ret
  · rw [if_pos hret] at hread
    cases hread
    exact .inl ⟨hret, rfl⟩
  · rw [if_neg hret] at hread
    cases hread
    exact .inr ⟨UInt32.le_zero_iff.mp (UInt32.not_lt.mp hret), rfl⟩

/-- A step of a thread that does not end the process is one of a session. -/
theorem session_exec_of_threadStep {e : Event} {i : ℕ} {g g' : Globals} {t t' : Session}
    {step : Globals → Session → Option (Globals × Session)} (he : e.threadStep = some (i, step))
    (h : step g t = some (g', t')) (hrunning : g'.exited = false) : ∃ e, t.exec e = some t' := by
  cases e with
  | readLine j reads =>
    cases he
    exact ⟨.readLine reads, congrArg (Option.map Prod.snd) (Session.readLine_globals h ⟨0, false⟩)⟩
  | tryStart j =>
    cases he
    refine ⟨.tryStart g.nserv, ?_⟩
    obtain ⟨hp, ⟨hroom, -, rfl⟩ | ⟨hfull, -, rfl⟩⟩ := Session.tryStart_cases h
    · exact Session.exec_tryStart_of_room hp hroom
    · exact Session.exec_tryStart_of_full hp hfull
  | quit j =>
    cases he
    obtain ⟨hq, -, rfl⟩ := Session.quit_cases h
    exact ⟨.quit, Session.exec_quit hq⟩
  | reply j written =>
    cases he
    obtain ⟨hp, hno, ⟨n, rfl, hn, -, rfl⟩ | ⟨rfl, rfl, -⟩⟩ := Session.reply_cases h
    · exact ⟨.reply n, Session.exec_reply hp hno hn⟩
    · cases hrunning
  | leave j =>
    cases he
    obtain ⟨hp, -, rfl⟩ := Session.leave_cases h
    exact ⟨.leave, Session.exec_leave hp⟩
  | close j success =>
    cases he
    obtain ⟨hp, ⟨rfl, -, rfl⟩ | ⟨rfl, rfl, -⟩⟩ := Session.close_cases h
    · exact ⟨.close, Session.exec_close hp⟩
    · cases hrunning
  | connect stack => cases he
  | acceptFails => cases he
  | createFails => cases he

/-- The threads of the server are sessions. -/
theorem session_of_reachable {s : Process} (hs : Reachable system s)
    (hrunning : s.shared.exited = false) :
    ∀ t ∈ s.threads, Reachable sessionSystem t := by
  induction hs with
  | init h =>
    obtain rfl := h
    simp [Process.initial]
  | @step s s' e _ h ih =>
    have hbefore : s.shared.exited = false := by
      by_contra hexited
      have hnone : exec s e = none := if_pos (by simpa using hexited)
      cases hnone.symm.trans h
    specialize ih hbefore
    rcases exec_cases h with ⟨stack, -, rfl⟩ | ⟨-, hthreads, -⟩ | ⟨i, step, he, hact⟩
    · exact ThreadPool.Pool.forall_spawn (.init ⟨stack, rfl⟩) ih
    · rwa [hthreads]
    · obtain ⟨t, t', ht, hstep, hset⟩ := ThreadPool.Pool.act_eq_some hact
      obtain ⟨se, hse⟩ := session_exec_of_threadStep he hstep hrunning
      have ht' : Reachable sessionSystem t' := (ih t (List.mem_of_getElem? ht)).step hse
      rw [hset]
      intro u hu
      rcases List.mem_or_eq_of_mem_set hu with hu | rfl
      · exact ih u hu
      · exact ht'

/-! ### A session and its stream -/

/-- What these calls of `read` leave of a stream. None of them fails, and they return 0 at the end of
the stream and only there. -/
def supply : List UInt8 → List ReadResult → Option (List UInt8)
  | stream, [] => some stream
  | stream, .data bytes :: reads =>
    if bytes.1 <+: stream then supply (stream.drop bytes.1.length) reads else none
  | stream, .eof :: reads => if stream = [] then supply stream reads else none
  | stream, .intr :: reads => supply stream reads
  | _, .error :: _ => none

/-- What `serve` did with a piece that `read_line` returned. -/
structure Turn where
  piece : List UInt8
  /-- The flag `start`. -/
  admitted : Bool
  /-- What `write` took of the answer, if `serve` did not leave its loop instead. -/
  reply : Option (List UInt8)
  /-- Whether `write` took all of the answer. -/
  complete : Bool
deriving DecidableEq

/-- A session, the stream of its client, and what was said. -/
structure Conversation where
  session : Session
  /-- All bytes that the client sends. -/
  stream : List UInt8
  /-- The bytes of the stream that `read` has not delivered. -/
  pending : List UInt8
  /-- What the last call of `read_line` returned. -/
  asked : List UInt8
  turns : List Turn
deriving DecidableEq

namespace Conversation

def initial (stack stream : List UInt8) : Conversation := ⟨.fresh stack, stream, stream, [], []⟩

def exec (c : Conversation) : SessionEvent → Option Conversation
  | .readLine reads =>
    (supply c.pending reads).bind fun pending =>
    (Server.readLine c.session.line c.session.unread reads maxLine).bind fun r =>
    (c.session.exec (.readLine reads)).map fun t =>
      { c with session := t, pending := pending, asked := r.line.take r.ret.toNat }
  | .quit =>
    (c.session.exec .quit).map fun t =>
      { c with session := t, turns := c.turns ++ [⟨c.asked, c.session.start, none, true⟩] }
  | .reply written =>
    (c.session.exec (.reply written)).map fun t =>
      { c with
        session := t
        turns := c.turns ++ [⟨c.asked, c.session.start, some (c.session.answer.take written),
          written = c.session.answer.length⟩] }
  | .tryStart nserv => (c.session.exec (.tryStart nserv)).map fun t => { c with session := t }
  | .leave => (c.session.exec .leave).map fun t => { c with session := t }
  | .close => (c.session.exec .close).map fun t => { c with session := t }

end Conversation

/-- The conversations with a client that sends any stream. -/
def conversationSystem : System Conversation SessionEvent :=
  .ofExec (fun c => ∃ stack stream, c = .initial stack stream) Conversation.exec

/-! ### Calls of `read` -/

variable {line unread pending pending' : List UInt8} {reads : List ReadResult}

/-- Calls of `read` either all deliver bytes or are interrupted, or there is one that does not. -/
theorem goes_or_split (reads : List ReadResult) :
    (∀ r ∈ reads, r.Goes) ∨
      ∃ ds r tail, reads = ds ++ r :: tail ∧ (∀ d ∈ ds, d.Goes) ∧ (r = .eof ∨ r = .error) := by
  induction reads with
  | nil => exact .inl (by simp)
  | cons r reads ih =>
    by_cases hr : r = .eof ∨ r = .error
    · exact .inr ⟨[], r, reads, rfl, by simp, hr⟩
    · have hgoes : r.Goes := not_or.mp hr
      rcases ih with hall | ⟨ds, r', tail, rfl, hds, hr'⟩
      · exact .inl (List.forall_mem_cons.mpr ⟨hgoes, hall⟩)
      · exact .inr ⟨r :: ds, r', tail, rfl, List.forall_mem_cons.mpr ⟨hgoes, hds⟩, hr'⟩

theorem supply_append {ds tail : List ReadResult} (hds : ∀ d ∈ ds, d.Goes)
    (h : supply pending (ds ++ tail) = some pending') :
    ∃ rest, pending = ds.flatMap ReadResult.bytes ++ rest ∧ supply rest tail = some pending' := by
  induction ds generalizing pending with
  | nil => exact ⟨pending, rfl, h⟩
  | cons r ds ih =>
    obtain ⟨hr, htail⟩ := List.forall_mem_cons.mp hds
    rw [List.cons_append] at h
    cases r with
    | data bytes =>
      obtain ⟨⟨rest, hrest⟩, h⟩ := Option.ite_none_right_eq_some.mp h
      rw [← hrest, List.drop_left] at h
      obtain ⟨rest', rfl, hsupply⟩ := ih htail h
      exact ⟨rest', by rw [← hrest, List.flatMap_cons, List.append_assoc]; rfl, hsupply⟩
    | intr => exact ih htail h
    | eof => exact absurd rfl hr.1
    | error => exact absurd rfl hr.2

theorem supply_nil (h : supply [] reads = some pending') : pending' = [] := by
  induction reads with
  | nil => exact (Option.some.inj h).symm
  | cons r reads ih =>
    cases r with
    | data bytes =>
      obtain ⟨hpart, -⟩ := Option.ite_none_right_eq_some.mp h
      have hpos := bytes.2.1
      rw [List.prefix_nil.mp hpart] at hpos
      exact absurd hpos (Nat.lt_irrefl 0)
    | eof => exact ih (Option.ite_none_right_eq_some.mp h).2
    | intr => exact ih h
    | error => cases h

/-- One call of `read_line` on a stream that `read` delivers without failing: it returns the next
piece, or 0 at the end of the stream. -/
theorem readLine_of_supply {r : LineRead} (h : readLine line unread reads maxLine = some r)
    (hused : r.reads = []) (hsupply : supply pending reads = some pending') :
    (unread ++ pending = [] ∧ r.ret = 0 ∧ r.unread ++ pending' = []) ∨
    (unread ++ pending ≠ [] ∧
      r.ret.toNat = (cutLine newline (maxLine - 1) (unread ++ pending)).1.length ∧
      r.line = terminated line (cutLine newline (maxLine - 1) (unread ++ pending)).1 ∧
      r.unread ++ pending' = (cutLine newline (maxLine - 1) (unread ++ pending)).2) := by
  rw [readLine] at h
  have hret (l : List UInt8) : (UInt32.ofNat (cutLine newline (maxLine - 1) l).1.length).toNat =
      (cutLine newline (maxLine - 1) l).1.length :=
    UInt32.toNat_ofNat_of_lt'
      (Nat.lt_of_le_of_lt (length_cutLine_le newline (maxLine - 1) l) (by decide))
  rcases goes_or_split reads with hall | ⟨ds, x, tail, rfl, hds, hx⟩
  · have hsupply' : supply pending (reads ++ []) = some pending' := by rwa [List.append_nil]
    obtain ⟨rest, rfl, hrest⟩ := supply_append hall hsupply'
    obtain rfl : rest = pending' := Option.some.inj hrest
    have hstream : unread ++ (reads.flatMap ReadResult.bytes ++ rest) =
        stream unread reads ++ rest := (List.append_assoc ..).symm
    rw [hstream]
    by_cases hhas : HasLine newline (maxLine - 1) (stream unread reads)
    · obtain ⟨unread', reads', heq, hcut, -⟩ := readLineLoop_of_hasLine line [] hall [] hhas
      rw [List.append_nil, List.append_nil] at heq
      obtain rfl := Option.some.inj (h.symm.trans heq)
      obtain rfl : reads' = [] := hused
      rw [stream_nil_right] at hcut
      rw [cutLine_append_of_hasLine hhas]
      refine .inr ⟨fun hnil => ?_, hret _, rfl, congrArg (· ++ rest) hcut⟩
      rw [(List.append_eq_nil_iff.mp hnil).1] at hhas
      exact hhas
    · rw [readLineLoop_eq_none line [] hall hhas] at h
      cases h
  · obtain ⟨rest, rfl, hrest⟩ := supply_append hds hsupply
    rcases hx with rfl | rfl
    · obtain ⟨rfl, hrest⟩ := Option.ite_none_right_eq_some.mp hrest
      obtain rfl := supply_nil hrest
      rw [List.append_nil]
      by_cases hhas : HasLine newline (maxLine - 1) (stream unread ds)
      · obtain ⟨unread', reads', heq, -, -⟩ :=
          readLineLoop_of_hasLine line [] hds (.eof :: tail) hhas
        obtain rfl := Option.some.inj (h.symm.trans heq)
        exact absurd hused (by simp)
      · obtain ⟨room, -, heq⟩ := readLineLoop_of_not_hasLine line [] hds (.eof :: tail) hhas
        rw [heq, List.nil_append, readLineLoop, readFromBuf, Option.bind_some] at h
        have hcut : cutLine newline (maxLine - 1) (unread ++ ds.flatMap ReadResult.bytes) =
            (stream unread ds, []) := cutLine_of_not_hasLine hhas
        by_cases hnil : stream unread ds = []
        · rw [hnil] at h
          obtain rfl := Option.some.inj h
          exact .inl ⟨hnil, rfl, rfl⟩
        · have hne : (stream unread ds).isEmpty = false := by simpa using hnil
          simp only [hne] at h
          obtain rfl := Option.some.inj h
          have hlen := hret (unread ++ ds.flatMap ReadResult.bytes)
          rw [hcut] at hlen ⊢
          exact .inr ⟨hnil, hlen, rfl, rfl⟩
    · cases hrest

/-! ### What serve does with a piece -/

theorem cString_terminated (line got : List UInt8) : cString (terminated line got) = cString got := by
  rw [terminated, cString, cString]
  generalize line.drop (got.length + 1) = rest
  induction got with
  | nil => rfl
  | cons c got ih =>
    rw [List.cons_append, List.takeWhile_cons, List.takeWhile_cons]
    split
    · exact congrArg (c :: ·) ih
    · rfl

/-- A piece that compares equal to `":q\n"` is this line, as nothing follows the newline. -/
theorem eq_quitLine_of_cString {piece : List UInt8} (hmark : newline ∉ piece.dropLast)
    (h : cString piece = quitLine) : piece = quitLine := by
  obtain ⟨rest, hrest⟩ := cString_isPrefix piece
  rw [h] at hrest
  subst hrest
  rcases List.eq_nil_or_concat rest with rfl | ⟨rest, c, rfl⟩
  · exact List.append_nil quitLine
  · refine absurd ?_ hmark
    rw [List.concat_eq_append, ← List.append_assoc, List.dropLast_concat]
    exact List.mem_append_left rest (by decide)

/-- The answer to a piece. -/
def answerTo (piece : List UInt8) (admitted : Bool) : List UInt8 :=
  if admitted then (cString piece).map caesar else waitLine

/-- `serve` leaves its loop at the line `":q\n"` of a client that is served, and otherwise writes
the answer. -/
def Turn.Serves (t : Turn) : Prop :=
  if t.admitted ∧ cString t.piece = quitLine then t.reply = none ∧ t.complete = true
  else ∃ n ≤ (answerTo t.piece t.admitted).length,
    t.reply = some ((answerTo t.piece t.admitted).take n) ∧
      (t.complete = true ↔ n = (answerTo t.piece t.admitted).length)

/-- A piece was read, and `serve` has not done with it. -/
def Place.InHand (p : Place) : Prop := p = .admitting ∨ p = .answering

/-- In the loop of `serve`. -/
def Place.InLoop (p : Place) : Prop := p = .reading ∨ p.InHand

instance (p : Place) : Decidable p.InHand := inferInstanceAs (Decidable (_ ∨ _))

instance (p : Place) : Decidable p.InLoop := inferInstanceAs (Decidable (_ ∨ _))

namespace Conversation

/-- The pieces that were read and are not answered yet: one or none. -/
def inHand (c : Conversation) : List (List UInt8) := if c.session.place.InHand then [c.asked] else []

/-- The turns are about the pieces of the stream, in order. -/
structure WellFramed (c : Conversation) : Prop where
  framed : cutLines newline (maxLine - 1) c.stream = c.turns.map Turn.piece ++ (c.inHand ++
    cutLines newline (maxLine - 1) (c.session.unread ++ c.pending))
  asked : c.session.place.InHand → cString c.session.line = cString c.asked
  serves : ∀ t ∈ c.turns, t.Serves
  answered : ∀ t ∈ c.turns.dropLast, t.reply ≠ none
  inLoop : c.session.place.InLoop → ∀ t ∈ c.turns, t.reply ≠ none
  /-- `serve` leaves its loop at a turn without a reply, or at the end of the stream. -/
  ended : ¬c.session.place.InLoop →
    (∃ ts t, c.turns = ts ++ [t] ∧ t.reply = none) ∨ c.session.unread ++ c.pending = []
  sent : c.session.sent = c.turns.flatMap fun t => t.reply.getD []

variable {c c' : Conversation}

theorem wellFramed_initial (stack bytes : List UInt8) : (initial stack bytes).WellFramed := by
  refine ⟨?_, ?_, ?_, ?_, ?_, ?_, rfl⟩
  · simp [initial, inHand, Session.fresh, Place.InHand]
  · intro h
    exact absurd h (by simp [initial, Session.fresh, Place.InHand])
  · simp [initial]
  · simp [initial]
  · simp [initial]
  · intro h
    exact absurd (.inl rfl) h

theorem inHand_of_not (h : ¬c.session.place.InHand) : c.inHand = [] := if_neg h

theorem inHand_of (h : c.session.place.InHand) : c.inHand = [c.asked] := if_pos h

theorem not_inHand_reading : ¬Place.reading.InHand := by simp [Place.InHand]

/-- `read_line` has returned the next piece, or the stream is at its end. -/
theorem WellFramed.readLine (hc : c.WellFramed) {reads : List ReadResult}
    (h : c.exec (.readLine reads) = some c') : c'.WellFramed := by
  obtain ⟨pending, hsupply, h⟩ := Option.bind_eq_some_iff.mp h
  obtain ⟨r, hr, h⟩ := Option.bind_eq_some_iff.mp h
  obtain ⟨t, ht, rfl⟩ := Option.map_eq_some_iff.mp h
  obtain ⟨hp, r', hr', hused, ht⟩ := Session.exec_readLine_cases ht
  obtain rfl : r = r' := Option.some.inj (hr.symm.trans hr')
  have hbefore : ¬c.session.place.InHand := by
    rw [hp]
    exact not_inHand_reading
  have hanswered : ∀ t ∈ c.turns, t.reply ≠ none := hc.inLoop (.inl hp)
  have hframed := hc.framed
  rw [inHand_of_not hbefore, List.nil_append] at hframed
  rcases readLine_of_supply hr hused hsupply with ⟨hend, hret, hrest⟩ | ⟨hne, hret, hline, hrest⟩
  · -- the end of the stream
    rcases ht with ⟨hpos, -⟩ | ⟨-, rfl⟩
    · rw [hret] at hpos
      exact absurd hpos (by decide)
    · refine ⟨?_, ?_, hc.serves, hc.answered, fun _ => hanswered, fun _ => .inr hrest, hc.sent⟩
      · dsimp only
        rw [hframed, hend, hrest, inHand_of_not (by simp [Place.InHand]), List.nil_append]
      · intro h
        exact absurd h (by simp [Place.InHand])
  · -- a piece
    rcases ht with ⟨-, rfl⟩ | ⟨hzero, -⟩
    · set piece := (cutLine newline (maxLine - 1) (c.session.unread ++ c.pending)).1 with hpiece
      have hasked : r.line.take r.ret.toNat = piece := by
        rw [hret, hline, terminated, List.take_left]
      have hplace : Place.InHand (if c.session.start then .answering else .admitting) := by
        split
        · exact .inr rfl
        · exact .inl rfl
      refine ⟨?_, fun _ => ?_, hc.serves, hc.answered, fun _ => hanswered, fun h => ?_, hc.sent⟩
      · dsimp only
        rw [inHand_of hplace, hframed, cutLines_of_ne_nil (by decide) hne, hrest, hasked]
        rfl
      · dsimp only
        rw [hasked, hline, cString_terminated]
      · exact absurd (.inr hplace) h
    · rw [hzero] at hret
      exact absurd (List.eq_nil_of_length_eq_zero hret.symm) (cutLine_ne_nil (by decide) hne)

/-- The section under the mutex in the loop. -/
theorem WellFramed.tryStart (hc : c.WellFramed) {nserv : ℤ}
    (h : c.exec (.tryStart nserv) = some c') : c'.WellFramed := by
  obtain ⟨t, ht, rfl⟩ := Option.map_eq_some_iff.mp h
  obtain ⟨⟨g, u⟩, hstart, rfl⟩ := Option.map_eq_some_iff.mp ht
  have hshape : c.session.place = .admitting ∧
      ∃ start, u = { c.session with start := start, place := .answering } := by
    obtain ⟨hp, ⟨-, -, rfl⟩ | ⟨-, -, rfl⟩⟩ := Session.tryStart_cases hstart
    · exact ⟨hp, true, rfl⟩
    · exact ⟨hp, c.session.start, rfl⟩
  obtain ⟨hp, start, rfl⟩ := hshape
  have hbefore : c.session.place.InHand := .inl hp
  have hafter : Place.answering.InHand := .inr rfl
  refine ⟨?_, fun _ => hc.asked hbefore, hc.serves, hc.answered, fun _ => hc.inLoop (.inr hbefore),
    fun h => absurd (.inr hafter) h, hc.sent⟩
  have hframed := hc.framed
  rw [inHand_of hbefore] at hframed
  rw [inHand_of hafter]
  exact hframed

/-- The piece in hand becomes a turn. -/
theorem WellFramed.turn (hc : c.WellFramed) (hp : c.session.place = .answering) {t : Turn}
    (ht : t.Serves) (hpiece : t.piece = c.asked) {u : Session} (hunread : u.unread = c.session.unread)
    (hplace : u.place = if t.reply = none then .leaving else .reading)
    (hsent : u.sent = c.session.sent ++ t.reply.getD []) :
    WellFramed { c with session := u, turns := c.turns ++ [t] } := by
  have hbefore : c.session.place.InHand := .inr hp
  have hanswered : ∀ t ∈ c.turns, t.reply ≠ none := hc.inLoop (.inr hbefore)
  have hafter : ¬u.place.InHand := by
    rw [hplace]
    split <;> simp [Place.InHand]
  have hframed := hc.framed
  rw [inHand_of hbefore] at hframed
  refine ⟨?_, fun h => absurd h hafter, ?_, ?_, ?_, ?_, ?_⟩
  · rw [inHand_of_not hafter]
    dsimp only
    rw [hframed, hunread, List.map_append, List.map_singleton, hpiece, List.append_assoc,
      List.nil_append]
  · intro t' ht'
    rcases List.mem_append.mp ht' with ht' | ht'
    · exact hc.serves t' ht'
    · rwa [List.mem_singleton.mp ht']
  · rw [List.dropLast_concat]
    exact hanswered
  · intro hloop t' ht'
    rcases List.mem_append.mp ht' with ht' | ht'
    · exact hanswered t' ht'
    · rw [List.mem_singleton.mp ht']
      intro hnone
      rw [if_pos hnone] at hplace
      simp [hplace, Place.InLoop, Place.InHand] at hloop
  · intro hover
    refine .inl ⟨c.turns, t, rfl, ?_⟩
    by_contra hsome
    rw [if_neg hsome] at hplace
    exact hover (.inl hplace)
  · dsimp only
    rw [hsent, List.flatMap_append, List.flatMap_singleton, hc.sent]

theorem WellFramed.quit (hc : c.WellFramed) (h : c.exec .quit = some c') : c'.WellFramed := by
  obtain ⟨u, hu, rfl⟩ := Option.map_eq_some_iff.mp h
  obtain ⟨⟨g, u⟩, hquit, rfl⟩ := Option.map_eq_some_iff.mp hu
  obtain ⟨⟨hp, hstart, hline⟩, -, rfl⟩ := Session.quit_cases hquit
  refine hc.turn hp ?_ rfl rfl rfl (List.append_nil _).symm
  rw [hc.asked (.inr hp)] at hline
  rw [Turn.Serves, if_pos ⟨hstart, hline⟩]
  exact ⟨rfl, rfl⟩

theorem WellFramed.reply (hc : c.WellFramed) {written : ℕ}
    (h : c.exec (.reply written) = some c') : c'.WellFramed := by
  obtain ⟨u, hu, rfl⟩ := Option.map_eq_some_iff.mp h
  obtain ⟨⟨g, u⟩, hreply, rfl⟩ := Option.map_eq_some_iff.mp hu
  obtain ⟨hp, hno, ⟨n, hn, hle, -, rfl⟩ | ⟨hn, -⟩⟩ := Session.reply_cases hreply
  · obtain rfl := Option.some.inj hn
    have hanswer : c.session.answer = answerTo c.asked c.session.start := by
      rw [Session.answer, answerTo, hc.asked (.inr hp)]
    refine hc.turn hp ?_ rfl rfl rfl rfl
    rw [hc.asked (.inr hp)] at hno
    rw [Turn.Serves, if_neg hno, ← hanswer]
    exact ⟨written, hle, rfl, decide_eq_true_iff⟩
  · cases hn

/-- The steps behind the loop. -/
theorem WellFramed.leaves (hc : c.WellFramed) {u : Session} (hbefore : ¬c.session.place.InLoop)
    (hafter : ¬u.place.InLoop) (hunread : u.unread = c.session.unread)
    (hsent : u.sent = c.session.sent) : WellFramed { c with session := u } := by
  have hframed := hc.framed
  rw [inHand_of_not fun h => hbefore (.inr h)] at hframed
  refine ⟨?_, fun h => absurd (.inr h) hafter, hc.serves, hc.answered, fun h => absurd h hafter,
    fun _ => ?_, hsent.trans hc.sent⟩
  · rw [inHand_of_not fun h => hafter (.inr h)]
    dsimp only
    rw [hframed, hunread]
  · dsimp only
    rw [hunread]
    exact hc.ended hbefore

/-- The turns are about the pieces of the stream, in order, in every conversation. -/
theorem wellFramed_of_reachable (h : Reachable conversationSystem c) : c.WellFramed := by
  refine h.invariant (fun c hinit => ?_) fun c e c' _ hc h => ?_
  · obtain ⟨stack, bytes, rfl⟩ := hinit
    exact wellFramed_initial stack bytes
  · cases e with
    | readLine reads => exact hc.readLine h
    | tryStart nserv => exact hc.tryStart h
    | quit => exact hc.quit h
    | reply written => exact hc.reply h
    | leave =>
      obtain ⟨u, hu, rfl⟩ := Option.map_eq_some_iff.mp h
      obtain ⟨⟨g, u⟩, hleave, rfl⟩ := Option.map_eq_some_iff.mp hu
      obtain ⟨hp, -, rfl⟩ := Session.leave_cases hleave
      exact hc.leaves (by rw [hp]; decide) (by simp [Place.InLoop, Place.InHand]) rfl rfl
    | close =>
      obtain ⟨u, hu, rfl⟩ := Option.map_eq_some_iff.mp h
      obtain ⟨⟨g, u⟩, hclose, rfl⟩ := Option.map_eq_some_iff.mp hu
      obtain ⟨hp, ⟨-, -, rfl⟩ | ⟨hfail, -⟩⟩ := Session.close_cases hclose
      · exact hc.leaves (by rw [hp]; decide) (by simp [Place.InLoop, Place.InHand]) rfl rfl
      · cases hfail

end Conversation

end OsProject.Server
