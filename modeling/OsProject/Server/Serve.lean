import OsProject.Lib.ThreadPool
import OsProject.Server.General

/-!
# The threads of the server

`main` of `server.c` accepts connections and starts a thread `serve` for each of them. The threads
share the counter `nserv` of the clients that are served, which they read and write under a mutex.
The model is a pool of threads: a thread is at one of the places of `serve` listed in `Place`, each
section under the mutex is one step, and so is each call of `read_line`, each answer and each call
of `close`. The steps of different threads interleave in any order.

A failing `write`, `close` or `pthread_create` ends the whole process.

## Main definitions

* `Session`, `Globals`, `Process` — the locals of a thread, the shared variables, the process.
* `Session.readLine`, `Session.tryStart`, `Session.reply`, `Session.quit`, `Session.leave`,
  `Session.close` — the steps of `serve`.
* `Event`, `exec`, `system` — the steps of the process.
-/

namespace OsProject.Server

open ThreadPool

/-- `MAXCLIBUF`, the number of clients that are served at the same time. -/
def maxCliBuf : ℤ := 2

/-- `CAESAR_SHIFT`. -/
def caesarShift : UInt8 := 3

/-- The places of `serve` between its steps. -/
inductive Place
  /-- Before the call of `read_line`. -/
  | reading
  /-- A line was read while `start == 0`; before the section under the mutex in the loop. -/
  | admitting
  /-- Before the test of `start` that chooses the answer. -/
  | answering
  /-- Out of the loop; before the section under the mutex with `nserv--`. -/
  | leaving
  /-- Before `Close(newsockfd)`. -/
  | closing
  /-- The thread has returned. -/
  | done
deriving Repr, DecidableEq

/-- The local state of a thread that runs `serve`: its place, the flag `start`, the bytes in
`buffer` that were not yet consumed, the array `line`, and the bytes written to the socket. -/
structure Session where
  place : Place
  start : Bool
  unread : List UInt8
  line : List UInt8
  sent : List UInt8
deriving Repr, DecidableEq

/-- The globals: `nserv`, and whether the process has called `exit`. -/
structure Globals where
  nserv : ℤ
  exited : Bool
deriving Repr, DecidableEq

/-- The process: the globals and its threads. -/
abbrev Process := Pool Globals Session

/-- `nserv` is 0 and there is no thread yet. -/
def Process.initial : Process := ⟨⟨0, false⟩, []⟩

/-- The encryption of one character. -/
def caesar (c : UInt8) : UInt8 :=
  if 97 ≤ c ∧ c ≤ 122 then (c - 97 + caesarShift) % 26 + 97
  else if 65 ≤ c ∧ c ≤ 90 then (c - 65 + caesarShift) % 26 + 65
  else c

/-- A property of all bytes, checked for each of them. -/
theorem forall_byte {P : UInt8 → Prop} (h : ∀ n : Fin 256, P (UInt8.ofNat n)) (c : UInt8) : P c := by
  have := h ⟨c.toNat, c.toNat_lt⟩
  rwa [UInt8.ofNat_toNat] at this

/-- The string `":q\n"`. -/
def quitLine : List UInt8 := [58, 113, newline]

/-- The string `"Please wait...\n"`. -/
def waitLine : List UInt8 :=
  [80, 108, 101, 97, 115, 101, 32, 119, 97, 105, 116, 46, 46, 46, newline]

/-- Replace the C string at the start of an array by another one. -/
def putString (line str : List UInt8) : List UInt8 :=
  str ++ 0 :: line.drop (str.length + 1)

namespace Session

/-- A thread that starts, with the contents `stack` of the uninitialised array `line`. -/
def fresh (stack : List UInt8) : Session := ⟨.reading, false, [], stack, []⟩

/-- The test of the loop: `read_line(buffer, &cnt, &bptr, newsockfd, line, MAXLINE) > 0`, where the
result is unsigned. The call uses all of `reads`. -/
def readLine (reads : List ReadResult) (g : Globals) (t : Session) :
    Option (Globals × Session) :=
  if t.place = .reading then
    (Server.readLine t.line t.unread reads maxLine).bind fun r =>
      if r.reads.isEmpty then
        let t := { t with line := r.line, unread := r.unread }
        if 0 < r.ret then
          some (g, { t with place := if t.start then .answering else .admitting })
        else some (g, { t with place := .leaving })
      else none
  else none

/-- The section under the mutex in the loop: admit the client if there is room. -/
def tryStart (g : Globals) (t : Session) : Option (Globals × Session) :=
  if t.place = .admitting then
    if g.nserv < maxCliBuf then
      some ({ g with nserv := g.nserv + 1 }, { t with start := true, place := .answering })
    else some (g, { t with place := .answering })
  else none

/-- The line is `":q\n"` and the client is served: leave the loop. -/
def quit (g : Globals) (t : Session) : Option (Globals × Session) :=
  if t.place = .answering ∧ t.start ∧ cString t.line = quitLine then
    some (g, { t with place := .leaving })
  else none

/-- What `serve` writes in answer to a line: its encryption if the client is served, and otherwise
the request to wait. -/
def answer (t : Session) : List UInt8 :=
  if t.start then (cString t.line).map caesar else waitLine

/-- Put the answer into the array `line` and write it to the socket. The call of `write` takes
`written` bytes, or fails and ends the process. -/
def reply (written : Option ℕ) (g : Globals) (t : Session) : Option (Globals × Session) :=
  if t.place = .answering ∧ ¬(t.start ∧ cString t.line = quitLine) then
    let answer := t.answer
    let t := { t with line := putString t.line answer }
    match written with
    | some n =>
      if n ≤ answer.length then
        some (g, { t with sent := t.sent ++ answer.take n, place := .reading })
      else none
    | none => some ({ g with exited := true }, t)
  else none

/-- The section under the mutex after the loop. -/
def leave (g : Globals) (t : Session) : Option (Globals × Session) :=
  if t.place = .leaving then
    some ({ g with nserv := g.nserv - 1 }, { t with place := .closing })
  else none

/-- `Close(newsockfd)`, which ends the process if `close` fails. -/
def close (success : Bool) (g : Globals) (t : Session) : Option (Globals × Session) :=
  if t.place = .closing then
    if success then some (g, { t with place := .done })
    else some ({ g with exited := true }, t)
  else none

/-! What the steps do. -/

variable {g g' : Globals} {t t' : Session}

theorem readLine_cases {reads : List ReadResult} (h : readLine reads g t = some (g', t')) :
    g' = g ∧ t.place = .reading ∧ t'.start = t.start ∧ t'.sent = t.sent ∧
      (t'.place = (if t.start then .answering else .admitting) ∨ t'.place = .leaving) := by
  rw [readLine] at h
  split at h
  · next hp =>
    obtain ⟨r, -, h⟩ := Option.bind_eq_some_iff.mp h
    split at h
    · split at h
      · cases h; exact ⟨rfl, hp, rfl, rfl, .inl rfl⟩
      · cases h; exact ⟨rfl, hp, rfl, rfl, .inr rfl⟩
    · cases h
  · cases h

/-- `read_line` has nothing to do with the globals. -/
theorem readLine_globals {reads : List ReadResult} (h : readLine reads g t = some (g', t'))
    (k : Globals) : readLine reads k t = some (k, t') := by
  rw [readLine] at h ⊢
  split at h
  · next hp =>
    obtain ⟨r, hr, h⟩ := Option.bind_eq_some_iff.mp h
    rw [if_pos hp, hr, Option.bind_some]
    split at h
    · next hused =>
      rw [if_pos hused]
      dsimp only at h ⊢
      split at h
      · next hret => cases h; exact if_pos hret
      · next hret => cases h; exact if_neg hret
    · cases h
  · cases h

theorem tryStart_cases (h : tryStart g t = some (g', t')) :
    t.place = .admitting ∧
      ((g.nserv < maxCliBuf ∧ g' = { g with nserv := g.nserv + 1 } ∧
          t' = { t with start := true, place := .answering }) ∨
        (¬g.nserv < maxCliBuf ∧ g' = g ∧ t' = { t with place := .answering })) := by
  rw [tryStart] at h
  split at h
  · next hp =>
    refine ⟨hp, ?_⟩
    split at h
    · next hlt => cases h; exact .inl ⟨hlt, rfl, rfl⟩
    · next hlt => cases h; exact .inr ⟨hlt, rfl, rfl⟩
  · cases h

theorem quit_cases (h : quit g t = some (g', t')) :
    (t.place = .answering ∧ t.start ∧ cString t.line = quitLine) ∧
      g' = g ∧ t' = { t with place := .leaving } := by
  rw [quit] at h
  split at h
  · next hq => cases h; exact ⟨hq, rfl, rfl⟩
  · cases h

theorem reply_cases {written : Option ℕ} (h : reply written g t = some (g', t')) :
    t.place = .answering ∧ ¬(t.start ∧ cString t.line = quitLine) ∧
      ((∃ n, written = some n ∧ n ≤ t.answer.length ∧ g' = g ∧
          t' = { t with
            line := putString t.line t.answer
            sent := t.sent ++ t.answer.take n
            place := .reading }) ∨
        (written = none ∧ g' = { g with exited := true } ∧
          t' = { t with line := putString t.line t.answer })) := by
  rw [reply] at h
  split at h
  · next hr =>
    refine ⟨hr.1, hr.2, ?_⟩
    dsimp only at h
    split at h
    · split at h
      · next n hn => cases h; exact .inl ⟨n, rfl, hn, rfl, rfl⟩
      · cases h
    · cases h; exact .inr ⟨rfl, rfl, rfl⟩
  · cases h

theorem leave_cases (h : leave g t = some (g', t')) :
    t.place = .leaving ∧ g' = { g with nserv := g.nserv - 1 } ∧
      t' = { t with place := .closing } := by
  rw [leave] at h
  split at h
  · next hp => cases h; exact ⟨hp, rfl, rfl⟩
  · cases h

theorem close_cases {success : Bool} (h : close success g t = some (g', t')) :
    t.place = .closing ∧
      ((success = true ∧ g' = g ∧ t' = { t with place := .done }) ∨
        (success = false ∧ g' = { g with exited := true } ∧ t' = t)) := by
  rw [close] at h
  split at h
  · next hp =>
    refine ⟨hp, ?_⟩
    split at h
    · next hs => cases h; exact .inl ⟨hs, rfl, rfl⟩
    · next hs => cases h; exact .inr ⟨by simpa using hs, rfl, rfl⟩
  · cases h

end Session

/-- The steps of the process. Those of `serve` are taken by the thread with the given number. -/
inductive Event
  /-- `accept` gives a connection and `pthread_create` starts its thread. -/
  | connect (stack : List UInt8)
  /-- `accept` fails; the loop goes on. -/
  | acceptFails
  /-- `pthread_create` fails. -/
  | createFails
  | readLine (i : ℕ) (reads : List ReadResult)
  | tryStart (i : ℕ)
  | quit (i : ℕ)
  | reply (i : ℕ) (written : Option ℕ)
  | leave (i : ℕ)
  | close (i : ℕ) (success : Bool)
deriving DecidableEq

/-- The step of `serve` that an event is, after the number of the thread that takes it. -/
def Event.threadStep : Event → Option (ℕ × (Globals → Session → Option (Globals × Session)))
  | .connect _ | .acceptFails | .createFails => none
  | .readLine i reads => some (i, Session.readLine reads)
  | .tryStart i => some (i, Session.tryStart)
  | .quit i => some (i, Session.quit)
  | .reply i written => some (i, Session.reply written)
  | .leave i => some (i, Session.leave)
  | .close i success => some (i, Session.close success)

/-- One step of the process, as long as it has not exited. -/
def exec (s : Process) (e : Event) : Option Process :=
  if s.shared.exited then none
  else
    match e with
    | .connect stack => some (s.spawn (Session.fresh stack))
    | .acceptFails => some s
    | .createFails => some { s with shared := { s.shared with exited := true } }
    | e => e.threadStep.bind fun (i, step) => s.act step i

/-- The server: all interleavings of the steps of its threads and of `main`. -/
def system : Transition.System Process Event := .ofExec (· = Process.initial) exec

/-- What a step of the process does: `main` starts a thread, or leaves the threads and the counter
as they are, or a thread takes a step of `serve`. -/
theorem exec_cases {s t : Process} {e : Event} (h : exec s e = some t) :
    (∃ stack, e = .connect stack ∧ t = s.spawn (Session.fresh stack)) ∨
    (e.threadStep = none ∧ t.threads = s.threads ∧ t.shared.nserv = s.shared.nserv) ∨
    (∃ i step, e.threadStep = some (i, step) ∧ s.act step i = some t) := by
  unfold exec at h
  split at h
  · cases h
  · split at h
    · cases h; exact .inl ⟨_, rfl, rfl⟩
    · cases h; exact .inr (.inl ⟨rfl, rfl, rfl⟩)
    · cases h; exact .inr (.inl ⟨rfl, rfl, rfl⟩)
    · obtain ⟨⟨i, step⟩, he, h⟩ := Option.bind_eq_some_iff.mp h
      exact .inr (.inr ⟨i, step, he, h⟩)

end OsProject.Server
