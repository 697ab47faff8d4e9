import OsProject.Server.ReadLine
import OsProject.Server.Serve

/-!
# The client and its connection

The loop of `main` of `client.c`, put together with the thread of the server that serves the client
and with the two byte streams between them. The client reads a piece of its input with `fgets`,
patches the end of the array, writes the C string in it to the socket and waits in `read` for an
answer, which it prints. Calls of `read` on either side return any part of what is there, or are
interrupted; calls of `write` are complete, and the connection does not fail. The counter `nserv` is
also written by the other threads of the server, at any time.

A step of the server in `read_line` is one call of `read`. The call that completes the line also
returns from `read_line`.

## Main definitions

* `fgetsLine`, `sendBuffer`, `request` — what the client makes of its input.
* `Pair` — the client, its thread and the bytes under way.
* `PairEvent`, `Pair.exec`, `pairSystem` — the steps.

Source: `client.c`, `general.h`.
-/

namespace OsProject.Server

open LineStream

/-! ### The loop of the client -/

/-- `fgets(buffer, MAXBUFFER, stdin)`: the bytes it stores, and the rest of the input. None are
stored at the end of the input. -/
def fgetsLine (stdin : List UInt8) : List UInt8 × List UInt8 := cutLine newline (maxBuffer - 1) stdin

/-- The array after `fgets`, which appends a NUL to the bytes it stores and leaves the array alone if
there are none. -/
def fgets (buffer stdin : List UInt8) : List UInt8 :=
  if (fgetsLine stdin).1.isEmpty then buffer else putString buffer (fgetsLine stdin).1

/-- The array `buffer` when it is written: zeroed, filled by `fgets` and patched. -/
def sendBuffer (stdin : List UInt8) : List UInt8 :=
  let buffer := List.replicate maxBuffer 0
  let buffer := fgets buffer stdin
  let buffer := buffer.set (maxBuffer - 1) 0
  buffer.set (maxBuffer - 2) newline

/-- The bytes that are written, `strlen(buffer)` of them. -/
def request (stdin : List UInt8) : List UInt8 := cString (sendBuffer stdin)

/-- The zeroed array `receive` after a `read` into it. -/
def receiveBuffer (bytes : List UInt8) : List UInt8 :=
  bytes ++ List.replicate (maxBuffer - bytes.length) 0

/-- The places of the client in its loop. -/
inductive ClientPlace
  /-- Before `fgets`. -/
  | typing
  /-- In the `read` that waits for an answer. -/
  | waiting
  /-- Out of the loop, after a `read` that returned 0. -/
  | done
deriving Repr, DecidableEq

/-! ### The connection -/

/-- The client, the thread that serves it and the bytes between them. -/
structure Pair where
  /-- The input that is not read yet. -/
  stdin : List UInt8
  client : ClientPlace
  /-- The arrays `receive` that were handed to `printf`, in order. -/
  printed : List (List UInt8)
  /-- The bytes that the client wrote and the server has not read. -/
  toServer : List UInt8
  globals : Globals
  server : Session
  /-- The calls of `read` that the current call of `read_line` has made. -/
  reads : List ReadResult
  /-- The number of bytes of `server.sent` that the client has read. -/
  received : ℕ
deriving DecidableEq

namespace Pair

/-- The connection is accepted; `nserv` and the uninitialised array `line` have any value. -/
def initial (stdin : List UInt8) (nserv : ℤ) (stack : List UInt8) : Pair where
  stdin := stdin
  client := .typing
  printed := []
  toServer := []
  globals := ⟨nserv, false⟩
  server := .fresh stack
  reads := []
  received := 0

/-- The bytes that the server wrote and the client has not read. -/
def toClient (s : Pair) : List UInt8 := s.server.sent.drop s.received

/-- The bytes that the client wrote and the server has not taken from the stream yet. -/
def upstream (s : Pair) : List UInt8 := stream s.server.unread s.reads ++ s.toServer

/-- A step of `serve` other than `read_line`. -/
def serve (step : Globals → Session → Option (Globals × Session)) (s : Pair) : Option Pair :=
  (step s.globals s.server).map fun r => { s with globals := r.1, server := r.2 }

/-- The server is in a call of `read`: it is in `read_line`, and the calls of `read` so far do not
make a line. -/
def Reading (s : Pair) : Prop :=
  s.server.place = .reading ∧ Server.readLine s.server.line s.server.unread s.reads maxLine = none

instance (s : Pair) : Decidable s.Reading := inferInstanceAs (Decidable (_ ∧ _))

/-- The call of `read` may have this outcome now. The stream ends when the client has closed the
socket. -/
def Offers (s : Pair) : ReadResult → Prop
  | .data bytes => bytes.1 <+: s.toServer
  | .eof => s.client = .done ∧ s.toServer = []
  | .intr => True
  | .error => False

instance (s : Pair) (r : ReadResult) : Decidable (s.Offers r) := by
  cases r <;> dsimp only [Offers] <;> infer_instance

/-- `read_line` returns if it can. -/
def returnLine (s : Pair) : Pair :=
  match Session.readLine s.reads s.globals s.server with
  | some (g, t) => { s with globals := g, server := t, reads := [] }
  | none => s

end Pair

/-- The steps of the client and of its thread. -/
inductive PairEvent
  /-- The client reads a piece of its input, and writes it to the socket. -/
  | type
  /-- `read` returns so many bytes to the client, which prints them. -/
  | clientRead (n : ℕ)
  /-- `read` returns 0 to the client. -/
  | clientEof
  /-- A call of `read` by the server. -/
  | serverRead (r : ReadResult)
  /-- `read_line` returns a line that is in the buffer already. -/
  | nextLine
  | tryStart
  | quit
  | reply
  | leave
  | close
  /-- Other threads write `nserv`. -/
  | others (nserv : ℤ)
deriving DecidableEq

namespace Pair

def exec (s : Pair) : PairEvent → Option Pair
  | .type =>
    if s.client = .typing then
      some { s with
        stdin := (fgetsLine s.stdin).2
        client := .waiting
        toServer := s.toServer ++ request s.stdin }
    else none
  | .clientRead n =>
    if s.client = .waiting ∧ 0 < n ∧ n ≤ maxBuffer ∧ n ≤ s.toClient.length then
      some { s with
        client := .typing
        printed := s.printed ++ [receiveBuffer (s.toClient.take n)]
        received := s.received + n }
    else none
  | .clientEof =>
    if s.client = .waiting ∧ s.toClient = [] ∧ s.server.place = .done then
      some { s with client := .done }
    else none
  | .serverRead r =>
    if s.Reading ∧ s.Offers r then
      some { s with
        toServer := s.toServer.drop r.bytes.length
        reads := s.reads ++ [r] }.returnLine
    else none
  | .nextLine =>
    if s.server.place = .reading ∧ s.reads = [] ∧ ¬s.Reading then some s.returnLine else none
  | .tryStart => s.serve Session.tryStart
  | .quit => s.serve Session.quit
  | .reply => s.serve (Session.reply (some s.server.answer.length))
  | .leave => s.serve Session.leave
  | .close => s.serve (Session.close true)
  | .others nserv => some { s with globals := { s.globals with nserv := nserv } }

end Pair

/-- A client with any input, and its thread. -/
def pairSystem : Transition.System Pair PairEvent :=
  .ofExec (fun s => ∃ stdin nserv stack, s = .initial stdin nserv stack) Pair.exec

end OsProject.Server
