import Mathlib.Data.List.Basic
import Mathlib.Data.UInt

/-!
# Reading lines from a socket

`read_from_buf` and `read_line` of `general.h`, the header that the server and the client share.
A call of `read` may deliver up to `MAXBUFFER` bytes, the end of the stream, an interruption by a
signal or another error. The functions here are given the outcomes of the `read` calls that they
make, and use them up in order; they have no result while they wait for another one.
-/

namespace OsProject.Server

/-- `MAXBUFFER`, the size of the buffer that `read` fills. -/
def maxBuffer : ℕ := 256

/-- `MAXLINE`, the size of the array for one line. -/
def maxLine : ℕ := 256

/-- The outcome of one call of `read(fd, buffer, MAXBUFFER)`. -/
inductive ReadResult
  /-- A positive number of bytes. -/
  | data (bytes : { l : List UInt8 // 0 < l.length ∧ l.length ≤ maxBuffer })
  /-- 0, the end of the stream. -/
  | eof
  /-- -1 with `errno == EINTR`. -/
  | intr
  /-- -1 with another `errno`. -/
  | error
deriving DecidableEq

/-- The result `rc` of `read_from_buf` for one byte. -/
inductive Rc
  /-- 1, with the byte stored in `*sc`. -/
  | byte (c : UInt8)
  /-- 0. -/
  | eof
  /-- -1. -/
  | error
deriving DecidableEq

/-- `read_from_buf(buffer, cnt, bptr, fd, sc, 1)`. The first argument has the `*cnt` bytes from
`*bptr` on that were read and not yet consumed, and is empty when `*cnt <= 0`. -/
def readFromBuf : List UInt8 → List ReadResult → Option (Rc × List UInt8 × List ReadResult)
  | c :: unread, reads => some (.byte c, unread, reads)
  | [], .data bytes :: reads => readFromBuf bytes.1 reads
  | [], .eof :: reads => some (.eof, [], reads)
  | [], .intr :: reads => readFromBuf [] reads
  | [], .error :: reads => some (.error, [], reads)
  | [], [] => none

/-- What a call of `read_line` leaves behind: its result, the array `line`, the unread bytes of the
buffer and the outcomes of `read` that it did not use. -/
structure LineRead where
  ret : UInt32
  line : List UInt8
  unread : List UInt8
  reads : List ReadResult
deriving DecidableEq

/-- The newline character. -/
def newline : UInt8 := 10

/-- The loop of `read_line` when `room = length - n` rounds are left and the bytes `got` are stored
before `bufp`. After an error the array has no terminator behind the bytes stored. -/
def readLineLoop (line : List UInt8) :
    ℕ → List UInt8 → List UInt8 → List ReadResult → Option LineRead
  | 0, got, unread, reads =>
    some ⟨.ofNat got.length, got ++ 0 :: line.drop (got.length + 1), unread, reads⟩
  | room + 1, got, unread, reads =>
    (readFromBuf unread reads).bind fun r =>
      match r with
      | (.byte c, unread, reads) =>
        let got := got ++ [c]
        if c = newline then
          some ⟨.ofNat got.length, got ++ 0 :: line.drop (got.length + 1), unread, reads⟩
        else readLineLoop line room got unread reads
      | (.eof, unread, reads) =>
        if got.isEmpty then some ⟨0, line, unread, reads⟩
        else some ⟨.ofNat got.length, got ++ 0 :: line.drop (got.length + 1), unread, reads⟩
      | (.error, unread, reads) =>
        -- `return -1` from a function that returns `unsigned`
        some ⟨-1, got ++ line.drop got.length, unread, reads⟩

/-- `read_line(buffer, cnt, bptr, fd, line, length)` with the old contents of the array `line`. -/
def readLine (line unread : List UInt8) (reads : List ReadResult) (length : ℕ) :
    Option LineRead :=
  readLineLoop line (length - 1) [] unread reads

/-- The C string in an array: its bytes before the first NUL. -/
def cString (line : List UInt8) : List UInt8 :=
  line.takeWhile (· ≠ 0)

end OsProject.Server
