import OsProject.Lib.LineStream
import OsProject.Server.General

/-!
# Lines in a byte stream

As long as the stream neither ends nor fails, `read_line` returns the next line of the stream, at
most `length - 1` bytes of it, whatever parts of it the calls of `read` deliver, and waits for more
only when there is no such line yet.

## Main results

* `readLineLoop_of_hasLine`, `readLineLoop_of_not_hasLine`.
-/

namespace OsProject.Server

open LineStream

/-- The bytes that a call of `read` delivers. -/
def ReadResult.bytes : ReadResult → List UInt8
  | .data bytes => bytes.1
  | _ => []

/-- The call neither fails nor meets the end of the stream. -/
def ReadResult.Goes (r : ReadResult) : Prop := r ≠ .eof ∧ r ≠ .error

/-- The bytes that are left in the buffer, and those that the following calls of `read` deliver. -/
def stream (unread : List UInt8) (reads : List ReadResult) : List UInt8 :=
  unread ++ reads.flatMap ReadResult.bytes

variable {room : ℕ} {unread : List UInt8} {reads : List ReadResult}

@[simp]
theorem stream_nil_right (unread : List UInt8) : stream unread [] = unread := List.append_nil unread

theorem stream_append (unread : List UInt8) (reads reads' : List ReadResult) :
    stream unread (reads ++ reads') = stream unread reads ++ reads'.flatMap ReadResult.bytes := by
  rw [stream, stream, List.flatMap_append, List.append_assoc]

/-- `read_from_buf` takes the next byte of the stream. When there is none left it goes on with the
calls of `read` behind the stream. -/
theorem readFromBuf_append (unread : List UInt8) (hreads : ∀ r ∈ reads, r.Goes)
    (tail : List ReadResult) :
    (stream unread reads = [] ∧ readFromBuf unread (reads ++ tail) = readFromBuf [] tail) ∨
    ∃ c unread' reads', readFromBuf unread (reads ++ tail) = some (.byte c, unread', reads' ++ tail) ∧
      stream unread reads = c :: stream unread' reads' ∧ reads' <:+ reads := by
  cases unread with
  | cons c unread =>
    exact .inr ⟨c, unread, reads, by rw [readFromBuf], rfl, List.suffix_refl reads⟩
  | nil =>
    induction reads with
    | nil => exact .inl ⟨rfl, rfl⟩
    | cons r reads ih =>
      have hrest := ih fun r hr => hreads r (List.mem_cons_of_mem _ hr)
      have hsuffix : reads <:+ r :: reads := List.suffix_cons r reads
      rw [List.cons_append]
      cases r with
      | data bytes =>
        obtain ⟨bytes, hpos, hle⟩ := bytes
        cases bytes with
        | nil => exact absurd hpos (Nat.lt_irrefl 0)
        | cons c bytes =>
          exact .inr ⟨c, bytes, reads, by rw [readFromBuf, readFromBuf], rfl, hsuffix⟩
      | intr =>
        rcases hrest with ⟨hnil, hnone⟩ | ⟨c, unread', reads', hsome, hcons, hsuffix'⟩
        · exact .inl ⟨hnil, by rwa [readFromBuf]⟩
        · exact .inr ⟨c, unread', reads', by rwa [readFromBuf], hcons, hsuffix'.trans hsuffix⟩
      | eof => exact absurd rfl (hreads .eof (List.mem_cons_self ..)).1
      | error => exact absurd rfl (hreads .error (List.mem_cons_self ..)).2

/-- The array with a line and its terminator. -/
def terminated (line got : List UInt8) : List UInt8 := got ++ 0 :: line.drop (got.length + 1)

/-- `read_line` returns the next line of the stream once it is there. -/
theorem readLineLoop_of_hasLine (line got : List UInt8) (hreads : ∀ r ∈ reads, r.Goes)
    (tail : List ReadResult) (h : HasLine newline room (stream unread reads)) :
    ∃ unread' reads', readLineLoop line room got unread (reads ++ tail) =
        some ⟨.ofNat (got ++ (cutLine newline room (stream unread reads)).1).length,
          terminated line (got ++ (cutLine newline room (stream unread reads)).1), unread',
          reads' ++ tail⟩ ∧
      stream unread' reads' = (cutLine newline room (stream unread reads)).2 ∧ reads' <:+ reads := by
  induction room generalizing got unread reads with
  | zero =>
    refine ⟨unread, reads, ?_, rfl, List.suffix_refl reads⟩
    rw [cutLine, List.append_nil]
    rfl
  | succ room ih =>
    rcases readFromBuf_append unread hreads tail with
      ⟨hnil, -⟩ | ⟨c, unread', reads', hsome, hcons, hsuffix⟩
    · rw [hnil] at h
      exact h.elim
    · rw [hcons] at h ⊢
      rw [readLineLoop, hsome, Option.bind_some, cutLine]
      by_cases hc : c = newline
      · simp only [if_pos hc]
        exact ⟨unread', reads', rfl, rfl, hsuffix⟩
      · simp only [if_neg hc]
        have hreads' : ∀ r ∈ reads', r.Goes := fun r hr => hreads r (hsuffix.subset hr)
        obtain ⟨unread'', reads'', heq, hrest, hsuffix'⟩ :=
          ih (got ++ [c]) hreads' (h.resolve_left hc)
        rw [List.append_assoc, List.singleton_append] at heq
        exact ⟨unread'', reads'', heq, hrest, hsuffix'.trans hsuffix⟩

/-- As long as there is no line, `read_line` takes all there is and goes on with the calls of `read`
behind the stream. -/
theorem readLineLoop_of_not_hasLine (line got : List UInt8) (hreads : ∀ r ∈ reads, r.Goes)
    (tail : List ReadResult) (h : ¬HasLine newline room (stream unread reads)) :
    ∃ room', room = (stream unread reads).length + (room' + 1) ∧
      readLineLoop line room got unread (reads ++ tail) =
        readLineLoop line (room' + 1) (got ++ stream unread reads) [] tail := by
  induction room generalizing got unread reads with
  | zero => exact absurd trivial h
  | succ room ih =>
    rcases readFromBuf_append unread hreads tail with
      ⟨hnil, hnone⟩ | ⟨c, unread', reads', hsome, hcons, hsuffix⟩
    · refine ⟨room, by rw [hnil, List.length_nil, Nat.zero_add], ?_⟩
      rw [readLineLoop, hnone, hnil, List.append_nil, readLineLoop]
    · rw [hcons, HasLine, not_or] at h
      obtain ⟨room', hroom, heq⟩ :=
        ih (got ++ [c]) (fun r hr => hreads r (hsuffix.subset hr)) h.2
      refine ⟨room', by rw [hcons, List.length_cons]; omega, ?_⟩
      rw [readLineLoop, hsome, Option.bind_some, hcons]
      simp only [if_neg h.1]
      rw [heq, List.append_assoc, List.singleton_append]

/-- `read_line` waits as long as there is no line. -/
theorem readLineLoop_eq_none (line got : List UInt8)
    (hreads : ∀ r ∈ reads, r.Goes) (h : ¬HasLine newline room (stream unread reads)) :
    readLineLoop line room got unread reads = none := by
  obtain ⟨room', -, heq⟩ := readLineLoop_of_not_hasLine line got hreads [] h
  rw [List.append_nil] at heq
  rw [heq]
  rfl

end OsProject.Server
