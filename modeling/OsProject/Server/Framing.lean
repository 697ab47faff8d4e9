import OsProject.Server.ReadLine

/-!
# Framing a stream that ends

Successive calls of `read_line` with length `MAXLINE` return the pieces of a stream in order, and 0
from its end on. The pieces end at a newline, at `MAXLINE - 1` bytes or at the end of the stream;
what parts of the stream the calls of `read` deliver makes no difference.

## Main definitions

* `readLines` — the results of successive calls.
* `LineRead.Returns` — a call returns a piece, or 0.

## Main results

* `readLine_of_stream` — one call.
* `read_line_frames` — any number of calls.
-/

namespace OsProject.Server

open LineStream

variable {line unread : List UInt8} {ds : List ReadResult}

/-- So many calls of `read_line`, one after the other, with the same buffer and the same array. -/
def readLines : ℕ → List UInt8 → List UInt8 → List ReadResult → Option (List LineRead)
  | 0, _, _, _ => some []
  | k + 1, line, unread, reads =>
    (readLine line unread reads maxLine).bind fun r =>
      (readLines k r.line r.unread r.reads).map (r :: ·)

/-- The call returns the length of a piece, which is in the array and has a NUL behind it; without a
piece it returns 0. -/
def LineRead.Returns (r : LineRead) : Option (List UInt8) → Prop
  | some p =>
    r.ret.toNat = p.length ∧ r.line.take p.length = p ∧ r.line[p.length]? = some 0 ∧
      r.line.length = maxLine
  | none => r.ret = 0

theorem length_terminated {got : List UInt8} (hline : line.length = maxLine)
    (hgot : got.length < maxLine) : (terminated line got).length = maxLine := by
  rw [terminated, List.length_append, List.length_cons, List.length_drop]
  omega

/-- A piece that has been stored with its terminator. -/
theorem returns_terminated {p : List UInt8} {unread : List UInt8} {reads : List ReadResult}
    (hline : line.length = maxLine) (hp : p.length < maxLine) :
    LineRead.Returns ⟨.ofNat p.length, terminated line p, unread, reads⟩ (some p) := by
  refine ⟨?_, ?_, ?_, length_terminated hline hp⟩
  · exact UInt32.toNat_ofNat_of_lt' (Nat.lt_trans hp (by decide))
  · rw [terminated, List.take_left]
  · rw [terminated, List.getElem?_append_right (Nat.le_refl _), Nat.sub_self]
    rfl

/-- One call of `read_line`, when `read` delivers the rest of the stream and then returns 0: it
returns the next piece, or 0 at the end of the stream. -/
theorem readLine_of_stream (line unread : List UInt8) (hds : ∀ d ∈ ds, d.Goes) (n : ℕ) :
    (stream unread ds = [] ∧
      readLine line unread (ds ++ List.replicate (n + 1) .eof) maxLine =
        some ⟨0, line, [], List.replicate n .eof⟩) ∨
    (stream unread ds ≠ [] ∧ ∃ unread' ds' m,
      readLine line unread (ds ++ List.replicate (n + 1) .eof) maxLine =
        some ⟨.ofNat (cutLine newline (maxLine - 1) (stream unread ds)).1.length,
          terminated line (cutLine newline (maxLine - 1) (stream unread ds)).1, unread',
          ds' ++ List.replicate m .eof⟩ ∧
      stream unread' ds' = (cutLine newline (maxLine - 1) (stream unread ds)).2 ∧
      (∀ d ∈ ds', d.Goes) ∧ n ≤ m) := by
  rw [readLine]
  by_cases hhas : HasLine newline (maxLine - 1) (stream unread ds)
  · obtain ⟨unread', ds', heq, hrest, hsuffix⟩ :=
      readLineLoop_of_hasLine line [] hds (List.replicate (n + 1) .eof) hhas
    refine .inr ⟨fun hnil => ?_, unread', ds', n + 1, heq, hrest,
      fun d hd => hds d (hsuffix.subset hd), Nat.le_succ n⟩
    rw [hnil] at hhas
    exact hhas
  · -- the call takes all there is, and meets the end of the stream
    obtain ⟨room, -, heq⟩ :=
      readLineLoop_of_not_hasLine line [] hds (List.replicate (n + 1) .eof) hhas
    rw [heq, List.nil_append, cutLine_of_not_hasLine hhas, List.replicate_succ, readLineLoop,
      readFromBuf, Option.bind_some]
    by_cases hnil : stream unread ds = []
    · rw [hnil]
      exact .inl ⟨rfl, rfl⟩
    · refine .inr ⟨hnil, [], [], n, ?_, rfl, by simp, Nat.le_refl n⟩
      have hne : (stream unread ds).isEmpty = false := by simpa using hnil
      simp only [hne]
      rfl

/-- So many calls return as many pieces of the stream, and 0 behind them. -/
theorem readLines_of_stream : ∀ {k n : ℕ} {line unread : List UInt8} {ds : List ReadResult},
    (∀ d ∈ ds, d.Goes) → line.length = maxLine → k ≤ n →
      ∃ calls, readLines k line unread (ds ++ List.replicate n .eof) = some calls ∧
        calls.length = k ∧ ∀ (i : ℕ) (r : LineRead), calls[i]? = some r →
          r.Returns (cutLines newline (maxLine - 1) (stream unread ds))[i]?
  | 0, _, _, _, _, _, _, _ => ⟨[], rfl, rfl, by simp⟩
  | k + 1, 0, _, _, _, _, _, hkn => absurd hkn (Nat.not_succ_le_zero k)
  | k + 1, n + 1, line, unread, ds, hds, hline, hkn => by
    have hroom : maxLine - 1 ≠ 0 := by decide
    rcases readLine_of_stream line unread hds n with
      ⟨hnil, heq⟩ | ⟨hne, unread', ds', m, heq, hrest, hds', hm⟩
    · obtain ⟨calls, hcalls, hlen, hall⟩ := @readLines_of_stream k n line [] [] (by simp) hline
        (Nat.le_of_succ_le_succ hkn)
      rw [List.nil_append] at hcalls
      refine ⟨_, by rw [readLines, heq, Option.bind_some, hcalls, Option.map_some], by simp [hlen],
        fun i r hr => ?_⟩
      rw [hnil, cutLines_nil]
      cases i with
      | zero =>
        obtain rfl := Option.some.inj hr
        rfl
      | succ i =>
        have hi := hall i r hr
        rwa [stream_nil_right, cutLines_nil] at hi
    · have hle : (cutLine newline (maxLine - 1) (stream unread ds)).1.length < maxLine := by
        have := length_cutLine_le newline (maxLine - 1) (stream unread ds)
        rw [maxLine] at *
        omega
      obtain ⟨calls, hcalls, hlen, hall⟩ := @readLines_of_stream k m _ unread' ds'
        hds' (length_terminated hline hle) (Nat.le_trans (Nat.le_of_succ_le_succ hkn) hm)
      refine ⟨_, by rw [readLines, heq, Option.bind_some, hcalls, Option.map_some], by simp [hlen],
        fun i r hr => ?_⟩
      rw [cutLines_of_ne_nil hroom hne, ← hrest]
      cases i with
      | zero =>
        obtain rfl := Option.some.inj hr
        exact returns_terminated hline hle
      | succ i => exact hall i r hr

/-- A call returns 0 when the pieces before it are the whole stream. -/
theorem LineRead.Returns.ret_eq_zero_iff {r : LineRead} {bytes : List UInt8} {i : ℕ}
    {ps : List (List UInt8)} (hr : r.Returns ps[i]?) (hps : Pieces newline (maxLine - 1) bytes ps) :
    r.ret = 0 ↔ (ps.take i).flatten = bytes := by
  have hsplit : (ps.take i).flatten ++ (ps.drop i).flatten = bytes := by
    rw [← List.flatten_append, List.take_append_drop, hps.flatten]
  cases hp : ps[i]? with
  | none =>
    rw [hp] at hr
    have htake : ps.take i = ps := List.take_of_length_le (List.getElem?_eq_none_iff.mp hp)
    rw [htake, hps.flatten]
    exact iff_of_true hr rfl
  | some p =>
    rw [hp] at hr
    obtain ⟨hi, hget⟩ := List.getElem?_eq_some_iff.mp hp
    have hne : p ≠ [] := hps.ne_nil p (List.mem_of_getElem? hp)
    refine iff_of_false (fun hzero => hne ?_) fun hall => hne ?_
    · have hlen := hr.1
      rw [hzero] at hlen
      exact List.eq_nil_of_length_eq_zero hlen.symm
    · rw [hall, List.append_right_eq_self] at hsplit
      rw [List.drop_eq_getElem_cons hi, hget, List.flatten_cons] at hsplit
      exact (List.append_eq_nil_iff.mp hsplit).1

/-- `read_line` frames a stream whatever parts of it `read` delivers. With any calls of `read` that
deliver the stream, interrupted or not, and then its end, successive calls return the pieces of the
only cut of the stream, in order; a call returns 0 when the pieces before it are the whole stream,
and only then. -/
theorem read_line_frames {k n : ℕ} (hds : ∀ d ∈ ds, d.Goes) (hline : line.length = maxLine)
    (hkn : k ≤ n) :
    ∃ calls ps, readLines k line [] (ds ++ List.replicate n .eof) = some calls ∧
      (∀ qs, Pieces newline (maxLine - 1) (ds.flatMap ReadResult.bytes) qs ↔ qs = ps) ∧
      calls.length = k ∧ ∀ (i : ℕ) (r : LineRead), calls[i]? = some r →
        r.Returns ps[i]? ∧ (r.ret = 0 ↔ (ps.take i).flatten = ds.flatMap ReadResult.bytes) := by
  have hroom : maxLine - 1 ≠ 0 := by decide
  obtain ⟨calls, hcalls, hlen, hall⟩ := @readLines_of_stream k n line [] ds hds hline hkn
  set ps := cutLines newline (maxLine - 1) (ds.flatMap ReadResult.bytes) with hps
  have hpieces : Pieces newline (maxLine - 1) (ds.flatMap ReadResult.bytes) ps :=
    pieces_cutLines hroom _
  refine ⟨calls, ps, hcalls, fun qs => ⟨fun hqs => hqs.unique hroom, fun hqs => hqs ▸ hpieces⟩, hlen,
    fun i r hr => ⟨hall i r hr, ?_⟩⟩
  exact (hall i r hr).ret_eq_zero_iff hpieces

/-- The stream `"x\ny"`, cut before its newline, with an interruption. -/
def chunkedLines : List ReadResult := [.data ⟨[120], by decide⟩, .intr, .data ⟨[newline, 121], by decide⟩]

theorem read_line_frames_chunkedLines :
    ∃ calls ps,
      readLines 3 (List.replicate maxLine 7) [] (chunkedLines ++ List.replicate 3 .eof) = some calls ∧
      (∀ qs, Pieces newline (maxLine - 1) (chunkedLines.flatMap ReadResult.bytes) qs ↔ qs = ps) ∧
      calls.length = 3 ∧ ∀ (i : ℕ) (r : LineRead), calls[i]? = some r →
        r.Returns ps[i]? ∧
          (r.ret = 0 ↔ (ps.take i).flatten = chunkedLines.flatMap ReadResult.bytes) :=
  read_line_frames (by simp [chunkedLines, ReadResult.Goes]) (by simp) (Nat.le_refl 3)

end OsProject.Server
