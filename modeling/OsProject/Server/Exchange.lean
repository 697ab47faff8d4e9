import Mathlib.Data.List.TakeWhile
import OsProject.Server.Client

/-!
# Requests under way

What the client writes for a piece of its input, and what `read_line` makes of it at the other end.
The server takes the lines from the bytes under way in order, whatever parts of them its calls of
`read` return.

## Main results

* `request_eq` — the bytes that are written for a piece of the input.
* `Pair.serverRead_cases`, `Pair.nextLine_delivers` — a call of `read` by the server moves bytes
  to the buffer, and may deliver the next line.
* `Pair.streaming_of_reachable`.
-/

namespace OsProject.Server

open LineStream Transition

/-! ### What the client writes -/

theorem zero_notMem_cString (line : List UInt8) : 0 ∉ cString line := by
  intro h
  simpa using List.mem_takeWhile_imp h

theorem cString_isPrefix (line : List UInt8) : cString line <+: line := List.takeWhile_prefix _

theorem cString_append_zero {str : List UInt8} (h : 0 ∉ str) (rest : List UInt8) :
    cString (str ++ 0 :: rest) = str := by
  rw [cString, List.takeWhile_append_of_pos]
  · simp
  · intro c hc
    exact decide_eq_true fun h0 => h (h0 ▸ hc)

/-- The array after `fgets` has the piece of the input, and zeros behind it. -/
theorem fgets_eq (stdin : List UInt8) :
    fgets (List.replicate maxBuffer 0) stdin =
      (fgetsLine stdin).1 ++ List.replicate (maxBuffer - (fgetsLine stdin).1.length) 0 := by
  have hle : (fgetsLine stdin).1.length ≤ maxBuffer - 1 := length_cutLine_le newline _ stdin
  rw [fgets]
  split
  · next hnil => simp [List.isEmpty_iff.mp hnil]
  · rw [putString, List.drop_replicate, ← List.replicate_succ]
    congr 2
    simp only [maxBuffer] at hle ⊢
    omega

/-- The array that is written: the first 254 bytes, and the newline and the NUL of the patch. -/
theorem sendBuffer_eq (stdin : List UInt8) :
    sendBuffer stdin = (fgetsLine stdin).1.take (maxBuffer - 2) ++
      (List.replicate (maxBuffer - 2 - (fgetsLine stdin).1.length) 0 ++ [newline, 0]) := by
  have hle : (fgetsLine stdin).1.length ≤ maxBuffer - 1 := length_cutLine_le newline _ stdin
  simp only [sendBuffer, fgets_eq]
  generalize (fgetsLine stdin).1 = piece at *
  simp only [maxBuffer] at *
  apply List.ext_getElem?
  intro i
  simp only [List.getElem?_set, List.length_set, List.length_append, List.length_replicate,
    List.getElem?_append, List.getElem?_replicate, List.length_take, List.getElem?_take]
  grind

/-- The bytes of the piece that are sent. -/
def requestBody (stdin : List UInt8) : List UInt8 :=
  cString ((fgetsLine stdin).1.take (maxBuffer - 2))

/-- The patch appends a newline to a piece that fills its part of the array. -/
theorem request_eq (stdin : List UInt8) :
    request stdin =
      if (requestBody stdin).length = maxBuffer - 2 then requestBody stdin ++ [newline]
      else requestBody stdin := by
  rw [request, sendBuffer_eq, cString, List.takeWhile_append, requestBody, cString]
  generalize hpiece : (fgetsLine stdin).1 = piece
  have hlen : ((piece.take (maxBuffer - 2)).takeWhile (· ≠ 0)).length ≤
      (piece.take (maxBuffer - 2)).length := (List.takeWhile_prefix _).length_le
  have htake : (piece.take (maxBuffer - 2)).length = min (maxBuffer - 2) piece.length :=
    List.length_take
  by_cases hall : ((piece.take (maxBuffer - 2)).takeWhile (· ≠ 0)).length =
      (piece.take (maxBuffer - 2)).length
  · have heq : (piece.take (maxBuffer - 2)).takeWhile (· ≠ 0) = piece.take (maxBuffer - 2) :=
      (List.takeWhile_prefix _).eq_of_length hall
    rw [if_pos hall, heq, htake]
    by_cases hfull : maxBuffer - 2 ≤ piece.length
    · rw [if_pos (Nat.min_eq_left hfull), Nat.sub_eq_zero_of_le hfull]
      rfl
    · obtain ⟨k, hk⟩ : ∃ k, maxBuffer - 2 - piece.length = k + 1 :=
        ⟨maxBuffer - 2 - piece.length - 1, by omega⟩
      rw [if_neg (by omega), hk, List.replicate_succ]
      simp
  · rw [if_neg hall, if_neg (by omega)]

theorem zero_notMem_request (stdin : List UInt8) : 0 ∉ request stdin :=
  zero_notMem_cString _

/-! ### The call of `read_line` -/

/-- The call of `read` that completes a line is the last one of `read_line`, which returns the line
to `serve`. -/
theorem Session.readLine_eq_some {t : Session} {reads : List ReadResult} (g : Globals)
    (hp : t.place = .reading) (hreads : ∀ r ∈ reads, r.Goes)
    (hline : HasLine newline (maxLine - 1) (stream t.unread reads))
    (hlast : ∀ rs r, reads = rs ++ [r] → ¬HasLine newline (maxLine - 1) (stream t.unread rs)) :
    Session.readLine reads g t = some (g, { t with
      place := if t.start then .answering else .admitting
      line := terminated t.line (cutLine newline (maxLine - 1) (stream t.unread reads)).1
      unread := (cutLine newline (maxLine - 1) (stream t.unread reads)).2 }) := by
  obtain ⟨unread, reads', heq, hrest, hsuffix⟩ :=
    readLineLoop_of_hasLine t.line [] hreads [] hline
  rw [List.append_nil, List.append_nil] at heq
  have hused : reads' = [] := by
    rcases List.eq_nil_or_concat reads with rfl | ⟨rs, r, rfl⟩
    · exact List.suffix_nil.mp hsuffix
    · have hlt := length_cutLine_lt (m := r.bytes) (hlast rs r (List.concat_eq_append ..))
        (by simpa [stream_append] using hline)
      by_contra hne
      obtain ⟨pre, hpre⟩ := hsuffix
      obtain ⟨mid, last, rfl⟩ := (List.eq_nil_or_concat reads').resolve_left hne
      have hr : last = r := by
        have := congrArg List.getLast? hpre
        simpa [List.concat_eq_append, ← List.append_assoc] using this
      have hlen := congrArg List.length hrest
      simp only [List.concat_eq_append, stream_append, List.length_append, List.flatMap_cons,
        List.flatMap_nil, List.append_nil] at hlen hlt
      rw [hr] at hlen
      omega
  subst hused
  have hne : (cutLine newline (maxLine - 1) (stream t.unread reads)).1 ≠ [] := by
    apply cutLine_ne_nil (by decide)
    rintro hnil
    rw [hnil] at hline
    exact hline
  have hle : (cutLine newline (maxLine - 1) (stream t.unread reads)).1.length ≤ maxLine - 1 :=
    length_cutLine_le newline _ _
  rw [List.nil_append] at heq
  rw [stream_nil_right] at hrest
  have hret : (0 : UInt32) <
      .ofNat (cutLine newline (maxLine - 1) (stream t.unread reads)).1.length := by
    rw [UInt32.lt_iff_toNat_lt, UInt32.toNat_ofNat_of_lt']
    · exact List.length_pos_iff.mpr hne
    · exact Nat.lt_of_le_of_lt hle (by decide)
  rw [Session.readLine, if_pos hp, Server.readLine, heq, Option.bind_some]
  simp only [List.isEmpty_nil, if_true, if_pos hret, hrest]

/-- `read_line` goes on waiting. -/
theorem Session.readLine_eq_none {t : Session} {reads : List ReadResult} (g : Globals)
    (hreads : ∀ r ∈ reads, r.Goes)
    (hline : ¬HasLine newline (maxLine - 1) (stream t.unread reads)) :
    Session.readLine reads g t = none := by
  rw [Session.readLine, Server.readLine, readLineLoop_eq_none t.line [] hreads hline]
  split <;> rfl

namespace Pair

variable {s t : Pair} {r : ReadResult}

/-! ### The steps of the connection -/

/-- What holds of the calls of `read` that the server has made: none of them ended or failed, and
those of the current call of `read_line` do not make a line. -/
structure Streaming (s : Pair) : Prop where
  goes : ∀ r ∈ s.reads, r.Goes
  noLine : s.reads ≠ [] → s.server.place = .reading ∧
    ¬HasLine newline (maxLine - 1) (stream s.server.unread s.reads)
  closed : s.client = .done → s.server.place = .done

/-- The next line of the bytes under way to the server, and the bytes behind it. -/
def nextCut (s : Pair) : List UInt8 × List UInt8 := cutLine newline (maxLine - 1) s.upstream

/-- From `s` to `t`, `read_line` returns the next line of the bytes under way. -/
structure Delivers (s t : Pair) : Prop where
  reading : s.server.place = .reading
  hasLine : HasLine newline (maxLine - 1) s.upstream
  eq : ∃ unread toServer, unread ++ toServer = s.nextCut.2 ∧
    t = { s with
      toServer := toServer
      reads := []
      server := { s.server with
        place := if s.server.start then .answering else .admitting
        line := terminated s.server.line s.nextCut.1
        unread := unread } }

theorem Delivers.upstream (h : s.Delivers t) : t.upstream = s.nextCut.2 := by
  obtain ⟨unread, toServer, hcut, rfl⟩ := h.eq
  rw [Pair.upstream, stream_nil_right]
  exact hcut

/-- The server is in a call of `read` as long as there is no line in its buffer. -/
theorem reading_iff (hs : s.Streaming) :
    s.Reading ↔ s.server.place = .reading ∧
      ¬HasLine newline (maxLine - 1) (stream s.server.unread s.reads) := by
  refine and_congr_right fun _ => ⟨fun hnone hline => ?_, readLineLoop_eq_none _ _ hs.goes⟩
  obtain ⟨unread, reads, heq, -⟩ := readLineLoop_of_hasLine s.server.line [] hs.goes [] hline
  rw [List.append_nil] at heq
  rw [Server.readLine, heq] at hnone
  cases hnone

/-- `read_line` returns the line in its buffer. -/
theorem returnLine_eq (hp : s.server.place = .reading) (hgoes : ∀ r ∈ s.reads, r.Goes)
    (hline : HasLine newline (maxLine - 1) (stream s.server.unread s.reads))
    (hlast : ∀ rs r, s.reads = rs ++ [r] →
      ¬HasLine newline (maxLine - 1) (stream s.server.unread rs)) :
    s.returnLine = { s with
      reads := []
      server := { s.server with
        place := if s.server.start then .answering else .admitting
        line := terminated s.server.line
          (cutLine newline (maxLine - 1) (stream s.server.unread s.reads)).1
        unread := (cutLine newline (maxLine - 1) (stream s.server.unread s.reads)).2 } } := by
  rw [returnLine, Session.readLine_eq_some s.globals hp hgoes hline hlast]

/-- A line that is in the buffer is the next line of the bytes under way. -/
theorem nextCut_of_hasLine (h : HasLine newline (maxLine - 1) (stream s.server.unread s.reads)) :
    s.nextCut = ((cutLine newline (maxLine - 1) (stream s.server.unread s.reads)).1,
      (cutLine newline (maxLine - 1) (stream s.server.unread s.reads)).2 ++ s.toServer) :=
  cutLine_append_of_hasLine h s.toServer

theorem hasLine_upstream
    (h : HasLine newline (maxLine - 1) (stream s.server.unread s.reads)) :
    HasLine newline (maxLine - 1) s.upstream :=
  h.append s.toServer

/-- The stream does not end while the server is in a call of `read`. -/
theorem goes_of_offers (hs : s.Streaming) (hp : s.server.place = .reading) (h : s.Offers r) :
    r.Goes := by
  cases r with
  | data bytes => exact ⟨by simp, by simp⟩
  | eof =>
    have hdone := hs.closed h.1
    rw [hp] at hdone
    cases hdone
  | intr => exact ⟨by simp, by simp⟩
  | error => exact h.elim

/-- The bytes that a call of `read` returns are the next ones on the way. -/
theorem bytes_append_drop (h : s.Offers r) :
    r.bytes ++ s.toServer.drop r.bytes.length = s.toServer := by
  cases r with
  | data bytes =>
    obtain ⟨rest, hrest⟩ : bytes.1 <+: s.toServer := h
    rw [← hrest, ReadResult.bytes, List.drop_left]
  | eof | intr | error => rfl

/-- A call of `read` by the server moves bytes from the connection to the buffer, or it completes
the next line. -/
theorem serverRead_cases (hs : s.Streaming) (h : s.exec (.serverRead r) = some t) :
    (s.server.place = .reading ∧ t.upstream = s.upstream ∧ t.Streaming ∧
      t = { s with toServer := s.toServer.drop r.bytes.length, reads := s.reads ++ [r] }) ∨
    s.Delivers t := by
  rw [exec] at h
  split at h
  · next hread =>
    obtain ⟨hreading, hoffers⟩ := hread
    obtain rfl := Option.some.inj h
    obtain ⟨hp, hno⟩ := (reading_iff hs).mp hreading
    have hr : r.Goes := goes_of_offers hs hp hoffers
    have hgoes : ∀ x ∈ s.reads ++ [r], x.Goes := by
      intro x hx
      rcases List.mem_append.mp hx with hx | hx
      · exact hs.goes x hx
      · exact List.mem_singleton.mp hx ▸ hr
    set u : Pair := { s with
      toServer := s.toServer.drop r.bytes.length
      reads := s.reads ++ [r] } with hu
    have hup : u.upstream = s.upstream := by
      rw [upstream, upstream, hu, stream_append, List.append_assoc]
      simp [bytes_append_drop hoffers]
    by_cases hline : HasLine newline (maxLine - 1) (stream u.server.unread u.reads)
    · refine .inr ⟨hp, hup ▸ hasLine_upstream hline, ?_⟩
      have hlast : ∀ rs x, u.reads = rs ++ [x] →
          ¬HasLine newline (maxLine - 1) (stream u.server.unread rs) := by
        intro rs x hrs
        obtain ⟨rfl, -⟩ := List.append_inj' hrs rfl
        exact hno
      have hcut : s.nextCut = u.nextCut := by rw [nextCut, nextCut, hup]
      rw [hcut, nextCut_of_hasLine hline, returnLine_eq (s := u) hp hgoes hline hlast]
      exact ⟨_, _, rfl, rfl⟩
    · have hstay : u.returnLine = u := by
        rw [returnLine, Session.readLine_eq_none u.globals hgoes hline]
      rw [hstay]
      exact .inl ⟨hp, hup, ⟨hgoes, fun _ => ⟨hp, hline⟩, hs.closed⟩, rfl⟩
  · cases h

/-- `read_line` returns without a call of `read` when there is a line in the buffer. -/
theorem nextLine_delivers (hs : s.Streaming) (h : s.exec .nextLine = some t) : s.Delivers t := by
  rw [exec] at h
  split at h
  · next hnext =>
    obtain ⟨hp, hnil, hreading⟩ := hnext
    obtain rfl := Option.some.inj h
    have hline : HasLine newline (maxLine - 1) (stream s.server.unread s.reads) := by
      by_contra hline
      exact hreading ((reading_iff hs).mpr ⟨hp, hline⟩)
    refine ⟨hp, hasLine_upstream hline, ?_⟩
    rw [nextCut_of_hasLine hline, returnLine_eq hp hs.goes hline (by simp [hnil])]
    exact ⟨_, _, rfl, rfl⟩
  · cases h

/-- A step of `serve` other than `read_line` leaves the client alone. -/
theorem serve_eq_some {step : Globals → Session → Option (Globals × Session)}
    (h : s.serve step = some t) :
    ∃ g u, step s.globals s.server = some (g, u) ∧ t = { s with globals := g, server := u } := by
  obtain ⟨⟨g, u⟩, hstep, heq⟩ := Option.map_eq_some_iff.mp h
  exact ⟨g, u, hstep, heq.symm⟩

theorem Delivers.streaming (hs : s.Streaming) (h : s.Delivers t) : t.Streaming := by
  have hp := h.reading
  obtain ⟨unread, toServer, -, rfl⟩ := h.eq
  refine ⟨by simp, by simp, fun hdone => ?_⟩
  have := hs.closed hdone
  rw [hp] at this
  cases this

theorem Streaming.serve {step : Globals → Session → Option (Globals × Session)} (hs : s.Streaming)
    (hfrom : ∀ g u, step s.globals s.server = some (g, u) →
      s.server.place ≠ .reading ∧ s.server.place ≠ .done)
    (h : s.serve step = some t) : t.Streaming := by
  obtain ⟨g, u, hstep, rfl⟩ := serve_eq_some h
  obtain ⟨hreading, hdone⟩ := hfrom g u hstep
  have hnil : s.reads = [] := by
    by_contra hne
    exact hreading (hs.noLine hne).1
  exact ⟨hs.goes, fun hne => absurd hnil hne, fun hclosed => absurd (hs.closed hclosed) hdone⟩

theorem Streaming.exec {e : PairEvent} (hs : s.Streaming) (h : s.exec e = some t) :
    t.Streaming := by
  cases e with
  | type =>
    obtain ⟨-, ⟨⟩⟩ := Option.ite_none_right_eq_some.mp h
    exact ⟨hs.goes, hs.noLine, by simp⟩
  | clientRead n =>
    obtain ⟨-, ⟨⟩⟩ := Option.ite_none_right_eq_some.mp h
    exact ⟨hs.goes, hs.noLine, by simp⟩
  | clientEof =>
    obtain ⟨⟨-, -, hdone⟩, ⟨⟩⟩ := Option.ite_none_right_eq_some.mp h
    exact ⟨hs.goes, hs.noLine, fun _ => hdone⟩
  | serverRead r =>
    rcases serverRead_cases hs h with ⟨-, -, ht, -⟩ | hdelivers
    · exact ht
    · exact hdelivers.streaming hs
  | nextLine => exact (nextLine_delivers hs h).streaming hs
  | tryStart =>
    refine hs.serve (fun g u hstep => ?_) h
    rw [(Session.tryStart_cases hstep).1]
    decide
  | quit =>
    refine hs.serve (fun g u hstep => ?_) h
    rw [(Session.quit_cases hstep).1.1]
    decide
  | reply =>
    refine hs.serve (fun g u hstep => ?_) h
    rw [(Session.reply_cases hstep).1]
    decide
  | leave =>
    refine hs.serve (fun g u hstep => ?_) h
    rw [(Session.leave_cases hstep).1]
    decide
  | close =>
    refine hs.serve (fun g u hstep => ?_) h
    rw [(Session.close_cases hstep).1]
    decide
  | others nserv =>
    obtain rfl := Option.some.inj h
    exact ⟨hs.goes, hs.noLine, hs.closed⟩

theorem streaming_initial (stdin : List UInt8) (nserv : ℤ) (stack : List UInt8) :
    (initial stdin nserv stack).Streaming :=
  ⟨by simp [initial], by simp [initial], by simp [initial]⟩

theorem streaming_of_reachable (hs : Reachable pairSystem s) : s.Streaming := by
  induction hs with
  | init h =>
    obtain ⟨stdin, nserv, stack, rfl⟩ := h
    exact streaming_initial stdin nserv stack
  | step _ h ih => exact ih.exec h

end Pair

end OsProject.Server
