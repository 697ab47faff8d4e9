import OsProject.Server.Exchange

/-!
# Requests and replies

The client takes what one call of `read` returns for the reply to its last request. It is the reply
if and only if the call returns the whole reply and nothing behind it, and if nothing is left over
from before. A line of 253 characters leaves a newline over: the patch of the array overwrites the
NUL behind the line, so that the server sees an empty line after it and answers that one too.

## Main definitions

* `Typeable` — the lines that are typed.
* `Pair.Matched` — what was printed so far are the replies to the lines, in order.
* `Pair.ReadsReply` — the condition on the calls of `read` by the client.

## Main results

* `Pair.replies_matched_iff`.
-/

namespace OsProject.Server

open LineStream Transition

/-! ### Lines and replies -/

/-- The lines that are typed: at most 253 characters, none of them a NUL or a newline, and not the
line that quits. -/
structure Typeable (l : List UInt8) : Prop where
  length_le : l.length ≤ 253
  noZero : 0 ∉ l
  noNewline : newline ∉ l
  ne_quit : l ≠ [58, 113]

/-- The bytes of some lines. -/
def linesOf (lines : List (List UInt8)) : List UInt8 := lines.flatMap (· ++ [newline])

/-- The encrypted reply to a line. -/
def replyTo (l : List UInt8) : List UInt8 := (l ++ [newline]).map caesar

/-- The lines that the server sees when the client sends a line. -/
def served (l : List UInt8) : List (List UInt8) := if l.length = maxBuffer - 3 then [l, []] else [l]

theorem caesar_ne_zero {c : UInt8} (h : c ≠ 0) : caesar c ≠ 0 :=
  forall_byte (P := fun c => c ≠ 0 → caesar c ≠ 0) (by decide +kernel) c h

theorem eq_newline_of_caesar {c : UInt8} (h : caesar c = newline) : c = newline :=
  forall_byte (P := fun c => caesar c = newline → c = newline) (by decide +kernel) c h

theorem caesar_newline : caesar newline = newline := by decide

theorem replyTo_eq (l : List UInt8) : replyTo l = l.map caesar ++ [newline] := by
  rw [replyTo, List.map_append, List.map_singleton, caesar_newline]

@[simp]
theorem length_replyTo (l : List UInt8) : (replyTo l).length = l.length + 1 := by
  simp [replyTo]

@[simp]
theorem replyTo_nil : replyTo [] = [newline] := rfl

theorem zero_notMem_replyTo {l : List UInt8} (h : 0 ∉ l) : 0 ∉ replyTo l := by
  intro h0
  obtain ⟨c, hc, hc0⟩ := List.mem_map.mp h0
  refine caesar_ne_zero ?_ hc0
  rcases List.mem_append.mp hc with hc | hc
  · exact fun h' => h (h' ▸ hc)
  · rw [List.mem_singleton.mp hc]
    decide

theorem typeable_nil : Typeable [] := ⟨by decide, by decide, by decide, by decide⟩

theorem Typeable.of_mem_served {l l' : List UInt8} (h : Typeable l) (hl : l' ∈ served l) :
    Typeable l' := by
  rw [served] at hl
  split at hl
  · rcases List.mem_pair.mp hl with rfl | rfl
    · exact h
    · exact typeable_nil
  · rwa [List.mem_singleton.mp hl]

/-- `fgets` reads the first of the lines. -/
theorem fgetsLine_linesOf {l : List UInt8} (h : Typeable l) (lines : List (List UInt8)) :
    fgetsLine (linesOf (l :: lines)) = (l ++ [newline], linesOf lines) := by
  have hroom : l.length < maxBuffer - 1 := Nat.lt_of_le_of_lt h.length_le (by decide)
  rw [fgetsLine, linesOf, List.flatMap_cons, List.append_assoc, List.singleton_append]
  exact cutLine_line h.noNewline hroom _

/-- The client sends the line, and one more newline if the line fills the array. -/
theorem request_linesOf {l : List UInt8} (h : Typeable l) (lines : List (List UInt8)) :
    request (linesOf (l :: lines)) = linesOf (served l) := by
  have hle := h.length_le
  have hzero : 0 ∉ l ++ [newline] := by
    rw [List.mem_append, not_or]
    exact ⟨h.noZero, by decide⟩
  have hbody : requestBody (linesOf (l :: lines)) = l ++ [newline] := by
    have hlen : (l ++ [newline]).length ≤ maxBuffer - 2 := by
      rw [List.length_append]
      exact Nat.succ_le_succ hle
    rw [requestBody, fgetsLine_linesOf h, List.take_of_length_le hlen, cString,
      List.takeWhile_eq_self_iff]
    exact fun c hc => decide_eq_true fun h0 => hzero (h0 ▸ hc)
  have hfull : (l ++ [newline]).length = maxBuffer - 2 ↔ l.length = maxBuffer - 3 := by
    simp only [List.length_append, List.length_singleton, maxBuffer]
    omega
  rw [request_eq, hbody, served]
  by_cases hlen : l.length = maxBuffer - 3
  · rw [if_pos (hfull.mpr hlen), if_pos hlen]
    simp [linesOf]
  · rw [if_neg fun h => hlen (hfull.mp h), if_neg hlen]
    simp [linesOf]

namespace Pair

variable {lines : List (List UInt8)} {s t : Pair}

/-! ### The runs of an admitted client -/

/-- The client reads a line of its input, and is admitted. -/
def Admits (s : Pair) (e : PairEvent) : Prop :=
  (e = .type → s.stdin ≠ []) ∧ (e = .tryStart → s.globals.nserv < maxCliBuf)

instance (s : Pair) (e : PairEvent) : Decidable (s.Admits e) := inferInstanceAs (Decidable (_ ∧ _))

/-- The steps of an admitted client and its thread. -/
def execAdmitted (s : Pair) (e : PairEvent) : Option Pair := if s.Admits e then s.exec e else none

/-- The texts that were printed are the replies to the lines, and every array that was printed has
a NUL. -/
structure Matched (lines printed : List (List UInt8)) : Prop where
  replies : printed.map cString = (lines.take printed.length).map replyTo
  terminated : ∀ receive ∈ printed, 0 ∈ receive

/-- A line that fills the array was sent before line `i`. -/
def Leftover (lines : List (List UInt8)) (i : ℕ) : Prop :=
  ∃ l ∈ lines.take i, l.length = maxBuffer - 3

instance (lines : List (List UInt8)) (i : ℕ) : Decidable (Leftover lines i) :=
  inferInstanceAs (Decidable (∃ l ∈ _, _))

/-- A call of `read` by the client returns as many bytes as the reply to the current line has, and
there is no newline left over in front of the reply, unless the reply is a newline, too. -/
def ReadsReply (lines : List (List UInt8)) (s : Pair) : PairEvent → Prop
  | .clientRead n => s.execAdmitted (.clientRead n) ≠ none →
      ∃ l ∈ lines[s.printed.length]?, n = l.length + 1 ∧ (l = [] ∨ ¬Leftover lines s.printed.length)
  | _ => True

instance (lines : List (List UInt8)) (s : Pair) : (e : PairEvent) → Decidable (ReadsReply lines s e)
  | .clientRead _ => inferInstanceAs (Decidable (_ → _))
  | .type | .clientEof | .serverRead _ | .nextLine | .tryStart | .quit | .reply | .leave | .close
  | .others _ => .isTrue trivial

/-! ### The replies to come -/

/-- What the server sends after the replies to the first `i` lines were read. -/
def due (lines : List (List UInt8)) (i : ℕ) : List UInt8 :=
  (if Leftover lines i then [newline] else []) ++
    ((lines.drop i).flatMap served).flatMap replyTo

/-- The lines that are neither answered nor typed yet: the line that the server has read, those
on the way and those in the input. With the bytes on the way back they make the replies that are
due. -/
structure Flow (lines : List (List UInt8)) (s : Pair) (current : Option (List UInt8))
    (pending rest : List (List UInt8)) : Prop where
  typeable : ∀ l ∈ current.toList ++ pending, Typeable l
  stdin : s.stdin = linesOf rest
  client : (s.client = .typing ∧ rest = lines.drop s.printed.length) ∨
    (s.client = .waiting ∧ s.printed.length < lines.length ∧
      rest = lines.drop (s.printed.length + 1))
  upstream : s.upstream = linesOf pending
  place : (current = none ∧ s.server.place = .reading) ∨
    ∃ l, current = some l ∧ cString s.server.line = l ++ [newline] ∧
      (s.server.place = .admitting ∨ (s.server.place = .answering ∧ s.server.start))
  received_le : s.received ≤ s.server.sent.length
  replies : s.toClient ++ (current.toList ++ pending ++ rest.flatMap served).flatMap replyTo =
    due lines s.printed.length
  matched : Matched lines s.printed

/-- The invariant of the exchange. -/
def InStep (lines : List (List UInt8)) (s : Pair) : Prop :=
  ∃ current pending rest, Flow lines s current pending rest

namespace Flow

variable {current : Option (List UInt8)} {pending rest : List (List UInt8)}

theorem of_reading (h : Flow lines s current pending rest) (hp : s.server.place = .reading) :
    current = none := by
  rcases h.place with ⟨hnone, -⟩ | ⟨l, -, -, hplace | ⟨hplace, -⟩⟩
  · exact hnone
  · rw [hp] at hplace; cases hplace
  · rw [hp] at hplace; cases hplace

theorem of_admitting (h : Flow lines s current pending rest) (hp : s.server.place = .admitting) :
    ∃ l, current = some l ∧ cString s.server.line = l ++ [newline] := by
  rcases h.place with ⟨-, hplace⟩ | ⟨l, hl, hline, -⟩
  · rw [hp] at hplace; cases hplace
  · exact ⟨l, hl, hline⟩

theorem of_answering (h : Flow lines s current pending rest) (hp : s.server.place = .answering) :
    ∃ l, current = some l ∧ cString s.server.line = l ++ [newline] ∧ s.server.start := by
  rcases h.place with ⟨-, hplace⟩ | ⟨l, hl, hline, hplace | ⟨-, hstart⟩⟩
  · rw [hp] at hplace; cases hplace
  · rw [hp] at hplace; cases hplace
  · exact ⟨l, hl, hline, hstart⟩

/-- The server stays in its loop. -/
theorem place_cases (h : Flow lines s current pending rest) :
    s.server.place = .reading ∨ s.server.place = .admitting ∨ s.server.place = .answering := by
  rcases h.place with ⟨-, hplace⟩ | ⟨l, -, -, hplace | ⟨hplace, -⟩⟩
  · exact .inl hplace
  · exact .inr (.inl hplace)
  · exact .inr (.inr hplace)

/-- The client types a line. -/
theorem type (h : Flow lines s current pending rest) (hlines : ∀ l ∈ lines, Typeable l)
    (hc : s.client = .typing) (hne : s.stdin ≠ []) :
    InStep lines { s with
      stdin := (fgetsLine s.stdin).2
      client := .waiting
      toServer := s.toServer ++ request s.stdin } := by
  obtain ⟨-, hrest⟩ : s.client = .typing ∧ rest = lines.drop s.printed.length := by
    rcases h.client with hclient | ⟨hclient, -⟩
    · exact hclient
    · rw [hc] at hclient; cases hclient
  have hlt : s.printed.length < lines.length := by
    by_contra hge
    rw [List.drop_eq_nil_of_le (Nat.le_of_not_lt hge)] at hrest
    exact hne (by rw [h.stdin, hrest]; rfl)
  rw [List.drop_eq_getElem_cons hlt] at hrest
  set l := lines[s.printed.length] with hl
  have htype : Typeable l := hlines l (List.getElem_mem hlt)
  have hstdin : s.stdin = linesOf (l :: lines.drop (s.printed.length + 1)) := by rw [h.stdin, hrest]
  refine ⟨current, pending ++ served l, lines.drop (s.printed.length + 1), ?_, ?_,
    .inr ⟨rfl, hlt, rfl⟩, ?_, h.place, h.received_le, ?_, h.matched⟩
  · intro l' hl'
    rw [← List.append_assoc] at hl'
    rcases List.mem_append.mp hl' with hl' | hl'
    · exact h.typeable l' hl'
    · exact htype.of_mem_served hl'
  · rw [hstdin, fgetsLine_linesOf htype]
  · have hup : stream s.server.unread s.reads ++ (s.toServer ++ request s.stdin) =
        s.upstream ++ request s.stdin := (List.append_assoc ..).symm
    rw [Pair.upstream, hup, h.upstream, hstdin, request_linesOf htype, linesOf, linesOf, linesOf,
      List.flatMap_append]
  · have hreplies := h.replies
    rw [hrest, List.flatMap_cons] at hreplies
    rw [← List.append_assoc, List.append_assoc (current.toList ++ pending)]
    exact hreplies

/-- `read_line` returns a line. -/
theorem delivers (h : Flow lines s current pending rest) (ht : s.Delivers t) :
    InStep lines t := by
  obtain rfl := h.of_reading ht.reading
  have hup := ht.upstream
  have hline := ht.hasLine
  cases pending with
  | nil =>
    rw [h.upstream] at hline
    exact hline.elim
  | cons l pending =>
    have htype : Typeable l := h.typeable l (by simp)
    have hroom : l.length < maxLine - 1 := Nat.lt_of_le_of_lt htype.length_le (by decide)
    have hcut : s.nextCut = (l ++ [newline], linesOf pending) := by
      rw [nextCut, h.upstream, linesOf, List.flatMap_cons, List.append_assoc,
        List.singleton_append]
      exact cutLine_line htype.noNewline hroom _
    have hzero : 0 ∉ l ++ [newline] := by
      rw [List.mem_append, not_or]
      exact ⟨htype.noZero, by decide⟩
    rw [hcut] at hup
    obtain ⟨unread, toServer, -, rfl⟩ := ht.eq
    refine ⟨some l, pending, rest, h.typeable, h.stdin, h.client, hup, .inr ⟨l, rfl, ?_, ?_⟩,
      h.received_le, h.replies, h.matched⟩
    · dsimp only
      rw [hcut, terminated, cString_append_zero hzero]
    · dsimp only
      split
      · next hstart => exact .inr ⟨rfl, hstart⟩
      · exact .inl rfl

/-- The server answers a line. -/
theorem reply (h : Flow lines s current pending rest) (hp : s.server.place = .answering) :
    InStep lines { s with server := { s.server with
      line := putString s.server.line s.server.answer
      sent := s.server.sent ++ s.server.answer
      place := .reading } } := by
  obtain ⟨l, rfl, hline, hstart⟩ := h.of_answering hp
  have hanswer : s.server.answer = replyTo l := by
    rw [Session.answer, if_pos hstart, hline, replyTo]
  refine ⟨none, pending, rest, fun l' hl' => h.typeable l' (List.mem_cons_of_mem _ hl'), h.stdin,
    h.client, h.upstream, .inl ⟨rfl, rfl⟩, ?_, ?_, h.matched⟩
  · dsimp only
    rw [List.length_append]
    exact Nat.le_add_right_of_le h.received_le
  · have hreplies := h.replies
    rw [toClient] at hreplies ⊢
    rw [hanswer, List.drop_append_of_le_length h.received_le, ← hreplies]
    simp

/-- The client, the input and what was printed stay the same, as do the lines in the server. -/
theorem frame (h : Flow lines s current pending rest) (hstdin : t.stdin = s.stdin)
    (hclient : t.client = s.client) (hprinted : t.printed = s.printed)
    (hreceived : t.received = s.received) (hsent : t.server.sent = s.server.sent)
    (hup : t.upstream = s.upstream) (hline : t.server.line = s.server.line)
    (hplace : t.server.place = s.server.place ∧ t.server.start = s.server.start ∨
      s.server.place = .admitting ∧ t.server.place = .answering ∧ t.server.start) :
    InStep lines t := by
  refine ⟨current, pending, rest, h.typeable, hstdin ▸ h.stdin, ?_, hup ▸ h.upstream, ?_, ?_, ?_,
    hprinted ▸ h.matched⟩
  · rw [hclient, hprinted]
    exact h.client
  · rw [hline]
    rcases hplace with ⟨hplace, hstart⟩ | ⟨hp, hplace, hstart⟩
    · rw [hplace, hstart]
      exact h.place
    · obtain ⟨l, hl, hstring⟩ := h.of_admitting hp
      exact .inr ⟨l, hl, hstring, .inr ⟨hplace, hstart⟩⟩
  · rw [hreceived, hsent]
    exact h.received_le
  · rw [toClient, hreceived, hsent, hprinted]
    exact h.replies

end Flow

/-! ### Reading the replies -/

theorem leftover_succ {i : ℕ} {l : List UInt8} (hl : lines[i]? = some l) :
    Leftover lines (i + 1) ↔ Leftover lines i ∨ l.length = maxBuffer - 3 := by
  rw [Leftover, Leftover, List.take_add_one, hl]
  simp only [Option.toList_some, List.mem_append, List.mem_singleton]
  constructor
  · rintro ⟨l', hl' | rfl, hlen⟩
    · exact .inl ⟨l', hl', hlen⟩
    · exact .inr hlen
  · rintro (⟨l', hl', hlen⟩ | hlen)
    · exact ⟨l', .inl hl', hlen⟩
    · exact ⟨l, .inr rfl, hlen⟩

/-- What is due at line `i` are the newline that is left over, the reply to the line, a newline if the
line fills the array, and what the later lines make due. -/
theorem due_eq {i : ℕ} {l : List UInt8} (hl : lines[i]? = some l) :
    due lines i = (if Leftover lines i then [newline] else []) ++ (replyTo l ++
      ((if l.length = maxBuffer - 3 then [newline] else []) ++
        ((lines.drop (i + 1)).flatMap served).flatMap replyTo)) := by
  obtain ⟨hlt, rfl⟩ := List.getElem?_eq_some_iff.mp hl
  rw [due, List.drop_eq_getElem_cons hlt, List.flatMap_cons, List.flatMap_append]
  congr 1
  rw [← List.append_assoc]
  congr 1
  rw [served]
  split <;> simp

/-- The first bytes that are due are the reply to line `i` if and only if they are as many and no
newline is left over in front, unless the reply is a newline, too. -/
theorem take_due_eq_replyTo_iff {i n : ℕ} {l : List UInt8} (hl : lines[i]? = some l)
    (hnewline : newline ∉ l) (hn : n ≤ (due lines i).length) :
    (due lines i).take n = replyTo l ↔ n = l.length + 1 ∧ (l = [] ∨ ¬Leftover lines i) := by
  have hlen : (due lines i).take n = replyTo l → n = l.length + 1 := by
    intro h
    rw [← length_replyTo, ← h, List.length_take, Nat.min_eq_left hn]
  constructor
  · intro h
    refine ⟨hlen h, ?_⟩
    by_contra hnot
    rw [not_or, not_not] at hnot
    obtain ⟨hne, hleft⟩ := hnot
    obtain ⟨c, l, rfl⟩ := List.exists_cons_of_ne_nil hne
    obtain rfl := hlen h
    rw [due_eq hl, if_pos hleft, replyTo_eq] at h
    have hc : newline = caesar c := (List.cons.inj h).1
    exact hnewline (eq_newline_of_caesar hc.symm ▸ List.mem_cons_self ..)
  · rintro ⟨rfl, rfl | hleft⟩
    · rw [due_eq hl]
      split <;> rfl
    · rw [due_eq hl, if_neg hleft, List.nil_append, ← length_replyTo, List.take_left]

/-- Behind the reply to line `i` follows what is due at the next line. -/
theorem drop_due {i : ℕ} {l : List UInt8} (hl : lines[i]? = some l)
    (h : l = [] ∨ ¬Leftover lines i) : (due lines i).drop (l.length + 1) = due lines (i + 1) := by
  rw [due_eq hl, due]
  rcases h with rfl | hleft
  · have hsucc : Leftover lines (i + 1) ↔ Leftover lines i := by
      rw [leftover_succ hl]
      exact or_iff_left (by decide)
    by_cases hleft : Leftover lines i
    · rw [if_pos hleft, if_pos (hsucc.mpr hleft)]
      rfl
    · rw [if_neg hleft, if_neg (hsucc.not.mpr hleft)]
      rfl
  · have hsucc : Leftover lines (i + 1) ↔ l.length = maxBuffer - 3 := by
      rw [leftover_succ hl]
      exact or_iff_right hleft
    rw [if_neg hleft, List.nil_append, ← length_replyTo, List.drop_left]
    simp only [hsucc]

theorem zero_notMem_due (hlines : ∀ l ∈ lines, Typeable l) (i : ℕ) : 0 ∉ due lines i := by
  rw [due, List.mem_append, not_or]
  constructor
  · split <;> decide
  · intro h0
    obtain ⟨l', hl', h0⟩ := List.mem_flatMap.mp h0
    obtain ⟨l, hl, hserved⟩ := List.mem_flatMap.mp hl'
    have htype := (hlines l (List.mem_of_mem_drop hl)).of_mem_served hserved
    exact zero_notMem_replyTo htype.noZero h0

/-- The array with some bytes that were read, none of them a NUL. -/
theorem cString_receiveBuffer {bytes : List UInt8} (h : 0 ∉ bytes) :
    cString (receiveBuffer bytes) = bytes := by
  rw [receiveBuffer]
  cases hk : maxBuffer - bytes.length with
  | zero =>
    rw [List.replicate_zero, List.append_nil, cString, List.takeWhile_eq_self_iff]
    exact fun c hc => decide_eq_true fun h0 => h (h0 ▸ hc)
  | succ k => rw [List.replicate_succ, cString_append_zero h]

theorem zero_mem_receiveBuffer {bytes : List UInt8} (h : bytes.length < maxBuffer) :
    0 ∈ receiveBuffer bytes :=
  List.mem_append_right _ (List.mem_replicate.mpr ⟨by omega, rfl⟩)

theorem matched_append_iff {printed : List (List UInt8)} {receive l : List UInt8}
    (hl : lines[printed.length]? = some l) (h : Matched lines printed) :
    Matched lines (printed ++ [receive]) ↔ cString receive = replyTo l ∧ 0 ∈ receive := by
  have htake : lines.take (printed ++ [receive]).length = lines.take printed.length ++ [l] := by
    rw [List.length_append, List.length_singleton, List.take_add_one, hl]
    rfl
  constructor
  · intro h'
    have hreplies := h'.replies
    rw [htake, List.map_append, List.map_append, h.replies, List.append_cancel_left_eq] at hreplies
    exact ⟨(List.cons.inj hreplies).1, h'.terminated receive (by simp)⟩
  · rintro ⟨hreply, hzero⟩
    refine ⟨?_, fun receive' hr => ?_⟩
    · rw [htake, List.map_append, List.map_append, h.replies, List.map_singleton,
        List.map_singleton, hreply]
    · rcases List.mem_append.mp hr with hr | hr
      · exact h.terminated receive' hr
      · exact List.mem_singleton.mp hr ▸ hzero

namespace Flow

variable {current : Option (List UInt8)} {pending rest : List (List UInt8)} {n : ℕ}

/-- The bytes on the way to the client are the first that are due. -/
theorem toClient_prefix (h : Flow lines s current pending rest) :
    s.toClient <+: due lines s.printed.length := by
  rw [← h.replies]
  exact List.prefix_append _ _

/-- The client waits for the reply to a line. -/
theorem of_waiting (h : Flow lines s current pending rest) (hc : s.client = .waiting) :
    (∃ l, lines[s.printed.length]? = some l) ∧ rest = lines.drop (s.printed.length + 1) := by
  rcases h.client with ⟨hclient, -⟩ | ⟨-, hlt, hrest⟩
  · rw [hc] at hclient; cases hclient
  · exact ⟨⟨_, List.getElem?_eq_getElem hlt⟩, hrest⟩

/-- What a call of `read` returns to the client is the reply to its line if and only if it returns
as many bytes, and no newline is left over in front, unless the reply is a newline, too. -/
theorem matched_read_iff (h : Flow lines s current pending rest)
    (hlines : ∀ l ∈ lines, Typeable l) {l : List UInt8} (hl : lines[s.printed.length]? = some l)
    (hn : n ≤ s.toClient.length) :
    Matched lines (s.printed ++ [receiveBuffer (s.toClient.take n)]) ↔
      n = l.length + 1 ∧ (l = [] ∨ ¬Leftover lines s.printed.length) := by
  have hfront := h.toClient_prefix
  have htype : Typeable l := hlines l (List.mem_of_getElem? hl)
  have htake : s.toClient.take n = (due lines s.printed.length).take n := by
    obtain ⟨more, hmore⟩ := hfront
    rw [← hmore, List.take_append_of_le_length hn]
  have hzero : 0 ∉ s.toClient.take n := fun h0 =>
    zero_notMem_due hlines _ (hfront.subset (List.mem_of_mem_take h0))
  rw [matched_append_iff hl h.matched, cString_receiveBuffer hzero,
    ← take_due_eq_replyTo_iff hl htype.noNewline (Nat.le_trans hn hfront.length_le), htake]
  refine and_iff_left_of_imp fun hreply => zero_mem_receiveBuffer ?_
  rw [hreply, length_replyTo]
  exact Nat.lt_of_le_of_lt (Nat.succ_le_succ htype.length_le) (by decide)

/-- The client reads the reply to its line. -/
theorem clientRead (h : Flow lines s current pending rest) (hlines : ∀ l ∈ lines, Typeable l)
    (hc : s.client = .waiting) {l : List UInt8} (hl : lines[s.printed.length]? = some l)
    (hn : n ≤ s.toClient.length)
    (hread : n = l.length + 1 ∧ (l = [] ∨ ¬Leftover lines s.printed.length)) :
    InStep lines { s with
      client := .typing
      printed := s.printed ++ [receiveBuffer (s.toClient.take n)]
      received := s.received + n } := by
  have hmatched := (h.matched_read_iff hlines hl hn).mpr hread
  have hreceived := h.received_le
  have hlen : n ≤ s.server.sent.length - s.received := by
    rwa [toClient, List.length_drop] at hn
  obtain ⟨-, hrest⟩ := h.of_waiting hc
  refine ⟨current, pending, rest, h.typeable, h.stdin, .inl ⟨rfl, ?_⟩, h.upstream, h.place, ?_, ?_,
    hmatched⟩
  · rw [hrest]
    simp
  · dsimp only
    omega
  · have hdrop := congrArg (List.drop n) h.replies
    rw [List.drop_append_of_le_length hn, hread.1, drop_due hl hread.2, toClient,
      List.drop_drop] at hdrop
    rw [toClient, List.length_append, List.length_singleton, hread.1]
    exact hdrop

end Flow

/-! ### Whole runs -/

theorem inStep_initial (lines : List (List UInt8)) (nserv : ℤ) (stack : List UInt8) :
    InStep lines (initial (linesOf lines) nserv stack) := by
  refine ⟨none, [], lines, by simp, rfl, .inl ⟨rfl, rfl⟩, rfl, .inl ⟨rfl, rfl⟩, Nat.le_refl 0, ?_,
    ⟨rfl, by simp [initial]⟩⟩
  simp [initial, toClient, due, Leftover, Session.fresh]

/-- The steps of the exchange, except that the client must read its reply. -/
theorem InStep.exec {e : PairEvent} (hlines : ∀ l ∈ lines, Typeable l) (hstream : s.Streaming)
    (hs : InStep lines s) (hreads : ReadsReply lines s e) (h : s.execAdmitted e = some t) :
    InStep lines t := by
  obtain ⟨current, pending, rest, hflow⟩ := hs
  have hexec := h
  rw [execAdmitted, Option.ite_none_right_eq_some] at hexec
  obtain ⟨hadmits, hexec⟩ := hexec
  cases e with
  | type =>
    obtain ⟨hc, ⟨⟩⟩ := Option.ite_none_right_eq_some.mp hexec
    exact hflow.type hlines hc (hadmits.1 rfl)
  | clientRead n =>
    obtain ⟨l, hl, hread⟩ := hreads (by simp [h])
    obtain ⟨⟨hc, -, -, hn⟩, ⟨⟩⟩ := Option.ite_none_right_eq_some.mp hexec
    exact hflow.clientRead hlines hc hl hn hread
  | clientEof =>
    obtain ⟨⟨-, -, hp⟩, -⟩ := Option.ite_none_right_eq_some.mp hexec
    rcases hflow.place_cases with hp' | hp' | hp' <;> (rw [hp'] at hp; cases hp)
  | serverRead r =>
    rcases serverRead_cases hstream hexec with ⟨-, hup, -, rfl⟩ | hdelivers
    · exact hflow.frame rfl rfl rfl rfl rfl hup rfl (.inl ⟨rfl, rfl⟩)
    · exact hflow.delivers hdelivers
  | nextLine => exact hflow.delivers (nextLine_delivers hstream hexec)
  | tryStart =>
    obtain ⟨g, u, hstep, rfl⟩ := serve_eq_some hexec
    obtain ⟨hp, ⟨-, rfl, rfl⟩ | ⟨hroom, -, -⟩⟩ := Session.tryStart_cases hstep
    · exact hflow.frame rfl rfl rfl rfl rfl rfl rfl (.inr ⟨hp, rfl, rfl⟩)
    · exact absurd (hadmits.2 rfl) hroom
  | quit =>
    obtain ⟨g, u, hstep, rfl⟩ := serve_eq_some hexec
    obtain ⟨⟨hp, -, hquit⟩, -, -⟩ := Session.quit_cases hstep
    obtain ⟨l, rfl, hline, -⟩ := hflow.of_answering hp
    have hl : l = [58, 113] := List.append_inj_left' (hline.symm.trans hquit) rfl
    exact absurd hl (hflow.typeable l (by simp)).ne_quit
  | reply =>
    obtain ⟨g, u, hstep, rfl⟩ := serve_eq_some hexec
    obtain ⟨hp, -, ⟨n, hn, -, rfl, rfl⟩ | ⟨hn, -, -⟩⟩ := Session.reply_cases hstep
    · obtain rfl := Option.some.inj hn
      rw [List.take_length]
      exact hflow.reply hp
    · cases hn
  | leave =>
    obtain ⟨g, u, hstep, -⟩ := serve_eq_some hexec
    have hp := (Session.leave_cases hstep).1
    rcases hflow.place_cases with hp' | hp' | hp' <;> (rw [hp'] at hp; cases hp)
  | close =>
    obtain ⟨g, u, hstep, -⟩ := serve_eq_some hexec
    have hp := (Session.close_cases hstep).1
    rcases hflow.place_cases with hp' | hp' | hp' <;> (rw [hp'] at hp; cases hp)
  | others nserv =>
    obtain rfl := Option.some.inj hexec
    exact hflow.frame rfl rfl rfl rfl rfl rfl rfl (.inl ⟨rfl, rfl⟩)

/-- A step of the exchange keeps the replies matched if and only if it meets the condition. -/
theorem InStep.matched_iff {e : PairEvent} (hlines : ∀ l ∈ lines, Typeable l)
    (hstream : s.Streaming) (hs : InStep lines s) :
    (∀ t, s.execAdmitted e = some t → Matched lines t.printed) ↔ ReadsReply lines s e := by
  constructor
  · intro hmatched
    cases e with
    | clientRead n =>
      intro hsome
      obtain ⟨t, ht⟩ := Option.ne_none_iff_exists'.mp hsome
      have hread := hmatched t ht
      obtain ⟨current, pending, rest, hflow⟩ := hs
      obtain ⟨-, hexec⟩ := Option.ite_none_right_eq_some.mp ht
      obtain ⟨⟨hc, -, -, hn⟩, ⟨⟩⟩ := Option.ite_none_right_eq_some.mp hexec
      obtain ⟨⟨l, hl⟩, -⟩ := hflow.of_waiting hc
      exact ⟨l, hl, (hflow.matched_read_iff hlines hl hn).mp hread⟩
    | _ => trivial
  · intro hreads t ht
    obtain ⟨_, _, _, hflow⟩ := hs.exec hlines hstream hreads ht
    exact hflow.matched

/-- In a run of an admitted client whose input are some lines, what is printed after each request is
the reply to its line if and only if every call of `read` by the client returns just the bytes of
that reply. -/
theorem replies_matched_iff (hlines : ∀ l ∈ lines, Typeable l) (nserv : ℤ) (stack : List UInt8)
    (es : List PairEvent) :
    Along execAdmitted (fun s e => ∀ t, s.execAdmitted e = some t → Matched lines t.printed)
        (initial (linesOf lines) nserv stack) es ↔
      Along execAdmitted (ReadsReply lines) (initial (linesOf lines) nserv stack) es := by
  refine along_congr (I := fun s => s.Streaming ∧ InStep lines s) (L := fun _ => True)
    (fun s e hs _ => hs.2.matched_iff hlines hs.1) (fun s e t hs _ hreads ht => ?_)
    ⟨streaming_initial _ nserv stack, inStep_initial lines nserv stack⟩ (fun _ _ => trivial)
  exact ⟨hs.1.exec (Option.ite_none_right_eq_some.mp ht).2, hs.2.exec hlines hs.1 hreads ht⟩

/-- An exchange of two lines. The server gets the first one in two parts. -/
def twoLines : List PairEvent :=
  [.type, .serverRead (.data ⟨[97], by decide⟩), .serverRead .intr,
    .serverRead (.data ⟨[98, newline], by decide⟩), .tryStart, .reply, .clientRead 3,
    .type, .serverRead (.data ⟨[99, newline], by decide⟩), .reply, .clientRead 2]

/-- The replies to `"ab"` and `"c"` are printed one after the other. -/
theorem replies_matched_twoLines :
    Along execAdmitted
      (fun s e => ∀ t, s.execAdmitted e = some t → Matched [[97, 98], [99]] t.printed)
      (initial (linesOf [[97, 98], [99]]) 0 []) twoLines := by
  have hlines : ∀ l ∈ [[97, 98], [99]], Typeable l := by
    simp only [List.forall_mem_cons]
    exact ⟨⟨by decide, by decide, by decide, by decide⟩, ⟨by decide, by decide, by decide, by decide⟩,
      by simp⟩
  have hrun : execAll
      (fun s e => if ReadsReply [[97, 98], [99]] s e then s.execAdmitted e else none)
      (initial (linesOf [[97, 98], [99]]) 0 []) twoLines =
        some ((execAll
          (fun s e => if ReadsReply [[97, 98], [99]] s e then s.execAdmitted e else none)
          (initial (linesOf [[97, 98], [99]]) 0 []) twoLines).get (by decide +kernel)) := by simp
  exact (replies_matched_iff hlines 0 [] twoLines).mpr (along_of_execAll hrun)

/-- A call of `read` by the client returns only the first byte of the reply. -/
def splitReply : List PairEvent :=
  [.type, .serverRead (.data ⟨[97, 98, newline], by decide⟩), .tryStart, .reply, .clientRead 1]

/-- When the reply to `"ab"` arrives in two parts, the first part is printed as the reply. -/
theorem not_replies_matched :
    ¬ ∀ (lines : List (List UInt8)) (nserv : ℤ) (stack : List UInt8) (es : List PairEvent) (s : Pair),
      (∀ l ∈ lines, Typeable l) →
      execAll execAdmitted (initial (linesOf lines) nserv stack) es = some s →
      Matched lines s.printed := by
  intro h
  have hlines : ∀ l ∈ [[97, 98]], Typeable l := by
    simp only [List.forall_mem_singleton]
    exact ⟨by decide, by decide, by decide, by decide⟩
  have hrun : execAll execAdmitted (initial (linesOf [[97, 98]]) 0 []) splitReply =
      some ((execAll execAdmitted (initial (linesOf [[97, 98]]) 0 []) splitReply).get
        (by decide +kernel)) := by simp
  exact absurd (h _ 0 [] splitReply _ hlines hrun).replies (by decide +kernel)

end Pair

end OsProject.Server
