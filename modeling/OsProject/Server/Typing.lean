import OsProject.Server.Exchange

/-!
# What the client sends

`fgets` reads pieces of at most 255 bytes. The patch `buffer[MAXBUFFER - 2] = '\\n'` puts a newline
behind a piece of 254 bytes, and overwrites the last byte but its terminator in a piece of 255. So
all that was typed is sent, with some newlines inserted, if and only if no line has 255 characters
or more.

## Main definitions

* `requestOf` — what is sent for a piece.
* `Transcript`, `transcriptSystem` — the exchange, with what was read from the input and what was
  written to the socket.

## Main results

* `Transcript.typed_of_reachable` — the pieces that were read, and what was sent for them.
* `Transcript.inserted_iff`.
-/

namespace OsProject.Server

open LineStream Transition

/-! ### One piece -/

/-- What is sent for a piece of the input. -/
def requestOf (piece : List UInt8) : List UInt8 :=
  if maxBuffer - 2 ≤ piece.length then piece.take (maxBuffer - 2) ++ [newline] else piece

theorem request_of_noZero {stdin : List UInt8} (h : 0 ∉ stdin) :
    request stdin = requestOf (fgetsLine stdin).1 := by
  have hzero : 0 ∉ (fgetsLine stdin).1.take (maxBuffer - 2) := by
    intro h0
    refine h ?_
    rw [← cutLine_append newline (maxBuffer - 1) stdin]
    exact List.mem_append_left _ (List.mem_of_mem_take h0)
  have hbody : requestBody stdin = (fgetsLine stdin).1.take (maxBuffer - 2) := by
    rw [requestBody, cString, List.takeWhile_eq_self_iff]
    exact fun c hc => decide_eq_true fun h0 => hzero (h0 ▸ hc)
  rw [request_eq, hbody, requestOf, List.length_take]
  by_cases hfull : maxBuffer - 2 ≤ (fgetsLine stdin).1.length
  · rw [if_pos (Nat.min_eq_left hfull), if_pos hfull]
  · rw [if_neg (by omega), if_neg hfull, List.take_of_length_le (by omega)]

/-- A piece is overwritten if it fills the array without a newline at its end. -/
def Overwritten (piece : List UInt8) : Prop :=
  piece.length = maxBuffer - 1 ∧ piece.getLast? ≠ some newline

/-- The last two bytes of a piece that fills the array. -/
theorem requestOf_of_full {piece : List UInt8} (h : piece.length = maxBuffer - 1) :
    ∃ c, piece = piece.take (maxBuffer - 2) ++ [c] ∧
      requestOf piece = piece.take (maxBuffer - 2) ++ [newline] := by
  have hdrop : (piece.drop (maxBuffer - 2)).length = 1 := by
    rw [List.length_drop, h]
    rfl
  obtain ⟨c, hc⟩ := List.length_eq_one_iff.mp hdrop
  refine ⟨c, ?_, ?_⟩
  · rw [← hc, List.take_append_drop]
  · rw [requestOf, if_pos]
    rw [h]
    decide

/-- Nothing of any other piece is lost. -/
theorem inserted_requestOf {piece : List UInt8} (hle : piece.length ≤ maxBuffer - 1)
    (h : ¬Overwritten piece) : Inserted newline piece (requestOf piece) := by
  by_cases hfull : piece.length = maxBuffer - 1
  · obtain ⟨c, hpiece, hrequest⟩ := requestOf_of_full hfull
    have hlast : piece.getLast? = some newline := by
      by_contra hne
      exact h ⟨hfull, hne⟩
    rw [hpiece, List.getLast?_concat] at hlast
    obtain rfl := Option.some.inj hlast
    rw [hrequest, ← hpiece]
    exact Inserted.refl piece
  · rw [requestOf]
    split
    · rw [List.take_of_length_le (by omega)]
      exact Inserted.concat piece
    · exact Inserted.refl piece

/-- An overwritten piece loses a character. -/
theorem countP_requestOf_lt {piece : List UInt8} (h : Overwritten piece) :
    (requestOf piece).countP (· ≠ newline) < piece.countP (· ≠ newline) := by
  obtain ⟨hfull, hlast⟩ := h
  obtain ⟨c, hpiece, hrequest⟩ := requestOf_of_full hfull
  rw [hpiece, List.getLast?_concat] at hlast
  have hc : c ≠ newline := fun h => hlast (congrArg some h)
  rw [hrequest]
  nth_rewrite 2 [hpiece]
  rw [List.countP_append, List.countP_append]
  simp [hc]

theorem countP_requestOf_le {piece : List UInt8} (hle : piece.length ≤ maxBuffer - 1) :
    (requestOf piece).countP (· ≠ newline) ≤ piece.countP (· ≠ newline) := by
  by_cases h : Overwritten piece
  · exact Nat.le_of_lt (countP_requestOf_lt h)
  · exact Nat.le_of_eq (inserted_requestOf hle h).countP_eq

/-! ### All pieces -/

variable {ps : List (List UInt8)}

theorem inserted_flatMap_requestOf (hle : ∀ p ∈ ps, p.length ≤ maxBuffer - 1)
    (h : ∀ p ∈ ps, ¬Overwritten p) : Inserted newline ps.flatten (ps.flatMap requestOf) := by
  induction ps with
  | nil => exact .nil
  | cons p ps ih =>
    obtain ⟨hlep, hleps⟩ := List.forall_mem_cons.mp hle
    obtain ⟨hp, hps⟩ := List.forall_mem_cons.mp h
    rw [List.flatten_cons, List.flatMap_cons]
    exact (inserted_requestOf hlep hp).append (ih hleps hps)

theorem countP_flatMap_requestOf_le (hle : ∀ p ∈ ps, p.length ≤ maxBuffer - 1) :
    (ps.flatMap requestOf).countP (· ≠ newline) ≤ ps.flatten.countP (· ≠ newline) := by
  induction ps with
  | nil => exact Nat.le_refl 0
  | cons p ps ih =>
    obtain ⟨hlep, hleps⟩ := List.forall_mem_cons.mp hle
    rw [List.flatten_cons, List.flatMap_cons, List.countP_append, List.countP_append]
    exact Nat.add_le_add (countP_requestOf_le hlep) (ih hleps)

/-- What an overwritten piece loses is not made up for by the others. -/
theorem not_inserted_flatMap_requestOf (hle : ∀ p ∈ ps, p.length ≤ maxBuffer - 1)
    {p : List UInt8} (hp : p ∈ ps) (h : Overwritten p) :
    ¬Inserted newline ps.flatten (ps.flatMap requestOf) := by
  intro hinserted
  obtain ⟨before, behind, rfl⟩ := List.append_of_mem hp
  have hcount := hinserted.countP_eq
  have hbefore := countP_flatMap_requestOf_le fun q hq => hle q (List.mem_append_left _ hq)
  have hbehind := countP_flatMap_requestOf_le fun q hq =>
    hle q (List.mem_append_right _ (List.mem_cons_of_mem p hq))
  have hlt := countP_requestOf_lt h
  simp only [List.flatten_append, List.flatten_cons, List.flatMap_append, List.flatMap_cons,
    List.countP_append] at hcount
  omega

/-! ### The transcript of an exchange -/

/-- The client and its thread, the bytes of the input that `fgets` has read so far, and the bytes
that were handed to `write`. -/
structure Transcript where
  pair : Pair
  consumed : List UInt8
  written : List UInt8
deriving DecidableEq

namespace Transcript

def initial (stdin : List UInt8) (nserv : ℤ) (stack : List UInt8) : Transcript :=
  ⟨.initial stdin nserv stack, [], []⟩

def exec (s : Transcript) : PairEvent → Option Transcript
  | .type =>
    (s.pair.exec .type).map fun pair =>
      { pair := pair
        consumed := s.consumed ++ (fgetsLine s.pair.stdin).1
        written := s.written ++ request s.pair.stdin }
  | e => (s.pair.exec e).map fun pair => { s with pair := pair }

end Transcript

/-- The exchanges about an input. -/
def transcriptSystem (stdin : List UInt8) : System Transcript PairEvent :=
  .ofExec (fun s => ∃ nserv stack, s = .initial stdin nserv stack) Transcript.exec

namespace Transcript

variable {stdin : List UInt8} {s s' : Transcript}

/-- The pieces of the input that were read, and what was sent for them. -/
def Typed (stdin : List UInt8) (s : Transcript) : Prop :=
  ∃ ps, cutLines newline (maxBuffer - 1) stdin =
      ps ++ cutLines newline (maxBuffer - 1) s.pair.stdin ∧
    s.consumed = ps.flatten ∧ s.written = ps.flatMap requestOf

theorem stdin_returnLine (p : Pair) : p.returnLine.stdin = p.stdin := by
  rw [Pair.returnLine]
  split <;> rfl

theorem stdin_of_serve {p p' : Pair} {step : Globals → Session → Option (Globals × Session)}
    (h : p.serve step = some p') : p'.stdin = p.stdin := by
  obtain ⟨r, -, rfl⟩ := Option.map_eq_some_iff.mp h
  rfl

/-- Only `fgets` reads the input. -/
theorem stdin_of_exec {e : PairEvent} {p p' : Pair} (he : e ≠ .type) (h : p.exec e = some p') :
    p'.stdin = p.stdin := by
  cases e with
  | type => exact absurd rfl he
  | clientRead n =>
    obtain ⟨-, h⟩ := Option.ite_none_right_eq_some.mp h
    rw [← Option.some.inj h]
  | clientEof =>
    obtain ⟨-, h⟩ := Option.ite_none_right_eq_some.mp h
    rw [← Option.some.inj h]
  | serverRead r =>
    obtain ⟨-, h⟩ := Option.ite_none_right_eq_some.mp h
    rw [← Option.some.inj h, stdin_returnLine]
  | nextLine =>
    obtain ⟨-, h⟩ := Option.ite_none_right_eq_some.mp h
    rw [← Option.some.inj h, stdin_returnLine]
  | tryStart => exact stdin_of_serve h
  | quit => exact stdin_of_serve h
  | reply => exact stdin_of_serve h
  | leave => exact stdin_of_serve h
  | close => exact stdin_of_serve h
  | others nserv => rw [← Option.some.inj h]

/-- `fgets` reads the next piece of the input, or nothing at its end. -/
theorem Typed.type (h : s.Typed stdin) (hzero : 0 ∉ stdin) (hexec : s.exec .type = some s') :
    s'.Typed stdin := by
  obtain ⟨ps, hps, hconsumed, hwritten⟩ := h
  obtain ⟨pair, hpair, rfl⟩ := Option.map_eq_some_iff.mp hexec
  obtain ⟨-, hpair⟩ := Option.ite_none_right_eq_some.mp hpair
  have hstdin : pair.stdin = (fgetsLine s.pair.stdin).2 := by
    rw [← Option.some.inj hpair]
  have hrest : 0 ∉ s.pair.stdin := by
    have hroom : maxBuffer - 1 ≠ 0 := by decide
    have hflat := congrArg List.flatten hps
    rw [List.flatten_append, (pieces_cutLines hroom _).flatten,
      (pieces_cutLines hroom _).flatten] at hflat
    exact fun h0 => hzero (hflat ▸ List.mem_append_right _ h0)
  by_cases hend : s.pair.stdin = []
  · refine ⟨ps, ?_, ?_, ?_⟩
    · rw [hps, hstdin, hend]
      rfl
    · dsimp only
      rw [hend, hconsumed]
      exact List.append_nil _
    · dsimp only
      rw [request_of_noZero hrest, hend, hwritten]
      exact List.append_nil _
  · refine ⟨ps ++ [(fgetsLine s.pair.stdin).1], ?_, ?_, ?_⟩
    · rw [hps, hstdin, cutLines_of_ne_nil (by decide) hend, List.append_assoc]
      rfl
    · dsimp only
      rw [hconsumed, List.flatten_append, List.flatten_singleton]
    · dsimp only
      rw [request_of_noZero hrest, hwritten, List.flatMap_append, List.flatMap_singleton]

theorem typed_of_reachable (hzero : 0 ∉ stdin) (h : Reachable (transcriptSystem stdin) s) :
    s.Typed stdin := by
  refine h.invariant (fun s hs => ?_) fun s e s' _ hs hexec => ?_
  · obtain ⟨nserv, stack, rfl⟩ := hs
    exact ⟨[], rfl, rfl, rfl⟩
  · by_cases he : e = .type
    · subst he
      exact hs.type hzero hexec
    · obtain ⟨pair, hpair, rfl⟩ : ∃ pair, s.pair.exec e = some pair ∧ { s with pair := pair } = s' := by
        cases e with
        | type => exact absurd rfl he
        | _ => exact Option.map_eq_some_iff.mp hexec
      obtain ⟨ps, hps, hrest⟩ := hs
      exact ⟨ps, by rw [hps, stdin_of_exec he hpair], hrest⟩

/-- Everything that the client has read from its input was sent, with some newlines inserted, if and
only if no line of it has 255 characters or more. -/
theorem inserted_iff (hzero : 0 ∉ stdin) (h : Reachable (transcriptSystem stdin) s) :
    Inserted newline s.consumed s.written ↔
      ∀ line, line <:+: s.consumed → newline ∉ line → line.length < maxBuffer - 1 := by
  obtain ⟨ps, hps, hconsumed, hwritten⟩ := typed_of_reachable hzero h
  have hpieces : Pieces newline (maxBuffer - 1) stdin _ := pieces_cutLines (by decide) stdin
  have hmem {p : List UInt8} (hp : p ∈ ps) : p ∈ cutLines newline (maxBuffer - 1) stdin := by
    rw [hps]
    exact List.mem_append_left _ hp
  have hle : ∀ p ∈ ps, p.length ≤ maxBuffer - 1 := fun p hp => hpieces.length_le p (hmem hp)
  rw [hconsumed, hwritten]
  constructor
  · intro hinserted
    have hgood : ∀ p ∈ ps, ¬Overwritten p := fun p hp hbad =>
      not_inserted_flatMap_requestOf hle hp hbad hinserted
    have hfull : ∀ p ∈ ps, p.length = maxBuffer - 1 → p.getLast? = some newline := by
      intro p hp hlen
      by_contra hlast
      exact hgood p hp ⟨hlen, hlast⟩
    have hends : ∀ p ∈ ps.dropLast, p.getLast? = some newline := by
      intro p hp
      have hbefore : p ∈ (cutLines newline (maxBuffer - 1) stdin).dropLast := by
        rw [hps]
        by_cases hnil : cutLines newline (maxBuffer - 1) s.pair.stdin = []
        · rwa [hnil, List.append_nil]
        · rw [List.dropLast_append_of_ne_nil hnil]
          exact List.mem_append_left _ (List.dropLast_subset ps hp)
      rcases hpieces.ends p hbefore with hlast | hlen
      · exact hlast
      · exact hfull p (List.dropLast_subset ps hp) hlen
    exact fun line hline hmark => length_lt_of_infix (by decide) hle hfull hends hline hmark
  · intro hlines
    refine inserted_flatMap_requestOf hle fun p hp hbad => ?_
    have hmark : newline ∉ p := by
      rcases List.eq_nil_or_concat p with rfl | ⟨q, c, rfl⟩
      · exact List.not_mem_nil
      · rw [List.concat_eq_append] at *
        have hq := hpieces.mark_notMem _ (hmem hp)
        rw [List.dropLast_concat] at hq
        have hc := hbad.2
        rw [List.getLast?_concat] at hc
        rw [List.mem_append, List.mem_singleton, not_or]
        exact ⟨hq, fun h => hc (congrArg some h.symm)⟩
    have hlt := hlines p (List.infix_of_mem_flatten hp) hmark
    exact absurd hbad.1 (Nat.ne_of_lt hlt)

/-- The client has read the start of its input and sent something for it. -/
def firstRequest (stdin : List UInt8) : Option Transcript := exec (initial stdin 0 []) .type

theorem reachable_firstRequest (h : firstRequest stdin = some s) :
    Reachable (transcriptSystem stdin) s := by
  have hinit : Reachable (transcriptSystem stdin) (initial stdin 0 []) := .init ⟨0, [], rfl⟩
  exact hinit.step h

theorem inserted_iff_firstRequest : ∃ s, firstRequest [97, 98, newline] = some s ∧
    (Inserted newline s.consumed s.written ↔
      ∀ line, line <:+: s.consumed → newline ∉ line → line.length < maxBuffer - 1) := by
  have hsome : (firstRequest [97, 98, newline]).isSome := by decide +kernel
  obtain ⟨s, hs⟩ := Option.isSome_iff_exists.mp hsome
  exact ⟨s, hs, inserted_iff (by decide) (reachable_firstRequest hs)⟩

/-- In a line of 255 characters the last one is overwritten. -/
theorem not_inserted : ¬∀ stdin s, 0 ∉ stdin → Reachable (transcriptSystem stdin) s →
    Inserted newline s.consumed s.written := by
  intro hall
  have hcount : (firstRequest (List.replicate 255 120)).map (fun s =>
      (s.written.countP (· ≠ newline), s.consumed.countP (· ≠ newline))) = some (254, 255) := by
    decide +kernel
  obtain ⟨s, hs, hcount⟩ := Option.map_eq_some_iff.mp hcount
  have hzero : (0 : UInt8) ∉ List.replicate 255 (120 : UInt8) := by decide
  have heq := (hall _ s hzero (reachable_firstRequest hs)).countP_eq
  obtain ⟨hwritten, hconsumed⟩ := Prod.mk.inj hcount
  rw [hwritten, hconsumed] at heq
  cases heq

end Transcript

end OsProject.Server
