import OsProject.Server.Conversation

/-!
# The line that quits

`serve` compares the pieces that `read_line` returns with `":q\n"`, and only while the client is
served. It leaves its loop at the first line `":q"` of the stream, and at nothing else, if and only
if such a line is never read while the client waits and no longer line has `":q\n"` for its last
piece while the client is served.

## Main definitions

* `EndsWithQuit`, `FirstQuit` — the lines `":q"` of a stream.
* `Conversation.QuitsExactly`, `Conversation.SeesQuitLines`.

## Main results

* `Conversation.turn_of_endsWithQuit` — the lines `":q"` of the stream are pieces of it.
* `Conversation.quitsExactly_iff`.
-/

namespace OsProject.Server

open LineStream Transition

/-- A line starts behind these bytes. -/
def LineStart (bytes : List UInt8) : Prop := bytes = [] ∨ bytes.getLast? = some newline

/-- The last line of these bytes is `":q"`. -/
def EndsWithQuit (bytes : List UInt8) : Prop := ∃ pre, LineStart pre ∧ bytes = pre ++ quitLine

/-- The part of a stream up to the end of its first line `":q"`. -/
structure FirstQuit (bytes d : List UInt8) : Prop where
  part : d <+: bytes
  ends : EndsWithQuit d
  first : ∀ d', d' <+: bytes → EndsWithQuit d' → d <+: d'

variable {bytes d d' : List UInt8}

theorem FirstQuit.unique (h : FirstQuit bytes d) (h' : FirstQuit bytes d') : d = d' :=
  (h.first d' h'.part h'.ends).eq_of_length_le (h'.first d h.part h.ends).length_le

/-- If there is a line `":q"` then there is a first one. -/
theorem exists_firstQuit (hd : d <+: bytes) (hends : EndsWithQuit d) : ∃ d₀, FirstQuit bytes d₀ := by
  induction hn : d.length using Nat.strong_induction_on generalizing d with
  | _ n ih =>
    by_cases hearlier : ∃ d', d' <+: bytes ∧ EndsWithQuit d' ∧ d'.length < d.length
    · obtain ⟨d', hd', hends', hlt⟩ := hearlier
      exact ih d'.length (hn ▸ hlt) hd' hends' rfl
    · refine ⟨d, hd, hends, fun d' hd' hends' => ?_⟩
      have hle : d.length ≤ d'.length := by
        by_contra hlt
        exact hearlier ⟨d', hd', hends', Nat.lt_of_not_le hlt⟩
      exact List.prefix_of_prefix_length_le hd hd' hle

/-- A line `":q"` is one of the pieces. -/
theorem cutLines_quitLine {pre post : List UInt8} (hpre : LineStart pre) :
    cutLines newline (maxLine - 1) (pre ++ (quitLine ++ post)) =
      cutLines newline (maxLine - 1) pre ++ quitLine :: cutLines newline (maxLine - 1) post := by
  have hroom : maxLine - 1 ≠ 0 := by decide
  have hcut : cutLine newline (maxLine - 1) (quitLine ++ post) = (quitLine, post) :=
    cutLine_line (l := [58, 113]) (by decide) (by decide) post
  have hne : quitLine ++ post ≠ [] := List.cons_ne_nil _ _
  rw [cutLines_append hroom hpre, cutLines_of_ne_nil hroom hne, hcut]

namespace Conversation

variable {c : Conversation}

/-- The bytes of the turns. -/
def consumed (c : Conversation) : List UInt8 := c.turns.flatMap Turn.piece

/-- The session has left its loop without a reply to the last piece, and without reading on. -/
def Quits (c : Conversation) : Prop := ∃ ts t, c.turns = ts ++ [t] ∧ t.reply = none

/-- The session quits exactly at the first line `":q"` of the stream. In its loop it has not passed
such a line; out of it, it has quit if there is such a line, behind this line, and has not quit if
there is none. -/
structure QuitsExactly (c : Conversation) : Prop where
  inLoop : c.session.place.InLoop → ∀ d, d <+: c.consumed → ¬EndsWithQuit d
  ended : ¬c.session.place.InLoop → ∀ d, (c.Quits ∧ c.consumed = d) ↔ FirstQuit c.stream d

/-- Whenever a piece is `":q\n"`, the client is served if and only if the piece is a whole line. -/
def SeesQuitLines (c : Conversation) : Prop :=
  ∀ ts t us, c.turns = ts ++ t :: us → t.piece = quitLine →
    (t.admitted = true ↔ LineStart (ts.flatMap Turn.piece))

/-- The bytes of the turns are the start of the stream. -/
theorem WellFramed.stream_eq (hc : c.WellFramed) :
    c.stream = c.consumed ++ (c.inHand.flatten ++ (c.session.unread ++ c.pending)) := by
  have hroom : maxLine - 1 ≠ 0 := by decide
  have hflat := congrArg List.flatten hc.framed
  rw [List.flatten_append, List.flatten_append, (pieces_cutLines hroom c.stream).flatten,
    (pieces_cutLines hroom _).flatten] at hflat
  rw [hflat, consumed, List.flatMap_def]

theorem WellFramed.piece_mem (hc : c.WellFramed) {t : Turn} (ht : t ∈ c.turns) :
    t.piece ∈ cutLines newline (maxLine - 1) c.stream := by
  rw [hc.framed]
  exact List.mem_append_left _ (List.mem_map_of_mem ht)

/-- `serve` leaves its loop at a piece `":q\n"` of a client that is served. -/
theorem WellFramed.reply_eq_none_iff (hc : c.WellFramed) {t : Turn} (ht : t ∈ c.turns) :
    t.reply = none ↔ t.admitted = true ∧ t.piece = quitLine := by
  have hpieces : Pieces newline (maxLine - 1) c.stream _ := pieces_cutLines (by decide) c.stream
  have hserves := hc.serves t ht
  rw [Turn.Serves] at hserves
  split at hserves
  · next hquit =>
    have hpiece := eq_quitLine_of_cString (hpieces.mark_notMem _ (hc.piece_mem ht)) hquit.2
    exact iff_of_true hserves.1 ⟨hquit.1, hpiece⟩
  · next hquit =>
    obtain ⟨n, -, hsome, -⟩ := hserves
    refine iff_of_false (by simp [hsome]) fun h => hquit ⟨h.1, ?_⟩
    rw [h.2]
    decide

/-- A turn without a reply is the last one. -/
theorem WellFramed.eq_nil_of_reply (hc : c.WellFramed) {ts us : List Turn} {t : Turn}
    (hturns : c.turns = ts ++ t :: us) (hnone : t.reply = none) : us = [] := by
  by_contra hne
  refine hc.answered t ?_ hnone
  obtain ⟨u, us, rfl⟩ := List.exists_cons_of_ne_nil hne
  rw [hturns, List.dropLast_append_cons, List.dropLast_cons_cons]
  exact List.mem_append_right _ List.mem_cons_self

/-- A line `":q"` that the session has passed is one of its pieces. -/
theorem turn_of_endsWithQuit (hc : c.WellFramed) (hd : d <+: c.consumed) (hends : EndsWithQuit d) :
    ∃ ts t us, c.turns = ts ++ t :: us ∧ t.piece = quitLine ∧ LineStart (ts.flatMap Turn.piece) ∧
      d = ts.flatMap Turn.piece ++ quitLine := by
  have hroom : maxLine - 1 ≠ 0 := by decide
  obtain ⟨pre, hpre, rfl⟩ := hends
  have hflat : (cutLines newline (maxLine - 1) pre).flatten = pre :=
    (pieces_cutLines hroom pre).flatten
  have hlen : pre.length < c.consumed.length := by
    have := hd.length_le
    rw [List.length_append] at this
    exact Nat.lt_of_lt_of_le (Nat.lt_add_of_pos_right (by decide)) this
  obtain ⟨post, hpost⟩ := hd.trans ⟨_, hc.stream_eq.symm⟩
  have hframed := hc.framed
  rw [← hpost, List.append_assoc, cutLines_quitLine hpre] at hframed
  have hbehind (as : List (List UInt8)) (h : cutLines newline (maxLine - 1) pre =
      c.turns.map Turn.piece ++ as) : False := by
    have := congrArg (fun ls => ls.flatten.length) h
    simp only [hflat, List.flatten_append, List.length_append, ← List.flatMap_def] at this
    rw [consumed] at hlen
    omega
  rcases List.append_eq_append_iff.mp hframed with ⟨as, hmap, hrest⟩ | ⟨as, hmap, -⟩
  · cases as with
    | nil => exact (hbehind [] (by simpa using hmap.symm)).elim
    | cons p as =>
      obtain ⟨rfl, -⟩ := List.cons.inj hrest
      obtain ⟨ts, us, hturns, hts, hus⟩ := List.map_eq_append_iff.mp hmap
      obtain ⟨t, us, rfl, hpiece, -⟩ := List.map_eq_cons_iff.mp hus
      have hbytes : ts.flatMap Turn.piece = pre := by rw [List.flatMap_def, hts, hflat]
      exact ⟨ts, t, us, hturns, hpiece, hbytes ▸ hpre, by rw [hbytes]⟩
  · exact (hbehind as hmap).elim

/-- When the session sees all these lines, it has quit at each of those it has passed. -/
theorem eq_consumed_of_endsWithQuit (hc : c.WellFramed) (hsees : c.SeesQuitLines)
    (hd : d <+: c.consumed) (hends : EndsWithQuit d) : c.Quits ∧ c.consumed = d := by
  obtain ⟨ts, t, us, hturns, hpiece, hstart, rfl⟩ := turn_of_endsWithQuit hc hd hends
  have ht : t ∈ c.turns := by
    rw [hturns]
    exact List.mem_append_right _ List.mem_cons_self
  have hnone : t.reply = none :=
    (hc.reply_eq_none_iff ht).mpr ⟨(hsees ts t us hturns hpiece).mpr hstart, hpiece⟩
  obtain rfl := hc.eq_nil_of_reply hturns hnone
  refine ⟨⟨ts, t, hturns, hnone⟩, ?_⟩
  rw [consumed, hturns, List.flatMap_append, List.flatMap_singleton, hpiece]

/-- A session that has quit has done so at a line, when it takes nothing else for one. -/
theorem firstQuit_of_quits (hc : c.WellFramed) (hsees : c.SeesQuitLines) (hquits : c.Quits) :
    FirstQuit c.stream c.consumed := by
  have hpart : c.consumed <+: c.stream := ⟨_, hc.stream_eq.symm⟩
  obtain ⟨ts, t, hturns, hnone⟩ := hquits
  have ht : t ∈ c.turns := by
    rw [hturns]
    exact List.mem_append_right _ List.mem_cons_self
  obtain ⟨hadm, hpiece⟩ := (hc.reply_eq_none_iff ht).mp hnone
  have hstart := (hsees ts t [] hturns hpiece).mp hadm
  refine ⟨hpart, ⟨_, hstart, ?_⟩, fun d' hd' hends' => ?_⟩
  · rw [consumed, hturns, List.flatMap_append, List.flatMap_singleton, hpiece]
  · rcases Nat.le_total c.consumed.length d'.length with hle | hle
    · exact List.prefix_of_prefix_length_le hpart hd' hle
    · have hbefore : d' <+: c.consumed := List.prefix_of_prefix_length_le hd' hpart hle
      rw [(eq_consumed_of_endsWithQuit hc hsees hbefore hends').2]

/-- A piece `":q\n"` at which the session has not quit is no line. -/
theorem not_lineStart_of_quitsExactly (hc : c.WellFramed) (hexact : c.QuitsExactly)
    {ts us : List Turn} {t : Turn} (hturns : c.turns = ts ++ t :: us) (hpiece : t.piece = quitLine)
    (hadm : t.admitted = false) : ¬LineStart (ts.flatMap Turn.piece) := by
  intro hstart
  have ht : t ∈ c.turns := by
    rw [hturns]
    exact List.mem_append_right _ List.mem_cons_self
  have hends : EndsWithQuit (ts.flatMap Turn.piece ++ quitLine) := ⟨_, hstart, rfl⟩
  have hconsumed : c.consumed = ts.flatMap Turn.piece ++ quitLine ++ us.flatMap Turn.piece := by
    rw [consumed, hturns, List.flatMap_append, List.flatMap_cons, hpiece, List.append_assoc]
  have hbefore : ts.flatMap Turn.piece ++ quitLine <+: c.consumed := ⟨_, hconsumed.symm⟩
  by_cases hloop : c.session.place.InLoop
  · exact hexact.inLoop hloop _ hbefore hends
  · have hpart := hbefore.trans ⟨_, hc.stream_eq.symm⟩
    obtain ⟨d₀, hfirst⟩ := exists_firstQuit hpart hends
    obtain ⟨⟨ts', t', hturns', hnone⟩, rfl⟩ := (hexact.ended hloop d₀).mpr hfirst
    -- the turns behind this line have no bytes, so that there are none
    have hus : us.flatMap Turn.piece = [] := by
      have hle := (hfirst.first _ hpart hends).length_le
      rw [hconsumed, List.length_append] at hle
      exact List.eq_nil_of_length_eq_zero (by omega)
    have hlast : us = [] := by
      by_contra hne
      obtain ⟨u, us, rfl⟩ := List.exists_cons_of_ne_nil hne
      have hu : u ∈ c.turns := by
        rw [hturns]
        exact List.mem_append_right _ (List.mem_cons_of_mem _ List.mem_cons_self)
      have hpieces : Pieces newline (maxLine - 1) c.stream _ := pieces_cutLines (by decide) c.stream
      exact hpieces.ne_nil _ (hc.piece_mem hu) (List.append_eq_nil_iff.mp hus).1
    subst hlast
    have hsame := List.append_inj_right' (hturns.symm.trans hturns') rfl
    obtain rfl := (List.cons.inj hsame).1
    cases hadm.symm.trans ((hc.reply_eq_none_iff ht).mp hnone).1

/-- A session quits exactly at the first line `":q"` if and only if it sees all these lines and
takes nothing else for one. -/
theorem quitsExactly_iff (h : Reachable conversationSystem c) :
    c.QuitsExactly ↔ c.SeesQuitLines := by
  have hc := wellFramed_of_reachable h
  constructor
  · intro hexact ts t us hturns hpiece
    constructor
    · intro hadm
      have ht : t ∈ c.turns := by
        rw [hturns]
        exact List.mem_append_right _ List.mem_cons_self
      have hnone := (hc.reply_eq_none_iff ht).mpr ⟨hadm, hpiece⟩
      obtain rfl := hc.eq_nil_of_reply hturns hnone
      have hover : ¬c.session.place.InLoop := fun hloop => hc.inLoop hloop t ht hnone
      obtain ⟨pre, hstart, hpre⟩ :=
        ((hexact.ended hover _).mp ⟨⟨ts, t, hturns, hnone⟩, rfl⟩).ends
      rw [consumed, hturns, List.flatMap_append, List.flatMap_singleton, hpiece] at hpre
      rwa [List.append_cancel_right hpre]
    · intro hstart
      by_contra hadm
      exact not_lineStart_of_quitsExactly hc hexact hturns hpiece (by simpa using hadm) hstart
  · intro hsees
    refine ⟨fun hloop d hd hends => ?_, fun hover d => ⟨?_, fun hfirst => ?_⟩⟩
    · obtain ⟨⟨ts, t, hturns, hnone⟩, -⟩ := eq_consumed_of_endsWithQuit hc hsees hd hends
      refine hc.inLoop hloop t ?_ hnone
      rw [hturns]
      exact List.mem_append_right _ List.mem_cons_self
    · rintro ⟨hquits, rfl⟩
      exact firstQuit_of_quits hc hsees hquits
    · rcases hc.ended hover with hquits | hend
      · exact ⟨hquits, (firstQuit_of_quits hc hsees hquits).unique hfirst⟩
      · -- the whole stream was read
        have hall := hc.stream_eq
        rw [inHand_of_not fun hp => hover (.inr hp), hend, List.flatten_nil, List.append_nil,
          List.append_nil] at hall
        exact eq_consumed_of_endsWithQuit hc hsees (hall ▸ hfirst.part) hfirst.ends

/-- A client that sends `":q\n"` and asks for admission while `nserv` has this value. -/
def quitting (nserv : ℤ) (events : List SessionEvent) : Option Conversation :=
  execAll exec (initial [] quitLine)
    (.readLine [.data ⟨quitLine, by decide⟩] :: .tryStart nserv :: events)

theorem reachable_quitting {nserv : ℤ} {events : List SessionEvent}
    (hc : quitting nserv events = some c) : Reachable conversationSystem c := by
  have hinit : Reachable conversationSystem (initial [] quitLine) := .init ⟨[], quitLine, rfl⟩
  exact hinit.run (run_of_execAll hc)

theorem quitsExactly_iff_quitting : ∃ c, quitting 0 [.quit, .leave, .close] = some c ∧
    (c.QuitsExactly ↔ c.SeesQuitLines) := by
  have hsome : (quitting 0 [.quit, .leave, .close]).isSome := by decide +kernel
  obtain ⟨c, hc⟩ := Option.isSome_iff_exists.mp hsome
  exact ⟨c, hc, quitsExactly_iff (reachable_quitting hc)⟩

/-- A client that waits for admission and sends `":q\n"` is asked to wait. -/
theorem not_quitsExactly : ¬∀ c, Reachable conversationSystem c → c.QuitsExactly := by
  intro hall
  have hturns : (quitting 2 [.reply 15]).map (fun c => (c.session.place, c.turns)) =
      some (.reading, [⟨quitLine, false, some waitLine, true⟩]) := by decide +kernel
  obtain ⟨c, hc, hturns⟩ := Option.map_eq_some_iff.mp hturns
  obtain ⟨hplace, hturns⟩ := Prod.mk.inj hturns
  refine (hall c (reachable_quitting hc)).inLoop (.inl hplace) quitLine ?_ ⟨[], .inl rfl, rfl⟩
  rw [consumed, hturns]
  exact List.prefix_refl quitLine

end Conversation

end OsProject.Server
