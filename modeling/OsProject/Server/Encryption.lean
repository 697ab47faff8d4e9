import Mathlib.Data.List.Forall2
import OsProject.Server.Conversation

/-!
# The replies to a client that is served

`serve` encrypts the array up to its first NUL, and `Write` does not look at how much of it `write`
has taken. The reply is the encryption of the piece that `read_line` returned if and only if there is
no NUL in the piece and `write` takes all of it.

## Main definitions

* `Rotates` — the encryption of a character, by its place in the alphabet.
* `Conversation.Faithful` — each piece is answered by its encryption.

## Main results

* `Conversation.faithful_iff`.
-/

namespace OsProject.Server

open LineStream Transition

/-! ### One character -/

/-- An ASCII letter. -/
def IsLetter (c : UInt8) : Prop := (97 ≤ c ∧ c ≤ 122) ∨ (65 ≤ c ∧ c ≤ 90)

instance (c : UInt8) : Decidable (IsLetter c) := inferInstanceAs (Decidable (_ ∨ _))

/-- A letter is rotated within the alphabet of its case; the other characters stay. -/
inductive Rotates : UInt8 → UInt8 → Prop
  | lower (k : ℕ) (hk : k < 26) :
      Rotates (.ofNat (97 + k)) (.ofNat (97 + (k + caesarShift.toNat) % 26))
  | upper (k : ℕ) (hk : k < 26) :
      Rotates (.ofNat (65 + k)) (.ofNat (65 + (k + caesarShift.toNat) % 26))
  | other (c : UInt8) (h : ¬IsLetter c) : Rotates c c

/-- The rotation back. -/
def unrotate (c : UInt8) : UInt8 :=
  if 97 ≤ c ∧ c ≤ 122 then (c - 97 + (26 - caesarShift)) % 26 + 97
  else if 65 ≤ c ∧ c ≤ 90 then (c - 65 + (26 - caesarShift)) % 26 + 65
  else c

theorem unrotate_caesar : ∀ c, unrotate (caesar c) = c :=
  forall_byte (by decide +kernel)

theorem caesar_lower {k : ℕ} (hk : k < 26) :
    caesar (.ofNat (97 + k)) = .ofNat (97 + (k + caesarShift.toNat) % 26) := by
  have h : ∀ k : Fin 26,
      caesar (.ofNat (97 + k)) = .ofNat (97 + (k + caesarShift.toNat) % 26) := by decide +kernel
  exact h ⟨k, hk⟩

theorem caesar_upper {k : ℕ} (hk : k < 26) :
    caesar (.ofNat (65 + k)) = .ofNat (65 + (k + caesarShift.toNat) % 26) := by
  have h : ∀ k : Fin 26,
      caesar (.ofNat (65 + k)) = .ofNat (65 + (k + caesarShift.toNat) % 26) := by decide +kernel
  exact h ⟨k, hk⟩

/-- The loop of `serve` rotates each character. -/
theorem rotates_iff {c d : UInt8} : Rotates c d ↔ d = caesar c := by
  constructor
  · rintro (⟨k, hk⟩ | ⟨k, hk⟩ | ⟨c, h⟩)
    · exact (caesar_lower hk).symm
    · exact (caesar_upper hk).symm
    · rw [IsLetter, not_or] at h
      rw [caesar, if_neg h.1, if_neg h.2]
  · rintro rfl
    have hc (base : ℕ) (hbase : base ≤ c.toNat) : UInt8.ofNat (base + (c.toNat - base)) = c := by
      rw [Nat.add_sub_cancel' hbase, UInt8.ofNat_toNat]
    by_cases hletter : IsLetter c
    · rcases hletter with ⟨hle, hle'⟩ | ⟨hle, hle'⟩
      · have hk : c.toNat - 97 < 26 := by
          have := UInt8.le_iff_toNat_le.mp hle'
          exact Nat.lt_succ_of_le (Nat.sub_le_sub_right this 97)
        have hrot := Rotates.lower _ hk
        rwa [← caesar_lower hk, hc 97 (UInt8.le_iff_toNat_le.mp hle)] at hrot
      · have hk : c.toNat - 65 < 26 := by
          have := UInt8.le_iff_toNat_le.mp hle'
          exact Nat.lt_succ_of_le (Nat.sub_le_sub_right this 65)
        have hrot := Rotates.upper _ hk
        rwa [← caesar_upper hk, hc 65 (UInt8.le_iff_toNat_le.mp hle)] at hrot
    · have hrot := Rotates.other c hletter
      rw [IsLetter, not_or] at hletter
      rwa [caesar, if_neg hletter.1, if_neg hletter.2]

/-! ### One turn -/

theorem cString_eq_self_iff {l : List UInt8} : cString l = l ↔ 0 ∉ l := by
  rw [cString, List.takeWhile_eq_self_iff]
  refine ⟨fun h h0 => by simpa using h 0 h0, fun h c hc => decide_eq_true fun h0 => h (h0 ▸ hc)⟩

theorem forall₂_rotates_iff {p r : List UInt8} : List.Forall₂ Rotates p r ↔ r = p.map caesar := by
  induction p generalizing r with
  | nil => rw [List.forall₂_nil_left_iff, List.map_nil]
  | cons c p ih =>
    rw [List.forall₂_cons_left_iff, List.map_cons]
    simp only [rotates_iff, ih]
    constructor
    · rintro ⟨d, q, rfl, rfl, rfl⟩
      rfl
    · rintro rfl
      exact ⟨_, _, rfl, rfl, rfl⟩

/-- The answer to a client that is served has the length of the piece only if it is all of its
encryption. -/
theorem length_answer_le (piece : List UInt8) : ((cString piece).map caesar).length ≤ piece.length := by
  rw [List.length_map]
  exact (cString_isPrefix piece).length_le

theorem Turn.Serves.of_faithful {t : Turn} (ht : t.Serves) (hadm : t.admitted = true)
    (hreplied : t.reply = none ↔ t.piece = quitLine)
    (hrotated : ∀ r, t.reply = some r → List.Forall₂ Rotates t.piece r) :
    0 ∉ t.piece ∧ t.complete = true := by
  rw [Turn.Serves, answerTo, if_pos hadm] at ht
  split at ht
  · obtain ⟨hnone, hcomplete⟩ := ht
    rw [hreplied.mp hnone]
    exact ⟨by decide, hcomplete⟩
  · obtain ⟨n, hn, hsome, hcomplete⟩ := ht
    have hlen := (hrotated _ hsome).length_eq
    rw [List.length_take, Nat.min_eq_left hn] at hlen
    have hle := length_answer_le t.piece
    have hall : (cString t.piece).length = t.piece.length := by
      rw [List.length_map] at hn hle
      omega
    have hwhole : cString t.piece = t.piece := (cString_isPrefix t.piece).eq_of_length hall
    exact ⟨cString_eq_self_iff.mp hwhole, hcomplete.mpr (by omega)⟩

theorem Turn.Serves.faithful {t : Turn} (ht : t.Serves) (hadm : t.admitted = true)
    (hzero : 0 ∉ t.piece) (hcomplete : t.complete = true) :
    (t.piece = quitLine ∧ t.reply = none) ∨
      (t.piece ≠ quitLine ∧ t.reply = some (t.piece.map caesar)) := by
  rw [Turn.Serves, answerTo, if_pos hadm, cString_eq_self_iff.mpr hzero] at ht
  split at ht
  · next hquit => exact .inl ⟨hquit.2, ht.1⟩
  · next hquit =>
    obtain ⟨n, -, hsome, hn⟩ := ht
    rw [hn.mp hcomplete, List.take_length] at hsome
    exact .inr ⟨fun h => hquit ⟨hadm, h⟩, hsome⟩

/-! ### The replies of a conversation -/

namespace Conversation

variable {c : Conversation}

/-- The turns with a reply while the client is served. -/
def served (c : Conversation) : List Turn := c.turns.filter fun t => t.admitted && t.reply.isSome

/-- Each piece of a client that is served has a reply of the same length that rotates its
characters, apart from the line `":q\n"`, which has none. What the client sent can be recovered from
the replies. -/
structure Faithful (c : Conversation) : Prop where
  replied : ∀ t ∈ c.turns, t.admitted → (t.reply = none ↔ t.piece = quitLine)
  rotated : ∀ t ∈ c.turns, t.admitted → ∀ r, t.reply = some r → List.Forall₂ Rotates t.piece r
  recovered : (c.served.flatMap fun t => t.reply.getD []).map unrotate =
    c.served.flatMap Turn.piece

/-- The replies to a client that is served are faithful if and only if none of its pieces has a NUL
and `write` takes all of each answer. -/
theorem faithful_iff (h : Reachable conversationSystem c) :
    c.Faithful ↔ ∀ t ∈ c.turns, t.admitted → 0 ∉ t.piece ∧ t.complete := by
  have hserves := (wellFramed_of_reachable h).serves
  constructor
  · intro hc t ht hadm
    exact (hserves t ht).of_faithful hadm (hc.replied t ht hadm) (hc.rotated t ht hadm)
  · intro hc
    have hturn (t : Turn) (ht : t ∈ c.turns) (hadm : t.admitted = true) :=
      (hserves t ht).faithful hadm (hc t ht hadm).1 (hc t ht hadm).2
    refine ⟨fun t ht hadm => ?_, fun t ht hadm r hr => ?_, ?_⟩
    · rcases hturn t ht hadm with ⟨hquit, hnone⟩ | ⟨hquit, hsome⟩
      · exact iff_of_true hnone hquit
      · exact iff_of_false (by simp [hsome]) hquit
    · rcases hturn t ht hadm with ⟨-, hnone⟩ | ⟨-, hsome⟩
      · cases hnone.symm.trans hr
      · exact forall₂_rotates_iff.mpr (Option.some.inj (hr.symm.trans hsome))
    · rw [List.map_flatMap]
      refine List.flatMap_congr fun t ht => ?_
      obtain ⟨ht, hserved⟩ := List.mem_filter.mp ht
      rw [Bool.and_eq_true] at hserved
      rcases hturn t ht hserved.1 with ⟨-, hnone⟩ | ⟨-, hsome⟩
      · rw [hnone] at hserved
        cases hserved.2
      · rw [hsome, Option.getD_some, List.map_map]
        exact List.map_id'' unrotate_caesar t.piece

/-- A client that sends these bytes in one part, is served at once and gets its reply. -/
def oneLine (bytes : List UInt8) (h : 0 < bytes.length ∧ bytes.length ≤ maxBuffer) (written : ℕ) :
    Option Conversation :=
  execAll exec (initial [] bytes) [.readLine [.data ⟨bytes, h⟩], .tryStart 0, .reply written]

theorem reachable_oneLine {bytes : List UInt8} {h : 0 < bytes.length ∧ bytes.length ≤ maxBuffer}
    {written : ℕ} (hc : oneLine bytes h written = some c) : Reachable conversationSystem c :=
  have hinit : Reachable conversationSystem (initial [] bytes) := .init ⟨[], bytes, rfl⟩
  hinit.run (run_of_execAll hc)

/-- The line `"Hz\n"`. -/
theorem faithful_iff_oneLine : ∃ c, oneLine [72, 122, newline] (by decide) 3 = some c ∧
    (c.Faithful ↔ ∀ t ∈ c.turns, t.admitted → 0 ∉ t.piece ∧ t.complete) := by
  have hsome : (oneLine [72, 122, newline] (by decide) 3).isSome := by decide +kernel
  obtain ⟨c, hc⟩ := Option.isSome_iff_exists.mp hsome
  exact ⟨c, hc, faithful_iff (reachable_oneLine hc)⟩

/-- The line `"a\0b\n"` is answered by one character. -/
theorem not_faithful : ¬∀ c, Reachable conversationSystem c → c.Faithful := by
  intro hall
  have hturns : (oneLine [97, 0, 98, newline] (by decide) 1).map Conversation.turns =
      some [⟨[97, 0, 98, newline], true, some [100], true⟩] := by decide +kernel
  obtain ⟨c, hc, hturns⟩ := Option.map_eq_some_iff.mp hturns
  have hrotated := (hall c (reachable_oneLine hc)).rotated _ (hturns ▸ List.mem_singleton_self _) rfl
    [100] rfl
  have hlen := hrotated.length_eq
  cases hlen

end Conversation

end OsProject.Server
