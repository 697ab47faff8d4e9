import Mathlib.Data.List.Basic

/-!
# Cutting lines from a stream

A reader of lines takes the elements of a stream up to and with the first end mark, but at most as
many as there is room for. It returns when it has found the end mark or used up the room, and
waits for more elements otherwise. What it takes does not depend on how much of the stream is there
already.

## Main definitions

* `LineStream.cutLine` — the line that is taken, and the rest.
* `LineStream.HasLine` — there is enough of the stream to return a line.
* `LineStream.Pieces`, `LineStream.cutLines` — a stream cut into lines up to its end.
* `LineStream.Inserted` — a list with some more end marks.

## Main results

* `LineStream.cutLine_append_of_hasLine` — a line that can be returned stays the same when the stream
  grows.
* `LineStream.hasLine_iff`.
* `LineStream.pieces_cutLines`, `LineStream.Pieces.unique` — a stream has one cut.
* `LineStream.length_lt_of_infix` — the length of lines, from the cut.
-/

namespace LineStream

variable {α : Type*} [DecidableEq α] {mark : α} {room : ℕ} {l m : List α}

/-- The elements up to and with the first `mark`, but at most `room` of them, and the rest. -/
def cutLine (mark : α) : ℕ → List α → List α × List α
  | 0, l => ([], l)
  | _ + 1, [] => ([], [])
  | room + 1, c :: l =>
    if c = mark then ([c], l) else (c :: (cutLine mark room l).1, (cutLine mark room l).2)

/-- A reader with so much room returns a line. -/
def HasLine (mark : α) : ℕ → List α → Prop
  | 0, _ => True
  | _ + 1, [] => False
  | room + 1, c :: l => c = mark ∨ HasLine mark room l

omit [DecidableEq α] in
theorem hasLine_iff : HasLine mark room l ↔ mark ∈ l ∨ room ≤ l.length := by
  induction room generalizing l with
  | zero => simp [HasLine]
  | succ room ih =>
    cases l with
    | nil => simp [HasLine]
    | cons c l =>
      rw [HasLine, ih, List.mem_cons, List.length_cons, Nat.succ_le_succ_iff, or_assoc, eq_comm]

theorem cutLine_append (mark : α) (room : ℕ) (l : List α) :
    (cutLine mark room l).1 ++ (cutLine mark room l).2 = l := by
  induction room generalizing l with
  | zero => rfl
  | succ room ih =>
    cases l with
    | nil => rfl
    | cons c l =>
      rw [cutLine]
      split
      · rfl
      · rw [List.cons_append, ih]

theorem length_cutLine_le (mark : α) (room : ℕ) (l : List α) :
    (cutLine mark room l).1.length ≤ room := by
  induction room generalizing l with
  | zero => exact Nat.le_refl 0
  | succ room ih =>
    cases l with
    | nil => exact Nat.zero_le _
    | cons c l =>
      rw [cutLine]
      split
      · exact Nat.succ_le_succ (Nat.zero_le _)
      · exact Nat.succ_le_succ (ih l)

/-- The line stays the same when the stream grows. -/
theorem cutLine_append_of_hasLine (h : HasLine mark room l) (m : List α) :
    cutLine mark room (l ++ m) = ((cutLine mark room l).1, (cutLine mark room l).2 ++ m) := by
  induction room generalizing l with
  | zero => rfl
  | succ room ih =>
    cases l with
    | nil => exact h.elim
    | cons c l =>
      rw [List.cons_append, cutLine, cutLine]
      by_cases hc : c = mark
      · rw [if_pos hc, if_pos hc]
      · rw [if_neg hc, if_neg hc, ih (h.resolve_left hc)]

omit [DecidableEq α] in
theorem HasLine.append (h : HasLine mark room l) (m : List α) : HasLine mark room (l ++ m) := by
  rw [hasLine_iff] at h ⊢
  rcases h with h | h
  · exact .inl (List.mem_append_left m h)
  · exact .inr (Nat.le_trans h (by simp))

/-- A line with its end mark, at the start of a stream. -/
theorem cutLine_line (hl : mark ∉ l) (hroom : l.length < room) (m : List α) :
    cutLine mark room (l ++ mark :: m) = (l ++ [mark], m) := by
  induction l generalizing room with
  | nil =>
    obtain ⟨room, rfl⟩ : ∃ r, room = r + 1 := ⟨room - 1, by omega⟩
    simp [cutLine]
  | cons c l ih =>
    obtain ⟨room, rfl⟩ : ∃ r, room = r + 1 := ⟨room - 1, by omega⟩
    rw [List.mem_cons, not_or] at hl
    rw [List.cons_append, cutLine, if_neg (Ne.symm hl.1), ih hl.2 (by simpa using hroom)]
    rfl

/-- A reader that waits has taken all there is. -/
theorem cutLine_of_not_hasLine (h : ¬HasLine mark room l) : cutLine mark room l = (l, []) := by
  induction room generalizing l with
  | zero => exact absurd trivial h
  | succ room ih =>
    cases l with
    | nil => rfl
    | cons c l =>
      rw [HasLine, not_or] at h
      rw [cutLine, if_neg h.1, ih h.2]

theorem cutLine_ne_nil (hroom : room ≠ 0) (hl : l ≠ []) : (cutLine mark room l).1 ≠ [] := by
  obtain ⟨room, rfl⟩ : ∃ r, room = r + 1 := ⟨room - 1, by omega⟩
  cases l with
  | nil => exact absurd rfl hl
  | cons c l =>
    rw [cutLine]
    split <;> simp

/-- The end mark can only be the last element of a line. -/
theorem mark_notMem_dropLast (mark : α) (room : ℕ) (l : List α) :
    mark ∉ (cutLine mark room l).1.dropLast := by
  induction room generalizing l with
  | zero => simp [cutLine]
  | succ room ih =>
    cases l with
    | nil => simp [cutLine]
    | cons c l =>
      rw [cutLine]
      split
      · simp
      · next hc =>
        dsimp only
        cases hcut : (cutLine mark room l).1 with
        | nil => simp
        | cons d line =>
          have hrest := ih l
          rw [hcut] at hrest
          rw [List.dropLast_cons_cons, List.mem_cons, not_or]
          exact ⟨Ne.symm hc, hrest⟩

/-- When more of the stream is needed for a line, some of what comes next belongs to it. -/
theorem length_cutLine_lt (h : ¬HasLine mark room l) (h' : HasLine mark room (l ++ m)) :
    (cutLine mark room (l ++ m)).2.length < m.length := by
  induction room generalizing l with
  | zero => exact absurd trivial h
  | succ room ih =>
    cases l with
    | nil =>
      cases m with
      | nil => exact h'.elim
      | cons c m =>
        rw [List.nil_append, cutLine]
        split
        · simp
        · have := congrArg List.length (cutLine_append mark room m)
          simp only [List.length_append] at this
          simp only [List.length_cons]
          omega
    | cons c l =>
      rw [HasLine, not_or] at h
      rw [List.cons_append, cutLine, if_neg h.1]
      exact ih h.2 (h'.resolve_left h.1)

/-! ### All lines of a stream -/

/-- A stream cut into the lines that a reader with so much room takes from it, up to its end. -/
structure Pieces (mark : α) (room : ℕ) (l : List α) (ps : List (List α)) : Prop where
  flatten : ps.flatten = l
  ne_nil : ∀ p ∈ ps, p ≠ []
  length_le : ∀ p ∈ ps, p.length ≤ room
  /-- The end mark can only be the last element of a piece. -/
  mark_notMem : ∀ p ∈ ps, mark ∉ p.dropLast
  /-- Only the end of the stream ends a piece without the end mark and with room to spare. -/
  ends : ∀ p ∈ ps.dropLast, p.getLast? = some mark ∨ p.length = room

theorem length_snd_cutLine_lt (hroom : room ≠ 0) (hl : l ≠ []) :
    (cutLine mark room l).2.length < l.length := by
  have hne : (cutLine mark room l).1 ≠ [] := cutLine_ne_nil hroom hl
  have hlen := congrArg List.length (cutLine_append mark room l)
  have hpos := List.length_pos_iff.mpr hne
  rw [List.length_append] at hlen
  omega

/-- The lines of a stream, when there is room for an element. -/
def cutLines (mark : α) (room : ℕ) (l : List α) : List (List α) :=
  if _h : room ≠ 0 ∧ l ≠ [] then
    (cutLine mark room l).1 :: cutLines mark room (cutLine mark room l).2
  else []
termination_by l.length
decreasing_by exact length_snd_cutLine_lt _h.1 _h.2

theorem cutLines_nil (mark : α) (room : ℕ) : cutLines mark room [] = [] := by
  rw [cutLines, dif_neg fun h => h.2 rfl]

theorem cutLines_of_ne_nil (hroom : room ≠ 0) (hl : l ≠ []) :
    cutLines mark room l =
      (cutLine mark room l).1 :: cutLines mark room (cutLine mark room l).2 := by
  rw [cutLines, dif_pos ⟨hroom, hl⟩]

/-- A line that leaves something of the stream ends with the end mark or has used up the room. -/
theorem cutLine_ends (h : (cutLine mark room l).2 ≠ []) :
    (cutLine mark room l).1.getLast? = some mark ∨ (cutLine mark room l).1.length = room := by
  induction room generalizing l with
  | zero => exact .inr rfl
  | succ room ih =>
    cases l with
    | nil => exact absurd rfl h
    | cons c l =>
      rw [cutLine] at h ⊢
      by_cases hc : c = mark
      · rw [if_pos hc]
        exact .inl (congrArg some hc)
      · rw [if_neg hc] at h ⊢
        refine (ih h).imp (fun hlast => ?_) fun hlen => congrArg (· + 1) hlen
        rw [List.getLast?_cons, hlast]
        rfl

/-- The lines of a stream are a cut of it. -/
theorem pieces_cutLines (hroom : room ≠ 0) (l : List α) :
    Pieces mark room l (cutLines mark room l) := by
  fun_induction cutLines mark room l with
  | case1 l h hrest =>
    obtain ⟨-, hl⟩ := h
    refine ⟨?_, ?_, ?_, ?_, fun p hp => ?_⟩
    · rw [List.flatten_cons, hrest.flatten, cutLine_append]
    · exact List.forall_mem_cons.mpr ⟨cutLine_ne_nil hroom hl, hrest.ne_nil⟩
    · exact List.forall_mem_cons.mpr ⟨length_cutLine_le mark room l, hrest.length_le⟩
    · exact List.forall_mem_cons.mpr ⟨mark_notMem_dropLast mark room l, hrest.mark_notMem⟩
    · by_cases hend : (cutLine mark room l).2 = []
      · rw [hend, cutLines_nil] at hp
        simp at hp
      · rw [cutLines_of_ne_nil hroom hend, List.dropLast_cons_cons, List.mem_cons,
          ← cutLines_of_ne_nil hroom hend] at hp
        exact hp.elim (fun hp => hp ▸ cutLine_ends hend) (hrest.ends p)
  | case2 l h =>
    obtain rfl : l = [] := by
      by_contra hl
      exact h ⟨hroom, hl⟩
    exact ⟨rfl, by simp, by simp, by simp, by simp⟩

/-- A reader takes a piece that ends where it may end. -/
theorem cutLine_of_ends {p : List α} (hle : p.length ≤ room) (hmark : mark ∉ p.dropLast)
    (hends : p.getLast? = some mark ∨ p.length = room ∨ m = []) :
    cutLine mark room (p ++ m) = (p, m) := by
  induction p generalizing room with
  | nil =>
    rw [List.nil_append]
    cases room with
    | zero => rfl
    | succ room =>
      obtain rfl : m = [] := by simpa using hends
      rfl
  | cons c p ih =>
    obtain ⟨room, rfl⟩ : ∃ r, room = r + 1 := ⟨room - 1, by simp at hle; omega⟩
    rw [List.length_cons, Nat.succ_le_succ_iff] at hle
    rw [List.cons_append, cutLine]
    by_cases hp : p = []
    · subst hp
      by_cases hc : c = mark
      · rw [if_pos hc]
        rfl
      · have hend : room = 0 ∨ m = [] := by
          simpa [hc] using hends
        rw [if_neg hc]
        rcases hend with rfl | rfl
        · rfl
        · cases room <;> rfl
    · obtain ⟨d, q, rfl⟩ := List.exists_cons_of_ne_nil hp
      rw [List.dropLast_cons_cons, List.mem_cons, not_or] at hmark
      have hlast : (c :: d :: q).getLast? = (d :: q).getLast? := by
        rw [List.getLast?_cons_cons]
      rw [hlast, List.length_cons, Nat.succ_inj] at hends
      rw [if_neg (Ne.symm hmark.1), ih hle hmark.2 hends]

/-- There is one cut only. -/
theorem Pieces.unique {ps : List (List α)} (h : Pieces mark room l ps) (hroom : room ≠ 0) :
    ps = cutLines mark room l := by
  induction ps generalizing l with
  | nil => rw [← h.flatten, List.flatten_nil, cutLines_nil]
  | cons p ps ih =>
    obtain ⟨hp, hps⟩ := List.forall_mem_cons.mp h.ne_nil
    obtain ⟨hle, hles⟩ := List.forall_mem_cons.mp h.length_le
    obtain ⟨hmark, hmarks⟩ := List.forall_mem_cons.mp h.mark_notMem
    have hends : p.getLast? = some mark ∨ p.length = room ∨ ps.flatten = [] := by
      cases ps with
      | nil => exact .inr (.inr rfl)
      | cons q qs =>
        refine (h.ends p ?_).imp_right .inl
        rw [List.dropLast_cons_cons]
        exact List.mem_cons_self
    have hrest : Pieces mark room ps.flatten ps := by
      refine ⟨rfl, hps, hles, hmarks, fun q hq => h.ends q ?_⟩
      cases ps with
      | nil => simp at hq
      | cons r rs =>
        rw [List.dropLast_cons_cons]
        exact List.mem_cons_of_mem _ hq
    have hl : l = p ++ ps.flatten := by rw [← h.flatten, List.flatten_cons]
    have hcut : cutLine mark room l = (p, ps.flatten) := by
      rw [hl]
      exact cutLine_of_ends hle hmark hends
    have hne : l ≠ [] := by
      rw [hl]
      exact List.append_ne_nil_of_left_ne_nil hp _
    rw [cutLines_of_ne_nil hroom hne, hcut, ← ih hrest]

/-- With room for the whole stream, the room does not matter. -/
theorem cutLines_eq_of_length_lt {room' : ℕ} (h : l.length < room) (h' : l.length < room') :
    cutLines mark room l = cutLines mark room' l := by
  have hcut : Pieces mark room l (cutLines mark room l) := pieces_cutLines (by omega) l
  have hlen : ∀ p ∈ cutLines mark room l, p.length ≤ l.length := fun p hp => by
    have hsub := (List.sublist_flatten_of_mem hp).length_le
    rwa [hcut.flatten] at hsub
  refine Pieces.unique ⟨hcut.flatten, hcut.ne_nil, fun p hp => ?_, hcut.mark_notMem,
    fun p hp => .inl ?_⟩ (by omega)
  · have := hlen p hp
    omega
  · refine (hcut.ends p hp).resolve_right fun hroom => ?_
    have := hlen p (List.dropLast_subset _ hp)
    omega

/-- A cut of a stream that ends with the end mark goes on with what comes behind it. -/
theorem cutLines_append (hroom : room ≠ 0) (hl : l = [] ∨ l.getLast? = some mark) (m : List α) :
    cutLines mark room (l ++ m) = cutLines mark room l ++ cutLines mark room m := by
  fun_induction cutLines mark room l with
  | case1 l h ih =>
    have hlast : l.getLast? = some mark := hl.resolve_left h.2
    have hline : HasLine mark room l := hasLine_iff.mpr (.inl (List.mem_of_getLast? hlast))
    have hrest : (cutLine mark room l).2 = [] ∨ (cutLine mark room l).2.getLast? = some mark := by
      by_cases hnil : (cutLine mark room l).2 = []
      · exact .inl hnil
      · rw [← cutLine_append mark room l, List.getLast?_append_of_ne_nil _ hnil] at hlast
        exact .inr hlast
    rw [cutLines_of_ne_nil hroom (List.append_ne_nil_of_left_ne_nil h.2 m),
      cutLine_append_of_hasLine hline, ih hrest, List.cons_append]
  | case2 l h =>
    obtain rfl : l = [] := by
      by_contra hne
      exact h ⟨hroom, hne⟩
    rfl

omit [DecidableEq α] in
/-- Between two end marks there are fewer elements than there is room for, when the pieces that use up
the room end with the end mark too. -/
theorem length_lt_of_infix {ps : List (List α)} {mid : List α} (hroom : room ≠ 0)
    (hle : ∀ p ∈ ps, p.length ≤ room) (hfull : ∀ p ∈ ps, p.length = room → p.getLast? = some mark)
    (hends : ∀ p ∈ ps.dropLast, p.getLast? = some mark) (hmid : mid <:+: ps.flatten)
    (hmark : mark ∉ mid) : mid.length < room := by
  induction ps generalizing mid with
  | nil =>
    rw [List.flatten_nil, List.infix_nil] at hmid
    rw [hmid]
    exact Nat.pos_of_ne_zero hroom
  | cons p ps ih =>
    obtain ⟨hlep, hleps⟩ := List.forall_mem_cons.mp hle
    obtain ⟨hfullp, hfullps⟩ := List.forall_mem_cons.mp hfull
    have hendsps : ∀ q ∈ ps.dropLast, q.getLast? = some mark := by
      intro q hq
      cases ps with
      | nil => simp at hq
      | cons r ps =>
        rw [List.dropLast_cons_cons] at hends
        exact hends q (List.mem_cons_of_mem p hq)
    have hpiece {l : List α} (hl : l <:+: p) (hmark : mark ∉ l) : l.length < room := by
      have hlen := hl.length_le
      by_contra hge
      have heq : l = p := hl.eq_of_length_le (by omega)
      subst heq
      exact hmark (List.mem_of_getLast? (hfullp (by omega)))
    rw [List.flatten_cons, List.infix_append_iff] at hmid
    rcases hmid with hmid | hmid | ⟨l₁, l₂, rfl, hl₁, hl₂⟩
    · exact hpiece hmid hmark
    · exact ih hleps hfullps hendsps hmid hmark
    · cases ps with
      | nil =>
        rw [List.flatten_nil, List.prefix_nil] at hl₂
        rw [hl₂, List.append_nil] at hmark ⊢
        exact hpiece hl₁.isInfix hmark
      | cons r ps =>
        -- the first piece ends with the end mark, so that nothing of it is meant
        rw [List.dropLast_cons_cons] at hends
        have hlast := hends p List.mem_cons_self
        have hnil : l₁ = [] := by
          by_contra hne
          refine hmark (List.mem_append_left l₂ ?_)
          obtain ⟨q, hq⟩ := hl₁
          rw [← hq, List.getLast?_append_of_ne_nil q hne] at hlast
          exact List.mem_of_getLast? hlast
        rw [hnil, List.nil_append] at hmark ⊢
        exact ih hleps hfullps hendsps hl₂.isInfix hmark

/-! ### Inserted end marks -/

/-- The second list is the first one with some more end marks. -/
inductive Inserted (mark : α) : List α → List α → Prop
  | nil : Inserted mark [] []
  | keep (c : α) {l m : List α} (h : Inserted mark l m) : Inserted mark (c :: l) (c :: m)
  | insert {l m : List α} (h : Inserted mark l m) : Inserted mark l (mark :: m)

namespace Inserted

omit [DecidableEq α]

theorem refl (l : List α) : Inserted mark l l := by
  induction l with
  | nil => exact .nil
  | cons c l ih => exact .keep c ih

theorem append {l' m' : List α} (h : Inserted mark l m) (h' : Inserted mark l' m') :
    Inserted mark (l ++ l') (m ++ m') := by
  induction h with
  | nil => exact h'
  | keep c _ ih => exact .keep c ih
  | insert _ ih => exact .insert ih

theorem concat (l : List α) : Inserted mark l (l ++ [mark]) := by
  have h : Inserted mark [] [mark] := .insert .nil
  have happend := (refl l).append h
  rwa [List.append_nil] at happend

/-- Nothing but end marks is inserted, and nothing is dropped. -/
theorem countP_eq [DecidableEq α] (h : Inserted mark l m) :
    m.countP (· ≠ mark) = l.countP (· ≠ mark) := by
  induction h with
  | nil => rfl
  | keep c _ ih => rw [List.countP_cons, List.countP_cons, ih]
  | insert _ ih => rw [List.countP_cons, ih]; simp

end Inserted

end LineStream
