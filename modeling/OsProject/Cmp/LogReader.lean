import OsProject.Lib.LineStream
import OsProject.Lib.Loop

/-!
# How `cmp` reads the log

`main` of `cmp.c` reads the log byte by byte. The first byte of a line is read before the loop that
reads up to the newline, and the end of the file is looked for only there. So an empty line is taken
for the start of the next one, and a line without a newline at the end of the file is never complete:
the loop stores the end of the file again and again, until it leaves the array.

## Main definitions

* `readLoop` — the reading loop, around what is done with the lines.
* `handed` — the lines that the loop hands on.
* `logLines` — the lines of a file.

## Main results

* `run_readLoop` — the loop handles the lines that it hands on.
* `handed_flatMap` — it hands on lines with their newlines as they are.
* `handed_eq_iff` — the files that are read line by line.

Source: `Project2/cmp/cmp.c`.
-/

namespace OsProject.Cmp

open LineStream

/-- `'\n'`. -/
def newline : UInt8 := 10

/-- The size of `buf`. -/
def bufSize : ℕ := 500

/-- `fgetc`: the next byte of the file, if there is one, and the bytes behind it. -/
def fgetc (file : List UInt8) : Option UInt8 × List UInt8 := (file.head?, file.tail)

/-- What is left in a `char` of the result of `fgetc`; at the end of the file it is `EOF`, -1. -/
def toChar : Option UInt8 → UInt8
  | some c => c
  | none => 255

/-- The loop `while ((buf[k++] = fgetc(fp)) != '\n')`, with so many bytes left in `buf`: the bytes it
stores, and the rest of the file. No value stands for a store behind the end of `buf`. -/
def readRest : ℕ → List UInt8 → Option (List UInt8 × List UInt8)
  | 0, _ => none
  | room + 1, file =>
    let c := toChar (fgetc file).1
    if c ≠ newline then (readRest room (fgetc file).2).map fun r => (c :: r.1, r.2)
    else some ([c], (fgetc file).2)

/-- The line in `buf`, up to the `'\0'` that is stored behind it, when its first byte has been read. -/
def readLine (c : UInt8) (file : List UInt8) : Option (List UInt8 × List UInt8) :=
  (readRest (bufSize - 1) file).bind fun r =>
    if 1 + r.1.length < bufSize then some (c :: r.1 ++ [0], r.2) else none

variable {σ : Type*} {c : UInt8} {room : ℕ} {file l m : List UInt8}

/-! ### Lines as they are read -/

theorem readRest_succ_cons (room : ℕ) (c : UInt8) (file : List UInt8) :
    readRest (room + 1) (c :: file) =
      if c ≠ newline then (readRest room file).map fun r => (c :: r.1, r.2)
      else some ([c], file) := rfl

/-- At the end of the file the loop goes on. -/
theorem readRest_succ_nil (room : ℕ) :
    readRest (room + 1) [] = (readRest room []).map fun r => (255 :: r.1, r.2) := rfl

theorem length_readRest {r : List UInt8 × List UInt8} (h : readRest room file = some r) :
    r.2.length ≤ file.length := by
  induction room generalizing file r with
  | zero => cases h
  | succ room ih =>
    have htail : (fgetc file).2.length ≤ file.length := by simp [fgetc]
    rw [readRest] at h
    split at h
    · obtain ⟨r', hr', rfl⟩ := Option.map_eq_some_iff.mp h
      exact Nat.le_trans (ih (r := r') hr') htail
    · obtain rfl := Option.some.inj h
      exact htail

/-- The loop stores a byte at least. -/
theorem readRest_ne_nil {r : List UInt8 × List UInt8} (h : readRest room file = some r) :
    r.1 ≠ [] := by
  cases room with
  | zero => cases h
  | succ room =>
    rw [readRest] at h
    split at h
    · obtain ⟨r', -, rfl⟩ := Option.map_eq_some_iff.mp h
      exact List.cons_ne_nil _ _
    · obtain rfl := Option.some.inj h
      exact List.cons_ne_nil _ _

/-- The rest of a line is read up to its newline. -/
theorem readRest_line (hl : newline ∉ l) (hroom : l.length < room) (m : List UInt8) :
    readRest room (l ++ newline :: m) = some (l ++ [newline], m) := by
  induction l generalizing room with
  | nil =>
    obtain ⟨room, rfl⟩ : ∃ n, room = n + 1 := ⟨room - 1, by omega⟩
    rfl
  | cons c l ih =>
    obtain ⟨room, rfl⟩ : ∃ n, room = n + 1 := ⟨room - 1, by omega⟩
    rw [List.mem_cons, not_or] at hl
    have hrest := ih hl.2 (Nat.succ_lt_succ_iff.mp hroom)
    rw [List.cons_append, readRest_succ_cons, if_pos (Ne.symm hl.1), hrest]
    rfl

/-- Without a newline the loop goes on behind the end of the file, and leaves the array. -/
theorem readRest_eq_none (hfile : newline ∉ file) : readRest room file = none := by
  induction room generalizing file with
  | zero => rfl
  | succ room ih =>
    cases file with
    | nil =>
      rw [readRest_succ_nil, ih hfile]
      rfl
    | cons c file =>
      rw [List.mem_cons, not_or] at hfile
      rw [readRest_succ_cons, if_pos (Ne.symm hfile.1), ih hfile.2]
      rfl

theorem length_readLine {r : List UInt8 × List UInt8} (h : readLine c file = some r) :
    r.2.length ≤ file.length := by
  obtain ⟨r', hr', hr⟩ := Option.bind_eq_some_iff.mp h
  split at hr
  · rw [← Option.some.inj hr]
    exact length_readRest (r := r') hr'
  · cases hr

/-- A line whose first byte is not the newline, and that fits the array with its `'\0'`. -/
theorem readLine_line (hl : newline ∉ l) (hlen : l.length + 2 < bufSize) (m : List UInt8) :
    readLine c (l ++ newline :: m) = some (c :: l ++ [newline, 0], m) := by
  have hroom : l.length < bufSize - 1 := by omega
  have hfits : 1 + (l ++ [newline]).length < bufSize := by
    rw [List.length_append, List.length_singleton]
    omega
  rw [readLine, readRest_line hl hroom, Option.bind_some, if_pos hfits]
  simp

theorem readLine_eq_none (hfile : newline ∉ file) : readLine c file = none := by
  rw [readLine, readRest_eq_none hfile]
  rfl

/-- The first byte is not looked at, so that the line goes on behind it. -/
theorem readLine_ne_singleton {r : List UInt8 × List UInt8} (h : readLine c file = some r) :
    r.1 ≠ [c, 0] := by
  obtain ⟨r', hr', hr⟩ := Option.bind_eq_some_iff.mp h
  split at hr
  · obtain rfl := Option.some.inj hr
    have hne := List.length_pos_iff.mpr (readRest_ne_nil hr')
    intro heq
    have hlen := congrArg List.length heq
    simp only [List.cons_append, List.length_cons, List.length_append, List.length_nil] at hlen
    omega
  · cases hr

/-! ### The loop -/

/-- A pass of the loop: leave it at the end of the file, or read a line and handle it. No value is the
result when a store or the handling goes wrong. -/
def readPass (handle : σ → List UInt8 → Option σ) (x : List UInt8 × σ) :
    Option σ ⊕ (List UInt8 × σ) :=
  match (fgetc x.1).1 with
  | none => .inl (some x.2)
  | some c =>
    match readLine c (fgetc x.1).2 with
    | none => .inl none
    | some (line, file) =>
      match handle x.2 line with
      | none => .inl none
      | some s => .inr (file, s)

/-- The loop of `main`, around what it does with a line. Every pass takes a byte from the file. -/
def readLoop (handle : σ → List UInt8 → Option σ) : Loop (List UInt8 × σ) (Option σ) where
  body := readPass handle
  bound x := x.1.length
  bound_lt := by
    rintro ⟨file, s⟩ ⟨file', s'⟩ h
    cases file with
    | nil => cases h
    | cons c file =>
      rw [readPass] at h
      simp only [fgetc, List.head?_cons, List.tail_cons] at h
      split at h
      · cases h
      · next line rest hline =>
        split at h
        · cases h
        · obtain ⟨rfl, rfl⟩ := Prod.mk.inj (Sum.inr.inj h)
          exact Nat.lt_succ_of_le (length_readLine hline)

/-- The lines that the loop hands on, with their `'\0'`. -/
def handed (file : List UInt8) : Option (List (List UInt8)) :=
  (readLoop fun lines line => some (lines ++ [line])).run (file, [])

section Run

variable {handle : σ → List UInt8 → Option σ} {s : σ}

theorem run_readLoop_nil : (readLoop handle).run ([], s) = some s := Loop.run_of_inl rfl

theorem run_readLoop_cons : (readLoop handle).run (c :: file, s) =
    (readLine c file).bind fun r => (handle s r.1).bind fun s' => (readLoop handle).run (r.2, s') := by
  have hpass : (readLoop handle).body (c :: file, s) = readPass handle (c :: file, s) := rfl
  rw [readPass] at hpass
  simp only [fgetc, List.head?_cons, List.tail_cons] at hpass
  cases hline : readLine c file with
  | none =>
    rw [hline] at hpass
    exact Loop.run_of_inl hpass
  | some r =>
    rw [hline] at hpass
    dsimp only at hpass
    rw [Option.bind_some]
    cases hs : handle s r.1 with
    | none =>
      rw [hs] at hpass
      exact Loop.run_of_inl hpass
    | some s' =>
      rw [hs] at hpass
      exact Loop.run_of_inr hpass

/-- What is handed on first is the first line. -/
theorem handed_cons : handed (c :: file) =
    (readLine c file).bind fun r => (handed r.2).map (r.1 :: ·) := by
  -- lines that have been handed on before stay in front
  have hbefore : ∀ n, ∀ file : List UInt8, file.length ≤ n → ∀ lines : List (List UInt8),
      (readLoop fun lines line => some (lines ++ [line])).run (file, lines) =
        (handed file).map (lines ++ ·) := by
    intro n
    induction n with
    | zero =>
      intro file hfile lines
      obtain rfl := List.length_eq_zero_iff.mp (Nat.le_zero.mp hfile)
      rw [handed, run_readLoop_nil, run_readLoop_nil, Option.map_some, List.append_nil]
    | succ n ih =>
      intro file hfile lines
      cases file with
      | nil => rw [handed, run_readLoop_nil, run_readLoop_nil, Option.map_some, List.append_nil]
      | cons c file =>
        rw [handed, run_readLoop_cons, run_readLoop_cons]
        cases hline : readLine c file with
        | none => rfl
        | some r =>
          have hlen : r.2.length ≤ n :=
            Nat.le_trans (length_readLine hline) (Nat.succ_le_succ_iff.mp hfile)
          rw [Option.bind_some, Option.bind_some, Option.bind_some, Option.bind_some,
            ih r.2 hlen, ih r.2 hlen, Option.map_map]
          congr 1
          funext rest
          simp
  rw [handed, run_readLoop_cons]
  congr 1
  funext r
  rw [Option.bind_some, hbefore _ r.2 (Nat.le_refl _)]
  rfl

theorem handed_nil : handed [] = some [] := run_readLoop_nil

/-- The loop handles the lines that it hands on, in order. -/
theorem run_readLoop (file : List UInt8) (s : σ) :
    (readLoop handle).run (file, s) = (handed file).bind fun lines => lines.foldlM handle s := by
  induction hn : file.length using Nat.strongRecOn generalizing file s with
  | ind n ih =>
    subst hn
    cases file with
    | nil =>
      rw [run_readLoop_nil, handed_nil]
      rfl
    | cons c file =>
      rw [run_readLoop_cons, handed_cons]
      cases hline : readLine c file with
      | none => rfl
      | some r =>
        have hlen : r.2.length < (c :: file).length := Nat.lt_succ_of_le (length_readLine hline)
        simp only [Option.bind_some, Option.bind_map, Function.comp_def, List.foldlM_cons]
        cases hs : handle s r.1 with
        | none =>
          cases handed r.2 <;> rfl
        | some s' => exact ih _ hlen r.2 s' rfl

end Run

/-- A line that is not empty is handed on as it is. -/
theorem handed_line (hl : newline ∉ l) (hlen : l.length + 2 < bufSize) (m : List UInt8) :
    handed (c :: (l ++ newline :: m)) = (handed m).map ((c :: l ++ [newline, 0]) :: ·) := by
  rw [handed_cons, readLine_line hl hlen, Option.bind_some]

/-- An empty line is not handed on alone. -/
theorem handed_newline_ne (file : List UInt8) (lines : List (List UInt8)) :
    handed (newline :: file) ≠ some ([newline, 0] :: lines) := by
  intro hhanded
  rw [handed_cons] at hhanded
  obtain ⟨r, hr, hrest⟩ := Option.bind_eq_some_iff.mp hhanded
  obtain ⟨rest, -, hcons⟩ := Option.map_eq_some_iff.mp hrest
  exact readLine_ne_singleton hr (List.cons.inj hcons).1

/-- A line without a newline is never complete. -/
theorem handed_eq_none (hfile : newline ∉ file) : handed (c :: file) = none := by
  rw [handed_cons, readLine_eq_none hfile]
  rfl

/-- Lines that are not empty are handed on as they are. -/
theorem handed_flatMap {lines : List (List UInt8)}
    (hlines : ∀ l ∈ lines, l ≠ [] ∧ newline ∉ l ∧ l.length + 1 < bufSize - 1) (file : List UInt8) :
    handed (lines.flatMap (· ++ [newline]) ++ file) =
      (handed file).map (lines.map (· ++ [newline, 0]) ++ ·) := by
  induction lines with
  | nil => simp
  | cons l lines ih =>
    obtain ⟨⟨hne, hnew, hlen⟩, hrest⟩ := List.forall_mem_cons.mp hlines
    obtain ⟨c, l, rfl⟩ := List.exists_cons_of_ne_nil hne
    rw [List.mem_cons, not_or] at hnew
    have hsplit : ((c :: l) :: lines).flatMap (· ++ [newline]) ++ file =
        c :: (l ++ newline :: (lines.flatMap (· ++ [newline]) ++ file)) := by simp
    rw [List.length_cons] at hlen
    rw [hsplit, handed_line hnew.2 (by omega), ih hrest, Option.map_map]
    rfl

/-! ### Lines of a file -/

/-- The lines of a file, with their newlines. The last line may have none. -/
def logLines (file : List UInt8) : List (List UInt8) := cutLines newline (file.length + 1) file

theorem logLines_nil : logLines [] = [] := cutLines_nil newline 1

theorem logLines_line (hl : newline ∉ l) (m : List UInt8) :
    logLines (l ++ newline :: m) = (l ++ [newline]) :: logLines m := by
  have hlen : (l ++ newline :: m).length = l.length + m.length + 1 := by simp; omega
  have hne : l ++ newline :: m ≠ [] := by simp
  rw [logLines, hlen, cutLines_of_ne_nil (by omega) hne, cutLine_line hl (by omega)]
  rw [logLines, cutLines_eq_of_length_lt (show m.length < l.length + m.length + 1 + 1 by omega)
    (show m.length < m.length + 1 by omega)]

theorem logLines_last (hl : newline ∉ l) (hne : l ≠ []) : logLines l = [l] := by
  have hcut : cutLine newline (l.length + 1) l = (l, []) := by
    refine cutLine_of_not_hasLine fun h => ?_
    rcases hasLine_iff.mp h with hmem | hlen
    · exact hl hmem
    · omega
  rw [logLines, cutLines_of_ne_nil (by omega) hne, hcut, cutLines_nil]

/-- The bytes of a line without its newline. -/
def lineText (l : List UInt8) : List UInt8 := l.takeWhile (· ≠ newline)

theorem lineText_line (hl : newline ∉ l) : lineText (l ++ [newline]) = l := by
  have hne : ∀ b ∈ l, b ≠ newline := fun b hb hb' => hl (hb' ▸ hb)
  rw [lineText, List.takeWhile_append_of_pos (by simpa using hne)]
  simp

/-- When lines are shorter than 498 bytes, the loop ends and hands on the lines of the file as they
are exactly when no line is empty and every line has its newline. -/
theorem handed_eq_iff (file : List UInt8) (hshort : ∀ l ∈ logLines file, (lineText l).length < 498) :
    handed file = some ((logLines file).map (· ++ [0])) ↔
      ∀ l ∈ logLines file, l ≠ [newline] ∧ l.getLast? = some newline := by
  induction hn : file.length using Nat.strongRecOn generalizing file with
  | ind n ih =>
    subst hn
    cases file with
    | nil =>
      rw [logLines_nil, handed_nil]
      simp
    | cons c file =>
      by_cases hc : c = newline
      · -- an empty line is handed on together with the line behind it
        subst hc
        have hlines : logLines (newline :: file) = [newline] :: logLines file :=
          logLines_line (l := []) (by simp) file
        rw [hlines, List.map_cons]
        exact iff_of_false (handed_newline_ne file _) fun hall => (hall _ List.mem_cons_self).1 rfl
      by_cases hmem : newline ∈ file
      · obtain ⟨l, m, rfl, hl⟩ := List.eq_append_cons_of_mem hmem
        have hnew : newline ∉ c :: l := by
          rw [List.mem_cons, not_or]
          exact ⟨Ne.symm hc, hl⟩
        have hlines : logLines (c :: (l ++ newline :: m)) = (c :: l ++ [newline]) :: logLines m :=
          logLines_line hnew m
        rw [hlines] at hshort ⊢
        obtain ⟨hline, hrest⟩ := List.forall_mem_cons.mp hshort
        rw [lineText_line hnew, List.length_cons] at hline
        have hgood : c :: l ++ [newline] ≠ [newline] ∧
            (c :: l ++ [newline]).getLast? = some newline := ⟨by simp, List.getLast?_concat⟩
        have hnul : c :: l ++ [newline, 0] = c :: l ++ [newline] ++ [0] := by simp
        rw [handed_line hl (by rw [bufSize]; omega), List.forall_mem_cons, and_iff_right hgood,
          ← ih m.length (by simp; omega) m hrest rfl, List.map_cons, hnul]
        refine ⟨fun h => ?_, fun h => by rw [h, Option.map_some]⟩
        obtain ⟨lines, hlines, hcons⟩ := Option.map_eq_some_iff.mp h
        rw [hlines, (List.cons.inj hcons).2]
      · -- without a newline the line is never complete
        have hnew : newline ∉ c :: file := by
          rw [List.mem_cons, not_or]
          exact ⟨Ne.symm hc, hmem⟩
        rw [logLines_last hnew (List.cons_ne_nil c file), handed_eq_none hmem]
        refine iff_of_false (by simp) fun hall => ?_
        have hlast := List.mem_of_getLast? (hall _ List.mem_cons_self).2
        exact hnew hlast

/-- The file `"A\nB\n"`. -/
def twoLines : List UInt8 := [65, newline, 66, newline]

theorem logLines_twoLines : logLines twoLines = [[65, newline], [66, newline]] := by
  have hfirst : logLines twoLines = [65, newline] :: logLines [66, newline] :=
    logLines_line (l := [65]) (by decide) _
  have hsecond : logLines [66, newline] = [66, newline] :: logLines [] :=
    logLines_line (l := [66]) (by decide) _
  rw [hfirst, hsecond, logLines_nil]

theorem handed_eq_iff_twoLines : handed twoLines = some [[65, newline, 0], [66, newline, 0]] := by
  have hall := (handed_eq_iff twoLines (by rw [logLines_twoLines]; decide)).mpr
    (by rw [logLines_twoLines]; decide)
  rwa [logLines_twoLines] at hall

/-- The file `"\nA\n"`, with an empty line in front. -/
def emptyFirst : List UInt8 := [newline, 65, newline]

theorem logLines_emptyFirst : logLines emptyFirst = [[newline], [65, newline]] := by
  have hfirst : logLines emptyFirst = [newline] :: logLines [65, newline] :=
    logLines_line (l := []) (by decide) _
  have hsecond : logLines [65, newline] = [65, newline] :: logLines [] :=
    logLines_line (l := [65]) (by decide) _
  rw [hfirst, hsecond, logLines_nil]

/-- An empty line is handed on as a part of the line behind it, and a file without a newline makes
the loop leave the array. -/
theorem not_handed_eq_logLines :
    (¬ ∀ file, (∀ l ∈ logLines file, (lineText l).length < 498) →
      handed file = some ((logLines file).map (· ++ [0]))) ∧
    handed emptyFirst = some [[newline, 65, newline, 0]] ∧
    logLines emptyFirst = [[newline], [65, newline]] ∧
    handed [65] = none ∧ logLines [65] = [[65]] := by
  have hempty : handed emptyFirst = some [[newline, 65, newline, 0]] := by decide
  have hlast : logLines [65] = [[65]] := logLines_last (by decide) (by decide)
  refine ⟨fun h => ?_, hempty, logLines_emptyFirst, handed_eq_none (by decide), hlast⟩
  have hall := h emptyFirst (by rw [logLines_emptyFirst]; decide)
  rw [hempty, logLines_emptyFirst] at hall
  revert hall
  decide

end OsProject.Cmp
