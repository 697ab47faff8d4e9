import Mathlib.Algebra.BigOperators.Ring.Finset
import Mathlib.Algebra.Order.BigOperators.Group.Finset
import Mathlib.Algebra.Order.Field.Rat
import Mathlib.Tactic.FieldSimp
import Mathlib.Tactic.Linarith
import OsProject.Cmp.LogReader
import OsProject.Cmp.TraceLines
import OsProject.Lib.OnlineTable

/-!
# The statistics of `cmp`

`main` of `cmp.c` counts the lines of a trace for each pid in a table with nine rows, and prints the
mean turnaround and waiting times over nine tasks.

Sums of the table fit a `double`, so that they are exact; of the divisions by nine the model has the
exact quotient.

## Main definitions

* `cmpMain` — the program, with what it prints.
* `WellFormed` — lines as the kernel prints them.
* `Correct` — the statistics are those of the trace.

## Main results

* `foldlM_account` — the tables after a trace.
* `correct_iff` — the statistics are right for exactly nine pids.

Source: `Project2/cmp/cmp.c`.
-/

namespace OsProject.Cmp

open OnlineTable
open scoped BigOperators

/-! ### The program -/

/-- A row of the tables of `main`, which are arrays with the same index. -/
structure Row where
  runningCycle : ℤ := 0
  marked : Bool := false
  startTime : ℤ := 0
  endTime : ℤ := 0
  pid : ℤ := 0
  deriving DecidableEq

/-- The tables start with zeros. -/
def freeRow : Row := {}

/-- The size of the tables. -/
def tableSize : ℕ := 9

/-- The variables of `main`, and the lines that it has printed for the trace. -/
structure Tables where
  cycle : ℤ
  rows : List Row
  printed : List (ℤ × ℤ)

def Tables.init : Tables := ⟨0, List.replicate tableSize freeRow, []⟩

/-- The loop that looks for the row of a pid and charges it; no value when it ends without one. -/
def chargeRow (cycle x : ℤ) : List Row → Option (List Row)
  | [] => none
  | r :: rs =>
    if r.marked ∧ r.pid = x then
      some ({ r with endTime := cycle + 1, runningCycle := r.runningCycle + 1 } :: rs)
    else (chargeRow cycle x rs).map (r :: ·)

/-- The loop that looks for a free row. -/
def newRow (cycle x : ℤ) : List Row → List Row
  | [] => []
  | r :: rs =>
    if r.marked then r :: newRow cycle x rs
    else
      { r with
        pid := x
        endTime := cycle + 1
        runningCycle := r.runningCycle + 1
        marked := true } :: rs

/-- What is done with a line that is counted. No value stands for an overflow of `cycle`. -/
def account (t : Tables) (x : ℤ) : Option Tables :=
  if t.cycle + 1 < 2 ^ 31 then
    some
      { cycle := t.cycle + 1
        rows := (chargeRow t.cycle x t.rows).getD (newRow t.cycle x t.rows)
        printed := t.printed ++ [(t.cycle, x)] }
  else none

def handleLine (choice : ℤ) (t : Tables) (line : List UInt8) : Option Tables :=
  match scanLine choice line with
  | .unmatched => some t
  | .pid x => account t x
  | .undefined => none

/-- What `main` prints: a line for each line that is counted, the rows, and the averages. -/
structure Report where
  printed : List (ℤ × ℤ)
  rows : List Row
  avt : ℚ
  awt : ℚ

/-- The end of `main`. -/
def report (t : Tables) : Report :=
  let avt := (t.rows.map fun r => ((r.endTime - r.startTime : ℤ) : ℚ)).sum
  let awt := (t.rows.map fun r => (r.runningCycle : ℚ)).sum
  { printed := t.printed
    rows := t.rows
    avt := avt / 9
    awt := (avt - awt) / 9 }

/-- `main` of `cmp.c` for a log that exists, with the choice that is typed in. -/
def cmpMain (choice : ℤ) (file : List UInt8) : Option Report :=
  ((readLoop (handleLine choice)).run (file, .init)).map report

/-! ### What it is for -/

/-- A line without its newline as it is in a log: it is not empty and fits the array, and when it
starts like the line of a trace it is one that the kernel prints. -/
structure WellFormed (l : List UInt8) : Prop where
  ne_nil : l ≠ []
  newline_notMem : newline ∉ l
  length_lt : l.length < 498
  traced : (bytes "FIFO tracing: ").isPrefixOf l ∨ (bytes "RR tracing: ").isPrefixOf l ∨
      (bytes "RAS Tracing: pid=").isPrefixOf l →
    ∃ pid : ℕ, pid < 2 ^ 31 ∧ ∃ timeSlice : ℤ,
      l ++ [newline] = printk "FIFO tracing: pid=%d\n" [pid] ∨
      l ++ [newline] = printk "RR tracing: pid=%d, remaining rr time slice=%d\n" [pid, timeSlice] ∨
      l ++ [newline] = taskTickRasMessage pid timeSlice

/-- The pids of the lines that are counted for a choice, in order. -/
def tracePids (choice : ℤ) (lines : List (List UInt8)) : List ℤ :=
  lines.filterMap fun l =>
    match scanLine choice (l ++ [newline, 0]) with
    | .pid x => some x
    | _ => none

/-- The statistics of a trace. All tasks arrive at the time 0, so that the turnaround time of a pid is
one more than the index of its last line. -/
structure Correct (ps : List ℤ) (r : Report) : Prop where
  /-- Every pid has a row, with the number of its lines and the index of the last one. -/
  row : ∀ p ∈ ps, ∃ row ∈ r.rows, row.marked = true ∧ row.pid = p ∧
    row.runningCycle = ps.count p ∧
    ∃ i : ℕ, ps[i]? = some p ∧ (∀ j, i < j → ps[j]? ≠ some p) ∧ row.endTime = i + 1
  running : (r.rows.map Row.runningCycle).sum = ps.length
  turnaround : r.avt = (∑ p ∈ ps.toFinset, (lastSeen ps p : ℚ)) / ps.toFinset.card
  waiting : r.awt =
    (∑ p ∈ ps.toFinset, ((lastSeen ps p : ℚ) - ps.count p)) / ps.toFinset.card
  nonneg : ∀ p ∈ ps, (0 : ℚ) ≤ lastSeen ps p ∧ (0 : ℚ) ≤ (lastSeen ps p : ℚ) - ps.count p

/-! ### The tables -/

section Rows

variable (now : ℕ) (x : ℤ) {es : List (Entry ℤ)}

def toRow (e : Entry ℤ) : Row where
  runningCycle := e.count
  marked := true
  endTime := e.last
  pid := e.key

theorem toRow_marked (e : Entry ℤ) : (toRow e).marked = true := rfl

/-- The rows in use, and the free ones. -/
def rowsOf (es : List (Entry ℤ)) : List Row :=
  es.map toRow ++ List.replicate (tableSize - es.length) freeRow

theorem chargeRow_append (es : List (Entry ℤ)) (free : ℕ) :
    chargeRow now x (es.map toRow ++ List.replicate free freeRow) =
      (bump now x es).map fun es' => es'.map toRow ++ List.replicate free freeRow := by
  induction es with
  | nil =>
    rw [List.map_nil, List.nil_append, bump, Option.map_none]
    induction free with
    | zero => rfl
    | succ free ih =>
      rw [List.replicate_succ, chargeRow, if_neg (by simp [freeRow]), ih]
      rfl
  | cons e es ih =>
    rw [List.map_cons, List.cons_append, chargeRow, bump, ih]
    by_cases hx : e.key = x
    · rw [if_pos ⟨rfl, hx⟩, if_pos hx]
      simp [toRow, touch]
    · rw [if_neg fun h => hx h.2, if_neg hx, Option.map_map, Option.map_map]
      rfl

theorem newRow_append (es : List (Entry ℤ)) (free : ℕ) :
    newRow now x (es.map toRow ++ List.replicate free freeRow) =
      if free = 0 then es.map toRow
      else (es ++ [(⟨x, 1, now + 1⟩ : Entry ℤ)]).map toRow ++ List.replicate (free - 1) freeRow := by
  induction es with
  | nil => cases free <;> rfl
  | cons e es ih =>
    rw [List.map_cons, List.cons_append, newRow, if_pos (toRow_marked e), ih]
    split <;> rfl

/-- The two loops count a key in the table. -/
theorem rowsOf_add (hlen : es.length ≤ tableSize) :
    (chargeRow now x (rowsOf es)).getD (newRow now x (rowsOf es)) =
      rowsOf (add tableSize now x es) := by
  rw [rowsOf, chargeRow_append, newRow_append, add]
  cases hbump : bump now x es with
  | some es' => rw [Option.map_some, Option.getD_some, Option.getD_some, rowsOf, length_bump hbump]
  | none =>
    rw [Option.map_none, Option.getD_none, Option.getD_none]
    by_cases hroom : es.length < tableSize
    · have hfree : tableSize - es.length - 1 = tableSize - (es.length + 1) := by omega
      rw [if_neg (by omega), if_pos hroom, rowsOf, List.length_append, List.length_singleton, hfree]
    · have hfree : tableSize - es.length = 0 := by omega
      rw [if_pos hfree, if_neg hroom, rowsOf, hfree, List.replicate_zero, List.append_nil]

theorem length_rowsOf (hlen : es.length ≤ tableSize) : (rowsOf es).length = tableSize := by
  rw [rowsOf, List.length_append, List.length_map, List.length_replicate]
  omega

/-- Free rows add nothing to a sum. -/
theorem sum_rowsOf {M : Type*} [AddCommMonoid M] (es : List (Entry ℤ)) (f : Row → M) (hf : f freeRow = 0) :
    ((rowsOf es).map f).sum = (es.map fun e => f (toRow e)).sum := by
  rw [rowsOf, List.map_append, List.sum_append, List.map_map, List.map_replicate,
    List.sum_replicate, hf, nsmul_zero, add_zero]
  rfl

end Rows

/-! ### A trace -/

/-- The tables after a trace. -/
def tablesOf (ps : List ℤ) : Tables where
  cycle := ps.length
  rows := rowsOf (table tableSize ps)
  printed := ps.zipIdx.map fun x => ((x.2 : ℤ), x.1)

/-- The lines of a trace are counted one by one, unless `cycle` overflows. -/
theorem foldlM_account (ps : List ℤ) :
    ps.foldlM account .init = if ps.length < 2 ^ 31 then some (tablesOf ps) else none := by
  induction ps using List.reverseRecOn with
  | nil => rfl
  | append_singleton ps x ih =>
    have hlen : (ps ++ [x]).length = ps.length + 1 := by simp
    rw [List.foldlM_append, ih, hlen]
    by_cases hmany : ps.length < 2 ^ 31
    · rw [if_pos hmany]
      have hstep : account (tablesOf ps) x =
          if ps.length + 1 < 2 ^ 31 then some (tablesOf (ps ++ [x])) else none := by
        have hrows := rowsOf_add ps.length x (length_table_le tableSize ps)
        have hprinted : (tablesOf (ps ++ [x])).printed =
            (tablesOf ps).printed ++ [((ps.length : ℤ), x)] := by
          rw [tablesOf, tablesOf, List.zipIdx_append, List.map_append]
          simp
        have hcycle : (tablesOf (ps ++ [x])).cycle = (tablesOf ps).cycle + 1 := by
          rw [tablesOf, tablesOf, hlen]
          rfl
        have hnew : tablesOf (ps ++ [x]) =
            ⟨(tablesOf ps).cycle + 1, rowsOf (table tableSize (ps ++ [x])),
              (tablesOf ps).printed ++ [((ps.length : ℤ), x)]⟩ := by
          rw [← hcycle, ← hprinted]
          rfl
        rw [hnew, ← add_table, ← hrows]
        have hiff : (tablesOf ps).cycle + 1 < 2 ^ 31 ↔ ps.length + 1 < 2 ^ 31 := by
          have hc : (tablesOf ps).cycle = ps.length := rfl
          omega
        rw [account]
        simp only [hiff]
        rfl
      have hone : [x].foldlM account (tablesOf ps) = account (tablesOf ps) x := by simp
      rw [Option.bind_eq_bind, Option.bind_some, hone, hstep]
    · rw [if_neg hmany, if_neg (show ¬ps.length + 1 < 2 ^ 31 by omega)]
      exact Option.bind_none _

/-- A text without a newline that a line with its newline starts with. -/
theorem prefix_of_prefix_append {pre l m : List UInt8} (hpre : newline ∉ pre)
    (h : pre <+: l ++ newline :: m) : pre <+: l := by
  rcases List.prefix_or_prefix_of_prefix h (List.prefix_append l _) with h' | ⟨k, rfl⟩
  · exact h'
  · cases k with
    | nil => rw [List.append_nil]
    | cons c k =>
      obtain ⟨rfl, -⟩ := List.cons_prefix_cons.mp ((List.prefix_append_right_inj l).mp h)
      exact absurd (by simp) hpre

/-- The pid of a well-formed line, if it is counted. -/
theorem WellFormed.scanLine_eq {l : List UInt8} (h : WellFormed l) (choice : ℤ) :
    scanLine choice (l ++ [newline, 0]) = .unmatched ∨
      ∃ x, scanLine choice (l ++ [newline, 0]) = .pid x := by
  have hnul : l ++ [newline, 0] = l ++ [newline] ++ [0] := by simp
  have hcounted {k : ℤ} {pid : ℕ} (hc : CountedOnly k pid (l ++ [newline])) :
      scanLine choice (l ++ [newline, 0]) = .unmatched ∨
        ∃ x, scanLine choice (l ++ [newline, 0]) = .pid x := by
    rw [hnul, hc choice]
    split
    · exact .inr ⟨_, rfl⟩
    · exact .inl rfl
  by_cases htraced : (bytes "FIFO tracing: ").isPrefixOf l ∨ (bytes "RR tracing: ").isPrefixOf l ∨
      (bytes "RAS Tracing: pid=").isPrefixOf l
  · obtain ⟨pid, hpid, timeSlice, hline | hline | hline⟩ := h.traced htraced
    · exact hcounted (hline ▸ countedOnly_fifo hpid)
    · exact hcounted (hline ▸ countedOnly_rr hpid timeSlice)
    · exact hcounted (hline ▸ countedOnly_ras hpid timeSlice)
  · have hother {pre : String} {offset : ℕ} {stop : Option UInt8} (hpre : newline ∉ bytes pre)
        (hl : ¬(bytes pre).isPrefixOf l) :
        scan pre offset stop (l ++ [newline, 0]) = .unmatched := by
      refine scan_eq_unmatched (Bool.eq_false_iff.mpr fun h' => hl ?_)
      rw [List.isPrefixOf_iff_prefix] at h' ⊢
      exact prefix_of_prefix_append hpre h'
    rw [not_or, not_or] at htraced
    refine .inl ?_
    rw [scanLine, scanFifo, scanRr, scanRas, hother (by decide) htraced.1,
      hother (by decide) htraced.2.1, hother (by decide) htraced.2.2]
    split_ifs <;> rfl

/-- What `main` does with a well-formed log. -/
theorem cmpMain_eq (choice : ℤ) {lines : List (List UInt8)} (hlines : ∀ l ∈ lines, WellFormed l) :
    cmpMain choice (lines.flatMap (· ++ [newline])) =
      if (tracePids choice lines).length < 2 ^ 31 then
        some (report (tablesOf (tracePids choice lines)))
      else none := by
  have hfold : ∀ t, (lines.map (· ++ [newline, 0])).foldlM (handleLine choice) t =
      (tracePids choice lines).foldlM account t := by
    induction lines with
    | nil => exact fun _ => rfl
    | cons l lines ih =>
      intro t
      obtain ⟨hl, hrest⟩ := List.forall_mem_cons.mp hlines
      rw [List.map_cons, List.foldlM_cons, handleLine, tracePids, List.filterMap_cons]
      rcases hl.scanLine_eq choice with hscan | ⟨x, hscan⟩
      · rw [hscan]
        exact ih hrest t
      · rw [hscan]
        dsimp only
        rw [List.foldlM_cons]
        cases account t x with
        | none => rfl
        | some t' => exact ih hrest t'
  have hhanded : handed (lines.flatMap (· ++ [newline])) = some (lines.map (· ++ [newline, 0])) := by
    have hfits : ∀ l ∈ lines, l ≠ [] ∧ newline ∉ l ∧ l.length + 1 < bufSize - 1 := by
      intro l hl
      have hlen := (hlines l hl).length_lt
      refine ⟨(hlines l hl).ne_nil, (hlines l hl).newline_notMem, ?_⟩
      rw [bufSize]
      omega
    have hall := handed_flatMap hfits []
    rw [List.append_nil, handed_nil] at hall
    simpa using hall
  rw [cmpMain, run_readLoop, hhanded, Option.bind_some, hfold, foldlM_account]
  split <;> rfl

/-! ### The statistics -/

section Statistics

variable {ps : List ℤ}

theorem report_avt (hroom : ps.toFinset.card ≤ tableSize) :
    (report (tablesOf ps)).avt = (∑ p ∈ ps.toFinset, (lastSeen ps p : ℚ)) / 9 := by
  have hsum := sum_rowsOf (table tableSize ps)
    (fun r => ((r.endTime - r.startTime : ℤ) : ℚ)) (by norm_num [freeRow])
  rw [sum_table hroom] at hsum
  have hrows : (tablesOf ps).rows = rowsOf (table tableSize ps) := rfl
  rw [report, hrows, hsum]
  simp [toRow, entry]

theorem report_awt (hroom : ps.toFinset.card ≤ tableSize) :
    (report (tablesOf ps)).awt =
      (∑ p ∈ ps.toFinset, ((lastSeen ps p : ℚ) - ps.count p)) / 9 := by
  have hsum := sum_rowsOf (table tableSize ps)
    (fun r => ((r.endTime - r.startTime : ℤ) : ℚ)) (by norm_num [freeRow])
  have hrunning := sum_rowsOf (table tableSize ps) (fun r => (r.runningCycle : ℚ))
    (by norm_num [freeRow])
  rw [sum_table hroom] at hsum hrunning
  have hrows : (tablesOf ps).rows = rowsOf (table tableSize ps) := rfl
  rw [report, hrows, hsum, hrunning, Finset.sum_sub_distrib]
  simp [toRow, entry]

/-- The turnaround times of a trace do not add up to zero. -/
theorem sum_lastSeen_pos (hne : ps ≠ []) : 0 < ∑ p ∈ ps.toFinset, (lastSeen ps p : ℚ) := by
  refine Finset.sum_pos (fun p hp => ?_) (List.toFinset_nonempty_iff ps |>.mpr hne)
  exact_mod_cast lastSeen_pos (List.mem_toFinset.mp hp)

/-- Every pid has a row only if there are rows enough. -/
theorem Correct.card_le (h : Correct ps (report (tablesOf ps))) :
    ps.toFinset.card ≤ tableSize := by
  have hsub : ps.toFinset ⊆ ((report (tablesOf ps)).rows.map Row.pid).toFinset := by
    intro p hp
    obtain ⟨row, hrow, -, hpid, -⟩ := h.row p (List.mem_toFinset.mp hp)
    exact List.mem_toFinset.mpr (List.mem_map.mpr ⟨row, hrow, hpid⟩)
  have hlen : (report (tablesOf ps)).rows.length = tableSize :=
    length_rowsOf (length_table_le tableSize ps)
  calc ps.toFinset.card
      ≤ ((report (tablesOf ps)).rows.map Row.pid).toFinset.card := Finset.card_le_card hsub
    _ ≤ ((report (tablesOf ps)).rows.map Row.pid).length := List.toFinset_card_le _
    _ = tableSize := by rw [List.length_map, hlen]

/-- The averages are over the pids only if there are nine of them. -/
theorem Correct.card_eq (hne : ps ≠ []) (h : Correct ps (report (tablesOf ps))) :
    ps.toFinset.card = 9 := by
  have havt := h.turnaround
  rw [report_avt h.card_le] at havt
  have hcard : (ps.toFinset.card : ℚ) ≠ 0 := by
    have hpos := Finset.card_pos.mpr ((List.toFinset_nonempty_iff ps).mpr hne)
    exact_mod_cast hpos.ne'
  rw [div_eq_div_iff (by norm_num) hcard] at havt
  have heq := mul_left_cancel₀ (sum_lastSeen_pos hne).ne' havt
  exact_mod_cast heq

/-- With a pid for every row the statistics are right. -/
theorem correct_of_card_eq (hcard : ps.toFinset.card = 9) : Correct ps (report (tablesOf ps)) := by
  have hroom : ps.toFinset.card ≤ tableSize := hcard.le
  constructor
  · intro p hp
    obtain ⟨i, hi, hlast, heq⟩ := exists_last hp
    have hmem : entry ps p ∈ table tableSize ps := by
      rw [table_of_length_le (by rwa [← card_toFinset])]
      exact List.mem_map_of_mem (List.mem_eraseDups.mpr hp)
    refine ⟨toRow (entry ps p), List.mem_append_left _ (List.mem_map_of_mem hmem), rfl, rfl, rfl,
      i, hi, hlast, ?_⟩
    rw [toRow, entry, heq]
    norm_num
  · have hsum := sum_rowsOf (table tableSize ps) Row.runningCycle rfl
    rw [sum_table hroom] at hsum
    have hcount : ∑ p ∈ ps.toFinset, (ps.count p : ℤ) = ps.length := by
      rw [← List.sum_toFinset_count_eq_length ps, Nat.cast_sum]
    exact hsum.trans hcount
  · rw [report_avt hroom, hcard]
    norm_num
  · rw [report_awt hroom, hcard]
    norm_num
  · intro p _
    have hle : (ps.count p : ℚ) ≤ lastSeen ps p := by exact_mod_cast count_le_lastSeen ps p
    exact ⟨Nat.cast_nonneg _, sub_nonneg.mpr hle⟩

end Statistics

/-! ### Traces of FIFO tasks -/

/-- The line for a tick of a FIFO task, without its newline. -/
def fifoLine (pid : ℕ) : List UInt8 := bytes "FIFO tracing: pid=" ++ Ptree.decimalNat pid

section FifoLines

variable {pid : ℕ} {pids : List ℕ}

theorem fifoLine_newline (hpid : pid < 2 ^ 31) :
    fifoLine pid ++ [newline] = printk "FIFO tracing: pid=%d\n" [pid] := by
  have hprint := printk_fifo hpid
  rw [show ([10, 0] : List UInt8) = [newline] ++ [0] from rfl, ← List.append_assoc,
    ← List.append_assoc] at hprint
  exact (List.append_cancel_right hprint).symm

theorem wellFormed_fifoLine (hpid : pid < 2 ^ 31) : WellFormed (fifoLine pid) where
  ne_nil := List.append_ne_nil_of_left_ne_nil (by decide) _
  newline_notMem := by
    rw [fifoLine, List.mem_append, not_or]
    exact ⟨by decide, fun h => (decimalNat_ne (c := newline) (by decide) newline h).2 rfl⟩
  length_lt := by
    have hdigits : (Ptree.decimalNat pid).length ≤ 10 := by
      rw [Ptree.decimalNat]
      split
      · decide
      · rw [List.length_map, List.length_reverse, Nat.digits_length_le_iff (by decide)]
        exact Nat.lt_trans hpid (by decide)
    rw [fifoLine, List.length_append, show (bytes "FIFO tracing: pid=").length = 18 from rfl]
    omega
  traced _ := ⟨pid, hpid, 0, .inl (fifoLine_newline hpid)⟩

theorem tracePids_fifoLines (hpids : ∀ pid ∈ pids, pid < 2 ^ 31) :
    tracePids 1 (pids.map fifoLine) = pids.map ((↑) : ℕ → ℤ) := by
  rw [tracePids, List.filterMap_map, ← List.filterMap_eq_map]
  refine List.filterMap_congr fun pid hpid => ?_
  have hscan : scanLine 1 (fifoLine pid ++ [newline, 0]) = .pid pid := by
    have hcounted := countedOnly_fifo (hpids pid hpid) 1
    rwa [← fifoLine_newline (hpids pid hpid), List.append_assoc, if_pos rfl] at hcounted
  rw [Function.comp_apply, hscan]
  rfl

end FifoLines

/-! ### When the statistics are right -/

/-- The statistics of a log of well-formed lines, some of which are counted, are right if and only if
they are of nine pids, unless there are more lines than an `int` can count. -/
theorem correct_iff (choice : ℤ) (lines : List (List UInt8)) (hlines : ∀ l ∈ lines, WellFormed l)
    (hne : tracePids choice lines ≠ []) :
    (∃ r, cmpMain choice (lines.flatMap (· ++ [newline])) = some r ∧
        Correct (tracePids choice lines) r) ↔
      (tracePids choice lines).toFinset.card = 9 ∧ (tracePids choice lines).length < 2 ^ 31 := by
  rw [cmpMain_eq choice hlines]
  constructor
  · rintro ⟨r, hr, hcorrect⟩
    split at hr
    · next hlen =>
      obtain rfl := Option.some.inj hr
      exact ⟨hcorrect.card_eq hne, hlen⟩
    · cases hr
  · rintro ⟨hcard, hlen⟩
    exact ⟨_, if_pos hlen, correct_of_card_eq hcard⟩

/-- Nine FIFO tasks run for a tick each. -/
theorem correct_iff_nineTasks :
    ∃ r, cmpMain 1 (((List.range 9).map fifoLine).flatMap (· ++ [newline])) = some r ∧
      Correct [0, 1, 2, 3, 4, 5, 6, 7, 8] r := by
  have hpids : ∀ pid ∈ List.range 9, pid < 2 ^ 31 := by decide
  have htrace : tracePids 1 ((List.range 9).map fifoLine) = [0, 1, 2, 3, 4, 5, 6, 7, 8] :=
    tracePids_fifoLines hpids
  have hlines : ∀ l ∈ (List.range 9).map fifoLine, WellFormed l := by
    intro l hl
    obtain ⟨pid, hpid, rfl⟩ := List.mem_map.mp hl
    exact wellFormed_fifoLine (hpids pid hpid)
  rw [← htrace]
  refine (correct_iff 1 _ hlines (by rw [htrace]; decide)).mpr ?_
  rw [htrace]
  decide

/-- Of ten tasks that run for a tick each, as many as the test program forks, the last one has no
row. -/
theorem not_correct :
    (¬ ∀ (choice : ℤ) (lines : List (List UInt8)), (∀ l ∈ lines, WellFormed l) →
      tracePids choice lines ≠ [] →
        ∃ r, cmpMain choice (lines.flatMap (· ++ [newline])) = some r ∧
          Correct (tracePids choice lines) r) ∧
    ∃ r, cmpMain 1 (((List.range 10).map fifoLine).flatMap (· ++ [newline])) = some r ∧
      ∀ row ∈ r.rows, row.pid ≠ 9 := by
  have hpids : ∀ pid ∈ List.range 10, pid < 2 ^ 31 := by decide
  have htrace : tracePids 1 ((List.range 10).map fifoLine) = [0, 1, 2, 3, 4, 5, 6, 7, 8, 9] :=
    tracePids_fifoLines hpids
  have hlines : ∀ l ∈ (List.range 10).map fifoLine, WellFormed l := by
    intro l hl
    obtain ⟨pid, hpid, rfl⟩ := List.mem_map.mp hl
    exact wellFormed_fifoLine (hpids pid hpid)
  have hmain := cmpMain_eq 1 hlines
  rw [htrace, if_pos (by decide)] at hmain
  refine ⟨fun h => ?_, _, hmain, by decide⟩
  obtain ⟨r, hr, hcorrect⟩ := h 1 _ hlines (by rw [htrace]; decide)
  rw [htrace] at hcorrect
  obtain rfl := Option.some.inj (hmain.symm.trans hr)
  have hcard := hcorrect.card_le
  revert hcard
  decide

end OsProject.Cmp
