import Mathlib.Data.Nat.Digits.Lemmas
import OsProject.Ptree.UserProgram
import OsProject.Sched.Types

/-!
# The lines of a trace

The kernel traces a tick of a task with a line in its log, and `cmp.c` picks the lines of one
scheduling class from the log and reads the pid in them. The two agree through a literal prefix, the
offset of the pid and the character behind it.

## Main definitions

* `printk` — the text of a message.
* `taskTickRtMessage`, `taskTickRasMessage` — the lines that trace a tick.
* `Message` — the other messages of the RAS class and of the page fault handler.
* `scanLine` — what `cmp.c` makes of a line.

## Main results

* `atoi_decimalNat` — a number that was printed is read back.
* `trace_lines_scanned`.

Source: `kernel/sched/rt.c`, `kernel/sched/ras.c`, `arch/arm/mm/fault.c`, `Project2/cmp/cmp.c`.
-/

namespace OsProject.Cmp

open Ptree (decimal decimalNat)

/-! ### Messages of the kernel -/

/-- The bytes of a text. -/
def bytes (s : String) : List UInt8 := s.toList.map fun c => .ofNat c.toNat

/-- A format with its arguments put in. `%d` shows 32 bits with a sign, `%u` without. -/
def sprintf : List Char → List ℤ → List UInt8
  | '%' :: 'd' :: fmt, a :: args => decimal (a.bmod (2 ^ 32)) ++ sprintf fmt args
  | '%' :: 'u' :: fmt, a :: args => decimalNat (a % 2 ^ 32).toNat ++ sprintf fmt args
  | '%' :: 'l' :: 'l' :: 'u' :: fmt, a :: args => decimalNat (a % 2 ^ 64).toNat ++ sprintf fmt args
  | c :: fmt, args => .ofNat c.toNat :: sprintf fmt args
  | [], _ => []

/-- The text of a message; the level `KERN_INFO` does not belong to it. -/
def printk (fmt : String) (args : List ℤ) : List UInt8 := sprintf fmt.toList args

/-- What `task_tick_rt` prints at a tick of a task with its policy and its `rr_fifo_trace`. -/
def taskTickRtMessage (policy : Sched.Policy) (rrFifoTrace pid timeSlice : ℤ) :
    Option (List UInt8) :=
  if policy ≠ .rr then
    if rrFifoTrace = 1 then some (printk "FIFO tracing: pid=%d\n" [pid]) else none
  else if rrFifoTrace = 1 then
    some (printk "RR tracing: pid=%d, remaining rr time slice=%d\n" [pid, timeSlice])
  else none

/-- The line that `task_tick_ras` prints before it counts the slice down. -/
def taskTickRasMessage (pid timeSlice : ℤ) : List UInt8 :=
  printk "RAS Tracing: pid=%d, remaining time slice=%d\n" [pid, timeSlice]

/-- The other messages of `ras.c`, and that of `access_error`. -/
inductive Message
  | initRasRq
  | calcRasWeight (pid wcounts weight : ℤ)
  | updateCurrRas (pid : ℤ)
  | deltaExec (pid delta : ℤ)
  | updateCurrRasFinished
  | enqueueTaskRas (pid : ℤ)
  | foreground (pid timeSlice : ℤ)
  | background (pid timeSlice : ℤ)
  | unknownType (pid timeSlice : ℤ)
  | enqueuedSlice (timeSlice : ℤ)
  | enqueueTaskRasFinished
  | dequeueTaskRas (pid : ℤ)
  | dequeueTaskRasFinished
  | pickNextTaskRas (pid : ℤ)
  | putPrevTaskRas (pid : ℤ)
  | yieldTaskRas (pid : ℤ)
  | checkPreemptCurrRas (pid : ℤ)
  | preempt (pid weight currPid currWeight : ℤ)
  | setCurrTaskRas (pid : ℤ)
  | taskTickRas (pid : ℤ)
  | outOfSlice (pid : ℤ)
  | reschedule (pid timeSlice : ℤ)
  | getRrIntervalRas
  | switchedToRas
  | accessError (pid wcounts : ℤ)

/-- Two of the messages have no newline, so that the next one follows on the same line. -/
def Message.text : Message → List UInt8
  | initRasRq => printk "initing ras run queue...\n" []
  | calcRasWeight pid wcounts weight =>
    printk "calculating weight: pid=%d wcounts=%d weight=%d\n" [pid, wcounts, weight]
  | updateCurrRas pid => printk "update_curr_ras: process running now: pid=%d\n" [pid]
  | deltaExec pid delta => printk "running time of pid=%d since last update: %llu\n" [pid, delta]
  | updateCurrRasFinished => printk "update_curr_ras: finished!\n" []
  | enqueueTaskRas pid => printk "enqueue_task_ras: pid=%d is now enqueuing...\n" [pid]
  | foreground pid timeSlice =>
    printk "FG task! pid=%d and get time slice=%d\n" [pid, timeSlice]
  | background pid timeSlice =>
    printk "BG task! pid=%d and get time slice=%d\n" [pid, timeSlice]
  | unknownType pid timeSlice =>
    printk "Unknown type task! pid=%d and get time slice=%d\n" [pid, timeSlice]
  | enqueuedSlice timeSlice => printk "the time slice of the process is %u" [timeSlice]
  | enqueueTaskRasFinished => printk "enqueue_task_ras: finished!\n" []
  | dequeueTaskRas pid => printk "dequeue_task_ras: pid=%d is now dequeuing...\n" [pid]
  | dequeueTaskRasFinished => printk "dequeue_task_ras: finished!\n" []
  | pickNextTaskRas pid => printk "pick_next_task_ras: picking pid=%d\n" [pid]
  | putPrevTaskRas pid => printk "put_prev_task_ras: putting pid=%d back to the queue\n" [pid]
  | yieldTaskRas pid => printk "yield_task_ras: pid=%d yield itself\n" [pid]
  | checkPreemptCurrRas pid => printk "check_preempt_curr_ras: woken task: pid=%d\n" [pid]
  | preempt pid weight currPid currWeight =>
    printk "preempt! woken task pid=%d's weight %d is higher than current pid=%d's weight %d"
      [pid, weight, currPid, currWeight]
  | setCurrTaskRas pid => printk "set_curr_task_ras: pid=%d\n" [pid]
  | taskTickRas pid => printk "task_tick_ras: now pid=%d is running...\n" [pid]
  | outOfSlice pid => printk "task_tick_ras: now pid=%d is out of its time slice\n" [pid]
  | reschedule pid timeSlice =>
    printk "reschedule current process pid=%d in task_tick(), new time slice=%d\n" [pid, timeSlice]
  | getRrIntervalRas => printk "get_rr_interval_ras() is called\n" []
  | switchedToRas => printk "switched_to_ras() is called\n" []
  | accessError pid wcounts => printk "pid=%d: wcounts=%d\n" [pid, wcounts]

/-! ### Reading a line -/

/-- `strchr`: where the character is in the string that ends at the first `'\0'`. -/
def strchr (s : List UInt8) (c : UInt8) : Option ℕ :=
  if c ∈ s.takeWhile (· ≠ 0) then some (s.idxOf c) else none

def isDigit (c : UInt8) : Bool := 48 ≤ c && c ≤ 57

def isSpace (c : UInt8) : Bool := c = 32 || (9 ≤ c && c ≤ 13)

/-- The number that the digits at the start of a string stand for. -/
def digitsValue (s : List UInt8) : ℕ :=
  (s.takeWhile isDigit).foldl (fun n c => 10 * n + (c.toNat - 48)) 0

/-- `atoi`: white space, a sign and digits. Numbers that do not fit an `int` are undefined in C. -/
def atoi (s : List UInt8) : ℤ :=
  let s := s.dropWhile isSpace
  if s.head? = some 45 then -digitsValue s.tail
  else if s.head? = some 43 then digitsValue s.tail
  else digitsValue s

/-- What a line is for a choice of the scheduling class. -/
inductive Scan
  /-- The line is not counted. -/
  | unmatched
  | pid (x : ℤ)
  /-- A read behind the end of the line or a store through a null pointer. -/
  | undefined
  deriving DecidableEq

/-- A case of `switch (choice)`: a line that starts with `pre` is counted for the number at `offset`,
which is cut off at the character `stop`. -/
def scan (pre : String) (offset : ℕ) (stop : Option UInt8) (line : List UInt8) : Scan :=
  if (bytes pre).isPrefixOf line then
    if offset < line.length then
      match stop with
      | none => .pid (atoi (line.drop offset))
      | some c =>
        match strchr (line.drop offset) c with
        | none => .undefined
        | some i => .pid (atoi ((line.drop offset).set i 0))
    else .undefined
  else .unmatched

def scanFifo : List UInt8 → Scan := scan "FIFO tracing: " 18 none

/-- The number ends at `','`. -/
def scanRr : List UInt8 → Scan := scan "RR tracing: " 16 (some 44)

/-- The number ends at `' '`. -/
def scanRas : List UInt8 → Scan := scan "RAS Tracing: pid=" 17 (some 32)

/-- `switch (choice)` for a line with its `'\0'`. -/
def scanLine (choice : ℤ) (line : List UInt8) : Scan :=
  if choice = 1 then scanFifo line
  else if choice = 2 then scanRr line
  else if choice = 3 then scanRas line
  else .unmatched

variable {pid n : ℕ} {c : UInt8} {l m : List UInt8}

/-! ### Numbers -/

theorem isDigit_of_mem_decimalNat (hc : c ∈ decimalNat n) : isDigit c = true := by
  rw [decimalNat] at hc
  split at hc
  · rw [List.mem_singleton.mp hc]
    decide
  · obtain ⟨d, hd, rfl⟩ := List.mem_map.mp hc
    have hlt : d < 10 := Nat.digits_lt_base (by decide) (List.mem_reverse.mp hd)
    have hnat : (UInt8.ofNat (48 + d)).toNat = 48 + d :=
      UInt8.toNat_ofNat_of_lt' (Nat.lt_trans (Nat.add_lt_add_left hlt 48) (by decide))
    rw [isDigit, Bool.and_eq_true, decide_eq_true_eq, decide_eq_true_eq, UInt8.le_iff_toNat_le,
      UInt8.le_iff_toNat_le, hnat]
    exact ⟨Nat.le_add_right 48 d, show 48 + d ≤ 57 by omega⟩

theorem decimalNat_ne_nil (n : ℕ) : decimalNat n ≠ [] := by
  rw [decimalNat]
  split
  · exact List.cons_ne_nil _ _
  · next hn =>
    rw [ne_eq, List.map_eq_nil_iff, List.reverse_eq_nil_iff, Nat.digits_eq_nil_iff_eq_zero]
    exact hn

/-- The digits of a number stand for it. -/
theorem foldl_decimalNat (n : ℕ) :
    (decimalNat n).foldl (fun n c => 10 * n + (c.toNat - 48)) 0 = n := by
  rw [decimalNat]
  split
  · next hn =>
    rw [hn]
    rfl
  · have hdigits : ∀ ds : List ℕ, (∀ d ∈ ds, d < 10) →
        ds.foldr (fun d n => 10 * n + ((UInt8.ofNat (48 + d)).toNat - 48)) 0 = Nat.ofDigits 10 ds := by
      intro ds hds
      induction ds with
      | nil => rfl
      | cons d ds ih =>
        obtain ⟨hd, hds⟩ := List.forall_mem_cons.mp hds
        have hnat : (UInt8.ofNat (48 + d)).toNat = 48 + d :=
          UInt8.toNat_ofNat_of_lt' (Nat.lt_trans (Nat.add_lt_add_left hd 48) (by decide))
        rw [List.foldr_cons, ih hds, hnat, Nat.ofDigits_cons]
        omega
    rw [List.foldl_map, List.foldl_reverse,
      hdigits _ fun d hd => Nat.digits_lt_base (by decide) hd, Nat.ofDigits_digits]

theorem digitsValue_append (hc : isDigit c = false) (m : List UInt8) :
    digitsValue (decimalNat n ++ c :: m) = n := by
  have htake : (decimalNat n ++ c :: m).takeWhile isDigit = decimalNat n := by
    rw [List.takeWhile_append_of_pos fun b hb => isDigit_of_mem_decimalNat hb,
      List.takeWhile_cons_of_neg (by simp [hc]), List.append_nil]
  rw [digitsValue, htake, foldl_decimalNat]

/-- A number that was printed is read back, when no digit follows it. -/
theorem atoi_decimalNat (hc : isDigit c = false) (m : List UInt8) :
    atoi (decimalNat n ++ c :: m) = n := by
  obtain ⟨d, ds, hcons⟩ := List.exists_cons_of_ne_nil (decimalNat_ne_nil n)
  have hd : isDigit d = true := isDigit_of_mem_decimalNat (n := n) (by rw [hcons]; simp)
  have hspace : isSpace d = false := by
    have hle : 48 ≤ d.toNat := by
      rw [isDigit, Bool.and_eq_true, decide_eq_true_eq] at hd
      exact UInt8.le_iff_toNat_le.mp hd.1
    refine Bool.eq_false_iff.mpr fun h => ?_
    rw [isSpace, Bool.or_eq_true, Bool.and_eq_true, decide_eq_true_eq, decide_eq_true_eq,
      decide_eq_true_eq] at h
    rcases h with rfl | ⟨-, h⟩
    · revert hd
      decide
    · have hlt : d.toNat ≤ 13 := UInt8.le_iff_toNat_le.mp h
      omega
  have hsign : d ≠ 45 ∧ d ≠ 43 := by
    constructor <;> (rintro rfl; revert hd; decide)
  have hdrop : (decimalNat n ++ c :: m).dropWhile isSpace = decimalNat n ++ c :: m := by
    rw [hcons, List.cons_append, List.dropWhile_cons_of_neg (by simp [hspace])]
  have hhead : (decimalNat n ++ c :: m).head? = some d := by rw [hcons]; rfl
  rw [atoi, hdrop, hhead]
  simp only [Option.some.injEq, if_neg hsign.1, if_neg hsign.2, digitsValue_append hc]

/-! ### Lines that are counted -/

/-- The character is found behind what is not a `'\0'` and not the character. -/
theorem strchr_append (hl : ∀ b ∈ l, b ≠ 0 ∧ b ≠ c) (hc : c ≠ 0) (m : List UInt8) :
    strchr (l ++ c :: m) c = some l.length := by
  have hmem : c ∈ (l ++ c :: m).takeWhile (· ≠ 0) := by
    rw [List.takeWhile_append_of_pos fun b hb => by simpa using (hl b hb).1,
      List.takeWhile_cons_of_pos (by simpa using hc)]
    simp
  have hnot : c ∉ l := fun h => (hl c h).2 rfl
  rw [strchr, if_pos hmem, List.idxOf_append_of_notMem hnot, List.idxOf_cons_self, Nat.add_zero]

/-- `%d` shows a number that fits an `int` as it is. -/
theorem decimal_bmod (hpid : pid < 2 ^ 31) : decimal ((pid : ℤ).bmod (2 ^ 32)) = decimalNat pid := by
  have hbmod : (pid : ℤ).bmod (2 ^ 32) = pid :=
    Int.bmod_eq_of_le (by omega) (by omega)
  rw [hbmod, decimal, if_neg (by omega), Int.natAbs_natCast]

/-- The text in front of the number, the number, and what follows it. -/
theorem printk_fifo (hpid : pid < 2 ^ 31) :
    printk "FIFO tracing: pid=%d\n" [pid] ++ [0] =
      bytes "FIFO tracing: pid=" ++ (decimalNat pid ++ [10, 0]) := by
  have hprint : printk "FIFO tracing: pid=%d\n" [pid] =
      bytes "FIFO tracing: pid=" ++ (decimal ((pid : ℤ).bmod (2 ^ 32)) ++ [10]) := by
    simp [printk, sprintf, bytes]
  rw [hprint, decimal_bmod hpid]
  simp

theorem printk_rr (hpid : pid < 2 ^ 31) (timeSlice : ℤ) : ∃ m,
    printk "RR tracing: pid=%d, remaining rr time slice=%d\n" [pid, timeSlice] ++ [0] =
      bytes "RR tracing: pid=" ++ (decimalNat pid ++ 44 :: m) := by
  have hprint : printk "RR tracing: pid=%d, remaining rr time slice=%d\n" [pid, timeSlice] =
      bytes "RR tracing: pid=" ++ (decimal ((pid : ℤ).bmod (2 ^ 32)) ++
        44 :: (bytes " remaining rr time slice=" ++
          (decimal (timeSlice.bmod (2 ^ 32)) ++ [10]))) := by
    simp [printk, sprintf, bytes]
  rw [hprint, decimal_bmod hpid]
  exact ⟨bytes " remaining rr time slice=" ++ (decimal (timeSlice.bmod (2 ^ 32)) ++ [10, 0]), by simp⟩

theorem printk_ras (hpid : pid < 2 ^ 31) (timeSlice : ℤ) : ∃ m,
    taskTickRasMessage pid timeSlice ++ [0] =
      bytes "RAS Tracing: pid=" ++ (decimalNat pid ++ 44 :: 32 :: m) := by
  have hprint : taskTickRasMessage pid timeSlice =
      bytes "RAS Tracing: pid=" ++ (decimal ((pid : ℤ).bmod (2 ^ 32)) ++
        44 :: 32 :: (bytes "remaining time slice=" ++
          (decimal (timeSlice.bmod (2 ^ 32)) ++ [10]))) := by
    simp [taskTickRasMessage, printk, sprintf, bytes]
  rw [hprint, decimal_bmod hpid]
  exact ⟨bytes "remaining time slice=" ++ (decimal (timeSlice.bmod (2 ^ 32)) ++ [10, 0]), by simp⟩

theorem scanFifo_eq (n : ℕ) (m : List UInt8) :
    scanFifo (bytes "FIFO tracing: pid=" ++ (decimalNat n ++ 10 :: m)) = .pid n := by
  have hpre (l : List UInt8) :
      (bytes "FIFO tracing: ").isPrefixOf (bytes "FIFO tracing: pid=" ++ l) = true := rfl
  have hdrop (l : List UInt8) : (bytes "FIFO tracing: pid=" ++ l).drop 18 = l := rfl
  have hlen : 18 < (bytes "FIFO tracing: pid=" ++ (decimalNat n ++ 10 :: m)).length := by
    have hbytes : (bytes "FIFO tracing: pid=").length = 18 := rfl
    rw [List.length_append, hbytes]
    simp
  rw [scanFifo, scan, hpre, if_pos rfl, if_pos hlen, hdrop]
  exact congrArg Scan.pid (atoi_decimalNat (by decide) m)

/-- A line whose number is cut off at the character `c`, behind `l`. -/
theorem scan_stop (pre : String) (text : List UInt8)
    (hpre : (bytes pre).isPrefixOf (text ++ (l ++ c :: m)) = true)
    (hl : ∀ b ∈ l, b ≠ 0 ∧ b ≠ c) (hc : c ≠ 0) :
    scan pre text.length (some c) (text ++ (l ++ c :: m)) = .pid (atoi (l ++ 0 :: m)) := by
  have hlen : text.length < (text ++ (l ++ c :: m)).length := by simp
  have hset : (l ++ c :: m).set l.length 0 = l ++ 0 :: m := by simp
  rw [scan, hpre, if_pos rfl, if_pos hlen, List.drop_left, strchr_append hl hc]
  dsimp only
  rw [hset]

/-- The digits of a number are neither a `'\0'` nor another character. -/
theorem decimalNat_ne (hc : isDigit c = false) : ∀ b ∈ decimalNat n, b ≠ 0 ∧ b ≠ c := by
  intro b hb
  have hdigit := isDigit_of_mem_decimalNat hb
  refine ⟨?_, ?_⟩
  · rintro rfl
    revert hdigit
    decide
  · rintro rfl
    rw [hc] at hdigit
    cases hdigit

theorem scanRr_eq (n : ℕ) (m : List UInt8) :
    scanRr (bytes "RR tracing: pid=" ++ (decimalNat n ++ 44 :: m)) = .pid n := by
  have hstop := scan_stop "RR tracing: " (bytes "RR tracing: pid=") (m := m) rfl
    (decimalNat_ne (n := n) (c := 44) (by decide)) (by decide)
  exact hstop.trans (congrArg Scan.pid (atoi_decimalNat (by decide) m))

/-- The number is cut off behind the comma. -/
theorem scanRas_eq (n : ℕ) (m : List UInt8) :
    scanRas (bytes "RAS Tracing: pid=" ++ (decimalNat n ++ 44 :: 32 :: m)) = .pid n := by
  have hnumber : ∀ b ∈ decimalNat n ++ [44], b ≠ 0 ∧ b ≠ 32 := by
    intro b hb
    rcases List.mem_append.mp hb with hb | hb
    · exact decimalNat_ne (by decide) b hb
    · rw [List.mem_singleton.mp hb]
      decide
  have hcomma (k : UInt8) (m : List UInt8) :
      decimalNat n ++ 44 :: k :: m = (decimalNat n ++ [44]) ++ k :: m := by simp
  have hstop := scan_stop "RAS Tracing: pid=" (bytes "RAS Tracing: pid=") (m := m)
    rfl hnumber (by decide)
  rw [← hcomma, ← hcomma] at hstop
  exact hstop.trans (congrArg Scan.pid (atoi_decimalNat (by decide) (0 :: m)))

/-! ### Lines and messages -/

/-- A line is counted for one choice only, for the task with this pid. -/
def CountedOnly (k : ℤ) (pid : ℕ) (line : List UInt8) : Prop :=
  ∀ choice, scanLine choice (line ++ [0]) = if choice = k then .pid pid else .unmatched

/-- A line that starts with another text is not counted. -/
theorem scan_eq_unmatched {pre : String} {offset : ℕ} {stop : Option UInt8}
    (h : (bytes pre).isPrefixOf l = false) : scan pre offset stop l = .unmatched := by
  rw [scan.eq_def, h]
  rfl

/-- The other messages start with none of the three prefixes. -/
theorem Message.scanLine_eq_unmatched (msg : Message) (rest : List UInt8) (choice : ℤ) :
    scanLine choice (msg.text ++ rest) = .unmatched := by
  have hfifo : (bytes "FIFO tracing: ").isPrefixOf (msg.text ++ rest) = false := by
    cases msg <;> rfl
  have hrr : (bytes "RR tracing: ").isPrefixOf (msg.text ++ rest) = false := by cases msg <;> rfl
  have hras : (bytes "RAS Tracing: pid=").isPrefixOf (msg.text ++ rest) = false := by
    cases msg <;> rfl
  rw [scanLine, scanFifo, scanRr, scanRas, scan_eq_unmatched hfifo, scan_eq_unmatched hrr,
    scan_eq_unmatched hras]
  split_ifs <;> rfl

theorem countedOnly_fifo (hpid : pid < 2 ^ 31) :
    CountedOnly 1 pid (printk "FIFO tracing: pid=%d\n" [pid]) := by
  intro choice
  rw [printk_fifo hpid]
  have hfifo := scanFifo_eq pid [0]
  have hrr : scanRr (bytes "FIFO tracing: pid=" ++ (decimalNat pid ++ [10, 0])) = .unmatched :=
    scan_eq_unmatched rfl
  have hras : scanRas (bytes "FIFO tracing: pid=" ++ (decimalNat pid ++ [10, 0])) = .unmatched :=
    scan_eq_unmatched rfl
  rw [scanLine, hfifo, hrr, hras]
  split_ifs <;> rfl

theorem countedOnly_rr (hpid : pid < 2 ^ 31) (timeSlice : ℤ) : CountedOnly 2 pid
    (printk "RR tracing: pid=%d, remaining rr time slice=%d\n" [pid, timeSlice]) := by
  obtain ⟨m, hm⟩ := printk_rr hpid timeSlice
  intro choice
  rw [hm]
  have hrr := scanRr_eq pid m
  have hfifo : scanFifo (bytes "RR tracing: pid=" ++ (decimalNat pid ++ 44 :: m)) = .unmatched :=
    scan_eq_unmatched rfl
  have hras : scanRas (bytes "RR tracing: pid=" ++ (decimalNat pid ++ 44 :: m)) = .unmatched :=
    scan_eq_unmatched rfl
  rw [scanLine, hfifo, hrr, hras]
  split_ifs <;> first | rfl | omega

theorem countedOnly_ras (hpid : pid < 2 ^ 31) (timeSlice : ℤ) :
    CountedOnly 3 pid (taskTickRasMessage pid timeSlice) := by
  obtain ⟨m, hm⟩ := printk_ras hpid timeSlice
  intro choice
  rw [hm]
  have hras := scanRas_eq pid m
  have hfifo : scanFifo (bytes "RAS Tracing: pid=" ++ (decimalNat pid ++ 44 :: 32 :: m)) =
      .unmatched := scan_eq_unmatched rfl
  have hrr : scanRr (bytes "RAS Tracing: pid=" ++ (decimalNat pid ++ 44 :: 32 :: m)) =
      .unmatched := scan_eq_unmatched rfl
  rw [scanLine, hfifo, hrr, hras]
  split_ifs <;> first | rfl | omega

/-- The line that traces a tick of a FIFO, an RR or a RAS task is counted for the choice 1, 2 or 3
only, and the pid that is read there is the pid of the task. The other messages are not counted for
any choice, whatever follows them on the line. -/
theorem trace_lines_scanned :
    (∀ pid : ℕ, pid < 2 ^ 31 → ∀ timeSlice : ℤ,
      (∃ line, taskTickRtMessage .fifo 1 pid timeSlice = some line ∧ CountedOnly 1 pid line) ∧
      (∃ line, taskTickRtMessage .rr 1 pid timeSlice = some line ∧ CountedOnly 2 pid line) ∧
      CountedOnly 3 pid (taskTickRasMessage pid timeSlice)) ∧
    ∀ (msg : Message) (rest : List UInt8) (choice : ℤ),
      scanLine choice (msg.text ++ rest) = .unmatched :=
  ⟨fun _ hpid timeSlice => ⟨⟨_, rfl, countedOnly_fifo hpid⟩, ⟨_, rfl, countedOnly_rr hpid timeSlice⟩,
    countedOnly_ras hpid timeSlice⟩, Message.scanLine_eq_unmatched⟩

/-- A RAS task with two ticks left, and a message about it. -/
theorem trace_lines_scanned_twelve :
    scanLine 3 (taskTickRasMessage 12 2 ++ [0]) = .pid 12 ∧
      scanLine 3 (taskTickRasMessage 12 (2 ^ 32 - 1) ++ [0]) = .pid 12 ∧
      scanLine 3 ((Message.outOfSlice 12).text ++ [0]) = .unmatched := by
  obtain ⟨hlines, hother⟩ := trace_lines_scanned
  exact ⟨(hlines 12 (by decide) 2).2.2 3, (hlines 12 (by decide) (2 ^ 32 - 1)).2.2 3,
    hother _ _ _⟩

end OsProject.Cmp
