import OsProject.Trace.Fault

/-!
# What the count of traced writes counts

While a task is traced, `do_page_fault` counts each of its faults that is a write to an area
without write permission. In user mode these are the faults for which the task is sent a `SIGSEGV`
with code `SEGV_ACCERR`. A fault of the kernel on behalf of the task, as in `copy_to_user`, is
counted as well, and is left to the exception table without a signal. A prefetch is no write,
whatever the fault status says besides.

## Main definitions

* `faultRun` — the faults of a task in order, and how they end.

## Main results

* `wcounts_counts_violations`.
-/

namespace OsProject.Trace

open Sched (TaskStruct)

/-- The task after a run of faults, and each fault with how it ends. -/
def faultRun (t : TaskStruct) : List Invocation → TaskStruct × List (Invocation × Outcome)
  | [] => (t, [])
  | i :: is =>
    let (o, t) := doPageFault i t
    let (t, os) := faultRun t is
    (t, (i, o) :: os)

/-- A `SIGSEGV` with code `SEGV_ACCERR` is forced, for a fault that `fsr` says is a write. -/
def forcedForWriteStatus (x : Invocation × Outcome) : Bool :=
  x.2 = .signal .sigsegv .segvAccerr ∧ x.1.fsr &&& fsrWrite ≠ 0

/-- A `SIGSEGV` with code `SEGV_ACCERR` is forced, for a write of data. -/
def forcedForWrite (x : Invocation × Outcome) : Bool :=
  x.2 = .signal .sigsegv .segvAccerr ∧ writeAccess x.1.fsr

/-- The kernel itself wrote to an area without write permission. -/
def kernelViolation (x : Invocation × Outcome) : Bool := !x.1.userMode ∧ x.1.writeViolation

/-- The faults of these two kinds. -/
def violations (os : List (Invocation × Outcome)) : ℕ :=
  os.countP forcedForWrite + os.countP kernelViolation

theorem violations_cons (x : Invocation × Outcome) (os : List (Invocation × Outcome)) :
    violations (x :: os) = violations [x] + violations os := by
  simp only [violations, List.countP_cons, List.countP_nil]
  omega

section Count

variable {t : TaskStruct} {i : Invocation}

theorem forcedForWrite_iff : forcedForWrite (i, (doPageFault i t).1) = true ↔
    i.writeViolation = true ∧ i.userMode = true := by
  rw [← signalsWriteViolation_iff i t]
  simp [forcedForWrite]

/-- An invocation is counted once if it is of one of the two kinds, and it is not of both. -/
theorem doPageFault_wcounts (h : t.traceFlag = 1) :
    (doPageFault i t).2.wcounts =
        t.wcounts + UInt32.ofNat (violations [(i, (doPageFault i t).1)]) ∧
      violations [(i, (doPageFault i t).1)] ≤ 1 := by
  have hforced := forcedForWrite_iff (t := t) (i := i)
  have hkernel : kernelViolation (i, (doPageFault i t).1) = true ↔
      i.writeViolation = true ∧ i.userMode = false := by
    simp [kernelViolation, and_comm]
  rw [violations, List.countP_singleton, List.countP_singleton, doPageFault_snd]
  cases hv : i.writeViolation with
  | false =>
    rw [if_neg fun hf => absurd (hforced.mp hf).1 (by simp [hv]),
      if_neg fun hk => absurd (hkernel.mp hk).1 (by simp [hv]), if_neg Bool.false_ne_true]
    exact ⟨by simp, by omega⟩
  | true =>
    rw [if_pos rfl, countWrite_wcounts h]
    cases hm : i.userMode with
    | true =>
      rw [if_pos (hforced.mpr ⟨hv, hm⟩), if_neg fun hk => absurd (hkernel.mp hk).2 (by simp [hm])]
      exact ⟨rfl, by omega⟩
    | false =>
      rw [if_neg fun hf => absurd (hforced.mp hf).2 (by simp [hm]), if_pos (hkernel.mpr ⟨hv, hm⟩)]
      exact ⟨rfl, by omega⟩

theorem doPageFault_traceFlag : (doPageFault i t).2.traceFlag = t.traceFlag := by
  rw [doPageFault_snd]
  split
  · exact countWrite_traceFlag t
  · rfl

theorem faultRun_cons (t : TaskStruct) (i : Invocation) (is : List Invocation) :
    faultRun t (i :: is) = ((faultRun (doPageFault i t).2 is).1,
      (i, (doPageFault i t).1) :: (faultRun (doPageFault i t).2 is).2) := rfl

theorem faultRun_traceFlag (is : List Invocation) :
    (faultRun t is).1.traceFlag = t.traceFlag := by
  induction is generalizing t with
  | nil => rfl
  | cons i is ih => rw [faultRun_cons, ih, doPageFault_traceFlag]

/-- Over a run the counts of the invocations add up. -/
theorem faultRun_wcounts (h : t.traceFlag = 1) (is : List Invocation) :
    (faultRun t is).1.wcounts = t.wcounts + UInt32.ofNat (violations (faultRun t is).2) := by
  induction is generalizing t with
  | nil => simp [faultRun, violations]
  | cons i is ih =>
    have hcons : violations (faultRun t (i :: is)).2 = violations [(i, (doPageFault i t).1)] +
        violations (faultRun (doPageFault i t).2 is).2 := violations_cons _ _
    rw [hcons, faultRun_cons, ih (doPageFault_traceFlag.trans h), (doPageFault_wcounts h).1,
      UInt32.ofNat_add, UInt32.add_assoc]

/-- Without faults of the kernel every counted write is signalled. -/
theorem countP_kernelViolation_eq_zero {is : List Invocation} (h : ∀ i ∈ is, i.userMode = true) :
    (faultRun t is).2.countP kernelViolation = 0 := by
  induction is generalizing t with
  | nil => rfl
  | cons i is ih =>
    rw [faultRun_cons, List.countP_cons_of_neg, ih fun j hj => h j (List.mem_cons_of_mem _ hj)]
    simp [kernelViolation, h i (List.mem_cons_self ..)]

end Count

/-- While a task is traced, its count grows by the number of signals that are forced for writes of
data to areas without write permission, and by the number of such writes by the kernel. In user
mode these are the signals alone. Each invocation adds at most one. -/
theorem wcounts_counts_violations {t : TaskStruct} (h : t.traceFlag = 1) (is : List Invocation) :
    (faultRun t is).1.wcounts = t.wcounts +
        UInt32.ofNat ((faultRun t is).2.countP forcedForWrite +
          (faultRun t is).2.countP kernelViolation) ∧
      ((∀ i ∈ is, i.userMode = true) → (faultRun t is).1.wcounts = t.wcounts +
        UInt32.ofNat ((faultRun t is).2.countP forcedForWrite)) ∧
      ∀ i, (faultRun t (is ++ [i])).1.wcounts = (faultRun t is).1.wcounts +
          UInt32.ofNat (violations [(i, (doPageFault i (faultRun t is).1).1)]) ∧
        violations [(i, (doPageFault i (faultRun t is).1).1)] ≤ 1 := by
  have hlast : ∀ (i : Invocation) (is : List Invocation) (t : TaskStruct),
      (faultRun t (is ++ [i])).1 = (doPageFault i (faultRun t is).1).2 := by
    intro i is
    induction is with
    | nil => exact fun t => rfl
    | cons j is ih => exact fun t => by rw [List.cons_append, faultRun_cons, faultRun_cons, ih]
  refine ⟨faultRun_wcounts h is, fun huser => ?_, fun i => ?_⟩
  · rw [faultRun_wcounts h is, violations, countP_kernelViolation_eq_zero huser, Nat.add_zero]
  · rw [hlast]
    exact doPageFault_wcounts ((faultRun_traceFlag is).trans h)

/-- A page that may only be read. -/
private def readOnlyPage : Pass := { mmap := [⟨0x8000, 0x9000, vmRead⟩] }

/-- The program writes to the page. -/
private def userWrite : Invocation where
  addr := 0x8004
  fsr := 0x80f
  userMode := true
  first := readOnlyPage

/-- `copy_to_user` writes to the page, and returns an error. -/
private def copyToUser : Invocation where
  addr := 0x8004
  fsr := 0x80f
  userMode := false
  inExceptionTables := true
  fixupException := true
  first := readOnlyPage

theorem wcounts_counts_violations_readOnlyPage :
    (faultRun { traceFlag := 1 } [userWrite, copyToUser]).1.wcounts = 2 ∧
      (faultRun { traceFlag := 1 } [userWrite, copyToUser]).2.countP forcedForWrite = 1 ∧
      (faultRun { traceFlag := 1 } [userWrite, copyToUser]).2.countP kernelViolation = 1 := by
  have hcount := (wcounts_counts_violations (t := { traceFlag := 1 }) rfl
    [userWrite, copyToUser]).1
  have hforced : (faultRun { traceFlag := 1 } [userWrite, copyToUser]).2.countP forcedForWrite =
      1 := by decide
  have hkernel : (faultRun { traceFlag := 1 } [userWrite, copyToUser]).2.countP kernelViolation =
      1 := by decide
  rw [hforced, hkernel] at hcount
  exact ⟨hcount, hforced, hkernel⟩

/-- The kernel writes to the page on behalf of the task: the count grows, and the task is sent no
signal. -/
theorem not_wcounts_counts_signals :
    ¬ ∀ (t : TaskStruct) (is : List Invocation), t.traceFlag = 1 →
      (faultRun t is).1.wcounts =
        t.wcounts + UInt32.ofNat ((faultRun t is).2.countP forcedForWriteStatus) := by
  intro h
  exact absurd (h { traceFlag := 1 } [copyToUser] rfl) (by decide)

end OsProject.Trace
