import OsProject.Sched.Types

/-!
# Page faults and the count of traced writes

`do_page_fault` looks the faulting address up in the areas of the address space, at most twice, and
ends in one of a few ways: the fault is handled, the task is sent a signal, or, in kernel mode, the
exception table or an oops takes over. On the way `access_error` checks the permissions of the area
and counts the write to an area without write permission if the task is traced.

An `Invocation` has what the kernel around `do_page_fault` decides: the registers, the areas at each
pass, and the results of the functions that are not in the repository. Statistics of faults, the
registers saved for debuggers and the kernel log are left out. `CONFIG_DEBUG_VM` is off, as in
`goldfish_armv7_defconfig`.

## Main definitions

* `VmArea`, `Pass`, `Invocation` — an invocation of `do_page_fault` and what it sees.
* `accessError`, `doPageFaultLocked`, `doPageFault` — the functions of `fault.c`.
* `Invocation.writeViolation` — the invocation checks a write to an area without write permission.

## Main results

* `doPageFault_snd` — the task after an invocation.
* `signalsWriteViolation_iff` — the invocations that force a `SIGSEGV` for a write violation.

Source: `arch/arm/mm/fault.c`.
-/

namespace OsProject.Trace

open Sched (TaskStruct)

/-- An `unsigned int`, and an `unsigned long` of the target. -/
abbrev Word := BitVec 32

/-! ### Constants -/

/-- The fault status of a write. -/
def fsrWrite : Word := 0x800

/-- The flag that `do_PrefetchAbort` adds to the fault status and `do_DataAbort` clears. -/
def fsrLnxPf : Word := 0x80000000

def vmRead : Word := 0x1
def vmWrite : Word := 0x2
def vmExec : Word := 0x4
def vmGrowsdown : Word := 0x100

def firstUserAddress : Word := 0x1000

def vmFaultOom : Word := 0x1
def vmFaultSigbus : Word := 0x2
def vmFaultRetry : Word := 0x400

/-- `VM_FAULT_OOM | VM_FAULT_SIGBUS | VM_FAULT_HWPOISON | VM_FAULT_HWPOISON_LARGE`. -/
def vmFaultError : Word := 0x33

def vmFaultBadmap : Word := 0x10000
def vmFaultBadaccess : Word := 0x20000

/-- The signals that a fault may force. -/
inductive Signal
  | sigbus | sigsegv
deriving DecidableEq

/-- The codes of these signals. -/
inductive SiCode
  | busAdrerr | segvMaperr | segvAccerr
deriving DecidableEq

/-! ### Invocations -/

/-- The part of `struct vm_area_struct` that a fault reads. -/
structure VmArea where
  vmStart : Word
  vmEnd : Word
  vmFlags : Word

/-- The result of `handle_mm_fault` for a fault that it resolves. -/
def faultResolved : { fault : Word // fault &&& (vmFaultBadmap ||| vmFaultBadaccess) = 0 } :=
  ⟨0, rfl⟩

/-- What one pass through `__do_page_fault` sees: the areas of the address space, the result of
`expand_stack`, that of `handle_mm_fault`, which does not use the two bits of this architecture,
and whether a fatal signal is pending afterwards. -/
structure Pass where
  mmap : List VmArea := []
  expandStack : ℤ := 0
  handleMmFault : { fault : Word // fault &&& (vmFaultBadmap ||| vmFaultBadaccess) = 0 } :=
    faultResolved
  fatalSignalPending : Bool := false

/-- An invocation of `do_page_fault`. The second pass takes place if the first one asks for it. -/
structure Invocation where
  addr : Word
  fsr : Word
  userMode : Bool
  /-- `kprobe_running() && kprobe_fault_handler(regs, fsr)`. -/
  kprobeHandled : Bool := false
  /-- `in_atomic() || irqs_disabled()`. -/
  noFaults : Bool := false
  /-- Whether the task has an address space. -/
  hasMm : Bool := true
  /-- Whether `down_read_trylock(&mm->mmap_sem)` succeeds. -/
  trylock : Bool := true
  /-- Whether `search_exception_tables(regs->ARM_pc)` finds an entry. -/
  inExceptionTables : Bool := false
  /-- The result of `fixup_exception(regs)`. -/
  fixupException : Bool := false
  first : Pass := {}
  second : Pass := {}

/-- How an invocation ends, when it does not just return: with the out-of-memory killer, with a
signal to the task, or in `__do_kernel_fault`, by the exception table or an oops. -/
inductive Outcome
  | handled
  | outOfMemory
  | signal (sig : Signal) (code : SiCode)
  | fixedUp
  | oops
deriving DecidableEq

/-! ### The functions of `fault.c` -/

/-- `find_vma`: the first area that ends above the address. -/
def findVma (mmap : List VmArea) (addr : Word) : Option VmArea :=
  mmap.find? fun vma => addr < vma.vmEnd

/-- The permissions of which `access_error` wants one. -/
def accessMask (fsr : Word) : Word :=
  let mask := vmRead ||| vmWrite ||| vmExec
  let mask := if fsr &&& fsrWrite ≠ 0 then vmWrite else mask
  if fsr &&& fsrLnxPf ≠ 0 then vmExec else mask

def accessError (fsr : Word) (vma : VmArea) (current : TaskStruct) : Bool × TaskStruct :=
  if vma.vmFlags &&& accessMask fsr ≠ 0 then (false, current)
  else if vma.vmFlags &&& vmWrite = 0 ∧ accessMask fsr = vmWrite ∧ current.traceFlag = 1 then
    (true, { current with wcounts := current.wcounts + 1 })
  else (true, current)

/-- The area that `__do_page_fault` comes to at the label `good_area`, if any: the one that
`find_vma` finds, when it contains the address or is a stack that can be expanded down to it. -/
def goodArea (addr : Word) (p : Pass) : Option VmArea :=
  match findVma p.mmap addr with
  | none => none
  | some vma =>
    if addr < vma.vmStart then
      -- the label `check_stack`
      if vma.vmFlags &&& vmGrowsdown ≠ 0 ∧ firstUserAddress ≤ addr ∧ p.expandStack = 0 then some vma
      else none
    else some vma

/-- `__do_page_fault`, which runs with the lock of the address space. -/
def doPageFaultLocked (addr fsr : Word) (p : Pass) (current : TaskStruct) : Word × TaskStruct :=
  match goodArea addr p with
  | none => (vmFaultBadmap, current)
  | some vma =>
    let (error, current) := accessError fsr vma current
    if error then (vmFaultBadaccess, current) else (p.handleMmFault, current)

def notifyPageFault (i : Invocation) : Bool := !i.userMode && i.kprobeHandled

def doKernelFault (i : Invocation) : Outcome := if i.fixupException then .fixedUp else .oops

/-- How a pass of `do_page_fault` ends: with a return, at the label `retry`, or below the loop. -/
inductive PassEnd
  | done
  | retry
  | fault (fault : Word)

/-- One pass of `do_page_fault`; only the first one allows a retry. -/
def faultPass (i : Invocation) (p : Pass) (allowRetry : Bool) (current : TaskStruct) :
    PassEnd × TaskStruct :=
  let (fault, current) := doPageFaultLocked i.addr i.fsr p current
  if fault &&& vmFaultRetry ≠ 0 ∧ p.fatalSignalPending then (.done, current)
  else if fault &&& vmFaultError = 0 ∧ allowRetry ∧ fault &&& vmFaultRetry ≠ 0 then
    (.retry, current)
  else (.fault fault, current)

/-- The part of `do_page_fault` after the passes. -/
def faultEnd (i : Invocation) (fault : Word) : Outcome :=
  if fault &&& (vmFaultError ||| vmFaultBadmap ||| vmFaultBadaccess) = 0 then .handled
  else if fault &&& vmFaultOom ≠ 0 then .outOfMemory
  else if !i.userMode then doKernelFault i
  else if fault &&& vmFaultSigbus ≠ 0 then .signal .sigbus .busAdrerr
  else .signal .sigsegv (if fault = vmFaultBadaccess then .segvAccerr else .segvMaperr)

/-- The faults that `do_page_fault` does not look up, and how they end. -/
def faultEarly (i : Invocation) : Option Outcome :=
  if notifyPageFault i then some .handled
  else if i.noFaults ∨ !i.hasMm then some (doKernelFault i)
  else if !i.trylock ∧ !i.userMode ∧ !i.inExceptionTables then some (doKernelFault i)
  else none

def doPageFault (i : Invocation) (current : TaskStruct) : Outcome × TaskStruct :=
  match faultEarly i with
  | some outcome => (outcome, current)
  | none =>
    match faultPass i i.first true current with
    | (.done, current) => (.handled, current)
    | (.fault fault, current) => (faultEnd i fault, current)
    | (.retry, current) =>
      match faultPass i i.second false current with
      | (.fault fault, current) => (faultEnd i fault, current)
      | (_, current) => (.handled, current)

/-! ### Write violations -/

/-- The fault status is that of a write of data, not of a prefetch. -/
def writeAccess (fsr : Word) : Bool := fsr &&& fsrWrite ≠ 0 ∧ fsr &&& fsrLnxPf = 0

/-- A pass comes to an area without write permission, for a write. -/
def Pass.writeViolation (addr fsr : Word) (p : Pass) : Bool :=
  match goodArea addr p with
  | none => false
  | some vma => writeAccess fsr ∧ vma.vmFlags &&& vmWrite = 0

/-- A pass comes to an area that permits the access, and `handle_mm_fault` asks for a retry. -/
def Pass.asksRetry (addr fsr : Word) (p : Pass) : Bool :=
  match goodArea addr p with
  | none => false
  | some vma => vma.vmFlags &&& accessMask fsr ≠ 0 ∧
      (p.handleMmFault : Word) &&& vmFaultRetry ≠ 0 ∧
      (p.handleMmFault : Word) &&& vmFaultError = 0 ∧ !p.fatalSignalPending

/-- An invocation comes to an area without write permission, for a write, in one of its passes. -/
def Invocation.writeViolation (i : Invocation) : Bool :=
  (faultEarly i).isNone ∧ (i.first.writeViolation i.addr i.fsr ∨
    (i.first.asksRetry i.addr i.fsr ∧ i.second.writeViolation i.addr i.fsr))

/-- Count a write, if the task is traced. -/
def countWrite (t : TaskStruct) : TaskStruct :=
  if t.traceFlag = 1 then { t with wcounts := t.wcounts + 1 } else t

@[simp] theorem countWrite_traceFlag (t : TaskStruct) : (countWrite t).traceFlag = t.traceFlag := by
  rw [countWrite]
  split <;> rfl

theorem countWrite_wcounts {t : TaskStruct} (h : t.traceFlag = 1) :
    (countWrite t).wcounts = t.wcounts + 1 := by
  rw [countWrite, if_pos h]

theorem accessMask_eq_vmWrite_iff {fsr : Word} :
    accessMask fsr = vmWrite ↔ writeAccess fsr = true := by
  have hexec : vmExec ≠ vmWrite := by decide
  have hall : vmRead ||| vmWrite ||| vmExec ≠ vmWrite := by decide
  by_cases hpf : fsr &&& fsrLnxPf = 0#32
  · by_cases hw : fsr &&& fsrWrite = 0#32
    · simp [accessMask, writeAccess, hpf, hw, hall]
    · simp [accessMask, writeAccess, hpf, hw]
  · simp [accessMask, writeAccess, hpf, hexec]

section Pass

variable {addr fsr : Word} {p : Pass} {i : Invocation} (t : TaskStruct)

/-- A write violation ends in a bad access and is counted. -/
theorem doPageFaultLocked_of_violation (h : p.writeViolation addr fsr = true) :
    doPageFaultLocked addr fsr p t = (vmFaultBadaccess, countWrite t) := by
  cases harea : goodArea addr p with
  | none => simp [Pass.writeViolation, harea] at h
  | some vma =>
    obtain ⟨hw, hflags⟩ : writeAccess fsr = true ∧ vma.vmFlags &&& vmWrite = 0 := by
      simpa [Pass.writeViolation, harea] using h
    have hmask : accessMask fsr = vmWrite := accessMask_eq_vmWrite_iff.mpr hw
    have herror : accessError fsr vma t = (true, countWrite t) := by
      rw [accessError, hmask, if_neg (not_not.mpr hflags), countWrite]
      by_cases ht : t.traceFlag = 1
      · rw [if_pos ⟨hflags, rfl, ht⟩, if_pos ht]
      · rw [if_neg fun h => ht h.2.2, if_neg ht]
    simp only [doPageFaultLocked, harea, herror, if_true]

/-- Without a write violation nothing is counted, and a bad access is not a write. -/
theorem doPageFaultLocked_of_not_violation (h : p.writeViolation addr fsr = false) :
    (doPageFaultLocked addr fsr p t).2 = t ∧
      ((doPageFaultLocked addr fsr p t).1 = vmFaultBadaccess → writeAccess fsr = false) := by
  cases harea : goodArea addr p with
  | none =>
    simp only [doPageFaultLocked, harea, true_and]
    exact fun hbad => absurd hbad (by decide)
  | some vma =>
    have hnot : ¬(writeAccess fsr = true ∧ vma.vmFlags &&& vmWrite = 0) := by
      simpa [Pass.writeViolation, harea] using h
    by_cases hflags : vma.vmFlags &&& accessMask fsr = 0
    · have hw : writeAccess fsr = false := Bool.eq_false_iff.mpr fun hw =>
        hnot ⟨hw, by rwa [accessMask_eq_vmWrite_iff.mpr hw] at hflags⟩
      have hmask : accessMask fsr ≠ vmWrite := fun he => by
        rw [accessMask_eq_vmWrite_iff.mp he] at hw
        cases hw
      have herror : accessError fsr vma t = (true, t) := by
        rw [accessError, if_neg (not_not.mpr hflags), if_neg fun h => hmask h.2.1]
      simp [doPageFaultLocked, harea, herror, hw]
    · have herror : accessError fsr vma t = (false, t) := by
        rw [accessError, if_pos hflags]
      simp only [doPageFaultLocked, harea, herror]
      refine ⟨rfl, fun hbad => ?_⟩
      have hbits : (p.handleMmFault : Word) &&& (vmFaultBadmap ||| vmFaultBadaccess) = 0 :=
        p.handleMmFault.2
      have hbad : (p.handleMmFault : Word) = vmFaultBadaccess := hbad
      rw [hbad] at hbits
      exact absurd hbits (by decide)

/-- A pass with a write violation ends below the loop. -/
theorem faultPass_of_violation (h : p.writeViolation i.addr i.fsr = true) (allowRetry : Bool) :
    faultPass i p allowRetry t = (.fault vmFaultBadaccess, countWrite t) := by
  have hretry : vmFaultBadaccess &&& vmFaultRetry = 0 := by decide
  simp only [faultPass, doPageFaultLocked_of_violation t h, hretry]
  simp

theorem faultPass_of_not_violation (h : p.writeViolation i.addr i.fsr = false)
    (allowRetry : Bool) : (faultPass i p allowRetry t).2 = t ∧
      ((faultPass i p allowRetry t).1 = .fault vmFaultBadaccess → writeAccess i.fsr = false) := by
  obtain ⟨ht, hbad⟩ := doPageFaultLocked_of_not_violation t h
  rw [faultPass]
  dsimp only
  split_ifs
  · exact ⟨ht, nofun⟩
  · exact ⟨ht, nofun⟩
  · exact ⟨ht, fun he => hbad (PassEnd.fault.inj he)⟩

/-- The first pass asks for a retry when the area permits the access. -/
theorem faultPass_retry_iff : (faultPass i p true t).1 = .retry ↔
    p.asksRetry i.addr i.fsr = true := by
  have hmap : vmFaultBadmap &&& vmFaultRetry = 0 := by decide
  have hbad : vmFaultBadaccess &&& vmFaultRetry = 0 := by decide
  cases harea : goodArea i.addr p with
  | none => simp [faultPass, doPageFaultLocked, Pass.asksRetry, harea, hmap]
  | some vma =>
    by_cases hflags : vma.vmFlags &&& accessMask i.fsr = 0
    · have herror : (accessError i.fsr vma t).1 = true := by
        rw [accessError, if_neg (not_not.mpr hflags)]
        split <;> rfl
      simp [faultPass, doPageFaultLocked, Pass.asksRetry, harea, hflags, herror, hbad]
    · have herror : accessError i.fsr vma t = (false, t) := by rw [accessError, if_pos hflags]
      simp only [faultPass, doPageFaultLocked, Pass.asksRetry, harea, herror]
      generalize (p.handleMmFault : Word) = fault
      by_cases hretry : fault &&& vmFaultRetry = 0#32
      · simp [hretry]
      · cases p.fatalSignalPending
        · by_cases herr : fault &&& vmFaultError = 0#32
          · have hflags : ¬vma.vmFlags &&& accessMask i.fsr = 0#32 := hflags
            simp [hretry, herr, hflags]
          · simp [herr]
        · simp [hretry]

end Pass

/-! ### Invocations -/

section Invocation

variable (i : Invocation) (t : TaskStruct)

/-- The way a bad access ends. -/
theorem faultEnd_badaccess :
    faultEnd i vmFaultBadaccess =
      if i.userMode then .signal .sigsegv .segvAccerr else doKernelFault i := by
  have hbits : vmFaultBadaccess &&& (vmFaultError ||| vmFaultBadmap ||| vmFaultBadaccess) ≠ 0 := by
    decide
  have hoom : vmFaultBadaccess &&& vmFaultOom = 0 := by decide
  have hbus : vmFaultBadaccess &&& vmFaultSigbus = 0 := by decide
  rw [faultEnd, if_neg hbits, if_neg (not_not.mpr hoom), if_neg (not_not.mpr hbus), if_pos rfl]
  cases i.userMode <;> rfl

/-- Only a bad access in user mode ends in this signal. -/
theorem eq_badaccess_of_faultEnd {fault : Word}
    (h : faultEnd i fault = .signal .sigsegv .segvAccerr) : fault = vmFaultBadaccess := by
  rw [faultEnd] at h
  split_ifs at h with _ _ _ _ hbad
  · rw [doKernelFault] at h
    split at h <;> cases h
  · cases h
  · exact hbad
  · cases h

theorem faultEarly_ne_signal {o : Outcome} (h : faultEarly i = some o) :
    o ≠ .signal .sigsegv .segvAccerr := by
  have hkernel : doKernelFault i ≠ .signal .sigsegv .segvAccerr := by
    rw [doKernelFault]
    split <;> decide
  rw [faultEarly] at h
  split_ifs at h
  all_goals
    obtain rfl := Option.some.inj h
  · decide
  · exact hkernel
  · exact hkernel

/-- An invocation with a write violation counts it, and sends the signal in user mode. -/
theorem doPageFault_of_violation (h : i.writeViolation = true) :
    doPageFault i t =
      (if i.userMode then .signal .sigsegv .segvAccerr else doKernelFault i, countWrite t) := by
  obtain ⟨hearly, hpass⟩ : (faultEarly i).isNone = true ∧
      (i.first.writeViolation i.addr i.fsr = true ∨
        (i.first.asksRetry i.addr i.fsr = true ∧ i.second.writeViolation i.addr i.fsr = true)) := by
    simpa [Invocation.writeViolation] using h
  rw [doPageFault, Option.isNone_iff_eq_none.mp hearly]
  dsimp only
  by_cases hfirst : i.first.writeViolation i.addr i.fsr = true
  · rw [faultPass_of_violation t hfirst]
    dsimp only
    rw [faultEnd_badaccess]
  · obtain ⟨hasks, hsecond⟩ := hpass.resolve_left hfirst
    have hretry : faultPass i i.first true t = (.retry, t) :=
      Prod.ext ((faultPass_retry_iff t).mpr hasks)
        (faultPass_of_not_violation t (Bool.eq_false_iff.mpr hfirst) true).1
    rw [hretry]
    dsimp only
    rw [faultPass_of_violation t hsecond]
    dsimp only
    rw [faultEnd_badaccess]

/-- An invocation without one counts nothing, and does not send the signal for a write. -/
theorem doPageFault_of_not_violation (h : i.writeViolation = false) :
    (doPageFault i t).2 = t ∧
      ((doPageFault i t).1 = .signal .sigsegv .segvAccerr → writeAccess i.fsr = false) := by
  rw [doPageFault]
  cases hearly : faultEarly i with
  | some o => exact ⟨rfl, fun ho => absurd ho (faultEarly_ne_signal i hearly)⟩
  | none =>
    have hpass : ¬(i.first.writeViolation i.addr i.fsr = true ∨
        (i.first.asksRetry i.addr i.fsr = true ∧
          i.second.writeViolation i.addr i.fsr = true)) := by
      simpa [Invocation.writeViolation, hearly] using h
    obtain ⟨hfirst, hsecond⟩ := not_or.mp hpass
    obtain ⟨ht, hbad⟩ := faultPass_of_not_violation t (Bool.eq_false_iff.mpr hfirst) true
    dsimp only
    rcases hend : faultPass i i.first true t with ⟨_ | _ | fault, t'⟩
    · rw [hend] at ht
      exact ⟨ht, nofun⟩
    · -- the second pass sees the areas anew
      have hasks : i.first.asksRetry i.addr i.fsr = true :=
        (faultPass_retry_iff t).mp (by rw [hend])
      obtain rfl : t' = t := by rwa [hend] at ht
      obtain ⟨ht', hbad'⟩ := faultPass_of_not_violation t'
        (Bool.eq_false_iff.mpr fun hv => hsecond ⟨hasks, hv⟩) false
      dsimp only
      split
      · next fault t'' heq =>
        rw [heq] at ht' hbad'
        exact ⟨ht', fun hs => hbad' (by rw [eq_badaccess_of_faultEnd i hs])⟩
      · next t'' _ heq =>
        rw [heq] at ht'
        exact ⟨ht', nofun⟩
    · rw [hend] at ht hbad
      exact ⟨ht, fun hs => hbad (by rw [eq_badaccess_of_faultEnd i hs])⟩

/-- The task after an invocation. -/
theorem doPageFault_snd :
    (doPageFault i t).2 = if i.writeViolation then countWrite t else t := by
  cases h : i.writeViolation with
  | true => rw [doPageFault_of_violation i t h, if_pos rfl]
  | false => rw [(doPageFault_of_not_violation i t h).1, if_neg Bool.false_ne_true]

/-- An invocation forces a `SIGSEGV` with code `SEGV_ACCERR` for a write exactly when it comes to
an area without write permission in user mode. -/
theorem signalsWriteViolation_iff :
    ((doPageFault i t).1 = .signal .sigsegv .segvAccerr ∧ writeAccess i.fsr = true) ↔
      i.writeViolation = true ∧ i.userMode = true := by
  cases h : i.writeViolation with
  | true =>
    have hw : writeAccess i.fsr = true := by
      by_contra hw
      have hp : ∀ p : Pass, p.writeViolation i.addr i.fsr = false := fun p => by
        rw [Pass.writeViolation]
        split
        · rfl
        · simp [hw]
      simp [Invocation.writeViolation, hp] at h
    rw [doPageFault_of_violation i t h]
    cases i.userMode with
    | true => simp [hw]
    | false =>
      simp only [Bool.false_eq_true, if_false, and_false, iff_false, not_and]
      rw [doKernelFault]
      split <;> nofun
  | false =>
    obtain ⟨-, hsig⟩ := doPageFault_of_not_violation i t h
    refine ⟨fun hs => ?_, nofun⟩
    rw [hsig hs.1] at hs
    exact absurd hs.2 Bool.false_ne_true

end Invocation

end OsProject.Trace
