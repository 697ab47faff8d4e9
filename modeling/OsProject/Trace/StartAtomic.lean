import OsProject.Trace.Protection
import OsProject.Trace.Session

/-!
# Failed calls of `sys_start_trace`

`sys_start_trace` sets `trace_flag` and clears `wcounts` before it calls `mprotect_s`, and does not
take this back if `mprotect_s` fails. A call that fails there leaves the caller traced, so the next
call is rejected; a call that fails earlier changes nothing.

## Main definitions

* `startTrace` — `sys_start_trace` with its call of `mprotect_s`.
* `Protectable` — nothing stands against the protection of the range.
* `Atomic` — a failed call leaves the trace of the caller as it was.

## Main results

* `mprotectS_nonneg_iff` — when `mprotect_s` does not fail.
* `startTrace_atomic_iff`.

Source: `start_trace.c`.
-/

namespace OsProject.Trace

variable {τ : Type*} [DecidableEq τ]

/-- `sys_start_trace`, called by the task `current` with the areas `mm` and the given
personality. -/
def startTrace (K : MmKernel) (m : Tasks τ) (mm : AddressSpace) (personality : Word) (current : τ)
    (pid : ℤ) (start size : Word) : ℤ × Tasks τ × AddressSpace :=
  match m.pidTask pid with
  | none => (-1, m, mm)
  | some tsk =>
    if m.pid tsk ≠ m.pid current then (-1, m, mm)
    else if (m.task tsk).traceFlag = 1 then (-einval, m, mm)
    else
      let m := m.modify tsk startedTask
      let (error, mm) := mprotectS K mm personality start size protRead
      if error < 0 then (-1, m, mm) else (0, m, mm)

/-- A call that returns a negative value leaves the fields of the caller as they were. -/
def Atomic (m : Tasks τ) (current : τ) (r : ℤ × Tasks τ × AddressSpace) : Prop :=
  r.1 < 0 → (r.2.1.task current).traceFlag = (m.task current).traceFlag ∧
    (r.2.1.task current).wcounts = (m.task current).wcounts

/-- Nothing stands against the protection of the range: its start is aligned, it is empty or does
not wrap around and is mapped throughout, by areas that may get the protection, and neither the
hook nor `mprotect_fixup` fails for an area of the walk. -/
def Protectable (K : MmKernel) (mm : AddressSpace) (personality start size : Word) : Prop :=
  start &&& ~~~pageMask = 0 ∧
    (size = 0 ∨ ∃ hlt : start < start + pageAlign size,
      K.archValidateProt protRead = true ∧
      MayProtect (protectionOf K personality protRead) mm start (start + pageAlign size) ∧
      ∀ c, firstCursor mm 0 start (start + pageAlign size) hlt = .inr c →
        Grants K (protectionOf K personality protRead) c)

/-- With the results of the call of `mprotect_s` as an input, this is `sys_start_trace`. -/
theorem startTrace_eq (K : MmKernel) (m : Tasks τ) (mm : AddressSpace) (personality : Word)
    (current : τ) (pid : ℤ) (start size : Word) :
    ((startTrace K m mm personality current pid start size).1,
      (startTrace K m mm personality current pid start size).2.1) =
      sysStartTrace m current pid (mprotectS K mm personality start size protRead).1 := by
  unfold startTrace sysStartTrace
  cases m.pidTask pid with
  | none => rfl
  | some tsk =>
    dsimp only
    split_ifs <;> rfl

section Protect

variable {K : MmKernel} {mm : AddressSpace} {personality start size : Word}

theorem zero_and_protGrowsdown : (0 : Word) &&& protGrowsdown = 0 := by decide

theorem zero_and_protGrowsup : (0 : Word) &&& protGrowsup = 0 := by decide

/-- The first pass of the walk, for a protection without `PROT_GROWSDOWN` and `PROT_GROWSUP`. -/
theorem firstCursor_eq_inr {finish : Word} {hlt : start < finish} {c : Cursor}
    (h : firstCursor mm 0 start finish hlt = .inr c) :
    c.mm = mm ∧ c.nstart = start ∧ c.finish = finish ∧ c.PrevOk := by
  unfold firstCursor at h
  split at h
  · cases h
  · next vma hv =>
    simp only [zero_and_protGrowsdown, zero_and_protGrowsup, ne_eq, not_true_eq_false, if_false,
      false_and] at h
    split at h
    · cases h
    · cases h
      exact ⟨rfl, rfl, rfl, rfl⟩

/-- The walk has no first pass only if no area covers the start of the range. -/
theorem firstCursor_eq_inl {finish : Word} {hlt : start < finish} {error : ℤ}
    (h : firstCursor mm 0 start finish hlt = .inl error) :
    error = -enomem ∧ mm.flagsAt start.toNat = none := by
  unfold firstCursor at h
  rw [AddressSpace.flagsAt_eq_none_iff]
  split at h
  · next hv =>
    cases h
    exact ⟨rfl, fun vma hvma => Ranges.Ordered.not_covers_of_find?_eq_none hv hvma⟩
  · next vma hv =>
    simp only [zero_and_protGrowsdown, zero_and_protGrowsup, ne_eq, not_true_eq_false, if_false,
      false_and] at h
    split_ifs at h with hs
    cases h
    exact ⟨rfl, fun t ht => mm.ordered.not_covers_of_lt_lo hv hs ht⟩

/-- `mprotect_s`, for a protection without `PROT_GROWSDOWN` and `PROT_GROWSUP`. -/
theorem mprotectS_protRead :
    mprotectS K mm personality start size protRead =
      if start &&& ~~~pageMask ≠ 0 then (-einval, mm)
      else if size = 0 then (0, mm)
      else if hlt : start + pageAlign size ≤ start then (-enomem, mm)
      else if K.archValidateProt protRead = false then (-einval, mm)
      else
        protectWalk K (protectionOf K personality protRead) mm 0 start (start + pageAlign size)
          (BitVec.not_le.mp hlt) := by
  have hgrows : protRead &&& (protGrowsdown ||| protGrowsup) = 0 := by decide
  have hprot : protRead &&& ~~~(protGrowsdown ||| protGrowsup) = protRead := by decide
  have hboth : ¬(0 : Word) = protGrowsdown ||| protGrowsup := by decide
  unfold mprotectS
  simp only [hgrows, hprot, hboth, if_false]

/-- The walk does not fail exactly if every address of the range is in an area that may get the
protection, and neither the hook nor `mprotect_fixup` fails. -/
theorem protectWalk_nonneg_iff (hK : K.Lawful) {p : Protection} {finish : Word}
    (hlt : start < finish) :
    0 ≤ (protectWalk K p mm 0 start finish hlt).1 ↔
      MayProtect p mm start finish ∧
        ∀ c, firstCursor mm 0 start finish hlt = .inr c → Grants K p c := by
  rw [protectWalk]
  cases hc : firstCursor mm 0 start finish hlt with
  | inl error =>
    obtain ⟨rfl, hnone⟩ := firstCursor_eq_inl hc
    refine ⟨fun h => absurd h (not_le_of_gt neg_enomem_lt), fun ⟨hmay, _⟩ => ?_⟩
    obtain ⟨f, hf, -⟩ := hmay start.toNat (le_refl _) hlt
    rw [hnone] at hf
    cases hf
  | inr c =>
    obtain ⟨hmm, hstart, hfinish, hprev⟩ := firstCursor_eq_inr hc
    have hiff := protectLoop_run_eq_zero_iff (p := p) hK hprev
    have hnonpos := protectLoop_run_nonpos (p := p) (c := c) hK
    rw [hmm, hstart, hfinish] at hiff
    simp only [Sum.inr.injEq, forall_eq']
    rw [← hiff]
    omega

/-- `mprotect_s` does not fail exactly if nothing stands against the protection. -/
theorem mprotectS_nonneg_iff (hK : K.Lawful) :
    0 ≤ (mprotectS K mm personality start size protRead).1 ↔
      Protectable K mm personality start size := by
  rw [mprotectS_protRead, Protectable]
  by_cases halign : start &&& ~~~pageMask = 0
  · rw [if_neg (not_not.mpr halign), and_iff_right halign]
    by_cases hsize : size = 0
    · rw [if_pos hsize]
      exact iff_of_true (le_refl _) (.inl hsize)
    · rw [if_neg hsize, or_iff_right hsize]
      by_cases hwrap : start + pageAlign size ≤ start
      · rw [dif_pos hwrap]
        refine iff_of_false (not_le_of_gt neg_enomem_lt) ?_
        rintro ⟨hlt, -⟩
        exact BitVec.not_lt.mpr hwrap hlt
      · have hlt : start < start + pageAlign size := BitVec.not_le.mp hwrap
        rw [dif_neg hwrap, exists_prop_of_true hlt]
        cases harch : K.archValidateProt protRead with
        | false =>
          rw [if_pos rfl]
          exact iff_of_false (not_le_of_gt neg_einval_lt) (by simp)
        | true =>
          rw [if_neg (by simp), and_iff_right rfl]
          exact protectWalk_nonneg_iff hK hlt
  · rw [if_pos halign]
    exact iff_of_false (not_le_of_gt neg_einval_lt) fun h => halign h.1

end Protect

/-- A failed call of `sys_start_trace` leaves the caller as it was exactly if it fails before it
writes, or nothing stands against the protection. -/
theorem startTrace_atomic_iff {K : MmKernel} (hK : K.Lawful) (m : Tasks τ) (mm : AddressSpace)
    (personality : Word) (current : τ) (pid : ℤ) (start size : Word) :
    Atomic m current (startTrace K m mm personality current pid start size) ↔
      m.pidTask pid ≠ some current ∨ (m.task current).traceFlag = 1 ∨
        Protectable K mm personality start size := by
  rw [← mprotectS_nonneg_iff hK, startTrace]
  cases hfind : m.pidTask pid with
  | none => simp [Atomic]
  | some tsk =>
    by_cases htsk : tsk = current
    · subst htsk
      by_cases hflag : (m.task tsk).traceFlag = 1
      · simp [hflag, Atomic]
      · by_cases herror : (mprotectS K mm personality start size protRead).1 < 0
        · simp [hflag, herror, Atomic, startedTask, Ne.symm hflag]
        · simp [hflag, herror, Atomic, not_lt.mp herror]
    · -- another task than the caller is written to, if any
      have hne : current ≠ tsk := Ne.symm htsk
      simp only [ne_eq, Option.some.injEq, htsk, not_false_eq_true, true_or, iff_true]
      split_ifs <;> simp [Atomic, Tasks.modify_task_of_ne _ _ hne]

/-- A failed call that does not leave the caller as it was leaves it traced, without its count. The
next calls are rejected. -/
theorem startTrace_of_not_atomic {K : MmKernel} {m : Tasks τ} {mm : AddressSpace}
    {personality : Word} {current : τ} {pid : ℤ} {start size : Word}
    (h : ¬Atomic m current (startTrace K m mm personality current pid start size)) :
    let m' := (startTrace K m mm personality current pid start size).2.1
    (m'.task current).traceFlag = 1 ∧ (m'.task current).wcounts = 0 ∧
      ∀ mm' personality' start' size',
        (startTrace K m' mm' personality' current pid start' size').1 = -einval := by
  unfold startTrace at h ⊢
  cases hfind : m.pidTask pid with
  | none => simp [hfind, Atomic] at h
  | some tsk =>
    simp only [hfind] at h ⊢
    split_ifs at h ⊢ with hpid hflag herror
    · simp [Atomic] at h
    · simp [Atomic] at h
    · by_cases htsk : tsk = current
      · subst htsk
        simp [startedTask, hfind]
      · simp [Atomic, Tasks.modify_task_of_ne _ _ (Ne.symm htsk)] at h
    · simp [Atomic] at h

/-- A kernel out of memory: `mprotect_fixup` succeeds only for an area that has the new flags, for
which there is nothing to do. -/
def exhaustedKernel : MmKernel where
  archValidateProt _ := true
  calcVmProtBits prot := prot &&& vmAccess
  securityFileMprotect _ _ _ := 0
  mprotectFixup mm vma _ _ _ newflags :=
    ⟨if newflags = vma.vmFlags then 0 else -enomem, mm, vma⟩

theorem exhaustedKernel_lawful : exhaustedKernel.Lawful where
  hook_nonpos _ _ _ := le_refl _
  fixup_nonpos mm vma prev start finish newflags := by
    change (if newflags = vma.vmFlags then 0 else -enomem) ≤ 0
    split
    · exact le_refl _
    · exact neg_enomem_lt.le
  fixup_flags mm vma prev start finish newflags hcall herror a := by
    have hflags : newflags = vma.vmFlags := by
      by_contra hne
      exact neg_enomem_lt.ne ((if_neg hne).symm.trans herror)
    change mm.flagsAt a = _
    split
    · next ha =>
      have hstart : vma.lo ≤ start.toNat := hcall.start_le
      have hend : finish.toNat ≤ vma.hi := hcall.le_end
      rw [AddressSpace.flagsAt_of_covers hcall.mem ⟨by omega, by omega⟩, hflags]
    · rfl
  fixup_prev mm vma prev start finish newflags hcall _ := by
    have hstart : vma.vmStart.toNat ≤ start.toNat := hcall.start_le
    have hlt : start.toNat < finish.toNat := hcall.start_lt
    exact ⟨hcall.mem, BitVec.lt_def.mpr (Nat.lt_of_le_of_lt hstart hlt), hcall.le_end⟩
  fixup_fails _ _ _ _ _ _ _ _ _ := rfl

/-- Three pages that may be read, and no more. -/
def threePages : AddressSpace where
  areas := [⟨0x8000, 0xa000, 0x71⟩, ⟨0xa000, 0xb000, 0x75⟩]
  ordered := by
    refine ⟨?_, ?_⟩
    · simp [VmArea.lo, VmArea.hi]
    · simp [VmArea.lo, VmArea.hi]

/-- Two tasks with counts from an earlier trace. -/
def countedTasks : Tasks ℕ := twoTasks.modify 1 fun t => { t with wcounts := 7 }

theorem startTrace_atomic_iff_threePages :
    (Atomic countedTasks 1 (startTrace exhaustedKernel countedTasks threePages 0 1 1 0x9000 0x800) ↔
      countedTasks.pidTask 1 ≠ some 1 ∨ (countedTasks.task 1).traceFlag = 1 ∨
        Protectable exhaustedKernel threePages 0 0x9000 0x800) ∧
      Protectable exhaustedKernel threePages 0 0x9000 0x800 :=
  ⟨startTrace_atomic_iff exhaustedKernel_lawful ..,
    (mprotectS_nonneg_iff exhaustedKernel_lawful).mp (by decide +kernel)⟩

/-- The call for a range that is not aligned fails and leaves the task traced, without its count;
the call for the range as it should be is rejected after it. -/
theorem startTrace_not_atomic :
    ¬(∀ (m : Tasks ℕ) (current : ℕ) (pid : ℤ) (start size : Word), Atomic m current
      (startTrace exhaustedKernel m threePages 0 current pid start size)) ∧
      let r := startTrace exhaustedKernel countedTasks threePages 0 1 1 0x9004 0x800
      (r.2.1.task 1).traceFlag = 1 ∧ (r.2.1.task 1).wcounts = 0 ∧
        (startTrace exhaustedKernel r.2.1 r.2.2 0 1 1 0x9000 0x800).1 = -einval ∧
        (startTrace exhaustedKernel countedTasks threePages 0 1 1 0x9000 0x800).1 = 0 := by
  refine ⟨fun h => ?_, by decide +kernel, by decide +kernel, by decide +kernel, by decide +kernel⟩
  have hcall := h countedTasks 1 1 0x9004 0x800 (by decide +kernel)
  exact absurd hcall.1 (by decide +kernel)

end OsProject.Trace
