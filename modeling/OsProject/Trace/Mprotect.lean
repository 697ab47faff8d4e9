import OsProject.Lib.Loop
import OsProject.Lib.Ranges
import OsProject.Trace.Syscalls

/-!
# Changing the permissions of pages

`mprotect_s` is the copy of the kernel's `mprotect` in the module. It checks its arguments, looks
the start of the range up, and walks over the areas: for each one it asks the security hook and lets
`mprotect_fixup` change the part of the area in the range. That function may split the area and
merge the parts with their neighbours, so the walk goes on after the area that `mprotect_fixup`
leaves in `prev`.

`mprotect_fixup`, `security_file_mprotect`, `arch_validate_prot` and `calc_vm_prot_bits` are
functions of the kernel outside of the repository, and parameters here. The lock of the address
space is held during the walk, so nothing else changes the areas. The `end` of the source is called
`finish`.

## Main definitions

* `AddressSpace` — the areas of an address space, in the order of their addresses.
* `MmKernel` — the functions of the kernel, and `MmKernel.Lawful` — what is relied on.
* `Cursor`, `protectLoop` — the loop of `mprotect_s`.
* `mprotectS` — the function.

Source: `start_trace.c`.
-/

namespace OsProject.Trace

/-! ### Constants -/

/-- `ENOMEM`. -/
def enomem : ℤ := 12

/-- `EACCES`. -/
def eacces : ℤ := 13

theorem neg_enomem_lt : -enomem < 0 := by decide

theorem neg_eacces_lt : -eacces < 0 := by decide

theorem neg_einval_lt : -einval < 0 := by decide

def protRead : Word := 0x1
def protExec : Word := 0x4
def protGrowsdown : Word := 0x01000000
def protGrowsup : Word := 0x02000000

/-- `VM_GROWSUP`, on an architecture where no stack grows upwards. -/
def vmGrowsup : Word := 0x0

/-- `VM_READ | VM_WRITE | VM_EXEC`. -/
def vmAccess : Word := vmRead ||| vmWrite ||| vmExec

def readImpliesExec : Word := 0x00400000

def pageMask : Word := 0xfffff000

/-- `PAGE_ALIGN`. -/
def pageAlign (len : Word) : Word := (len + 0xfff) &&& pageMask

/-! ### Address spaces -/

/-- The start of an area, as a number. -/
abbrev VmArea.lo (vma : VmArea) : ℕ := vma.vmStart.toNat

/-- The end of an area, as a number. -/
abbrev VmArea.hi (vma : VmArea) : ℕ := vma.vmEnd.toNat

/-- The areas of an address space: they are not empty, disjoint, and in the order of their
addresses. -/
structure AddressSpace where
  areas : List VmArea
  ordered : Ranges.Ordered VmArea.lo VmArea.hi areas

namespace AddressSpace

variable (mm : AddressSpace)

/-- `vm_next`. -/
def vmNext (vma : VmArea) : Option VmArea := Ranges.next VmArea.lo VmArea.hi mm.areas vma

/-- `vm_prev`. -/
def vmPrev (vma : VmArea) : Option VmArea := Ranges.prev VmArea.lo VmArea.hi mm.areas vma

/-- The flags of the area at an address, if there is one. -/
def flagsAt (a : ℕ) : Option Word :=
  (Ranges.itemAt VmArea.lo VmArea.hi mm.areas a).map VmArea.vmFlags

end AddressSpace

/-! ### The kernel -/

/-- What `mprotect_fixup` leaves: its result, the areas, and the area in `*pprev`. -/
structure Fixup where
  error : ℤ
  mm : AddressSpace
  prev : VmArea

/-- The functions of the kernel that `mprotect_s` calls. -/
structure MmKernel where
  archValidateProt : Word → Bool
  calcVmProtBits : Word → Word
  /-- `security_file_mprotect(vma, reqprot, prot)`. -/
  securityFileMprotect : VmArea → Word → Word → ℤ
  /-- `mprotect_fixup(vma, pprev, start, end, newflags)`, on the areas of `current->mm`. -/
  mprotectFixup : AddressSpace → VmArea → Option VmArea → Word → Word → Word → Fixup

/-- A call of `mprotect_fixup` for a part of an area, with the area before that part. -/
structure FixupCall (mm : AddressSpace) (vma : VmArea) (prev : Option VmArea)
    (start finish : Word) : Prop where
  mem : vma ∈ mm.areas
  start_le : vma.vmStart ≤ start
  start_lt : start < finish
  le_end : finish ≤ vma.vmEnd
  prev_eq : prev = if vma.vmStart < start then some vma else mm.vmPrev vma

/-- What `mprotect_s` relies on. The functions return zero or a negative error. If it succeeds,
`mprotect_fixup` gives the part its new flags and leaves in `*pprev` the area in which the part
ends; it changes the flags of no other address, and of none if it fails. -/
structure MmKernel.Lawful (K : MmKernel) : Prop where
  hook_nonpos : ∀ vma reqprot prot, K.securityFileMprotect vma reqprot prot ≤ 0
  fixup_nonpos : ∀ mm vma prev start finish newflags,
    (K.mprotectFixup mm vma prev start finish newflags).error ≤ 0
  fixup_flags : ∀ mm vma prev start finish newflags, FixupCall mm vma prev start finish →
    (K.mprotectFixup mm vma prev start finish newflags).error = 0 → ∀ a,
      (K.mprotectFixup mm vma prev start finish newflags).mm.flagsAt a =
        if start.toNat ≤ a ∧ a < finish.toNat then some newflags else mm.flagsAt a
  fixup_prev : ∀ mm vma prev start finish newflags, FixupCall mm vma prev start finish →
    (K.mprotectFixup mm vma prev start finish newflags).error = 0 →
      let fixup := K.mprotectFixup mm vma prev start finish newflags
      fixup.prev ∈ fixup.mm.areas ∧ fixup.prev.vmStart < finish ∧ finish ≤ fixup.prev.vmEnd
  fixup_fails : ∀ mm vma prev start finish newflags, FixupCall mm vma prev start finish →
    (K.mprotectFixup mm vma prev start finish newflags).error ≠ 0 → ∀ a,
      (K.mprotectFixup mm vma prev start finish newflags).mm.flagsAt a = mm.flagsAt a

/-! ### The loop -/

/-- The variables of the loop. The source says of them: "Here we know that
`vma->vm_start <= nstart < vma->vm_end`." -/
structure Cursor where
  mm : AddressSpace
  vma : VmArea
  prev : Option VmArea
  nstart : Word
  finish : Word
  mem : vma ∈ mm.areas
  start_le : vma.vmStart ≤ nstart
  lt_end : nstart < vma.vmEnd
  lt_finish : nstart < finish

/-- The protection that is asked for, before and after the adjustment to the personality, and its
flags. -/
structure Protection where
  reqprot : Word
  prot : Word
  vmFlags : Word

/-- The flags of an area that had the flags `f`. -/
def Protection.newflags (p : Protection) (f : Word) : Word := p.vmFlags ||| (f &&& ~~~vmAccess)

/-- The new flags of an area that had the flags `f` are among those it may get. -/
def Protection.Permitted (p : Protection) (f : Word) : Prop :=
  (p.newflags f &&& ~~~(p.newflags f >>> 4)) &&& vmAccess = 0

instance (p : Protection) (f : Word) : Decidable (p.Permitted f) :=
  inferInstanceAs (Decidable (_ = _))

namespace Cursor

variable (K : MmKernel) (p : Protection) (c : Cursor)

/-- The end of the part of the area that is in the range. -/
def tmp : Word := if c.finish < c.vma.vmEnd then c.finish else c.vma.vmEnd

/-- The result of the security hook for the area. -/
def hook : ℤ := K.securityFileMprotect c.vma p.reqprot p.prot

/-- The call of `mprotect_fixup` for the area. -/
def fixup : Fixup :=
  K.mprotectFixup c.mm c.vma c.prev c.nstart c.tmp (p.newflags c.vma.vmFlags)

/-- The value of `nstart` after the call of `mprotect_fixup`. -/
def nstartNext : Word :=
  if c.tmp < (c.fixup K p).prev.vmEnd then (c.fixup K p).prev.vmEnd else c.tmp

theorem nstart_lt_tmp : c.nstart < c.tmp := by
  rw [tmp]
  split
  · exact c.lt_finish
  · exact c.lt_end

theorem tmp_le_finish : c.tmp ≤ c.finish := by
  rw [tmp]
  split
  · exact BitVec.le_refl _
  · next h => exact BitVec.not_lt.mp h

theorem tmp_le_nstartNext : c.tmp ≤ c.nstartNext K p := by
  rw [nstartNext]
  split
  · next h => exact BitVec.le_of_lt h
  · exact BitVec.le_refl _

theorem nstart_lt_nstartNext : c.nstart < c.nstartNext K p := by
  have h₁ := c.nstart_lt_tmp
  have h₂ := c.tmp_le_nstartNext K p
  rw [BitVec.lt_def] at *
  rw [BitVec.le_def] at h₂
  omega

end Cursor

theorem AddressSpace.vmStart_lt_vmEnd (mm : AddressSpace) {vma : VmArea} (h : vma ∈ mm.areas) :
    vma.vmStart < vma.vmEnd := mm.ordered.lo_lt_hi h

theorem AddressSpace.mem_of_vmNext {mm : AddressSpace} {prev vma : VmArea}
    (h : mm.vmNext prev = some vma) : vma ∈ mm.areas := Ranges.mem_of_next h

/-- A pass of the loop. -/
def protectBody (K : MmKernel) (p : Protection) (c : Cursor) : (ℤ × AddressSpace) ⊕ Cursor :=
  if ¬p.Permitted c.vma.vmFlags then .inl (-eacces, c.mm)
  else if c.hook K p ≠ 0 then .inl (c.hook K p, c.mm)
  else if (c.fixup K p).error ≠ 0 then .inl ((c.fixup K p).error, (c.fixup K p).mm)
  else if hf : c.finish ≤ c.nstartNext K p then .inl (0, (c.fixup K p).mm)
  else
    match hv : (c.fixup K p).mm.vmNext (c.fixup K p).prev with
    | none => .inl (-enomem, (c.fixup K p).mm)
    | some vma =>
      if hs : vma.vmStart ≠ c.nstartNext K p then .inl (-enomem, (c.fixup K p).mm)
      else .inr
        { mm := (c.fixup K p).mm
          vma := vma
          prev := some (c.fixup K p).prev
          nstart := c.nstartNext K p
          finish := c.finish
          mem := AddressSpace.mem_of_vmNext hv
          start_le := by rw [not_not.mp hs]; exact BitVec.le_refl _
          lt_end := not_not.mp hs ▸ AddressSpace.vmStart_lt_vmEnd _ (AddressSpace.mem_of_vmNext hv)
          lt_finish := BitVec.not_le.mp hf }

/-- A pass that is followed by another one: all its checks succeed, and the next area starts where
the area that `mprotect_fixup` leaves ends. -/
theorem protectBody_eq_inr {K : MmKernel} {p : Protection} {c d : Cursor}
    (h : protectBody K p c = .inr d) :
    p.Permitted c.vma.vmFlags ∧ c.hook K p = 0 ∧ (c.fixup K p).error = 0 ∧
      d.mm = (c.fixup K p).mm ∧ d.mm.vmNext (c.fixup K p).prev = some d.vma ∧
      d.prev = some (c.fixup K p).prev ∧ d.nstart = c.nstartNext K p ∧ d.vma.vmStart = d.nstart ∧
      d.finish = c.finish := by
  unfold protectBody at h
  split_ifs at h with hperm hhook herror hf
  split at h
  · cases h
  · next vma hv =>
    split_ifs at h with hs
    cases h
    exact ⟨hperm, not_not.mp hhook, not_not.mp herror, rfl, hv, rfl, rfl,
      not_not.mp hs, rfl⟩

/-- The loop over the areas. Every pass moves `nstart` towards the end of the range. -/
def protectLoop (K : MmKernel) (p : Protection) : Loop Cursor (ℤ × AddressSpace) where
  body := protectBody K p
  bound c := c.finish.toNat - c.nstart.toNat
  bound_lt c d h := by
    obtain ⟨-, -, -, -, -, -, hnstart, -, hfinish⟩ := protectBody_eq_inr h
    have hlt := c.nstart_lt_nstartNext K p
    have hd := d.lt_finish
    rw [hnstart, hfinish] at *
    rw [BitVec.lt_def] at *
    omega

/-! ### The function -/

/-- The variables of the first pass, or the error if there is none. -/
def firstCursor (mm : AddressSpace) (grows start finish : Word) (hlt : start < finish) :
    ℤ ⊕ Cursor :=
  match hv : findVma mm.areas start with
  | none => .inl (-enomem)
  | some vma =>
    have hmem : vma ∈ mm.areas := List.mem_of_find?_eq_some hv
    have hend : start < vma.vmEnd := by simpa using List.find?_some hv
    if grows &&& protGrowsdown ≠ 0 then
      if hf : finish ≤ vma.vmStart then .inl (-enomem)
      else if vma.vmFlags &&& vmGrowsdown = 0 then .inl (-einval)
      else .inr
        { mm := mm
          vma := vma
          prev := mm.vmPrev vma
          nstart := vma.vmStart
          finish := finish
          mem := hmem
          start_le := BitVec.le_refl _
          lt_end := mm.vmStart_lt_vmEnd hmem
          lt_finish := BitVec.not_le.mp hf }
    else if hs : start < vma.vmStart then .inl (-enomem)
    else if grows &&& protGrowsup ≠ 0 ∧ vma.vmFlags &&& vmGrowsup = 0 then .inl (-einval)
    else .inr
      { mm := mm
        vma := vma
        prev := if vma.vmStart < start then some vma else mm.vmPrev vma
        nstart := start
        finish := if grows &&& protGrowsup ≠ 0 then vma.vmEnd else finish
        mem := hmem
        start_le := BitVec.not_lt.mp hs
        lt_end := hend
        lt_finish := by split_ifs <;> assumption }

/-- The walk over the areas of the range: from `find_vma` to the end. -/
def protectWalk (K : MmKernel) (p : Protection) (mm : AddressSpace) (grows start finish : Word)
    (hlt : start < finish) : ℤ × AddressSpace :=
  match firstCursor mm grows start finish hlt with
  | .inl error => (error, mm)
  | .inr c => (protectLoop K p).run c

/-- `prot` after the adjustment to a personality in which readable pages are executable. -/
def adjustProt (personality prot : Word) : Word :=
  if prot &&& protRead ≠ 0 ∧ personality &&& readImpliesExec ≠ 0 then prot ||| protExec else prot

/-- The protection asked for by `prot`. -/
def protectionOf (K : MmKernel) (personality prot : Word) : Protection where
  reqprot := prot
  prot := adjustProt personality prot
  vmFlags := K.calcVmProtBits (adjustProt personality prot)

/-- `mprotect_s`, called by a task with the areas `mm` and the given personality. -/
def mprotectS (K : MmKernel) (mm : AddressSpace) (personality start len prot : Word) :
    ℤ × AddressSpace :=
  let grows := prot &&& (protGrowsdown ||| protGrowsup)
  let prot := prot &&& ~~~(protGrowsdown ||| protGrowsup)
  if grows = protGrowsdown ||| protGrowsup then (-einval, mm)
  else if start &&& ~~~pageMask ≠ 0 then (-einval, mm)
  else if len = 0 then (0, mm)
  else if hlt : start + pageAlign len ≤ start then (-enomem, mm)
  else if K.archValidateProt prot = false then (-einval, mm)
  else
    protectWalk K (protectionOf K personality prot) mm grows start (start + pageAlign len)
      (BitVec.not_le.mp hlt)

end OsProject.Trace
