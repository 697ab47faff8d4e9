import Mathlib.Algebra.Ring.Nat
import OsProject.Trace.StartAtomic

/-!
# The range that is protected

A call of `mprotect_s` with `PROT_READ` protects the range from `start` to `start + PAGE_ALIGN(len)`,
and nothing else. The walk over the areas may change an area that reaches beyond the range only by
splitting it; where it goes on behind a merged area, the addresses in between had the protection
before. A call that fails has protected the range up to where it failed.

## Main definitions

* `MmKernel.Standard` — a lawful kernel with the protection bits of the header.
* `ProtectedTo` — the addresses up to a point are protected, and no others have changed.
* `ProtectsRange` — what a call does to its range.

## Main results

* `protectLoop_run_changedTo` — what a run of the loop changes.
* `protectLoop_run_hole` — a run of the loop fails at the first hole.
* `mprotectS_protectsRange`.

Source: `start_trace.c`.
-/

namespace OsProject.Trace

/-! ### Pages -/

/-- `PAGE_SIZE`. -/
def pageSize : ℕ := 0x1000

/-- `PAGE_ALIGN` of a length, as a number that does not wrap around. -/
def alignedLen (len : Word) : ℕ := (len.toNat + 0xfff) / pageSize * pageSize

section Pages

variable {start len : Word}

theorem toNat_and_pageMask (w : Word) : (w &&& pageMask).toNat = w.toNat / 0x1000 * 0x1000 := by
  have hmask : ∀ i : Fin 32, pageMask[i] = !decide (i.val < 12) := by decide
  have hshift : w &&& pageMask = w >>> 12 <<< 12 := by
    ext i hi
    have hi' : pageMask[i] = !decide (i < 12) := hmask ⟨i, hi⟩
    rw [BitVec.getElem_and, hi', BitVec.getElem_shiftLeft, Bool.and_comm]
    by_cases hlt : i < 12
    · simp [hlt]
    · have hadd : 12 + (i - 12) = i := by omega
      rw [BitVec.getElem_ushiftRight, hadd, BitVec.getLsbD_eq_getElem hi]
  rw [hshift, BitVec.toNat_shiftLeft, BitVec.toNat_ushiftRight, Nat.shiftLeft_eq,
    Nat.shiftRight_eq_div_pow]
  have hw := w.isLt
  omega

theorem aligned_iff : start &&& ~~~pageMask = 0 ↔ pageSize ∣ start.toNat := by
  have hmask : (~~~pageMask).toNat = 2 ^ 12 - 1 := by decide
  have hmod : (start &&& ~~~pageMask).toNat = start.toNat % 2 ^ 12 := by
    rw [BitVec.toNat_and, hmask, Nat.and_two_pow_sub_one_eq_mod]
  rw [← BitVec.toNat_inj, hmod, Nat.dvd_iff_mod_eq_zero]
  rfl

theorem toNat_pageAlign (len : Word) : (pageAlign len).toNat = alignedLen len % 2 ^ 32 := by
  rw [pageAlign, toNat_and_pageMask, BitVec.toNat_add, alignedLen, pageSize]
  have hlen := len.isLt
  have hconst : (0xfff : Word).toNat = 0xfff := rfl
  omega

theorem alignedLen_pos (hlen : len ≠ 0) : 0 < alignedLen len := by
  have hpos : len.toNat ≠ 0 := fun h => hlen (BitVec.eq_of_toNat_eq h)
  rw [alignedLen, pageSize]
  omega

theorem alignedLen_le (len : Word) : alignedLen len ≤ 2 ^ 32 := by
  have hlen := len.isLt
  rw [alignedLen, pageSize]
  omega

/-- The range wraps around if its end is not after its start. -/
theorem wraps_iff (hlen : len ≠ 0) :
    start + pageAlign len ≤ start ↔ 2 ^ 32 ≤ start.toNat + alignedLen len := by
  have hpos := alignedLen_pos hlen
  have hle := alignedLen_le len
  have hstart := start.isLt
  rw [BitVec.le_def, BitVec.toNat_add, toNat_pageAlign]
  omega

theorem toNat_finish (h : start.toNat + alignedLen len < 2 ^ 32) :
    (start + pageAlign len).toNat = start.toNat + alignedLen len := by
  rw [BitVec.toNat_add, toNat_pageAlign]
  omega

end Pages

/-! ### What a run of the loop changes -/

/-- The addresses from `start` to `m` were mapped and have their new flags, and the others the flags
that they had. -/
structure ChangedTo (p : Protection) (mm mm' : AddressSpace) (start m : ℕ) : Prop where
  mapped : ∀ a, start ≤ a → a < m → ∃ f, mm.flagsAt a = some f
  flags : ∀ a, mm'.flagsAt a =
    if start ≤ a ∧ a < m then (mm.flagsAt a).map p.newflags else mm.flagsAt a

namespace Walked

variable {K : MmKernel} {p : Protection} {mm : AddressSpace} {start finish : Word} {c : Cursor}

theorem changedTo (h : Walked p mm start finish c) :
    ChangedTo p mm c.mm start.toNat c.nstart.toNat where
  mapped a ha ha' := by
    obtain ⟨f, hf, -⟩ := h.permitted a ha ha'
    exact ⟨f, hf⟩
  flags := h.flags

/-- After a pass whose checks succeed, at any point that `mprotect_fixup` has reached. -/
theorem changedTo_fixup (hK : K.Lawful) (h : Walked p mm start finish c) (hpass : Passes K p c)
    {m : ℕ} (htmp : c.tmp.toNat ≤ m) (hm : m ≤ (c.nstartNext K p).toNat) :
    ChangedTo p mm (c.fixup K p).mm start.toNat m where
  mapped a ha ha' := by
    obtain ⟨f, hf, -⟩ := h.permitted_fixup hK hpass a ha (by omega)
    exact ⟨f, hf⟩
  flags a := by
    have hnt : c.nstart.toNat < c.tmp.toNat := c.nstart_lt_tmp
    by_cases ha : a < m
    · rw [h.flags_fixup hK hpass]
      congr 1
      exact propext (by omega)
    · -- behind the part that the pass changes nothing is changed
      rw [Cursor.flagsAt_fixup_eq hK h.prevOk hpass, if_neg (by omega), if_neg (by omega),
        h.flags_of_le (by omega)]

/-- The address at which a pass begins is mapped, as are those before it. -/
theorem mapped_of_le (h : Walked p mm start finish c) {a : ℕ} (ha : start.toNat ≤ a)
    (ha' : a ≤ c.nstart.toNat) : ∃ f, mm.flagsAt a = some f := by
  rcases Nat.lt_or_eq_of_le ha' with hlt | rfl
  · exact h.changedTo.mapped a ha hlt
  · rw [← h.flags_of_le (le_refl _)]
    exact ⟨_, AddressSpace.flagsAt_of_covers c.mem c.covers_nstart⟩

end Walked

section Run

variable {K : MmKernel} {p : Protection} {c : Cursor}

/-- A run of the loop changes the range up to a point, which is the end of the range if it
succeeds. -/
theorem protectLoop_run_changedTo (hK : K.Lawful) (hprev : c.PrevOk) :
    ∃ m, c.nstart.toNat ≤ m ∧ m ≤ c.finish.toNat ∧
      (((protectLoop K p).run c).1 = 0 → m = c.finish.toNat) ∧
      ChangedTo p c.mm ((protectLoop K p).run c).2 c.nstart.toNat m := by
  obtain ⟨d, hreach, hlast⟩ := (protectLoop K p).exists_last c
  have hwalk := (Walked.first (p := p) hprev).of_reaches hK hreach
  have hstart : c.nstart.toNat ≤ d.nstart.toNat := hwalk.start_le
  have hdlt : d.nstart.toNat < c.finish.toNat := hwalk.finish_eq ▸ d.lt_finish
  have hnt : d.nstart.toNat < d.tmp.toNat := d.nstart_lt_tmp
  have htn : d.tmp.toNat ≤ (d.nstartNext K p).toNat := d.tmp_le_nstartNext K p
  generalize (protectLoop K p).run c = r at hlast
  cases lastPass_of_inl hlast with
  | notPermitted h =>
    exact ⟨_, hstart, hdlt.le, fun h0 => absurd h0 neg_eacces_lt.ne, hwalk.changedTo⟩
  | refused h => exact ⟨_, hstart, hdlt.le, fun h0 => absurd h0 h, hwalk.changedTo⟩
  | fixupFailed h =>
    refine ⟨_, hstart, hdlt.le, fun h0 => absurd h0 h, hwalk.changedTo.mapped, fun a => ?_⟩
    rw [← hwalk.changedTo.flags]
    exact hK.fixup_fails _ _ _ _ _ _ hwalk.prevOk.fixupCall h a
  | done h hfinish =>
    have htmp : d.tmp.toNat ≤ c.finish.toNat := hwalk.finish_eq ▸ d.tmp_le_finish
    have hle : c.finish.toNat ≤ (d.nstartNext K p).toNat := hwalk.finish_eq ▸ hfinish
    exact ⟨_, by omega, le_refl _, fun _ => rfl, hwalk.changedTo_fixup hK h htmp hle⟩
  | hole h hlt hnext =>
    have hlt' : (d.nstartNext K p).toNat < c.finish.toNat := hwalk.finish_eq ▸ hlt
    exact ⟨_, by omega, hlt'.le, fun h0 => absurd h0 neg_enomem_lt.ne,
      hwalk.changedTo_fixup hK h htn (le_refl _)⟩

/-- If some address of the range is not mapped, and nothing else stops the walk before the first
such address, the result is `-ENOMEM`. -/
theorem protectLoop_run_hole (hK : K.Lawful) (hprev : c.PrevOk)
    (hhole : ∃ a, c.nstart.toNat ≤ a ∧ a < c.finish.toNat ∧ c.mm.flagsAt a = none)
    (hperm : ∀ a f, c.nstart.toNat ≤ a →
      (∀ b, c.nstart.toNat ≤ b → b ≤ a → c.mm.flagsAt b ≠ none) →
      c.mm.flagsAt a = some f → p.Permitted f)
    (hgrants : Grants K p c) : ((protectLoop K p).run c).1 = -enomem := by
  obtain ⟨d, hreach, hlast⟩ := (protectLoop K p).exists_last c
  have hwalk := (Walked.first (p := p) hprev).of_reaches hK hreach
  generalize (protectLoop K p).run c = r at hlast
  cases lastPass_of_inl hlast with
  | notPermitted h =>
    have hflags := AddressSpace.flagsAt_of_covers d.mem d.covers_nstart
    rw [hwalk.flags_of_le (le_refl _)] at hflags
    refine absurd (hperm _ _ hwalk.start_le (fun b hb hb' => ?_) hflags) h
    obtain ⟨f, hf⟩ := hwalk.mapped_of_le hb hb'
    simp [hf]
  | refused h => exact absurd (hgrants d hreach).1 h
  | fixupFailed h => exact absurd (hgrants d hreach).2 h
  | done h hfinish =>
    obtain ⟨a, ha, ha', hnone⟩ := hhole
    have hle : c.finish.toNat ≤ (d.nstartNext K p).toNat := hwalk.finish_eq ▸ hfinish
    obtain ⟨f, hf, -⟩ := hwalk.permitted_fixup hK h a ha (by omega)
    rw [hnone] at hf
    cases hf
  | hole => rfl

end Run

/-! ### The protection -/

/-- `PROT_WRITE`. -/
def protWrite : Word := 0x2

/-- `PROT_SEM`. -/
def protSem : Word := 0x8

/-- The flags of a protection, on an architecture that adds none of its own. -/
def protBits (prot : Word) : Word :=
  (if prot &&& protRead ≠ 0 then vmRead else 0) ||| (if prot &&& protWrite ≠ 0 then vmWrite else 0) |||
    if prot &&& protExec ≠ 0 then vmExec else 0

/-- A lawful kernel whose `arch_validate_prot` and `calc_vm_prot_bits` are those of the header
`mman.h`. -/
structure MmKernel.Standard (K : MmKernel) : Prop extends K.Lawful where
  validates : ∀ prot, K.archValidateProt prot =
    decide (prot &&& ~~~(protRead ||| protWrite ||| protExec ||| protSem) = 0)
  prot_bits : ∀ prot, K.calcVmProtBits prot = protBits prot

/-- The accesses that `PROT_READ` stands for. -/
def readAccess (personality : Word) : Word :=
  if personality &&& readImpliesExec ≠ 0 then vmRead ||| vmExec else vmRead

/-- The flags `f'` are the flags `f` with the accesses replaced by those of `PROT_READ`. -/
def Reprotected (personality f f' : Word) : Prop :=
  f' &&& vmAccess = readAccess personality ∧ f' &&& ~~~vmAccess = f &&& ~~~vmAccess

/-- The addresses from `start` to `m` were mapped and have the protection, and no others have
changed. -/
structure ProtectedTo (personality : Word) (mm mm' : AddressSpace) (start m : ℕ) : Prop where
  changed : ∀ a, start ≤ a → a < m → ∃ f f', mm.flagsAt a = some f ∧ mm'.flagsAt a = some f' ∧
    Reprotected personality f f'
  kept : ∀ a, ¬(start ≤ a ∧ a < m) → mm'.flagsAt a = mm.flagsAt a

/-- Nothing stops the walk before the first address that is not mapped: the areas before it may get
the protection, and neither the hook nor `mprotect_fixup` fails. -/
structure Unhindered (K : MmKernel) (mm : AddressSpace) (personality start finish : Word) :
    Prop where
  permitted : ∀ a f, start.toNat ≤ a →
    (∀ b, start.toNat ≤ b → b ≤ a → mm.flagsAt b ≠ none) → mm.flagsAt a = some f →
      (protectionOf K personality protRead).Permitted f
  grants : ∀ hlt c, firstCursor mm 0 start finish hlt = .inr c →
    Grants K (protectionOf K personality protRead) c

/-- What a call of `mprotect_s` with `PROT_READ` and the result `r` does to the range that it is
called for. -/
structure ProtectsRange (K : MmKernel) (mm : AddressSpace) (personality start len : Word)
    (r : ℤ × AddressSpace) : Prop where
  /-- The loop is left after finitely many passes, wherever it begins. -/
  terminates : ∀ p c, ∃ n, ((protectLoop K p).runFor n c).isSome
  /-- A call that succeeds protects the whole range. -/
  success : r.1 = 0 → len ≠ 0 →
    pageSize ∣ start.toNat ∧ start.toNat + alignedLen len < 2 ^ 32 ∧
      ProtectedTo personality mm r.2 start.toNat (start.toNat + alignedLen len)
  /-- A range that wraps around is rejected. -/
  wraps : pageSize ∣ start.toNat → len ≠ 0 → 2 ^ 32 ≤ start.toNat + alignedLen len →
    r.1 = -enomem
  /-- A range with a hole is rejected. -/
  hole : pageSize ∣ start.toNat → len ≠ 0 → start.toNat + alignedLen len < 2 ^ 32 →
    (∃ a, start.toNat ≤ a ∧ a < start.toNat + alignedLen len ∧ mm.flagsAt a = none) →
      Unhindered K mm personality start (start + pageAlign len) → r.1 = -enomem
  /-- A call that fails protects a first part of the range. -/
  failure : r.1 ≠ 0 → ∃ m, start.toNat ≤ m ∧ m ≤ start.toNat + alignedLen len ∧
    ProtectedTo personality mm r.2 start.toNat m

section Protect

variable {K : MmKernel} {mm mm' : AddressSpace} {personality start finish : Word}

theorem readAccess_and_vmAccess (personality : Word) :
    readAccess personality &&& vmAccess = readAccess personality := by
  rw [readAccess]
  split <;> decide

/-- Flags within a mask take the place of those of `f`. -/
theorem or_and_not_and {r f A : Word} (h : r &&& A = r) :
    (r ||| (f &&& ~~~A)) &&& A = r ∧ (r ||| (f &&& ~~~A)) &&& ~~~A = f &&& ~~~A := by
  rw [← h]
  constructor
  all_goals
    ext i hi
    simp only [BitVec.getElem_or, BitVec.getElem_and, BitVec.getElem_not]
    cases r[i] <;> cases f[i] <;> cases A[i] <;> rfl

theorem MmKernel.Standard.reprotected (hK : K.Standard) (personality f : Word) :
    Reprotected personality f ((protectionOf K personality protRead).newflags f) := by
  have hflags : (protectionOf K personality protRead).vmFlags = readAccess personality := by
    rw [protectionOf, hK.prot_bits, readAccess, adjustProt]
    by_cases hexec : personality &&& readImpliesExec = 0
    · rw [if_neg fun h => h.2 hexec, if_neg (not_not.mpr hexec)]
      decide
    · rw [if_pos ⟨by decide, hexec⟩, if_pos hexec]
      decide
  rw [Protection.newflags, hflags]
  exact or_and_not_and (readAccess_and_vmAccess personality)

theorem ChangedTo.refl (p : Protection) (mm : AddressSpace) (start : ℕ) :
    ChangedTo p mm mm start start where
  mapped a ha ha' := by omega
  flags a := by rw [if_neg (by omega)]

theorem ChangedTo.protectedTo {start m : ℕ} (hK : K.Standard)
    (h : ChangedTo (protectionOf K personality protRead) mm mm' start m) :
    ProtectedTo personality mm mm' start m where
  changed a ha ha' := by
    obtain ⟨f, hf⟩ := h.mapped a ha ha'
    refine ⟨f, _, hf, ?_, hK.reprotected personality f⟩
    rw [h.flags, if_pos ⟨ha, ha'⟩, hf, Option.map_some]
  kept a ha := by rw [h.flags, if_neg ha]

theorem protectWalk_changedTo (hK : K.Lawful) (p : Protection) (mm : AddressSpace)
    (hlt : start < finish) :
    ∃ m, start.toNat ≤ m ∧ m ≤ finish.toNat ∧
      ((protectWalk K p mm 0 start finish hlt).1 = 0 → m = finish.toNat) ∧
      ChangedTo p mm (protectWalk K p mm 0 start finish hlt).2 start.toNat m := by
  have hle : start.toNat ≤ finish.toNat := BitVec.le_of_lt hlt
  rw [protectWalk]
  cases hc : firstCursor mm 0 start finish hlt with
  | inl error =>
    obtain ⟨rfl, -⟩ := firstCursor_eq_inl hc
    exact ⟨_, le_refl _, hle, fun h0 => absurd h0 neg_enomem_lt.ne, .refl p mm _⟩
  | inr c =>
    obtain ⟨hmm, hstart, hfinish, hprev⟩ := firstCursor_eq_inr hc
    have hrun := protectLoop_run_changedTo (p := p) hK hprev
    rwa [hmm, hstart, hfinish] at hrun

theorem protectWalk_hole (hK : K.Lawful) (hlt : start < finish)
    (hhole : ∃ a, start.toNat ≤ a ∧ a < finish.toNat ∧ mm.flagsAt a = none)
    (h : Unhindered K mm personality start finish) :
    (protectWalk K (protectionOf K personality protRead) mm 0 start finish hlt).1 = -enomem := by
  rw [protectWalk]
  cases hc : firstCursor mm 0 start finish hlt with
  | inl error => exact (firstCursor_eq_inl hc).1
  | inr c =>
    obtain ⟨hmm, hstart, hfinish, hprev⟩ := firstCursor_eq_inr hc
    refine protectLoop_run_hole hK hprev ?_ ?_ (h.grants hlt c hc)
    · rwa [hmm, hstart, hfinish]
    · rw [hmm, hstart]
      exact h.permitted

/-- A call changes its range up to a point, and all of it if it succeeds. -/
theorem mprotectS_changedTo (hK : K.Lawful) (mm : AddressSpace) (personality start len : Word) :
    ∃ m, start.toNat ≤ m ∧ m ≤ start.toNat + alignedLen len ∧
      ((mprotectS K mm personality start len protRead).1 = 0 → len ≠ 0 →
        pageSize ∣ start.toNat ∧ start.toNat + alignedLen len < 2 ^ 32 ∧
          m = start.toNat + alignedLen len) ∧
      ChangedTo (protectionOf K personality protRead) mm
        (mprotectS K mm personality start len protRead).2 start.toNat m := by
  have hrejected {error : ℤ} (herror : error = 0 → len = 0) :
      ∃ m, start.toNat ≤ m ∧ m ≤ start.toNat + alignedLen len ∧
        (error = 0 → len ≠ 0 → pageSize ∣ start.toNat ∧
          start.toNat + alignedLen len < 2 ^ 32 ∧ m = start.toNat + alignedLen len) ∧
        ChangedTo (protectionOf K personality protRead) mm mm start.toNat m :=
    ⟨_, le_refl _, by omega, fun h0 hlen => absurd (herror h0) hlen, .refl _ mm _⟩
  rw [mprotectS_protRead]
  split_ifs with halign hlen hwrap harch
  · exact hrejected fun h0 => absurd h0 neg_einval_lt.ne
  · exact hrejected fun _ => hlen
  · exact hrejected fun h0 => absurd h0 neg_enomem_lt.ne
  · exact hrejected fun h0 => absurd h0 neg_einval_lt.ne
  · have hlt : start.toNat + alignedLen len < 2 ^ 32 := by
      rw [wraps_iff hlen] at hwrap
      omega
    obtain ⟨m, hm, hm', hend, hchanged⟩ :=
      protectWalk_changedTo hK (protectionOf K personality protRead) mm (BitVec.not_le.mp hwrap)
    rw [toNat_finish hlt] at hm' hend
    exact ⟨m, hm, hm', fun h0 _ => ⟨aligned_iff.mp (not_not.mp halign), hlt, hend h0⟩, hchanged⟩

end Protect

/-- A call of `mprotect_s` with `PROT_READ` protects exactly its range if it succeeds, and otherwise
only a first part of it. -/
theorem mprotectS_protectsRange {K : MmKernel} (hK : K.Standard) (mm : AddressSpace)
    (personality start len : Word) : ProtectsRange K mm personality start len
      (mprotectS K mm personality start len protRead) where
  terminates p c := ⟨_, (protectLoop K p).isSome_runFor (Nat.lt_succ_self _)⟩
  success h0 hlen := by
    obtain ⟨m, -, -, hend, hchanged⟩ :=
      mprotectS_changedTo hK.toLawful mm personality start len
    obtain ⟨halign, hlt, rfl⟩ := hend h0 hlen
    exact ⟨halign, hlt, hchanged.protectedTo hK⟩
  wraps halign hlen hwrap := by
    rw [mprotectS_protRead, if_neg (not_not.mpr (aligned_iff.mpr halign)), if_neg hlen,
      dif_pos ((wraps_iff hlen).mpr hwrap)]
  hole halign hlen hlt hhole h := by
    have hvalid : ¬K.archValidateProt protRead = false := by
      rw [hK.validates]
      decide
    have hwrap : ¬start + pageAlign len ≤ start := by
      rw [wraps_iff hlen]
      omega
    rw [mprotectS_protRead, if_neg (not_not.mpr (aligned_iff.mpr halign)), if_neg hlen,
      dif_neg hwrap, if_neg hvalid]
    exact protectWalk_hole hK.toLawful _ (by rwa [toNat_finish hlt]) h
  failure _ := by
    obtain ⟨m, hm, hm', -, hchanged⟩ :=
      mprotectS_changedTo hK.toLawful mm personality start len
    exact ⟨m, hm, hm', hchanged.protectedTo hK⟩

/-! ### A kernel that splits areas -/

deriving instance DecidableEq for VmArea

/-- The areas that an area is split into when the part from `start` to `finish` gets new flags. -/
def splitParts (vma : VmArea) (start finish newflags : Word) : List VmArea :=
  (if vma.vmStart < start then [{ vma with vmEnd := start }] else []) ++
    ⟨start, finish, newflags⟩ ::
      if finish < vma.vmEnd then [{ vma with vmStart := finish }] else []

section Split

variable {mm : AddressSpace} {vma : VmArea} {start finish newflags : Word}

theorem mem_splitParts {u : VmArea} : u ∈ splitParts vma start finish newflags ↔
    (vma.vmStart < start ∧ u = { vma with vmEnd := start }) ∨ u = ⟨start, finish, newflags⟩ ∨
      finish < vma.vmEnd ∧ u = { vma with vmStart := finish } := by
  rw [splitParts]
  split_ifs with hl hr hr <;> simp [hl, hr]

/-- The part is not empty and belongs to the area. -/
structure PartOf (mm : AddressSpace) (vma : VmArea) (start finish : Word) : Prop where
  mem : vma ∈ mm.areas
  start_le : vma.vmStart ≤ start
  start_lt : start < finish
  le_end : finish ≤ vma.vmEnd

instance (mm : AddressSpace) (vma : VmArea) (start finish : Word) :
    Decidable (PartOf mm vma start finish) :=
  decidable_of_iff (vma ∈ mm.areas ∧ vma.vmStart ≤ start ∧ start < finish ∧ finish ≤ vma.vmEnd)
    ⟨fun ⟨h₁, h₂, h₃, h₄⟩ => ⟨h₁, h₂, h₃, h₄⟩, fun h => ⟨h.1, h.2, h.3, h.4⟩⟩

theorem PartOf.splitParts_within (h : PartOf mm vma start finish) :
    ∀ u ∈ splitParts vma start finish newflags, vma.lo ≤ u.lo ∧ u.hi ≤ vma.hi := by
  have hs : vma.lo ≤ start.toNat := h.start_le
  have hl : start.toNat < finish.toNat := h.start_lt
  have he : finish.toNat ≤ vma.hi := h.le_end
  intro u hu
  rcases mem_splitParts.mp hu with ⟨-, rfl⟩ | rfl | ⟨-, rfl⟩
  · exact ⟨le_refl _, show start.toNat ≤ vma.hi by omega⟩
  · exact ⟨hs, he⟩
  · exact ⟨show vma.lo ≤ finish.toNat by omega, le_refl _⟩

theorem PartOf.ordered_splitParts (h : PartOf mm vma start finish) :
    Ranges.Ordered VmArea.lo VmArea.hi (splitParts vma start finish newflags) := by
  have hl : start.toNat < finish.toNat := h.start_lt
  refine ⟨fun u hu => ?_, ?_⟩
  · rcases mem_splitParts.mp hu with ⟨hlt, rfl⟩ | rfl | ⟨hlt, rfl⟩
    · exact hlt
    · exact hl
    · exact hlt
  · rw [splitParts]
    split_ifs <;> simp [VmArea.lo, VmArea.hi, hl.le]

/-- The address space in which the part has its new flags. -/
def AddressSpace.split (mm : AddressSpace) (vma : VmArea) (start finish newflags : Word)
    (h : PartOf mm vma start finish) : AddressSpace where
  areas := Ranges.replace mm.areas vma (splitParts vma start finish newflags)
  ordered := mm.ordered.replace h.mem h.ordered_splitParts h.splitParts_within

theorem PartOf.mem_split (h : PartOf mm vma start finish) {u : VmArea} :
    u ∈ (mm.split vma start finish newflags h).areas ↔
      u ∈ splitParts vma start finish newflags ∨ u ∈ mm.areas ∧ u ≠ vma :=
  Ranges.mem_replace h.mem

theorem PartOf.flagsAt_split (h : PartOf mm vma start finish) (a : ℕ) :
    (mm.split vma start finish newflags h).flagsAt a =
      if start.toNat ≤ a ∧ a < finish.toNat then some newflags else mm.flagsAt a := by
  by_cases ha : start.toNat ≤ a ∧ a < finish.toNat
  · have hpart : ⟨start, finish, newflags⟩ ∈ splitParts vma start finish newflags :=
      mem_splitParts.mpr (.inr (.inl rfl))
    rw [if_pos ha]
    exact AddressSpace.flagsAt_of_covers (h.mem_split.mpr (.inl hpart)) ha
  rw [if_neg ha]
  by_cases hcover : ∃ t ∈ mm.areas, Ranges.Covers VmArea.lo VmArea.hi t a
  · obtain ⟨t, ht, hta⟩ := hcover
    rw [AddressSpace.flagsAt_of_covers ht hta]
    by_cases htv : t = vma
    · subst htv
      by_cases hlt : a < start.toNat
      · -- in front of the part
        have hstart : t.vmStart < start := Nat.lt_of_le_of_lt hta.1 hlt
        have hpart : { t with vmEnd := start } ∈ splitParts t start finish newflags :=
          mem_splitParts.mpr (.inl ⟨hstart, rfl⟩)
        have hflags := AddressSpace.flagsAt_of_covers (h.mem_split.mpr (.inl hpart)) ⟨hta.1, hlt⟩
        exact hflags
      · -- behind the part
        have hle : finish.toNat ≤ a := by omega
        have hend : finish < t.vmEnd := Nat.lt_of_le_of_lt hle hta.2
        have hpart : { t with vmStart := finish } ∈ splitParts t start finish newflags :=
          mem_splitParts.mpr (.inr (.inr ⟨hend, rfl⟩))
        have hflags := AddressSpace.flagsAt_of_covers (h.mem_split.mpr (.inl hpart)) ⟨hle, hta.2⟩
        exact hflags
    · exact AddressSpace.flagsAt_of_covers (h.mem_split.mpr (.inr ⟨ht, htv⟩)) hta
  · have hnone : ∀ t ∈ mm.areas, ¬Ranges.Covers VmArea.lo VmArea.hi t a :=
      fun t ht hta => hcover ⟨t, ht, hta⟩
    rw [AddressSpace.flagsAt_eq_none_iff.mpr hnone, AddressSpace.flagsAt_eq_none_iff]
    intro u hu hua
    rcases h.mem_split.mp hu with hu | ⟨hu, -⟩
    · have hwithin := h.splitParts_within u hu
      exact hnone vma h.mem ⟨hwithin.1.trans hua.1, hua.2.trans_le hwithin.2⟩
    · exact hnone u hu hua

end Split

/-- A kernel that splits areas, and merges none. -/
def splitKernel : MmKernel where
  archValidateProt prot :=
    decide (prot &&& ~~~(protRead ||| protWrite ||| protExec ||| protSem) = 0)
  calcVmProtBits := protBits
  securityFileMprotect _ _ _ := 0
  mprotectFixup mm vma _ start finish newflags :=
    if h : PartOf mm vma start finish then
      ⟨0, mm.split vma start finish newflags h, ⟨start, finish, newflags⟩⟩
    else ⟨-enomem, mm, vma⟩

theorem splitKernel_fixup {mm : AddressSpace} {vma : VmArea} {prev : Option VmArea}
    {start finish : Word} (newflags : Word) (h : PartOf mm vma start finish) :
    splitKernel.mprotectFixup mm vma prev start finish newflags =
      ⟨0, mm.split vma start finish newflags h, ⟨start, finish, newflags⟩⟩ := dif_pos h

theorem FixupCall.partOf {mm : AddressSpace} {vma : VmArea} {prev : Option VmArea}
    {start finish : Word} (h : FixupCall mm vma prev start finish) : PartOf mm vma start finish :=
  ⟨h.mem, h.start_le, h.start_lt, h.le_end⟩

theorem splitKernel_standard : splitKernel.Standard where
  hook_nonpos _ _ _ := le_refl _
  fixup_nonpos mm vma prev start finish newflags := by
    by_cases h : PartOf mm vma start finish
    · rw [splitKernel_fixup newflags h]
    · rw [show splitKernel.mprotectFixup mm vma prev start finish newflags = ⟨-enomem, mm, vma⟩
        from dif_neg h]
      exact neg_enomem_lt.le
  fixup_flags mm vma prev start finish newflags hcall _ a := by
    rw [splitKernel_fixup newflags hcall.partOf]
    exact hcall.partOf.flagsAt_split a
  fixup_prev mm vma prev start finish newflags hcall _ := by
    rw [splitKernel_fixup newflags hcall.partOf]
    exact ⟨hcall.partOf.mem_split.mpr (.inl (mem_splitParts.mpr (.inr (.inl rfl)))), hcall.start_lt,
      BitVec.le_refl _⟩
  fixup_fails mm vma prev start finish newflags hcall herror := by
    rw [splitKernel_fixup newflags hcall.partOf] at herror
    exact absurd rfl herror
  validates _ := rfl
  prot_bits _ := rfl

/-- Three pages that may be written, a hole, and another page. -/
def holedPages : AddressSpace where
  areas := [⟨0x8000, 0xa000, 0x73⟩, ⟨0xa000, 0xb000, 0x177⟩, ⟨0xc000, 0xd000, 0x73⟩]
  ordered := by
    refine ⟨?_, ?_⟩
    · simp [VmArea.lo, VmArea.hi]
    · simp [VmArea.lo, VmArea.hi]

/-- A range of two pages in front of the hole, and one that reaches into it. -/
theorem mprotectS_protectsRange_holedPages :
    ((mprotectS splitKernel holedPages 0 0x9000 0x1800 protRead).1 = 0 ∧
      ProtectedTo 0 holedPages (mprotectS splitKernel holedPages 0 0x9000 0x1800 protRead).2
        0x9000 0xb000) ∧
    (mprotectS splitKernel holedPages 0 0x9000 0x2800 protRead).1 = -enomem ∧
      ∃ m, 0x9000 ≤ m ∧ m ≤ 0xc000 ∧
        ProtectedTo 0 holedPages (mprotectS splitKernel holedPages 0 0x9000 0x2800 protRead).2
          0x9000 m := by
  have hfront : (mprotectS splitKernel holedPages 0 0x9000 0x1800 protRead).1 = 0 := by
    decide +kernel
  have hhole : (mprotectS splitKernel holedPages 0 0x9000 0x2800 protRead).1 = -enomem := by
    decide +kernel
  refine ⟨⟨hfront, ?_⟩, hhole, ?_⟩
  · exact ((mprotectS_protectsRange splitKernel_standard holedPages 0 0x9000 0x1800).success hfront
      (by decide)).2.2
  · exact (mprotectS_protectsRange splitKernel_standard holedPages 0 0x9000 0x2800).failure
      (hhole ▸ neg_enomem_lt.ne)

end OsProject.Trace
