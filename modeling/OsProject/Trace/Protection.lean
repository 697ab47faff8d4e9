import OsProject.Trace.Mprotect

/-!
# What the walk over the areas does

A pass of the loop of `mprotect_s` whose checks succeed gives the addresses from `nstart` to the
next value of `nstart` their new flags: up to `tmp` this is the effect of `mprotect_fixup`, and from
there on the addresses had these flags before, as they are in the area that it merged. So in every
pass the addresses of the range before `nstart` have their new flags, and the others the flags they
had when the loop began.

## Main definitions

* `Cursor.PrevOk` — what the variable `prev` stands for when a pass begins.
* `Walked` — the invariant of the loop.
* `LastPass` — how the loop ends.

## Main results

* `Cursor.flagsAt_fixup` — what one pass does.
* `Walked.of_reaches` — the invariant holds in every pass.
* `protectLoop_run_eq_zero_iff` — the loop succeeds exactly if every address of the range is in an
  area that may get the new flags, and no call of the hook or of `mprotect_fixup` fails.

Source: `start_trace.c`.
-/

namespace OsProject.Trace

namespace AddressSpace

variable {mm : AddressSpace} {vma : VmArea} {a : ℕ}

/-- The flags of an address are those of the area that covers it. -/
theorem flagsAt_of_covers (h : vma ∈ mm.areas) (ha : Ranges.Covers VmArea.lo VmArea.hi vma a) :
    mm.flagsAt a = some vma.vmFlags := by
  rw [flagsAt, mm.ordered.itemAt_eq_some_iff.mpr ⟨h, ha⟩]
  rfl

theorem flagsAt_eq_none_iff :
    mm.flagsAt a = none ↔ ∀ vma ∈ mm.areas, ¬Ranges.Covers VmArea.lo VmArea.hi vma a := by
  rw [flagsAt, Option.map_eq_none_iff, Ranges.Ordered.itemAt_eq_none_iff]

end AddressSpace

/-- The new flags of the new flags are the new flags. -/
@[simp] theorem Protection.newflags_newflags (p : Protection) (f : Word) :
    p.newflags (p.newflags f) = p.newflags f := by
  ext i hi
  simp only [newflags, BitVec.getElem_or, BitVec.getElem_and, BitVec.getElem_not]
  cases p.vmFlags[i] <;> cases f[i] <;> cases vmAccess[i] <;> rfl

theorem Protection.permitted_newflags {p : Protection} {f : Word} (h : p.Permitted f) :
    p.Permitted (p.newflags f) := by
  rw [Permitted, newflags_newflags]
  exact h

/-- The checks of a pass succeed. -/
structure Passes (K : MmKernel) (p : Protection) (c : Cursor) : Prop where
  permitted : p.Permitted c.vma.vmFlags
  hook_eq : c.hook K p = 0
  error_eq : (c.fixup K p).error = 0

/-- How the last pass of the loop ends. -/
inductive LastPass (K : MmKernel) (p : Protection) (c : Cursor) : ℤ × AddressSpace → Prop
  | notPermitted (h : ¬p.Permitted c.vma.vmFlags) : LastPass K p c (-eacces, c.mm)
  | refused (h : c.hook K p ≠ 0) : LastPass K p c (c.hook K p, c.mm)
  | fixupFailed (h : (c.fixup K p).error ≠ 0) :
      LastPass K p c ((c.fixup K p).error, (c.fixup K p).mm)
  | done (h : Passes K p c) (hfinish : c.finish ≤ c.nstartNext K p) :
      LastPass K p c (0, (c.fixup K p).mm)
  | hole (h : Passes K p c) (hlt : c.nstartNext K p < c.finish)
      (hnext : ∀ vma, (c.fixup K p).mm.vmNext (c.fixup K p).prev = some vma →
        vma.vmStart ≠ c.nstartNext K p) :
      LastPass K p c (-enomem, (c.fixup K p).mm)

theorem lastPass_of_inl {K : MmKernel} {p : Protection} {c : Cursor} {r : ℤ × AddressSpace}
    (h : protectBody K p c = .inl r) : LastPass K p c r := by
  unfold protectBody at h
  split_ifs at h with hperm hhook herror hf
  · cases h
    exact .refused hhook
  · cases h
    exact .fixupFailed herror
  · cases h
    exact .done ⟨hperm, not_not.mp hhook, not_not.mp herror⟩ hf
  · have hpass : Passes K p c := ⟨hperm, not_not.mp hhook, not_not.mp herror⟩
    split at h
    · next hv =>
      cases h
      exact .hole hpass (BitVec.not_le.mp hf) fun vma hvma => by simp [hv] at hvma
    · next vma hv =>
      split_ifs at h with hs
      cases h
      refine .hole hpass (BitVec.not_le.mp hf) fun vma' hvma => ?_
      rw [hv] at hvma
      exact Option.some.inj hvma ▸ hs
  · cases h
    exact .notPermitted hperm

namespace Cursor

variable {K : MmKernel} {p : Protection} {c d : Cursor}

/-- The area in `prev` is the one before the part of the area that the pass changes. -/
def PrevOk (c : Cursor) : Prop :=
  c.prev = if c.vma.vmStart < c.nstart then some c.vma else c.mm.vmPrev c.vma

theorem PrevOk.fixupCall (h : c.PrevOk) : FixupCall c.mm c.vma c.prev c.nstart c.tmp where
  mem := c.mem
  start_le := c.start_le
  start_lt := c.nstart_lt_tmp
  le_end := by
    rw [tmp]
    split
    · next hlt => exact BitVec.le_of_lt hlt
    · exact BitVec.le_refl _
  prev_eq := h

theorem covers_nstart (c : Cursor) :
    Ranges.Covers VmArea.lo VmArea.hi c.vma c.nstart.toNat := ⟨c.start_le, c.lt_end⟩

section Pass

variable (hK : K.Lawful) (hprev : c.PrevOk) (hpass : Passes K p c)
include hK hprev hpass

/-- The part of the area that the pass changes ends in the area in `prev`. -/
theorem prev_spec :
    (c.fixup K p).prev ∈ (c.fixup K p).mm.areas ∧ (c.fixup K p).prev.lo < c.tmp.toNat ∧
      c.tmp.toNat ≤ (c.fixup K p).prev.hi :=
  hK.fixup_prev _ _ _ _ _ _ hprev.fixupCall hpass.error_eq

theorem flagsAt_fixup_eq (a : ℕ) :
    (c.fixup K p).mm.flagsAt a =
      if c.nstart.toNat ≤ a ∧ a < c.tmp.toNat then some (p.newflags c.vma.vmFlags)
      else c.mm.flagsAt a :=
  hK.fixup_flags _ _ _ _ _ _ hprev.fixupCall hpass.error_eq a

/-- After the call of `mprotect_fixup` the loop goes on at the end of the area in `prev`. -/
theorem nstartNext_eq : c.nstartNext K p = (c.fixup K p).prev.vmEnd := by
  obtain ⟨-, -, hle⟩ := prev_spec hK hprev hpass
  rw [nstartNext]
  split
  · rfl
  · next hlt => exact BitVec.le_antisymm hle (BitVec.not_lt.mp hlt)

/-- The last address of the part and those up to the next value of `nstart` are in the area in
`prev`. -/
theorem covers_prev {a : ℕ} (ha : c.tmp.toNat ≤ a + 1) (ha' : a < (c.nstartNext K p).toNat) :
    Ranges.Covers VmArea.lo VmArea.hi (c.fixup K p).prev a := by
  obtain ⟨-, hlt, -⟩ := prev_spec hK hprev hpass
  rw [nstartNext_eq hK hprev hpass] at ha'
  exact ⟨by omega, ha'⟩

/-- The area in `prev` has the new flags. -/
theorem vmFlags_prev : (c.fixup K p).prev.vmFlags = p.newflags c.vma.vmFlags := by
  obtain ⟨hmem, -, -⟩ := prev_spec hK hprev hpass
  have hnt : c.nstart.toNat < c.tmp.toNat := c.nstart_lt_tmp
  have hle : c.tmp.toNat ≤ (c.nstartNext K p).toNat := c.tmp_le_nstartNext K p
  have hflags := flagsAt_fixup_eq hK hprev hpass (c.tmp.toNat - 1)
  rw [if_pos ⟨by omega, by omega⟩, AddressSpace.flagsAt_of_covers hmem
    (covers_prev hK hprev hpass (by omega) (by omega))] at hflags
  exact Option.some.inj hflags

/-- The addresses from `nstart` to its next value are in areas that may get the new flags. -/
theorem permitted_of_lt {a : ℕ} (ha : c.nstart.toNat ≤ a) (ha' : a < (c.nstartNext K p).toNat) :
    ∃ f, c.mm.flagsAt a = some f ∧ p.Permitted f ∧ p.newflags f = p.newflags c.vma.vmFlags := by
  by_cases htmp : a < c.tmp.toNat
  · have hend : a < c.vma.vmEnd.toNat := Nat.lt_of_lt_of_le htmp hprev.fixupCall.le_end
    have hstart : c.vma.vmStart.toNat ≤ a := Nat.le_trans c.start_le ha
    exact ⟨_, AddressSpace.flagsAt_of_covers c.mem ⟨hstart, hend⟩, hpass.permitted, rfl⟩
  · -- the address is in the area that was merged, so it had the new flags before
    refine ⟨_, ?_, Protection.permitted_newflags hpass.permitted, p.newflags_newflags _⟩
    obtain ⟨hmem, -, -⟩ := prev_spec hK hprev hpass
    have hflags := flagsAt_fixup_eq hK hprev hpass a
    rw [if_neg (by omega), AddressSpace.flagsAt_of_covers hmem
      (covers_prev hK hprev hpass (by omega) ha'), vmFlags_prev hK hprev hpass] at hflags
    exact hflags.symm

/-- A pass whose checks succeed gives the addresses from `nstart` to its next value their new
flags. -/
theorem flagsAt_fixup (a : ℕ) :
    (c.fixup K p).mm.flagsAt a =
      if c.nstart.toNat ≤ a ∧ a < (c.nstartNext K p).toNat then (c.mm.flagsAt a).map p.newflags
      else c.mm.flagsAt a := by
  have hle : c.tmp.toNat ≤ (c.nstartNext K p).toNat := c.tmp_le_nstartNext K p
  by_cases ha : c.nstart.toNat ≤ a ∧ a < (c.nstartNext K p).toNat
  · obtain ⟨f, hf, -, hnew⟩ := permitted_of_lt hK hprev hpass ha.1 ha.2
    rw [if_pos ha, hf, Option.map_some, hnew]
    by_cases htmp : a < c.tmp.toNat
    · rw [flagsAt_fixup_eq hK hprev hpass, if_pos ⟨ha.1, htmp⟩]
    · -- from `tmp` on the flags are those of the area in `prev`
      obtain ⟨hmem, -, -⟩ := prev_spec hK hprev hpass
      rw [AddressSpace.flagsAt_of_covers hmem (covers_prev hK hprev hpass (by omega) ha.2),
        vmFlags_prev hK hprev hpass]
  · rw [if_neg ha, flagsAt_fixup_eq hK hprev hpass, if_neg (by omega)]

/-- Where the loop finds no area to go on with, no area is. -/
theorem flagsAt_nstartNext
    (hnext : ∀ vma, (c.fixup K p).mm.vmNext (c.fixup K p).prev = some vma →
      vma.vmStart ≠ c.nstartNext K p) :
    c.mm.flagsAt (c.nstartNext K p).toNat = none := by
  have hflags := flagsAt_fixup hK hprev hpass (c.nstartNext K p).toNat
  rw [if_neg (by omega)] at hflags
  rw [← hflags, AddressSpace.flagsAt_eq_none_iff]
  rw [nstartNext_eq hK hprev hpass] at hnext ⊢
  obtain ⟨hmem, -, -⟩ := prev_spec hK hprev hpass
  intro vma hvma
  refine (c.fixup K p).mm.ordered.not_covers_hi hmem (fun t ht heq => hnext t ht ?_) hvma
  exact BitVec.eq_of_toNat_eq heq

/-- The next pass has the area in `prev` before its own. -/
theorem prevOk_of_inr (h : protectBody K p c = .inr d) : d.PrevOk := by
  obtain ⟨-, -, -, hmm, hnext, hd, -, hs, -⟩ := protectBody_eq_inr h
  have hmem : (c.fixup K p).prev ∈ d.mm.areas := hmm ▸ (prev_spec hK hprev hpass).1
  rw [PrevOk, hd, if_neg (by rw [hs]; exact BitVec.lt_irrefl _)]
  exact (d.mm.ordered.prev_of_next hmem hnext).symm

end Pass

theorem passes_of_inr (h : protectBody K p c = .inr d) : Passes K p c := by
  obtain ⟨hperm, hhook, herror, -⟩ := protectBody_eq_inr h
  exact ⟨hperm, hhook, herror⟩

end Cursor

/-- In a pass of a loop that began at `start` in the areas `mm`, the addresses from `start` to
`nstart` were in areas that may get the new flags and have them, and the others have the flags that
they had. -/
structure Walked (p : Protection) (mm : AddressSpace) (start finish : Word) (c : Cursor) :
    Prop where
  prevOk : c.PrevOk
  finish_eq : c.finish = finish
  start_le : start ≤ c.nstart
  permitted : ∀ a, start.toNat ≤ a → a < c.nstart.toNat →
    ∃ f, mm.flagsAt a = some f ∧ p.Permitted f
  flags : ∀ a, c.mm.flagsAt a =
    if start.toNat ≤ a ∧ a < c.nstart.toNat then (mm.flagsAt a).map p.newflags else mm.flagsAt a

namespace Walked

variable {K : MmKernel} {p : Protection} {mm : AddressSpace} {start finish : Word} {c d : Cursor}

theorem flags_of_le (h : Walked p mm start finish c) {a : ℕ} (ha : c.nstart.toNat ≤ a) :
    c.mm.flagsAt a = mm.flagsAt a := by
  rw [h.flags, if_neg (by omega)]

section Pass

variable (hK : K.Lawful) (h : Walked p mm start finish c) (hpass : Passes K p c)
include hK h hpass

theorem permitted_fixup (a : ℕ) (ha : start.toNat ≤ a) (ha' : a < (c.nstartNext K p).toNat) :
    ∃ f, mm.flagsAt a = some f ∧ p.Permitted f := by
  by_cases hlt : a < c.nstart.toNat
  · exact h.permitted a ha hlt
  · obtain ⟨f, hf, hperm, -⟩ := Cursor.permitted_of_lt hK h.prevOk hpass (by omega) ha'
    rw [h.flags_of_le (by omega)] at hf
    exact ⟨f, hf, hperm⟩

theorem flags_fixup (a : ℕ) :
    (c.fixup K p).mm.flagsAt a =
      if start.toNat ≤ a ∧ a < (c.nstartNext K p).toNat then (mm.flagsAt a).map p.newflags
      else mm.flagsAt a := by
  have hstart : start.toNat ≤ c.nstart.toNat := h.start_le
  have hlt : c.nstart.toNat < (c.nstartNext K p).toNat := c.nstart_lt_nstartNext K p
  rw [Cursor.flagsAt_fixup hK h.prevOk hpass]
  split
  · next ha => rw [h.flags_of_le ha.1, if_pos (by omega)]
  · next ha =>
    rw [h.flags]
    congr 1
    exact propext (by omega)

end Pass

/-- One pass keeps the invariant. -/
theorem step (hK : K.Lawful) (h : Walked p mm start finish c) (hstep : protectBody K p c = .inr d) :
    Walked p mm start finish d := by
  have hpass := Cursor.passes_of_inr hstep
  obtain ⟨-, -, -, hmm, -, -, hnstart, -, hfinish⟩ := protectBody_eq_inr hstep
  refine ⟨Cursor.prevOk_of_inr hK h.prevOk hpass hstep, hfinish.trans h.finish_eq, ?_, ?_, ?_⟩
  · rw [hnstart]
    exact BitVec.le_trans h.start_le (BitVec.le_of_lt (c.nstart_lt_nstartNext K p))
  · rw [hnstart]
    exact h.permitted_fixup hK hpass
  · rw [hnstart, hmm]
    exact h.flags_fixup hK hpass

theorem of_reaches (hK : K.Lawful) (h : Walked p mm start finish c)
    (hreach : (protectLoop K p).Reaches c d) : Walked p mm start finish d :=
  hreach.invariant (fun _ _ h hstep => h.step hK hstep) h

/-- The invariant in the first pass. -/
theorem first (hprev : c.PrevOk) : Walked p c.mm c.nstart c.finish c where
  prevOk := hprev
  finish_eq := rfl
  start_le := BitVec.le_refl _
  permitted a ha ha' := by omega
  flags a := by rw [if_neg (by omega)]

end Walked

/-- The hook and `mprotect_fixup` fail in no pass of the loop. -/
def Grants (K : MmKernel) (p : Protection) (c : Cursor) : Prop :=
  ∀ d, (protectLoop K p).Reaches c d → d.hook K p = 0 ∧ (d.fixup K p).error = 0

/-- Every address of the range is in an area that may get the new flags. -/
def MayProtect (p : Protection) (mm : AddressSpace) (start finish : Word) : Prop :=
  ∀ a, start.toNat ≤ a → a < finish.toNat → ∃ f, mm.flagsAt a = some f ∧ p.Permitted f

section Run

variable {K : MmKernel} {p : Protection} {c : Cursor}

theorem protectLoop_run_nonpos (hK : K.Lawful) : ((protectLoop K p).run c).1 ≤ 0 := by
  obtain ⟨d, -, hlast⟩ := (protectLoop K p).exists_last c
  generalize (protectLoop K p).run c = r at hlast
  cases lastPass_of_inl hlast with
  | notPermitted => exact neg_eacces_lt.le
  | refused => exact hK.hook_nonpos ..
  | fixupFailed => exact hK.fixup_nonpos ..
  | done => exact le_refl _
  | hole => exact neg_enomem_lt.le

/-- The loop succeeds exactly if every address of the range is in an area that may get the new flags
and no call of the hook or of `mprotect_fixup` fails. -/
theorem protectLoop_run_eq_zero_iff (hK : K.Lawful) (hprev : c.PrevOk) :
    ((protectLoop K p).run c).1 = 0 ↔ MayProtect p c.mm c.nstart c.finish ∧ Grants K p c := by
  obtain ⟨d, hreach, hlast⟩ := (protectLoop K p).exists_last c
  have hwalk := (Walked.first (p := p) hprev).of_reaches hK hreach
  have hstart : c.nstart.toNat ≤ d.nstart.toNat := hwalk.start_le
  have hdlt : d.nstart.toNat < c.finish.toNat := hwalk.finish_eq ▸ d.lt_finish
  have hrun : ∀ e, (protectLoop K p).Reaches c e →
      (protectLoop K p).body e = .inl ((protectLoop K p).run c) ∨
        ∃ u, (protectLoop K p).body e = .inr u ∧ (protectLoop K p).Reaches c u :=
    fun e he => he.step_cases
  generalize (protectLoop K p).run c = r at hlast hrun
  cases lastPass_of_inl hlast with
  | notPermitted h =>
    -- the area at `nstart` has the flags that it had
    refine ⟨fun h => absurd h neg_eacces_lt.ne, fun ⟨hmay, _⟩ => absurd ?_ h⟩
    obtain ⟨f, hf, hperm⟩ := hmay d.nstart.toNat hstart hdlt
    rw [← hwalk.flags_of_le (le_refl _), AddressSpace.flagsAt_of_covers d.mem d.covers_nstart] at hf
    exact Option.some.inj hf ▸ hperm
  | refused h => exact ⟨fun h' => absurd h' h, fun ⟨_, hg⟩ => (hg d hreach).1⟩
  | fixupFailed h => exact ⟨fun h' => absurd h' h, fun ⟨_, hg⟩ => (hg d hreach).2⟩
  | done h hfinish =>
    refine ⟨fun _ => ⟨fun a ha ha' => ?_, fun e he => ?_⟩, fun _ => rfl⟩
    · have hle : d.finish.toNat ≤ (d.nstartNext K p).toNat := hfinish
      rw [hwalk.finish_eq] at hle
      exact hwalk.permitted_fixup hK h a ha (by omega)
    · rcases hrun e he with hinl | ⟨u, hinr, -⟩
      · have hok := lastPass_of_inl hinl
        generalize hr : ((0 : ℤ), (d.fixup K p).mm) = r at hok
        cases hok with
        | notPermitted => simp [eacces] at hr
        | refused h => exact absurd (congrArg Prod.fst hr).symm h
        | fixupFailed h => exact absurd (congrArg Prod.fst hr).symm h
        | done h => exact ⟨h.hook_eq, h.error_eq⟩
        | hole => simp [enomem] at hr
      · have hpass := Cursor.passes_of_inr hinr
        exact ⟨hpass.hook_eq, hpass.error_eq⟩
  | hole h hlt hnext =>
    -- the address where the loop should go on is in no area
    refine ⟨fun h => absurd h neg_enomem_lt.ne, fun ⟨hmay, _⟩ => ?_⟩
    have hlt' : d.nstart.toNat < (d.nstartNext K p).toNat := d.nstart_lt_nstartNext K p
    have hltf : (d.nstartNext K p).toNat < c.finish.toNat := hwalk.finish_eq ▸ hlt
    obtain ⟨f, hf, -⟩ := hmay (d.nstartNext K p).toNat (by omega) hltf
    have hnone := Cursor.flagsAt_nstartNext hK hwalk.prevOk h hnext
    rw [hwalk.flags_of_le (by omega), hf] at hnone
    cases hnone

end Run

end OsProject.Trace
