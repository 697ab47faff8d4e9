import OsProject.Lib.Overlay
import OsProject.Lib.Transition
import Mathlib.Data.List.Infix

/-!
# The modules that add system calls

Six kernel modules each add a system call by replacing an entry of the table of system calls: the
init function saves the entry in a static variable and writes the address of the handler, and the
exit function writes the saved entry back. The model has the table, the static variables of the
loaded modules, and the loader: it frees a module whose init function returns an error, refuses to
load a module twice, and runs the exit function of a module that it unloads. The kernel log is left
out.

Five of the init functions cannot fail. That of `start_trace` looks two symbols up after it has
written the table, and returns `-ENOSYS` without writing the entry back if one is missing.

## Main definitions

* `Module`, `Statics`, `InitResult` — the modules, their static variables and init functions.
* `Module.init`, `Module.exit` — the init and exit function of each module.
* `Machine`, `Event`, `exec` — the table with the loaded modules, loads and unloads.
* `Restored` — the table is the original one up to the handlers of the loaded modules.

## Main results

* `restored_iff` — the table stays so exactly if no load of `start_trace` misses a symbol.
* `unloaded_table_eq` — without modules the table is then the original one.
-/

namespace OsProject.Modules

/-- A `long` of the target. -/
abbrev Word := BitVec 32

/-- The table of system calls, `long *syscall`. -/
abbrev Table := ℕ → Word

/-! ### Init and exit functions -/

/-- The modules that add a system call. -/
inductive Module
  | ptree | startTrace | stopTrace | getTrace | rrFifoTrace | setWcounts
deriving DecidableEq

/-- The number of the system call of a module. -/
def Module.slot : Module → ℕ
  | .ptree => 356
  | .startTrace => 361
  | .stopTrace => 362
  | .getTrace => 363
  | .rrFifoTrace => 364
  | .setWcounts => 365

theorem Module.slot_injective : Function.Injective Module.slot := by
  intro m m' h
  cases m <;> cases m' <;> first | rfl | cases h

/-- The static variables of a module. The pointers to kernel functions are those of
`start_trace.c`. -/
structure Statics where
  oldcall : Word := 0
  mprotectFixupS : Word := 0
  securityFileMprotectS : Word := 0

/-- What an init function returns and leaves behind. -/
structure InitResult where
  ret : ℤ
  syscall : Table
  statics : Statics

def ENOSYS : ℤ := 38

/-- `addsyscall_init` of a module that only adds its system call `nr`. -/
def addsyscallInit (nr : ℕ) (handler : Word) (syscall : Table) : InitResult where
  ret := 0
  syscall := Function.update syscall nr handler
  statics := { oldcall := syscall nr }

/-- `addsyscall_exit`. -/
def addsyscallExit (nr : ℕ) (statics : Statics) (syscall : Table) : Table :=
  Function.update syscall nr statics.oldcall

/-- `addsyscall_init` of `sys_ptree.c`. -/
def ptreeInit : Word → Table → InitResult := addsyscallInit 356

/-- `addsyscall_init` of `start_trace.c`, with the address that `kallsyms_lookup_name` finds for
each name, or 0. -/
def startTraceInit (kallsyms : String → Word) (handler : Word) (syscall : Table) : InitResult :=
  let statics : Statics := { oldcall := syscall 361 }
  let table := Function.update syscall 361 handler
  let statics := { statics with mprotectFixupS := kallsyms "mprotect_fixup" }
  if statics.mprotectFixupS = 0 then
    ⟨-ENOSYS, table, statics⟩
  else
    let statics := { statics with securityFileMprotectS := kallsyms "security_file_mprotect" }
    if statics.securityFileMprotectS = 0 then
      ⟨-ENOSYS, table, statics⟩
    else
      ⟨0, table, statics⟩

/-- `addsyscall_init` of `stop_trace.c`. -/
def stopTraceInit : Word → Table → InitResult := addsyscallInit 362

/-- `addsyscall_init` of `get_trace.c`. -/
def getTraceInit : Word → Table → InitResult := addsyscallInit 363

/-- `addsyscall_init` of `rr_fifo_trace.c`. -/
def rrFifoTraceInit : Word → Table → InitResult := addsyscallInit 364

/-- `addsyscall_init` of `set_wcounts.c`. -/
def setWcountsInit : Word → Table → InitResult := addsyscallInit 365

/-- The init function of a module. -/
def Module.init (kallsyms : String → Word) : Module → Word → Table → InitResult
  | .ptree => ptreeInit
  | .startTrace => startTraceInit kallsyms
  | .stopTrace => stopTraceInit
  | .getTrace => getTraceInit
  | .rrFifoTrace => rrFifoTraceInit
  | .setWcounts => setWcountsInit

/-- The exit function of a module. -/
def Module.exit : Module → Statics → Table → Table
  | .ptree => addsyscallExit 356
  | .startTrace => addsyscallExit 361
  | .stopTrace => addsyscallExit 362
  | .getTrace => addsyscallExit 363
  | .rrFifoTrace => addsyscallExit 364
  | .setWcounts => addsyscallExit 365

/-- A symbol that the init function of a module looks up is missing. -/
def Module.MissesSymbol (kallsyms : String → Word) (m : Module) : Prop :=
  m = .startTrace ∧ (kallsyms "mprotect_fixup" = 0 ∨ kallsyms "security_file_mprotect" = 0)

section Init

variable (kallsyms : String → Word) (m : Module) (handler : Word) (syscall : Table)

/-- Every init function writes the handler into the slot of its module, whether it fails or not. -/
theorem Module.syscall_init :
    (m.init kallsyms handler syscall).syscall = Function.update syscall m.slot handler := by
  cases m with
  | startTrace =>
    dsimp only [Module.init, startTraceInit, Module.slot]
    split
    · rfl
    · split <;> rfl
  | _ => rfl

/-- Every init function saves the entry that it finds. -/
theorem Module.oldcall_init :
    (m.init kallsyms handler syscall).statics.oldcall = syscall m.slot := by
  cases m with
  | startTrace =>
    dsimp only [Module.init, startTraceInit, Module.slot]
    split
    · rfl
    · split <;> rfl
  | _ => rfl

/-- An init function fails exactly if a symbol is missing. -/
theorem Module.ret_init_neg_iff :
    (m.init kallsyms handler syscall).ret < 0 ↔ m.MissesSymbol kallsyms := by
  cases m with
  | startTrace =>
    dsimp only [Module.init, startTraceInit, Module.MissesSymbol]
    split
    · next h => simp [ENOSYS, h]
    · next h => split <;> simp_all [ENOSYS]
  | _ => simp [Module.init, ptreeInit, stopTraceInit, getTraceInit, rrFifoTraceInit,
      setWcountsInit, addsyscallInit, Module.MissesSymbol]

end Init

theorem Module.exit_eq (m : Module) (statics : Statics) (syscall : Table) :
    m.exit statics syscall = Function.update syscall m.slot statics.oldcall := by
  cases m <;> rfl

/-! ### Loading and unloading -/

/-- A loaded module: the address of its system call, and its static variables. -/
structure Loaded where
  handler : Word
  statics : Statics

/-- The table of system calls and the loaded modules. -/
structure Machine where
  syscall : Table
  loaded : Module → Option Loaded

/-- The machine before any module is loaded. -/
def initial (original : Table) : Machine := ⟨original, fun _ => none⟩

/-- An attempt to load a module, with the address that its system call gets and the symbols of the
kernel, and an unload. -/
inductive Event
  | load (m : Module) (handler : Word) (kallsyms : String → Word)
  | unload (m : Module)

/-- One load attempt or unload. A module that is loaded is not loaded again, one that is not is not
unloaded, and one whose init function fails is freed. -/
def exec (s : Machine) : Event → Machine
  | .load m handler kallsyms =>
    match s.loaded m with
    | some _ => s
    | none =>
      let r := m.init kallsyms handler s.syscall
      if r.ret < 0 then { s with syscall := r.syscall }
      else ⟨r.syscall, Function.update s.loaded m (some ⟨handler, r.statics⟩)⟩
  | .unload m =>
    match s.loaded m with
    | some l => ⟨m.exit l.statics s.syscall, Function.update s.loaded m none⟩
    | none => s

/-- The machine after a sequence of load attempts and unloads. -/
def run (s : Machine) (as : List Event) : Machine := as.foldl exec s

@[simp] theorem run_nil (s : Machine) : run s [] = s := rfl

theorem run_concat (s : Machine) (as : List Event) (a : Event) :
    run s (as ++ [a]) = exec (run s as) a := by
  rw [run, List.foldl_concat, run]

/-- The handlers of the loaded modules. -/
def Machine.handlers (s : Machine) (m : Module) : Option Word := (s.loaded m).map Loaded.handler

/-- The slot of each module holds its handler if it is loaded and the original entry otherwise, and
the rest of the table is the original one. -/
def Restored (original : Table) (s : Machine) : Prop :=
  Overlays Module.slot original s.handlers s.syscall

/-- The table is restored, and every loaded module has saved the original entry. -/
structure Inv (original : Table) (s : Machine) : Prop where
  restored : Restored original s
  oldcall : ∀ m l, s.loaded m = some l → l.statics.oldcall = original m.slot

theorem inv_initial (original : Table) : Inv original (initial original) where
  restored := Overlays.base_none _ _
  oldcall _ _ h := nomatch h

/-- A load attempt that misses a symbol, of a module that is not loaded. The init function writes
an entry that is not the original one. -/
def SpoilsTable (original : Table) (s : Machine) (a : Event) : Prop :=
  ∃ m handler kallsyms, a = .load m handler kallsyms ∧ s.loaded m = none ∧
    m.MissesSymbol kallsyms ∧ handler ≠ original m.slot

section Step

variable {original : Table} {s : Machine} {m : Module}

theorem handlers_update (t : Table) (loaded : Module → Option Loaded) (m : Module)
    (o : Option Loaded) :
    Machine.handlers ⟨t, Function.update loaded m o⟩ =
      Function.update (Machine.handlers ⟨t, loaded⟩) m (o.map Loaded.handler) := by
  funext k
  by_cases hk : k = m
  · subst hk
    simp only [Machine.handlers, Function.update_self]
  · simp only [Machine.handlers, Function.update_of_ne hk]

/-- While a module is not loaded, its slot holds the original entry. -/
theorem Restored.syscall_slot (h : Restored original s) (hm : s.loaded m = none) :
    s.syscall m.slot = original m.slot :=
  h.at_slot_of_none (by rw [Machine.handlers, hm, Option.map_none])

theorem exec_load_loaded {handler : Word} {kallsyms : String → Word} {l : Loaded}
    (h : s.loaded m = some l) : exec s (.load m handler kallsyms) = s := by
  simp only [exec, h]

/-- A load attempt whose init function fails only writes the handler. -/
theorem exec_load_fails {handler : Word} {kallsyms : String → Word} (h : s.loaded m = none)
    (hk : m.MissesSymbol kallsyms) :
    exec s (.load m handler kallsyms) =
      { s with syscall := Function.update s.syscall m.slot handler } := by
  have hret := (Module.ret_init_neg_iff kallsyms m handler s.syscall).mpr hk
  simp only [exec, h, if_pos hret, Module.syscall_init]

theorem exec_load_succeeds (handler : Word) {kallsyms : String → Word} (h : s.loaded m = none)
    (hk : ¬ m.MissesSymbol kallsyms) : ∃ statics : Statics, statics.oldcall = s.syscall m.slot ∧
      exec s (.load m handler kallsyms) = ⟨Function.update s.syscall m.slot handler,
        Function.update s.loaded m (some ⟨handler, statics⟩)⟩ := by
  have hret := mt (Module.ret_init_neg_iff kallsyms m handler s.syscall).mp hk
  refine ⟨_, Module.oldcall_init kallsyms m handler s.syscall, ?_⟩
  simp only [exec, h, if_neg hret, Module.syscall_init]

theorem exec_unload_not_loaded (h : s.loaded m = none) : exec s (.unload m) = s := by
  simp only [exec, h]

theorem exec_unload_loaded {l : Loaded} (h : s.loaded m = some l) :
    exec s (.unload m) = ⟨Function.update s.syscall m.slot l.statics.oldcall,
      Function.update s.loaded m none⟩ := by
  simp only [exec, h, Module.exit_eq]

/-- A load attempt that does not spoil the table keeps the invariant. -/
theorem Inv.load (hs : Inv original s) {handler : Word} {kallsyms : String → Word}
    (hok : ¬ SpoilsTable original s (.load m handler kallsyms)) :
    Inv original (exec s (.load m handler kallsyms)) := by
  rcases hm : s.loaded m with _ | l
  · have hslot := hs.restored.syscall_slot hm
    by_cases hk : m.MissesSymbol kallsyms
    · -- the handler that is written is the original entry, so that nothing changes
      have he : handler = original m.slot := by
        by_contra he
        exact hok ⟨m, handler, kallsyms, rfl, hm, hk, he⟩
      rw [exec_load_fails hm hk, he, ← hslot, Function.update_eq_self]
      exact hs
    · obtain ⟨statics, hold, he⟩ := exec_load_succeeds handler hm hk
      rw [he]
      refine ⟨?_, fun k l hl => ?_⟩
      · rw [Restored, handlers_update]
        exact hs.restored.install Module.slot_injective m handler
      · by_cases hkm : k = m
        · subst hkm
          obtain rfl : ⟨handler, statics⟩ = l := by simpa using hl
          exact hold.trans hslot
        · exact hs.oldcall k l (by simpa [Function.update_of_ne hkm] using hl)
  · rw [exec_load_loaded hm]
    exact hs

/-- An unload keeps the invariant. -/
theorem Inv.unload (hs : Inv original s) (m : Module) : Inv original (exec s (.unload m)) := by
  rcases hm : s.loaded m with _ | l
  · rw [exec_unload_not_loaded hm]
    exact hs
  · rw [exec_unload_loaded hm, hs.oldcall m l hm]
    refine ⟨?_, fun k l hl => ?_⟩
    · rw [Restored, handlers_update]
      exact hs.restored.remove Module.slot_injective m
    · have hkm : k ≠ m := by
        rintro rfl
        simp at hl
      exact hs.oldcall k l (by simpa [Function.update_of_ne hkm] using hl)

theorem Inv.exec (hs : Inv original s) {a : Event} (hok : ¬ SpoilsTable original s a) :
    Inv original (exec s a) := by
  cases a with
  | load m handler kallsyms => exact hs.load hok
  | unload m => exact hs.unload m

/-- A load attempt that spoils the table leaves the handler of a module that is not loaded in its
slot. -/
theorem SpoilsTable.exec_not_restored {a : Event} (h : SpoilsTable original s a) :
    ¬ Restored original (Modules.exec s a) := by
  obtain ⟨m, handler, kallsyms, rfl, hm, hk, hne⟩ := h
  rw [exec_load_fails hm hk]
  intro hr
  have hslot : Function.update s.syscall m.slot handler m.slot = original m.slot :=
    hr.syscall_slot hm
  rw [Function.update_self] at hslot
  exact hne hslot

end Step

/-! ### Sequences of loads and unloads -/

/-- If no step of a sequence spoils the table, every point of it keeps the invariant. -/
theorem inv_run {original : Table} {as : List Event}
    (h : ∀ bs a, bs ++ [a] <+: as → ¬ SpoilsTable original (run (initial original) bs) a) :
    Inv original (run (initial original) as) := by
  induction as using List.reverseRecOn with
  | nil => exact inv_initial original
  | append_singleton as a ih =>
    have hpre : as <+: as ++ [a] := List.prefix_append as [a]
    rw [run_concat]
    exact (ih fun bs b hb => h bs b (hb.trans hpre)).exec (h as a List.prefix_rfl)

/-- For every sequence of load attempts and unloads, the table is restored at every point if and
only if no load attempt spoils it. -/
theorem restored_iff (original : Table) (as : List Event) :
    (∀ bs, bs <+: as → Restored original (run (initial original) bs)) ↔
      ∀ bs a, bs ++ [a] <+: as → ¬ SpoilsTable original (run (initial original) bs) a := by
  constructor
  · intro h bs a hpre hspoils
    have hr := h _ hpre
    rw [run_concat] at hr
    exact hspoils.exec_not_restored hr
  · intro h bs hpre
    exact (inv_run fun cs a hcs => h cs a (hcs.trans hpre)).restored

/-- The original table of the kernel, with its entry for unused numbers everywhere. -/
private def sysNiSyscall : Table := fun _ => 0xc0044a60

/-- The kernel has no security hooks: `start_trace` is not loaded, and its slot is not restored. -/
theorem not_restored :
    ¬ ∀ (original : Table) (as bs : List Event), bs <+: as →
      Restored original (run (initial original) bs) := by
  intro h
  let kallsyms : String → Word := fun name =>
    if name = "mprotect_fixup" then 0xc00a1c74 else 0
  have hr := h sysNiSyscall [.load .startTrace 0xbf000000 kallsyms] _ List.prefix_rfl
  have hslot : (0xbf000000 : Word) = 0xc0044a60 := hr.syscall_slot (m := .startTrace) rfl
  exact absurd hslot (by decide)

/-- When no load attempt spoiled the table and no module is loaded, the table is the original
one. -/
theorem unloaded_table_eq {original : Table} {as : List Event}
    (h : ∀ bs a, bs ++ [a] <+: as → ¬ SpoilsTable original (run (initial original) bs) a)
    (hnone : ∀ m, (run (initial original) as).loaded m = none) :
    (run (initial original) as).syscall = original :=
  (inv_run h).restored.eq_base fun m => by rw [Machine.handlers, hnone, Option.map_none]

end OsProject.Modules
