import OsProject.Lib.Rings
import OsProject.Lib.Transition
import OsProject.Lib.TreeWalk
import OsProject.Sched.Policy

/-!
# Task groups and their real-time bandwidth

The groups of tasks make up a tree, linked by a list of children in each group, by an entry of this
list in each child, and by the pointers to the parents. A group has a bandwidth: so much run time
for its real-time tasks in each period. Before a bandwidth is set the whole tree is checked, by a
walk without a stack. The limits for all groups are two `sysctl` variables; writing one of them
is not atomic, since the new value is checked, and taken back if it does not pass, after it has
been written.

## Main definitions

* `TaskGroups` — the groups, their links and bandwidths, the limits and a write in progress.
* `schedCreateGroup`, `schedDestroyGroup`, `walkTgTreeFrom`, `toRatio`, `tgRtSchedulable`,
  `tgSetRtBandwidth`, `schedGroupSetRtRuntime`, `schedGroupSetRtPeriod`, `schedRtHandlerCheck`.
* `groupSystem` — the steps of these functions in any order.
* `Hierarchy` — the tree the links and pointers make up.

## Main results

* `reachable_hierarchy` — in every reachable state the groups are a tree.
* `walk_tg_tree_from_visits` — the walk over the groups is the recursive one, from any group.

Sources: `kernel/sched/core.c`, `kernel/sched/rt.c`, `kernel/sched/sched.h`.
-/

namespace OsProject.Sched

open Intrusive RoseTree Transition TreeWalk

variable {τ δ : Type*}

/-! ### The data -/

/-- The run time of a group in each period, in nanoseconds. -/
structure RtBandwidth where
  rtPeriod : UInt64
  rtRuntime : UInt64
  deriving DecidableEq

/-- `RUNTIME_INF`, as the 64-bit number it is. -/
def runtimeInf64 : UInt64 := 0xFFFFFFFFFFFFFFFF

/-- `NSEC_PER_USEC`. -/
def nsecPerUsec : UInt64 := 1000

/-- The nodes of a group: the head of the list of its children, and its entry in the list of its
parent. -/
inductive GroupNode (τ : Type*)
  | children (tg : τ)
  | siblings (tg : τ)
  deriving DecidableEq

/-- The group in which a node is embedded. -/
def GroupNode.group : GroupNode τ → τ
  | children tg => tg
  | siblings tg => tg

/-- The task groups, the limits of their bandwidths, and the priorities of all threads. -/
structure TaskGroups (τ : Type*) where
  rootTaskGroup : τ
  /-- The list `task_groups`. -/
  groups : List τ
  links : Links (GroupNode τ)
  parent : τ → Option τ
  rtBandwidth : τ → RtBandwidth
  /-- The run time of the run queue of a group. -/
  rtRqRuntime : τ → UInt64
  /-- The group `tg` of the run queue `rt` of the processor. -/
  rqTg : τ
  sysctlSchedRtPeriod : UInt32
  sysctlSchedRtRuntime : Int32
  defRtBandwidth : RtBandwidth
  /-- The values before a write that has not been checked. -/
  old : Option (UInt32 × Int32)
  threads : List ℤ

namespace TaskGroups

variable (s : TaskGroups τ)

def globalRtPeriod : UInt64 := s.sysctlSchedRtPeriod.toUInt64 * nsecPerUsec

def globalRtRuntime : UInt64 :=
  if s.sysctlSchedRtRuntime < 0 then runtimeInf64
  else UInt64.ofInt s.sysctlSchedRtRuntime.toInt * nsecPerUsec

def rtBandwidthEnabled : Bool := 0 ≤ s.sysctlSchedRtRuntime

end TaskGroups

/-! ### Creating and destroying groups -/

section Tree

variable [DecidableEq τ] (s : TaskGroups τ)

/-- `init_rt_bandwidth` of a new group. -/
def allocRtSchedGroup (tg : τ) : TaskGroups τ :=
  { s with
    rtBandwidth := Function.update s.rtBandwidth tg ⟨s.defRtBandwidth.rtPeriod, 0⟩
    rtRqRuntime := Function.update s.rtRqRuntime tg 0 }

/-- Create the group `tg` below `parent`, when there is memory. -/
def schedCreateGroup (parent tg : τ) : TaskGroups τ :=
  let s := allocRtSchedGroup s tg
  { s with
    groups := tg :: s.groups
    parent := Function.update s.parent tg (some parent)
    links := listAdd (initListHead s.links (.children tg)) (.siblings tg) (.children parent) }

def schedDestroyGroup (tg : τ) : TaskGroups τ :=
  { s with
    groups := s.groups.erase tg
    links := listDelEntry s.links (.siblings tg) }

/-! ### The walk over the groups -/

/-- The group in front of whose entry the list of children of `p` has the node `x`, unless this is
the head of the list. -/
def childAt (p : τ) (x : GroupNode τ) : Option τ := if x = .children p then none else some x.group

/-- The pointers `walk_tg_tree_from` follows. -/
def groupPointers : Pointers τ where
  first p := childAt p (s.links.next (.children p))
  next p c := childAt p (s.links.next (.siblings c))
  parent := s.parent

/-- Visit the groups below `origin`: `down` when first entering a group, `up` when leaving it for
the final time. -/
def walkTgTreeFrom (origin : τ) (down up : τ → δ → ℤ × δ) (data : δ) : Option (ℤ × δ) :=
  walkFor (groupPointers s) down up origin (2 * s.groups.length) (.down origin, data)

def tgNop (_ : τ) (data : δ) : ℤ × δ := (0, data)

def walkTgTree (down up : τ → δ → ℤ × δ) (data : δ) : Option (ℤ × δ) :=
  walkTgTreeFrom s s.rootTaskGroup down up data

end Tree

/-! ### The checks -/

/-- The part of the time a group has, in units of `2 ^ -20`. -/
def toRatio (period runtime : UInt64) : UInt32 :=
  (if runtime = runtimeInf64 then (1 : UInt64) <<< 20 else (runtime <<< 20) / period).toUInt32

def RtBandwidth.ratio (b : RtBandwidth) : UInt32 := toRatio b.rtPeriod b.rtRuntime

/-- The group that is to be changed, and its new bandwidth. -/
structure RtSchedulableData (τ : Type*) where
  tg : Option τ
  rtPeriod : UInt64
  rtRuntime : UInt64

section Schedulable

variable [DecidableEq τ] (s : TaskGroups τ)

/-- The run queue of a thread is that of the processor, whose group is the root group. -/
def tgHasRtTasks (tg : τ) : Bool := s.threads.any fun prio => rtPrio prio && s.rqTg = tg

/-- The bandwidth of a group after the change. -/
def bandwidthIn (d : RtSchedulableData τ) (tg : τ) : RtBandwidth :=
  if some tg = d.tg then ⟨d.rtPeriod, d.rtRuntime⟩ else s.rtBandwidth tg

/-- The sum over the children; the loop ends because a list has no more entries than there are
groups. -/
def sumChildren (d : RtSchedulableData τ) (tg : τ) : UInt32 :=
  (listForEach s.links (fun x (sum : UInt32) => some (sum + (bandwidthIn s d x.group).ratio))
    (.children tg) s.groups.length 0).getD 0

/-- `EBUSY`. -/
def ebusy : ℤ := 16

/-- The new bandwidth of a group is at odds with itself, starves tasks, is more than the global
limit, or less than its children have. -/
def tgRtSchedulable (tg : τ) (d : RtSchedulableData τ) : ℤ × RtSchedulableData τ :=
  let b := bandwidthIn s d tg
  let total := b.ratio
  if b.rtPeriod < b.rtRuntime ∧ b.rtRuntime ≠ runtimeInf64 then (-einval, d)
  else if s.rtBandwidthEnabled ∧ b.rtRuntime = 0 ∧ tgHasRtTasks s tg then (-ebusy, d)
  else if toRatio s.globalRtPeriod s.globalRtRuntime < total then (-einval, d)
  else if total < sumChildren s d tg then (-einval, d)
  else (0, d)

/-- `__rt_schedulable`. -/
def rtSchedulable (tg : Option τ) (period runtime : UInt64) : Option ℤ :=
  (walkTgTree s (tgRtSchedulable s) tgNop ⟨tg, period, runtime⟩).map Prod.fst

/-! ### Setting a bandwidth -/

/-- The result, and the groups with the new bandwidth unless it is an error. -/
def tgSetRtBandwidth (tg : τ) (rtPeriod rtRuntime : UInt64) : Option (ℤ × TaskGroups τ) :=
  (rtSchedulable s (some tg) rtPeriod rtRuntime).map fun err =>
    if err ≠ 0 then (err, s)
    else (0, { s with
      rtBandwidth := Function.update s.rtBandwidth tg ⟨rtPeriod, rtRuntime⟩
      rtRqRuntime := Function.update s.rtRqRuntime tg rtRuntime })

/-- The run time for a number of microseconds; negative numbers lift the limit. -/
def runtimeOfUs (rtRuntimeUs : Int32) : UInt64 :=
  if rtRuntimeUs < 0 then runtimeInf64 else UInt64.ofInt rtRuntimeUs.toInt * nsecPerUsec

def schedGroupSetRtRuntime (tg : τ) (rtRuntimeUs : Int32) : Option (ℤ × TaskGroups τ) :=
  tgSetRtBandwidth s tg (s.rtBandwidth tg).rtPeriod (runtimeOfUs rtRuntimeUs)

def schedGroupRtRuntime (tg : τ) : Int32 :=
  if (s.rtBandwidth tg).rtRuntime = runtimeInf64 then -1
  else Int32.ofNat ((s.rtBandwidth tg).rtRuntime / nsecPerUsec).toNat

def schedGroupSetRtPeriod (tg : τ) (rtPeriodUs : Int32) : Option (ℤ × TaskGroups τ) :=
  let rtPeriod := UInt64.ofInt rtPeriodUs.toInt * nsecPerUsec
  if rtPeriod = 0 then some (-einval, s)
  else tgSetRtBandwidth s tg rtPeriod (s.rtBandwidth tg).rtRuntime

def schedGroupRtPeriod (tg : τ) : Int32 :=
  Int32.ofNat ((s.rtBandwidth tg).rtPeriod / nsecPerUsec).toNat

/-! ### Writing the limits -/

def schedRtGlobalConstraints : Option ℤ :=
  if s.sysctlSchedRtPeriod = 0 then some (-einval)
  else if s.globalRtPeriod < s.globalRtRuntime ∧ s.globalRtRuntime ≠ runtimeInf64 then some (-einval)
  else rtSchedulable s none 0 0

/-- The end of `sched_rt_handler`, after it has written one of the variables: they are checked and
taken back, or made the default. -/
def schedRtHandlerCheck (old : UInt32 × Int32) : Option (TaskGroups τ) :=
  (schedRtGlobalConstraints s).map fun ret =>
    if ret ≠ 0 then
      { s with
        sysctlSchedRtPeriod := old.1
        sysctlSchedRtRuntime := old.2
        old := none }
    else { s with defRtBandwidth := ⟨s.globalRtPeriod, s.globalRtRuntime⟩, old := none }

/-! ### The system -/

/-- The steps of groups, of writes of the limits, and of threads that come, go and change their
priorities. -/
inductive GroupOp (τ : Type*)
  | create (parent tg : τ)
  | destroy (tg : τ)
  | setRtRuntime (tg : τ) (rtRuntimeUs : Int32)
  | setRtPeriod (tg : τ) (rtPeriodUs : Int32)
  | writeRtPeriod (value : UInt32)
  | writeRtRuntime (value : Int32)
  | checkWrite
  | threads (prios : List ℤ)

/-- Execute a step. New groups are new memory, and `cgroup_rmdir` only lets groups without
children go. The mutex of `sched_rt_handler` lets no write begin during another one. -/
def groupExec : GroupOp τ → Option (TaskGroups τ)
  | .create parent tg =>
    if parent ∈ s.groups ∧ tg ∉ s.groups then some (schedCreateGroup s parent tg) else none
  | .destroy tg =>
    if tg ∈ s.groups ∧ tg ≠ s.rootTaskGroup ∧ listEmpty s.links (.children tg) then
      some (schedDestroyGroup s tg)
    else none
  | .setRtRuntime tg us =>
    if tg ∈ s.groups then (schedGroupSetRtRuntime s tg us).map Prod.snd else none
  | .setRtPeriod tg us =>
    if tg ∈ s.groups then (schedGroupSetRtPeriod s tg us).map Prod.snd else none
  | .writeRtPeriod value =>
    if s.old = none then
      some { s with
        sysctlSchedRtPeriod := value
        old := some (s.sysctlSchedRtPeriod, s.sysctlSchedRtRuntime) }
    else none
  | .writeRtRuntime value =>
    if s.old = none then
      some { s with
        sysctlSchedRtRuntime := value
        old := some (s.sysctlSchedRtPeriod, s.sysctlSchedRtRuntime) }
    else none
  | .checkWrite => s.old.bind (schedRtHandlerCheck s)
  | .threads prios => some { s with threads := prios }

/-- After `sched_init`: the root group has what the limits allow. -/
structure GroupBoot (s : TaskGroups τ) : Prop where
  groups : s.groups = [s.rootTaskGroup]
  children : s.links.next (.children s.rootTaskGroup) = .children s.rootTaskGroup ∧
    s.links.prev (.children s.rootTaskGroup) = .children s.rootTaskGroup
  parent : s.parent s.rootTaskGroup = none
  period : s.sysctlSchedRtPeriod = 1000000
  runtime : s.sysctlSchedRtRuntime = 950000
  bandwidth : s.rtBandwidth s.rootTaskGroup = ⟨s.globalRtPeriod, s.globalRtRuntime⟩
  rtRqRuntime : s.rtRqRuntime s.rootTaskGroup = s.globalRtRuntime
  rqTg : s.rqTg = s.rootTaskGroup
  default : s.defRtBandwidth = ⟨s.globalRtPeriod, s.globalRtRuntime⟩
  old : s.old = none

def groupSystem : System (TaskGroups τ) (GroupOp τ) := .ofExec GroupBoot groupExec

end Schedulable

/-! ### The tree of the groups -/

/-- The tree `t` is the one that the lists of children and the pointers to the parents make up. -/
structure Hierarchy (s : TaskGroups τ) (kids : τ → List τ) (t : RoseTree τ) : Prop where
  val : t.val = s.rootTaskGroup
  branches : t.Branches kids
  nodup : t.preorder.Nodup
  mem : ∀ g, g ∈ t.preorder ↔ g ∈ s.groups
  groups : s.groups.Nodup
  rings : Rings s.links {g | g ∈ s.groups} .children fun g => (kids g).map .siblings
  parent : ∀ g ∈ s.groups, ∀ c ∈ kids g, s.parent c = some g
  root : s.parent s.rootTaskGroup = none

variable [DecidableEq τ] {s s' : TaskGroups τ} {kids : τ → List τ} {t : RoseTree τ}

namespace Hierarchy

omit [DecidableEq τ] in
theorem congr (h : Hierarchy s kids t) (hroot : s'.rootTaskGroup = s.rootTaskGroup)
    (hgroups : s'.groups = s.groups) (hlinks : s'.links = s.links) (hparent : s'.parent = s.parent) :
    Hierarchy s' kids t where
  val := hroot ▸ h.val
  branches := h.branches
  nodup := h.nodup
  mem := hgroups ▸ h.mem
  groups := hgroups ▸ h.groups
  rings := by rw [hlinks, hgroups]; exact h.rings
  parent := by rw [hgroups, hparent]; exact h.parent
  root := by rw [hparent, hroot]; exact h.root

omit [DecidableEq τ] in
theorem root_mem (h : Hierarchy s kids t) : s.rootTaskGroup ∈ s.groups :=
  (h.mem _).mp (h.val ▸ t.val_mem_preorder)

omit [DecidableEq τ] in
theorem kids_mem (h : Hierarchy s kids t) {g c : τ} (hg : g ∈ s.groups) (hc : c ∈ kids g) :
    c ∈ s.groups :=
  (h.mem c).mp (h.branches.kids_subset g ((h.mem g).mpr hg) c hc)

omit [DecidableEq τ] in
theorem kids_nodup (h : Hierarchy s kids t) {g : τ} (hg : g ∈ s.groups) : (kids g).Nodup :=
  (h.rings.nodup hg).of_map _

omit [DecidableEq τ] in
/-- A group other than the root is on the list of its parent. -/
theorem exists_parent (h : Hierarchy s kids t) {g : τ} (hg : g ∈ s.groups)
    (hne : g ≠ s.rootTaskGroup) : ∃ p ∈ s.groups, s.parent g = some p ∧ g ∈ kids p := by
  rcases h.branches.mem_cases g ((h.mem g).mpr hg) with hval | ⟨p, hp, hgp⟩
  · exact absurd (hval.trans h.val) hne
  · have hp' := (h.mem p).mp hp
    exact ⟨p, hp', h.parent p hp' g hgp, hgp⟩

omit [DecidableEq τ] in
theorem mem_kids_iff (h : Hierarchy s kids t) {g c : τ} (hg : g ∈ s.groups) (hc : c ∈ s.groups) :
    c ∈ kids g ↔ s.parent c = some g := by
  refine ⟨h.parent g hg c, fun hp => ?_⟩
  have hne : c ≠ s.rootTaskGroup := fun he => by
    rw [he, h.root] at hp
    exact absurd hp (by simp)
  obtain ⟨p, -, hp', hmem⟩ := h.exists_parent hc hne
  obtain rfl : g = p := Option.some.inj (hp.symm.trans hp')
  exact hmem

/-! ### Steps -/

/-- The new group becomes the first child of its parent. -/
theorem create (h : Hierarchy s kids t) {p c : τ} (hp : p ∈ s.groups) (hc : c ∉ s.groups) :
    Hierarchy (schedCreateGroup s p c) (Function.update (Function.update kids c []) p (c :: kids p))
      (t.grow p c) := by
  have hpc : p ≠ c := fun he => hc (he ▸ hp)
  have hroot : s.rootTaskGroup ≠ c := fun he => hc (he ▸ h.root_mem)
  obtain ⟨kids', hkids'⟩ : ∃ kids', kids' =
    Function.update (Function.update kids c []) p (c :: kids p) := ⟨_, rfl⟩
  have hkp : kids' p = c :: kids p := by rw [hkids', Function.update_self]
  have hkc : kids' c = [] := by
    rw [hkids', Function.update_of_ne hpc.symm, Function.update_self]
  have hkother : ∀ g, g ≠ p → g ≠ c → kids' g = kids g := fun g hgp hgc => by
    rw [hkids', Function.update_of_ne hgp, Function.update_of_ne hgc]
  have hperm := RoseTree.preorder_grow (c := c) h.nodup ((h.mem p).mpr hp)
  have hgroups : {g | g ∈ c :: s.groups} = insert c {g | g ∈ s.groups} := by ext g; simp
  rw [← hkids']
  refine ⟨(val_grow t).trans h.val, h.branches.grow hkp hkc fun g hg hgp => ?_, ?_, fun g => ?_,
    List.nodup_cons.mpr ⟨hc, h.groups⟩, ?_, fun g hg d hd => ?_, ?_⟩
  · exact hkother g hgp fun he => hc (he ▸ (h.mem g).mp hg)
  · rw [hperm.nodup_iff, List.nodup_cons, h.mem]
    exact ⟨hc, h.nodup⟩
  · rw [hperm.mem_iff, List.mem_cons, h.mem]
    exact List.mem_cons.symm
  · -- the list of the new group is made, then its entry goes on the list of the parent
    have hold : Rings s.links {g | g ∈ s.groups} .children fun g =>
        (Function.update kids c [] g).map .siblings :=
      h.rings.congr fun g hg => by
        have hgc : g ≠ c := fun he => hc (he ▸ hg)
        rw [Function.update_of_ne hgc]
    have hsib : ∀ g ∈ s.groups, GroupNode.siblings c ∉
        .children g :: (Function.update kids c [] g).map .siblings := fun g hg hmem => by
      have hgc : g ≠ c := fun he => hc (he ▸ hg)
      rw [Function.update_of_ne hgc] at hmem
      simp only [List.mem_cons, reduceCtorEq, List.mem_map, GroupNode.siblings.injEq,
        exists_eq_right, false_or] at hmem
      exact hc (h.kids_mem hg hmem)
    have hinit := hold.initListHead (i := c) hc (by simp) fun g hg hmem => by
      have hgc : g ≠ c := fun he => hc (he ▸ hg)
      simp only [List.mem_cons, GroupNode.children.injEq, List.mem_map, reduceCtorEq,
        and_false, exists_false, or_false] at hmem
      exact hgc hmem.symm
    rw [← hgroups] at hinit
    have hadd := hinit.listAdd (i := p) (x := .siblings c) (List.mem_cons_of_mem _ hp)
      fun g hg => by
        rcases List.mem_cons.mp hg with rfl | hg
        · simp
        · exact hsib g hg
    refine hadd.congr fun g _ => ?_
    by_cases hgp : g = p
    · subst hgp
      rw [hkp, Function.update_self, Function.update_of_ne hpc, List.map_cons]
    · rw [hkids', Function.update_of_ne hgp, Function.update_of_ne hgp]
  · change Function.update s.parent c (some p) d = some g
    by_cases hgp : g = p
    · subst hgp
      rw [hkp] at hd
      rcases List.mem_cons.mp hd with rfl | hd
      · rw [Function.update_self]
      · have hdc : d ≠ c := fun he => hc (he ▸ h.kids_mem hp hd)
        rw [Function.update_of_ne hdc, h.parent g hp d hd]
    · by_cases hgc : g = c
      · rw [hgc, hkc] at hd
        exact absurd hd List.not_mem_nil
      · rw [hkother g hgp hgc] at hd
        have hg' : g ∈ s.groups := (List.mem_cons.mp hg).resolve_left hgc
        have hdc : d ≠ c := fun he => hc (he ▸ h.kids_mem hg' hd)
        rw [Function.update_of_ne hdc, h.parent g hg' d hd]
  · change Function.update s.parent c (some p) s.rootTaskGroup = none
    rw [Function.update_of_ne hroot, h.root]

/-- A group without children leaves the list of its parent. -/
theorem destroy (h : Hierarchy s kids t) {c : τ} (hc : c ∈ s.groups) (hne : c ≠ s.rootTaskGroup)
    (hleaf : listEmpty s.links (.children c)) :
    ∃ kids' t', Hierarchy (schedDestroyGroup s c) kids' t' ∧
      ∀ g, kids' g = (kids g).filter (· ≠ c) := by
  obtain ⟨p, hp, hparent, hcp⟩ := h.exists_parent hc hne
  have hkc : kids c = [] := by
    have hnext := (h.rings.ring c hc).head_next_eq_iff.mp (listEmpty_iff.mp hleaf)
    exact List.map_eq_nil_iff.mp hnext
  have hval : t.val ≠ c := fun he => hne (he ▸ h.val)
  have hpre : (t.prune c).preorder = t.preorder.filter (· ≠ c) :=
    RoseTree.preorder_prune hkc h.branches hval
  refine ⟨fun g => (kids g).filter (· ≠ c), t.prune c, ⟨(val_prune t).trans h.val,
    h.branches.prune hval fun _ _ _ => rfl, ?_, fun g => ?_, h.groups.erase c, ?_,
    fun g hg d hd => ?_, h.root⟩, fun _ => rfl⟩
  · rw [hpre]
    exact h.nodup.filter _
  · rw [hpre, List.mem_filter, h.mem]
    change _ ↔ g ∈ s.groups.erase c
    rw [h.groups.mem_erase_iff]
    simp [and_comm]
  · have hx : GroupNode.siblings c ∈ (kids p).map GroupNode.siblings := List.mem_map_of_mem hcp
    have hdel := h.rings.listDelEntry hp hx
    refine (hdel.mono fun g hg => List.mem_of_mem_erase hg).congr fun g hg => ?_
    have hg' : g ∈ s.groups := List.mem_of_mem_erase hg
    have hinj : Function.Injective (GroupNode.siblings : τ → GroupNode τ) := fun _ _ he =>
      GroupNode.siblings.inj he
    by_cases hgp : g = p
    · subst hgp
      rw [Function.update_self, ← List.map_erase hinj, (h.kids_nodup hg').erase_eq_filter]
      exact congrArg _ (List.filter_congr fun d _ => by by_cases hd : d = c <;> simp [hd])
    · rw [Function.update_of_ne hgp, List.filter_eq_self.mpr fun d hd => ?_]
      have hdc : d ≠ c := fun he => by
        have := h.parent g hg' d hd
        rw [he, hparent] at this
        exact hgp (Option.some.inj this).symm
      simpa using hdc
  · exact h.parent g (List.mem_of_mem_erase hg) d (List.mem_filter.mp hd).1

/-- At every group the pointers are those of the tree. -/
theorem follows (h : Hierarchy s kids t) {p : τ} (hp : p ∈ s.groups) :
    (groupPointers s).Follows kids p where
  first := by
    have hring := h.rings.ring p hp
    change childAt p (s.links.next (.children p)) = _
    rw [hring.next_head]
    cases kids p <;> simp [childAt, GroupNode.group]
  next := by
    intro l₁ c l₂ hk
    have hring := h.rings.ring p hp
    rw [hk, List.map_append, List.map_cons] at hring
    change childAt p (s.links.next (.siblings c)) = _
    rw [hring.next_eq]
    cases l₂ <;> simp [childAt, GroupNode.group]
  parent := h.parent p hp

omit [DecidableEq τ] in
theorem boot (h : GroupBoot s) :
    Hierarchy s (fun _ => []) (.node s.rootTaskGroup []) where
  val := rfl
  branches := by simp [Branches, ForestBranches]
  nodup := by simp [preorder, forestPreorder]
  mem g := by simp [preorder, forestPreorder, h.groups]
  groups := by simp [h.groups]
  rings := by
    rw [h.groups]
    refine ⟨fun g hg => ?_, fun g hg g' hg' hne => ?_⟩
    · obtain rfl : g = s.rootTaskGroup := by simpa using hg
      exact ⟨by simpa using h.children, by simp⟩
    · have hg : g = s.rootTaskGroup := by simpa using hg
      have hg' : g' = s.rootTaskGroup := by simpa using hg'
      exact absurd (hg.trans hg'.symm) hne
  parent _ _ c hc := absurd hc List.not_mem_nil
  root := h.parent

end Hierarchy

/-- The groups with a new bandwidth for one of them. -/
def TaskGroups.setBandwidth (s : TaskGroups τ) (tg : τ) (b : RtBandwidth) : TaskGroups τ :=
  { s with
    rtBandwidth := Function.update s.rtBandwidth tg b
    rtRqRuntime := Function.update s.rtRqRuntime tg b.rtRuntime }

/-- What a step does. -/
inductive GroupStep (s : TaskGroups τ) : GroupOp τ → TaskGroups τ → Prop
  | create {p c : τ} (hp : p ∈ s.groups) (hc : c ∉ s.groups) :
      GroupStep s (.create p c) (schedCreateGroup s p c)
  | destroy {c : τ} (hc : c ∈ s.groups) (hne : c ≠ s.rootTaskGroup)
      (hleaf : listEmpty s.links (.children c)) : GroupStep s (.destroy c) (schedDestroyGroup s c)
  /-- A bandwidth is refused. -/
  | refuse (op : GroupOp τ) : GroupStep s op s
  | setRtRuntime {tg : τ} (ht : tg ∈ s.groups) (us : Int32) {b : RtBandwidth}
      (hb : b.rtRuntime = runtimeOfUs us)
      (hret : rtSchedulable s (some tg) b.rtPeriod b.rtRuntime = some 0) :
      GroupStep s (.setRtRuntime tg us) (s.setBandwidth tg b)
  | setRtPeriod {tg : τ} (ht : tg ∈ s.groups) (us : Int32) {b : RtBandwidth}
      (hb : b.rtRuntime = (s.rtBandwidth tg).rtRuntime)
      (hret : rtSchedulable s (some tg) b.rtPeriod b.rtRuntime = some 0) :
      GroupStep s (.setRtPeriod tg us) (s.setBandwidth tg b)
  | write {op : GroupOp τ} (hold : s.old = none) (period : UInt32) (runtime : Int32) :
      GroupStep s op { s with
        sysctlSchedRtPeriod := period
        sysctlSchedRtRuntime := runtime
        old := some (s.sysctlSchedRtPeriod, s.sysctlSchedRtRuntime) }
  | takeBack {old : UInt32 × Int32} (hold : s.old = some old) :
      GroupStep s .checkWrite { s with
        sysctlSchedRtPeriod := old.1
        sysctlSchedRtRuntime := old.2
        old := none }
  | pass {old : UInt32 × Int32} (hold : s.old = some old)
      (hret : schedRtGlobalConstraints s = some 0) :
      GroupStep s .checkWrite { s with
        defRtBandwidth := ⟨s.globalRtPeriod, s.globalRtRuntime⟩
        old := none }
  | threads (prios : List ℤ) : GroupStep s (.threads prios) { s with threads := prios }

/-- The result of setting a bandwidth. -/
theorem tgSetRtBandwidth_cases {tg : τ} {b : RtBandwidth} {ret : ℤ}
    (h : tgSetRtBandwidth s tg b.rtPeriod b.rtRuntime = some (ret, s')) :
    rtSchedulable s (some tg) b.rtPeriod b.rtRuntime = some ret ∧
      (ret ≠ 0 ∧ s' = s ∨ ret = 0 ∧ s' = s.setBandwidth tg b) := by
  rw [tgSetRtBandwidth, Option.map_eq_some_iff] at h
  obtain ⟨err, herr, hres⟩ := h
  split_ifs at hres with h0
  · obtain ⟨rfl, rfl⟩ := Prod.mk.inj hres
    exact ⟨herr, .inl ⟨h0, rfl⟩⟩
  · obtain ⟨rfl, rfl⟩ := Prod.mk.inj hres
    exact ⟨by rw [herr, not_not.mp h0], .inr ⟨rfl, rfl⟩⟩

theorem groupStep_of_exec {op : GroupOp τ} (hx : groupExec s op = some s') :
    GroupStep s op s' := by
  cases op with
  | create p c =>
    rw [groupExec, Option.ite_none_right_eq_some] at hx
    obtain ⟨⟨hp, hc⟩, hs⟩ := hx
    exact Option.some.inj hs ▸ .create hp hc
  | destroy c =>
    rw [groupExec, Option.ite_none_right_eq_some] at hx
    obtain ⟨⟨hc, hne, hleaf⟩, hs⟩ := hx
    exact Option.some.inj hs ▸ .destroy hc hne hleaf
  | setRtRuntime tg us =>
    rw [groupExec, Option.ite_none_right_eq_some, Option.map_eq_some_iff] at hx
    obtain ⟨ht, ⟨ret, u⟩, hset, rfl⟩ := hx
    obtain ⟨hret, ⟨-, hs⟩ | ⟨rfl, hs⟩⟩ :=
      tgSetRtBandwidth_cases (b := ⟨(s.rtBandwidth tg).rtPeriod, runtimeOfUs us⟩) hset
    · exact hs ▸ .refuse _
    · exact hs ▸ .setRtRuntime ht us rfl hret
  | setRtPeriod tg us =>
    rw [groupExec, Option.ite_none_right_eq_some, Option.map_eq_some_iff] at hx
    obtain ⟨ht, ⟨ret, u⟩, hset, rfl⟩ := hx
    rw [schedGroupSetRtPeriod] at hset
    split_ifs at hset
    · exact (Prod.mk.inj (Option.some.inj hset)).2 ▸ .refuse _
    obtain ⟨hret, ⟨-, hs⟩ | ⟨rfl, hs⟩⟩ :=
      tgSetRtBandwidth_cases (b := ⟨UInt64.ofInt us.toInt * nsecPerUsec, _⟩) hset
    · exact hs ▸ .refuse _
    · exact hs ▸ .setRtPeriod ht us rfl hret
  | writeRtPeriod value =>
    rw [groupExec, Option.ite_none_right_eq_some] at hx
    exact Option.some.inj hx.2 ▸ .write hx.1 value s.sysctlSchedRtRuntime
  | writeRtRuntime value =>
    rw [groupExec, Option.ite_none_right_eq_some] at hx
    exact Option.some.inj hx.2 ▸ .write hx.1 s.sysctlSchedRtPeriod value
  | checkWrite =>
    rw [groupExec, Option.bind_eq_some_iff] at hx
    obtain ⟨old, hold, hcheck⟩ := hx
    rw [schedRtHandlerCheck, Option.map_eq_some_iff] at hcheck
    obtain ⟨ret, hret, hs⟩ := hcheck
    split_ifs at hs with h0
    · exact hs ▸ .takeBack hold
    · exact hs ▸ .pass hold (by rw [hret, not_not.mp h0])
  | threads prios => exact Option.some.inj hx ▸ .threads prios

/-- Every step keeps the groups a tree. -/
theorem Hierarchy.step (h : Hierarchy s kids t) {op : GroupOp τ} (hx : GroupStep s op s') :
    ∃ kids' t', Hierarchy s' kids' t' := by
  cases hx with
  | create hp hc => exact ⟨_, _, h.create hp hc⟩
  | destroy hc hne hleaf =>
    obtain ⟨kids', t', h', -⟩ := h.destroy hc hne hleaf
    exact ⟨kids', t', h'⟩
  | refuse => exact ⟨kids, t, h⟩
  | setRtRuntime | setRtPeriod | write | takeBack | pass | threads =>
    exact ⟨kids, t, h.congr rfl rfl rfl rfl⟩

theorem reachable_hierarchy (h : Reachable groupSystem s) : ∃ kids t, Hierarchy s kids t := by
  induction h with
  | init hs => exact ⟨_, _, Hierarchy.boot hs⟩
  | step _ hstep ih =>
    obtain ⟨kids, t, ih⟩ := ih
    exact ih.step (groupStep_of_exec hstep)

/-- The root group `0` and nothing else. -/
def referenceGroups : TaskGroups ℕ where
  rootTaskGroup := 0
  groups := [0]
  links := { next := id, prev := id }
  parent _ := none
  rtBandwidth _ := ⟨1000000000, 950000000⟩
  rtRqRuntime _ := 950000000
  rqTg := 0
  sysctlSchedRtPeriod := 1000000
  sysctlSchedRtRuntime := 950000
  defRtBandwidth := ⟨1000000000, 950000000⟩
  old := none
  threads := []

theorem groupBoot_referenceGroups : GroupBoot referenceGroups := by
  constructor <;> decide

/-- Two groups below the root, one of them with a group of its own, all with run times; a limit
that is too low for them is taken back. -/
def nestedGroups : List (GroupOp ℕ) :=
  [.create 0 1, .create 0 2, .create 1 3, .threads [50, 120], .setRtRuntime 1 300000,
    .setRtRuntime 2 200000, .setRtRuntime 3 100000, .writeRtRuntime 400000, .checkWrite,
    .setRtRuntime 1 50000]

/-! ### The walk -/

/-- A group is below another one. -/
abbrev Below (s : TaskGroups τ) : τ → τ → Prop := (groupPointers s).Below

/-- The groups below one make up a tree. -/
theorem Hierarchy.subtree (h : Hierarchy s kids t) {origin : τ} (ho : origin ∈ s.groups) :
    ∃ u : RoseTree τ, u.val = origin ∧ u.Branches kids ∧ u.preorder.Nodup ∧
      ∀ g, g ∈ u.preorder ↔ g ∈ s.groups ∧ (g = origin ∨ Below s g origin) := by
  obtain ⟨u, hval, hu, hsub⟩ := h.branches.exists_subtree origin ((h.mem origin).mpr ho)
  have hmem : ∀ g ∈ u.preorder, g ∈ s.groups := fun g hg => (h.mem g).mp (hsub.subset hg)
  refine ⟨u, hval, hu, hsub.nodup h.nodup, fun g => ⟨fun hg => ⟨hmem g hg, ?_⟩, fun ⟨hg, hb⟩ => ?_⟩⟩
  · exact hval ▸ below_val hu (fun a ha => h.follows (hmem a ha)) g hg
  · rcases hb with rfl | hb
    · exact hval ▸ u.val_mem_preorder
    · -- from the origin down: a child of a group in the tree is in it
      induction hb using Relation.TransGen.head_induction_on with
      | single hp =>
        have hk := (h.mem_kids_iff ho hg).mpr hp
        exact hu.kids_subset origin (hval ▸ u.val_mem_preorder) _ hk
      | @head g b hp hb ih =>
        have hne : g ≠ s.rootTaskGroup := fun he => by
          have hp' : s.parent g = some b := hp
          rw [he, h.root] at hp'
          exact absurd hp' (by simp)
        obtain ⟨q, hq, hpq, hgq⟩ := h.exists_parent hg hne
        obtain rfl : b = q := Option.some.inj (hp.symm.trans hpq)
        have hbo : b = origin ∨ Below s b origin := .inr hb
        exact hu.kids_subset b (ih ⟨hq, hbo⟩ hq) _ hgq

/-- In every reachable state the walk from any group visits the tree of the groups below it as the
recursive walk does, whatever the visits do: it enters a group before those below it, leaves it
after them, takes the children of a group in the order of its list, and ends at the first error. -/
theorem walk_tg_tree_from_visits (h : Reachable groupSystem s) {origin : τ}
    (ho : origin ∈ s.groups) :
    ∃ (kids : τ → List τ) (u : RoseTree τ),
      (∀ g ∈ s.groups, Ring s.links (.children g) ((kids g).map .siblings)) ∧
        u.val = origin ∧ u.Branches kids ∧ u.preorder.Nodup ∧
        (∀ g, g ∈ u.preorder ↔ g ∈ s.groups ∧ (g = origin ∨ Below s g origin)) ∧
        ∀ {δ : Type*} (down up : τ → δ → ℤ × δ) (data : δ),
          walkTgTreeFrom s origin down up data = some (u.visit down up data) := by
  obtain ⟨kids, t, hh⟩ := reachable_hierarchy h
  obtain ⟨u, hval, hu, hnd, hmem⟩ := hh.subtree ho
  refine ⟨kids, u, hh.rings.ring, hval, hu, hnd, hmem, fun down up data => ?_⟩
  have hlen : u.size ≤ s.groups.length := by
    rw [← u.length_preorder]
    exact (hnd.subperm fun g hg => ((hmem g).mp hg).1).length_le
  rw [walkTgTreeFrom, ← hval]
  exact walkFor_eq_visit hu hnd (fun a ha => hh.follows ((hmem a).mp ha).1) (by omega) data

theorem walk_tg_tree_from_visits_nestedGroups :
    ∃ s, execAll groupExec referenceGroups nestedGroups = some s ∧
      ∃ (kids : ℕ → List ℕ) (u : RoseTree ℕ),
        (∀ g ∈ s.groups, Ring s.links (.children g) ((kids g).map .siblings)) ∧
          u.val = 1 ∧ u.Branches kids ∧ u.preorder.Nodup ∧
          (∀ g, g ∈ u.preorder ↔ g ∈ s.groups ∧ (g = 1 ∨ Below s g 1)) ∧
          ∀ {δ : Type} (down up : ℕ → δ → ℤ × δ) (data : δ),
            walkTgTreeFrom s 1 down up data = some (u.visit down up data) := by
  obtain ⟨s, hs⟩ : ∃ s, s = (execAll groupExec referenceGroups nestedGroups).get
    (by decide +kernel) := ⟨_, rfl⟩
  have hrun : execAll groupExec referenceGroups nestedGroups = some s := by simp [hs]
  have hmem : 1 ∈ s.groups := by rw [hs]; decide +kernel
  exact ⟨s, hrun, walk_tg_tree_from_visits
    ((Reachable.init groupBoot_referenceGroups).run (run_of_execAll hrun)) hmem⟩

end OsProject.Sched
