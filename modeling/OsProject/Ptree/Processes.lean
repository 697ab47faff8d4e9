import OsProject.Lib.Rings
import OsProject.Ptree.Syscall

/-!
# Processes that come and go

While `ptree` runs, other processes fork and exit, each time under the write lock of the list of
tasks. A fork appends the new process to the list of its parent. At the exit of a process its
children get the child reaper as their parent and move to the tail of its list, and the process is
taken off the list it is on, with `list_del_init`. The child reaper is the first process below
`init_task`, `init`, and never exits.

The lists of children stay disjoint rings under both, and every process has been born after its
parent, so that the processes form a tree at any time.

## Main definitions

* `forkTask`, `exitTask` — what a fork and an exit write to the kernel memory.
* `Family` — the lists of children in a kernel memory, and the order of the births.
* `Processes` — a kernel memory with a family.
* `Edit`, `Processes.apply` — the forks and exits.

## Main results

* `Family.fork`, `Family.exit` — the lists of children after a fork and after an exit.
-/

namespace OsProject.Ptree

open Intrusive

variable {τ : Type*}

/-! ### The writes -/

section Writes

variable [DecidableEq τ]

/-- A fork of `parent`: the list heads of the new `task_struct` are initialised, and it is added to
the list of the parent. -/
def forkTask (k : Kernel τ) (parent child : τ) (new : TaskStruct τ) : Kernel τ where
  task := Function.update k.task child { new with realParent := some parent }
  links := listAddTail (initListHead (initListHead k.links (.children child)) (.sibling child))
    (.sibling child) (.children parent)
  initTask := k.initTask

/-- A child of a process that exits gets the child reaper as its parent. -/
def reparentChild (reaper : τ) (k : Kernel τ) (child : τ) : Kernel τ where
  task := Function.update k.task child { k.task child with realParent := some reaper }
  links := listMoveTail k.links (.sibling child) (.children reaper)
  initTask := k.initTask

/-- The exit of a process with the given children. -/
def exitTask (k : Kernel τ) (reaper t : τ) (children : List τ) : Kernel τ :=
  let k := children.foldl (reparentChild reaper) k
  { k with links := listDelInit k.links (.sibling t) }

@[simp] theorem exitTask_initTask (k : Kernel τ) (reaper t : τ) (children : List τ) :
    (exitTask k reaper t children).initTask = k.initTask := by
  change (children.foldl (reparentChild reaper) k).initTask = k.initTask
  induction children generalizing k with
  | nil => rfl
  | cons c l ih => exact ih (reparentChild reaper k c)

end Writes

/-! ### Families -/

/-- The lists of children are rings in the memory, and each child has been born after its parent;
no process is born at time 0. The child reaper is a child of `init_task`, and has been born next
after it. -/
structure Family (k : Kernel τ) (reaper : τ) (children : τ → List τ) (birth : τ → ℕ) (now : ℕ) :
    Prop where
  rings : Rings k.links {p | 0 < birth p} Node.children fun p => (children p).map .sibling
  parent : ∀ p, ∀ c ∈ children p, (k.task c).realParent = some p
  birth_pos : ∀ p, ∀ c ∈ children p, 0 < birth p
  birth_lt : ∀ p, ∀ c ∈ children p, birth p < birth c
  birth_lt_now : ∀ t, birth t < now
  birth_init : birth k.initTask = 1
  birth_reaper : birth reaper = 2
  reaper_mem : reaper ∈ children k.initTask

theorem sibling_injective : Function.Injective (Node.sibling : τ → Node τ) :=
  fun _ _ h => Node.sibling.inj h

/-- The nodes of changed lists of children. -/
theorem map_update [DecidableEq τ] (children : τ → List τ) (p : τ) (l : List τ) :
    (fun q => (Function.update children p l q).map Node.sibling) =
      Function.update (fun q => (children q).map Node.sibling) p (l.map Node.sibling) := by
  funext q
  by_cases hq : q = p
  · rw [hq, Function.update_self, Function.update_self]
  · rw [Function.update_of_ne hq, Function.update_of_ne hq]

namespace Family

variable {k : Kernel τ} {reaper : τ} {children : τ → List τ} {birth : τ → ℕ} {now : ℕ}
  {p q c t : τ}

section Facts

variable (F : Family k reaper children birth now)
include F

theorem nodup (p : τ) : (children p).Nodup := by
  by_cases hp : 0 < birth p
  · exact (F.rings.nodup hp).of_map _
  · have hnil : children p = [] := by
      cases hc : children p with
      | nil => rfl
      | cons c l => exact absurd (F.birth_pos p c (hc ▸ List.mem_cons_self)) hp
    rw [hnil]
    exact List.nodup_nil

/-- A process is the child of one process only. -/
theorem parent_unique (hp : c ∈ children p) (hq : c ∈ children q) : p = q := by
  have h := F.parent p c hp
  rw [F.parent q c hq] at h
  exact (Option.some.inj h).symm

theorem child_born (hc : c ∈ children p) : 0 < birth c :=
  Nat.lt_trans (F.birth_pos p c hc) (F.birth_lt p c hc)

/-- No process is a child of itself. -/
theorem notMem_self (p : τ) : p ∉ children p := fun hp => Nat.lt_irrefl _ (F.birth_lt p p hp)

/-- `init_task` is no child. -/
theorem ne_init (hc : c ∈ children p) : c ≠ k.initTask := by
  rintro rfl
  have h₁ := F.birth_pos p _ hc
  have h₂ := F.birth_lt p _ hc
  rw [F.birth_init] at h₂
  omega

theorem init_born : 0 < birth k.initTask := by
  rw [F.birth_init]
  exact Nat.one_pos

theorem reaper_born : 0 < birth reaper := by
  rw [F.birth_reaper]
  exact Nat.two_pos

theorem reaper_ne_init : reaper ≠ k.initTask := F.ne_init F.reaper_mem

/-- The children of the other processes have been born after the child reaper. -/
theorem reaper_lt (ht : t ∈ children p) (hc : c ∈ children t) : birth reaper < birth c := by
  have h₁ := F.birth_pos p t ht
  have h₂ := F.birth_lt p t ht
  have h₃ := F.birth_lt t c hc
  rw [F.birth_reaper]
  omega

/-- A process that has not been born has no children. -/
theorem children_eq_nil (ht : birth t = 0) : children t = [] := by
  cases hc : children t with
  | nil => rfl
  | cons c l =>
    have := F.birth_pos t c (hc ▸ List.mem_cons_self)
    omega

/-- A process that has not been born is no child. -/
theorem notMem_of_unborn (ht : birth t = 0) (p : τ) : t ∉ children p := by
  intro hm
  have := F.child_born hm
  omega

end Facts

/-- The node of a process that is no child is on no list. -/
theorem sibling_notMem (hc : ∀ p, c ∉ children p) (p : τ) :
    Node.sibling c ∉ Node.children p :: (children p).map .sibling := by
  simp only [List.mem_cons, reduceCtorEq, false_or]
  rw [List.mem_map_of_injective sibling_injective]
  exact hc p

/-- The head of a list is on no other list. -/
theorem children_notMem (hpc : p ≠ c) :
    Node.children c ∉ Node.children p :: (children p).map .sibling := by
  simp [hpc.symm]

variable [DecidableEq τ]

/-- The lists of children after a fork. -/
theorem fork (F : Family k reaper children birth now) (hp : 0 < birth p) (hc : birth c = 0)
    (new : TaskStruct τ) :
    Family (forkTask k p c new) reaper (Function.update children p (children p ++ [c]))
      (Function.update birth c now) (now + 1) := by
  have hfresh := F.notMem_of_unborn hc
  have hpc : p ≠ c := by
    rintro rfl
    omega
  have hmem : ∀ q d, d ∈ Function.update children p (children p ++ [c]) q →
      d ∈ children q ∨ q = p ∧ d = c := by
    intro q d hd
    by_cases hq : q = p
    · subst hq
      rw [Function.update_self, List.mem_append, List.mem_singleton] at hd
      exact hd.imp_right fun h => ⟨rfl, h⟩
    · rw [Function.update_of_ne hq] at hd
      exact .inl hd
  have hold : ∀ q, 0 < birth q → Function.update birth c now q = birth q := by
    intro q hq
    rw [Function.update_of_ne (by rintro rfl; omega)]
  have hnow := F.birth_lt_now p
  refine ⟨?_, ?_, ?_, ?_, ?_, ?_, ?_, ?_⟩
  · have hset : {q | 0 < Function.update birth c now q} = insert c {q | 0 < birth q} := by
      ext q
      by_cases hq : q = c
      · simp [hq, Nat.lt_of_le_of_lt (Nat.zero_le _) hnow]
      · simp [hq]
    have hne : ∀ q ∈ {q | 0 < birth q}, q ≠ c := by
      rintro q hq rfl
      exact absurd hq (by simp [hc])
    rw [hset, map_update, List.map_append]
    refine Rings.listAddTail (i := p) (Rings.initListHead_other (F.rings.initListHead ?_ ?_ ?_) ?_)
      ?_ ?_
    · simp [hc]
    · rw [F.children_eq_nil hc]
      rfl
    · exact fun j hj => children_notMem (hne j hj)
    · exact fun j _ => sibling_notMem hfresh j
    · exact Set.mem_insert_of_mem _ hp
    · exact fun j _ => sibling_notMem hfresh j
  · intro q d hd
    rcases hmem q d hd with hd | ⟨rfl, rfl⟩
    · have hdc : d ≠ c := ne_of_mem_of_not_mem hd (hfresh q)
      simp only [forkTask, Function.update_of_ne hdc]
      exact F.parent q d hd
    · simp [forkTask]
  · intro q d hd
    rcases hmem q d hd with hd | ⟨rfl, rfl⟩
    · rw [hold q (F.birth_pos q d hd)]
      exact F.birth_pos q d hd
    · rwa [hold q hp]
  · intro q d hd
    rcases hmem q d hd with hd | ⟨rfl, rfl⟩
    · rw [hold q (F.birth_pos q d hd), hold d (F.child_born hd)]
      exact F.birth_lt q d hd
    · rwa [hold q hp, Function.update_self]
  · intro t
    by_cases ht : t = c
    · rw [ht, Function.update_self]
      exact Nat.lt_succ_self _
    · rw [Function.update_of_ne ht]
      exact Nat.lt_succ_of_lt (F.birth_lt_now t)
  · change Function.update birth c now k.initTask = 1
    rw [hold _ F.init_born]
    exact F.birth_init
  · rw [hold _ F.reaper_born]
    exact F.birth_reaper
  · change reaper ∈ Function.update children p (children p ++ [c]) k.initTask
    by_cases hpi : k.initTask = p
    · rw [hpi, Function.update_self]
      exact List.mem_append_left _ (hpi ▸ F.reaper_mem)
    · rw [Function.update_of_ne hpi]
      exact F.reaper_mem

/-- The lists of children after the first child of `t` has moved to the child reaper. -/
theorem reparentChild (F : Family k reaper children birth now) {l : List τ} (hp : t ∈ children p)
    (ht : children t = c :: l) (hne : t ≠ reaper) :
    Family (reparentChild reaper k c) reaper
      (Function.update (Function.update children t l) reaper (children reaper ++ [c]))
      birth now := by
  have hct : c ∈ children t := ht ▸ List.mem_cons_self
  have hinit : t ≠ k.initTask := F.ne_init hp
  have hmem : ∀ q d, d ∈ Function.update (Function.update children t l) reaper
      (children reaper ++ [c]) q → (d ∈ children q ∧ d ≠ c) ∨ q = reaper ∧ d = c := by
    intro q d hd
    have hnd := F.nodup t
    rw [ht, List.nodup_cons] at hnd
    by_cases hq : q = reaper
    · subst hq
      rw [Function.update_self, List.mem_append, List.mem_singleton] at hd
      rcases hd with hd | hd
      · exact .inl ⟨hd, by rintro rfl; exact hne (F.parent_unique hct hd)⟩
      · exact .inr ⟨rfl, hd⟩
    · rw [Function.update_of_ne hq] at hd
      by_cases hqt : q = t
      · subst hqt
        rw [Function.update_self] at hd
        exact .inl ⟨ht ▸ List.mem_cons_of_mem _ hd, ne_of_mem_of_not_mem hd hnd.1⟩
      · rw [Function.update_of_ne hqt] at hd
        exact .inl ⟨hd, by rintro rfl; exact hqt (F.parent_unique hd hct)⟩
  refine ⟨?_, ?_, ?_, ?_, F.birth_lt_now, F.birth_init, F.birth_reaper, ?_⟩
  · have hmove := F.rings.listMoveTail (i := t) (j := reaper) (x := .sibling c)
      (F.birth_pos t c hct) F.reaper_born (List.mem_map_of_mem hct) hne
    have herase : ((children t).map Node.sibling).erase (.sibling c) = l.map Node.sibling := by
      rw [ht, List.map_cons, List.erase_cons_head]
    rw [herase] at hmove
    rw [map_update, map_update, List.map_append]
    exact hmove
  · intro q d hd
    rcases hmem q d hd with ⟨hd, hdc⟩ | ⟨rfl, rfl⟩
    · simp only [Ptree.reparentChild, Function.update_of_ne hdc]
      exact F.parent q d hd
    · simp [Ptree.reparentChild]
  · intro q d hd
    rcases hmem q d hd with ⟨hd, -⟩ | ⟨rfl, rfl⟩
    · exact F.birth_pos q d hd
    · exact F.reaper_born
  · intro q d hd
    rcases hmem q d hd with ⟨hd, -⟩ | ⟨rfl, rfl⟩
    · exact F.birth_lt q d hd
    · exact F.reaper_lt hp hct
  · change reaper ∈ Function.update (Function.update children t l) reaper (children reaper ++ [c])
      k.initTask
    rw [Function.update_of_ne F.reaper_ne_init.symm, Function.update_of_ne hinit.symm]
    exact F.reaper_mem

/-- The lists of children when the first of the children of `t` moves to the reaper, and the others
after it. -/
theorem update_reparented (children : τ → List τ) {reaper t c : τ} {l : List τ} (hne : t ≠ reaper) :
    let children' := Function.update (Function.update children t l) reaper (children reaper ++ [c])
    Function.update (Function.update children' t []) reaper (children' reaper ++ l) =
      Function.update (Function.update children t []) reaper (children reaper ++ c :: l) := by
  dsimp only
  rw [Function.update_self, List.append_assoc, List.singleton_append,
    Function.update_comm hne.symm, Function.update_idem, Function.update_idem]

/-- The process itself is still on the list of its parent when some of its children have moved. -/
theorem mem_reparented (F : Family k reaper children birth now) {l cs : List τ}
    (ht : t ∈ children p) :
    t ∈ Function.update (Function.update children t l) reaper (children reaper ++ cs) p := by
  have hpt : p ≠ t := by
    rintro rfl
    exact F.notMem_self _ ht
  by_cases hp : p = reaper
  · subst hp
    rw [Function.update_self]
    exact List.mem_append_left _ ht
  · rwa [Function.update_of_ne hp, Function.update_of_ne hpt]

/-- The lists of children after all children of `t` have moved to the child reaper. -/
theorem reparentChildren {cs : List τ} (F : Family k reaper children birth now)
    (hp : t ∈ children p) (ht : children t = cs) (hne : t ≠ reaper) :
    Family (cs.foldl (Ptree.reparentChild reaper) k) reaper
      (Function.update (Function.update children t []) reaper (children reaper ++ cs))
      birth now := by
  induction cs generalizing k children with
  | nil =>
    rw [← ht, Function.update_eq_self, ht, List.append_nil, Function.update_eq_self]
    exact F
  | cons c l ih =>
    rw [List.foldl_cons, ← update_reparented children hne]
    exact ih (F.reparentChild hp ht hne) (F.mem_reparented hp)
      (by rw [Function.update_of_ne hne, Function.update_self])

/-- The lists of children after `t` has been taken off the list it is on. -/
theorem remove (F : Family k reaper children birth now) (ht : t ∈ children p) (hne : t ≠ reaper) :
    Family { k with links := listDelInit k.links (.sibling t) } reaper
      (fun q => (children q).erase t) birth now := by
  have hupdate : (fun q => (children q).erase t) =
      Function.update children p ((children p).erase t) := by
    funext q
    by_cases hq : q = p
    · rw [hq, Function.update_self]
    · rw [Function.update_of_ne hq]
      exact List.erase_of_not_mem fun hm => hq (F.parent_unique hm ht)
  refine ⟨?_, fun q c hc => ?_, fun q c hc => ?_, fun q c hc => ?_, F.birth_lt_now, F.birth_init,
    F.birth_reaper, (List.mem_erase_of_ne hne.symm).mpr F.reaper_mem⟩
  · have hdel := F.rings.listDelInit (i := p) (x := .sibling t) (F.birth_pos p t ht)
      (List.mem_map_of_mem ht)
    have hitems := map_update children p ((children p).erase t)
    rw [← hupdate, List.map_erase sibling_injective] at hitems
    rw [← hitems] at hdel
    exact hdel
  · exact F.parent q c (List.mem_of_mem_erase hc)
  · exact F.birth_pos q c (List.mem_of_mem_erase hc)
  · exact F.birth_lt q c (List.mem_of_mem_erase hc)

end Family

/-- The lists of children after the exit of `t`. -/
def exitChildren [DecidableEq τ] (reaper : τ) (children : τ → List τ) (t q : τ) : List τ :=
  (Function.update (Function.update children t []) reaper (children reaper ++ children t) q).erase t

section Exit

variable [DecidableEq τ] {k : Kernel τ} {reaper : τ} {children : τ → List τ} {birth : τ → ℕ}
  {now : ℕ} {p t : τ}

/-- The lists of children after an exit. -/
theorem Family.exit (F : Family k reaper children birth now) (ht : t ∈ children p)
    (hne : t ≠ reaper) :
    Family (exitTask k reaper t (children t)) reaper (exitChildren reaper children t) birth now :=
  (F.reparentChildren ht rfl hne).remove (F.mem_reparented ht) hne

end Exit

/-! ### Processes -/

/-- The processes in a kernel memory. -/
structure Processes (τ : Type*) where
  kernel : Kernel τ
  reaper : τ
  children : τ → List τ
  birth : τ → ℕ
  now : ℕ
  family : Family kernel reaper children birth now

/-- A fork, with the fields of the new `task_struct`, or an exit. -/
inductive Edit (τ : Type*)
  | fork (parent child : τ) (new : TaskStruct τ)
  | exit (t : τ)

namespace Processes

variable [DecidableEq τ] (P : Processes τ)

/-- The process is on the list of its parent. -/
def IsChild (t : τ) : Bool := (P.kernel.task t).realParent.any fun p => t ∈ P.children p

/-- The process is `init_task`, or on the list of its parent. -/
def Alive (t : τ) : Prop := t = P.kernel.initTask ∨ P.IsChild t = true

instance (t : τ) : Decidable (P.Alive t) := inferInstanceAs (Decidable (_ ∨ _))

theorem isChild_iff {t : τ} : P.IsChild t = true ↔ ∃ p, t ∈ P.children p := by
  constructor
  · intro h
    cases hp : (P.kernel.task t).realParent with
    | none => simp [IsChild, hp] at h
    | some p => exact ⟨p, by simpa [IsChild, hp] using h⟩
  · rintro ⟨p, hp⟩
    simp [IsChild, P.family.parent p t hp, hp]

theorem alive_born {t : τ} (h : P.Alive t) : 0 < P.birth t := by
  rcases h with rfl | h
  · exact P.family.init_born
  · obtain ⟨p, hp⟩ := P.isChild_iff.mp h
    exact P.family.child_born hp

/-- The process may exit: it is on the list of its parent, and is not the child reaper. The exit of
the child reaper is an attempt to kill `init`, and stops the kernel. -/
def MayExit (t : τ) : Prop := P.IsChild t = true ∧ t ≠ P.reaper

instance (t : τ) : Decidable (P.MayExit t) := inferInstanceAs (Decidable (_ ∧ _))

/-- The processes after a fork or an exit. Only a process that is alive forks, the new process is
one that has never been there, and neither `init_task` nor the child reaper exits. -/
def apply : Edit τ → Processes τ
  | .fork p c new =>
    if h : P.Alive p ∧ P.birth c = 0 then
      { kernel := forkTask P.kernel p c new
        reaper := P.reaper
        children := Function.update P.children p (P.children p ++ [c])
        birth := Function.update P.birth c P.now
        now := P.now + 1
        family := P.family.fork (P.alive_born h.1) h.2 new }
    else P
  | .exit t =>
    if h : P.MayExit t then
      { kernel := exitTask P.kernel P.reaper t (P.children t)
        reaper := P.reaper
        children := exitChildren P.reaper P.children t
        birth := P.birth
        now := P.now
        family := (P.isChild_iff.mp h.1).elim fun _ hp => P.family.exit hp h.2 }
    else P

end Processes

end OsProject.Ptree
