import OsProject.Ptree.Completion
import OsProject.Ptree.Listing

/-!
# An exit below a cursor

When a process exits while a cursor of the walk is on its node, `list_del_init` links the node to
itself. The loop with this cursor comes back to the process for ever: it never reaches the head of
the list, whatever happens afterwards, and each time there is room it stores one more record of the
process.

## Main definitions

* `Unlinked` — a process that is on no list, with its node linked to itself.

## Main results

* `World.never_done` — after such an exit the call does not end.
* `not_survives` — a run in which this happens.

Source: `sys_ptree.c`.
-/

namespace OsProject.Ptree

open Intrusive

variable {τ : Type*} [DecidableEq τ]

/-- The process has been born and is on no list, and its node is linked to itself. -/
structure Unlinked (k : Kernel τ) (children : τ → List τ) (birth : τ → ℕ) (t : τ) : Prop where
  born : 0 < birth t
  notMem : ∀ p, t ∉ children p
  next_eq : k.links.next (.sibling t) = .sibling t

namespace Unlinked

variable {k : Kernel τ} {reaper : τ} {children : τ → List τ} {birth : τ → ℕ} {now : ℕ}
  {p c s t : τ}

omit [DecidableEq τ] in
theorem sibling_notMem (h : Unlinked k children birth t) (p : τ) :
    Node.sibling t ∉ Node.children p :: (children p).map .sibling := Family.sibling_notMem h.notMem p

/-- A fork leaves the process as it is. -/
theorem fork (F : Family k reaper children birth now) (h : Unlinked k children birth t)
    (hp : 0 < birth p) (hc : birth c = 0) (new : TaskStruct τ) :
    Unlinked (forkTask k p c new) (Function.update children p (children p ++ [c]))
      (Function.update birth c now) t := by
  have htc : t ≠ c := by
    rintro rfl
    have := h.born
    omega
  refine ⟨?_, fun q => ?_, ?_⟩
  · rw [Function.update_of_ne htc]
    exact h.born
  · by_cases hq : q = p
    · rw [hq, Function.update_self, List.mem_append, List.mem_singleton, not_or]
      exact ⟨h.notMem p, htc⟩
    · rw [Function.update_of_ne hq]
      exact h.notMem q
  · have hsibling : (Node.sibling t : Node τ) ≠ .sibling c := fun he => htc (Node.sibling.inj he)
    have hne : ∀ q ∈ {q | 0 < birth q}, q ≠ c := by
      rintro q hq rfl
      exact absurd hq (by simp [hc])
    have hhead : ∀ j ∈ {q | 0 < birth q},
        Node.children c ∉ Node.children j :: (children j).map .sibling :=
      fun j hj => Family.children_notMem (hne j hj)
    have hinit := (F.rings.initListHead_other hhead).initListHead_other fun j _ =>
      Family.sibling_notMem (F.notMem_of_unborn hc) j
    rw [forkTask]
    change (listAddTail _ _ _).next _ = _
    rw [hinit.listAddTail_next hp (fun j _ => h.sibling_notMem j) hsibling,
      initListHead_next_of_ne hsibling, initListHead_next_of_ne (by simp)]
    exact h.next_eq

/-- The move of a child to the child reaper leaves the process as it is. -/
theorem reparentChild (F : Family k reaper children birth now) (h : Unlinked k children birth t)
    {l : List τ} (hs : children s = c :: l) :
    Unlinked (Ptree.reparentChild reaper k c)
      (Function.update (Function.update children s l) reaper (children reaper ++ [c])) birth t := by
  have hc : c ∈ children s := hs ▸ List.mem_cons_self
  refine ⟨h.born, fun q hq => ?_, ?_⟩
  · by_cases hqi : q = reaper
    · rw [hqi, Function.update_self, List.mem_append, List.mem_singleton] at hq
      rcases hq with hq | rfl
      · exact h.notMem _ hq
      · exact h.notMem _ hc
    · rw [Function.update_of_ne hqi] at hq
      by_cases hqs : q = s
      · rw [hqs, Function.update_self] at hq
        exact h.notMem s (hs ▸ List.mem_cons_of_mem _ hq)
      · rw [Function.update_of_ne hqs] at hq
        exact h.notMem q hq
  · change (listMoveTail _ _ _).next _ = _
    rw [F.rings.listMoveTail_next (i := s) (F.birth_pos s c hc) F.reaper_born
      (List.mem_map_of_mem hc) fun j _ => h.sibling_notMem j]
    exact h.next_eq

theorem reparentChildren {cs : List τ} (F : Family k reaper children birth now)
    (h : Unlinked k children birth t) (hp : s ∈ children p) (hs : children s = cs)
    (hne : s ≠ reaper) :
    Unlinked (cs.foldl (Ptree.reparentChild reaper) k)
      (Function.update (Function.update children s []) reaper (children reaper ++ cs)) birth t := by
  induction cs generalizing k children with
  | nil =>
    rw [← hs, Function.update_eq_self, hs, List.append_nil, Function.update_eq_self]
    exact h
  | cons c l ih =>
    rw [List.foldl_cons, ← Family.update_reparented children hne]
    exact ih (F.reparentChild hp hs hne) (h.reparentChild F hs) (F.mem_reparented hp)
      (by rw [Function.update_of_ne hne, Function.update_self])

/-- Taking another process off its list leaves the process as it is. -/
theorem remove (F : Family k reaper children birth now) (h : Unlinked k children birth t)
    (hs : s ∈ children p) :
    Unlinked { k with links := listDelInit k.links (.sibling s) } (fun q => (children q).erase s)
      birth t := by
  refine ⟨h.born, fun q hq => h.notMem q (List.mem_of_mem_erase hq), ?_⟩
  change (listDelInit _ _).next _ = _
  rw [F.rings.listDelInit_next (i := p) (F.birth_pos p s hs) (List.mem_map_of_mem hs)
    fun j _ => h.sibling_notMem j]
  exact h.next_eq

/-- The exit of another process leaves the process as it is. -/
theorem exit (F : Family k reaper children birth now) (h : Unlinked k children birth t)
    (hs : s ∈ children p) (hne : s ≠ reaper) :
    Unlinked (exitTask k reaper s (children s)) (exitChildren reaper children s) birth t :=
  (h.reparentChildren F hs rfl hne).remove (F.reparentChildren hs rfl hne) (F.mem_reparented hs)

/-- A process that has exited. -/
theorem of_exit (F : Family k reaper children birth now) (ht : t ∈ children p) (hne : t ≠ reaper) :
    Unlinked (exitTask k reaper t (children t)) (exitChildren reaper children t) birth t := by
  have hmoved := (F.reparentChildren ht rfl hne).nodup
  refine ⟨F.child_born ht, fun q hq => (hmoved q).not_mem_erase hq, ?_⟩
  simp [exitTask, listDelInit, initListHead]

end Unlinked

/-- A cursor of the walk is on the node of a process that is on no list. -/
structure World.Lost (w : World τ) (t : τ) : Prop where
  unlinked : Unlinked w.procs.kernel w.procs.children w.procs.birth t
  cursor : ∃ f ∈ w.call.stack, f.list = .sibling t
  notDone : w.call.pc ≠ .done

/-- A step of the call leaves a cursor on a node that is linked to itself where it is. -/
theorem Call.cursor_step {k : Kernel τ} {nr : ℤ} {c : Call τ} {t : τ}
    (hnext : k.links.next (.sibling t) = .sibling t)
    (hcursor : ∃ f ∈ c.stack, f.list = .sibling t) (hdone : c.pc ≠ .done) :
    (∃ f ∈ (c.step k nr).stack, f.list = .sibling t) ∧ (c.step k nr).pc ≠ .done := by
  obtain ⟨f, hf, hlist⟩ := hcursor
  have hdescend : ∀ (d : Call τ) s, d.stack = c.stack →
      (∃ f ∈ (d.descend s).stack, f.list = .sibling t) ∧ (d.descend s).pc ≠ .done :=
    fun d s hd => ⟨⟨f, List.mem_cons_of_mem _ (hd ▸ hf), hlist⟩, by simp [descend]⟩
  rw [step]
  split
  · rw [stepRoot]
    split
    · split
      · exact ⟨⟨f, hf, hlist⟩, by simp⟩
      · exact hdescend _ _ rfl
    · exact hdescend _ _ rfl
  · next hpc =>
    rw [stepAdvance]
    cases hstack : c.stack with
    | nil => simp [hstack] at hf
    | cons g gs =>
      rw [hstack] at hf
      dsimp only
      rcases List.mem_cons.mp hf with rfl | hf
      · rw [hlist, hnext, if_neg (by simp)]
        exact ⟨⟨_, List.mem_cons_self, rfl⟩, by simp⟩
      · split
        · exact ⟨⟨f, hf, hlist⟩, by simp [hpc]⟩
        · exact ⟨⟨f, List.mem_cons_of_mem _ hf, hlist⟩, by simp⟩
  · rw [stepEntry]
    split
    · exact ⟨⟨f, hf, hlist⟩, by simp⟩
    · split
      · exact ⟨⟨f, hf, hlist⟩, by simp⟩
      · exact hdescend _ _ rfl
  · rw [stepStore]
    split
    · exact ⟨⟨f, hf, hlist⟩, by simp⟩
    · split
      · exact ⟨⟨f, hf, hlist⟩, by simp⟩
      · exact hdescend _ _ rfl
  · next hpc => exact absurd hpc hdone
  · exact ⟨⟨f, hf, hlist⟩, hdone⟩

namespace World

variable {w : World τ} {nr : ℤ} {t : τ}

theorem Lost.exec (h : w.Lost t) (e : Option (Edit τ)) : (w.exec nr e).Lost t := by
  cases e with
  | none =>
    obtain ⟨hcursor, hdone⟩ := @Call.cursor_step _ _ _ nr _ _ h.unlinked.next_eq h.cursor h.notDone
    exact ⟨h.unlinked, hcursor, hdone⟩
  | some e =>
    refine ⟨?_, h.cursor, h.notDone⟩
    change Unlinked (w.procs.apply e).kernel (w.procs.apply e).children (w.procs.apply e).birth t
    cases e with
    | fork p c new =>
      rw [Processes.apply]
      split
      · next hfork =>
        exact h.unlinked.fork w.procs.family (w.procs.alive_born hfork.1) hfork.2 new
      · exact h.unlinked
    | exit s =>
      rw [Processes.apply]
      split
      · next hexit =>
        obtain ⟨p, hp⟩ := w.procs.isChild_iff.mp hexit.1
        exact h.unlinked.exit w.procs.family hp hexit.2
      · exact h.unlinked

theorem Lost.run (h : w.Lost t) (sched : ℕ → Option (Edit τ)) (n : ℕ) :
    (w.run nr sched n).Lost t := by
  induction n with
  | zero => exact h
  | succ n ih => exact ih.exec _

/-- After the exit of a process with a cursor on its node, the call does not end. -/
theorem never_done (hinv : w.Inv nr) (hexit : w.procs.MayExit t)
    (hcursor : ∃ f ∈ w.call.stack, f.list = .sibling t) (sched : ℕ → Option (Edit τ)) (n : ℕ) :
    ((w.exec nr (some (.exit t))).run nr sched n).call.pc ≠ .done := by
  have hdone : w.call.pc ≠ .done := by
    intro hpc
    have hplace := hinv.placed
    simp only [Call.Placed, hpc] at hplace
    obtain ⟨f, hf, -⟩ := hcursor
    simp [hplace] at hf
  obtain ⟨p, hp⟩ := w.procs.isChild_iff.mp hexit.1
  have hlost : (w.exec nr (some (.exit t))).Lost t := by
    refine ⟨?_, hcursor, hdone⟩
    change Unlinked (w.procs.apply (.exit t)).kernel (w.procs.apply (.exit t)).children
      (w.procs.apply (.exit t)).birth t
    rw [Processes.apply, dif_pos hexit]
    exact Unlinked.of_exit w.procs.family hp hexit.2
  exact (hlost.run sched n).notDone

end World

/-! ### The processes after boot -/

/-- The links of `init_task` and its children, `init` and `kthreadd`. -/
def bootLinks : Links (Node ℕ) where
  next
    | .children 0 => .sibling 1
    | .sibling 1 => .sibling 2
    | .sibling 2 => .children 0
    | x => x
  prev
    | .children 0 => .sibling 2
    | .sibling 1 => .children 0
    | .sibling 2 => .sibling 1
    | x => x

def bootKernel : Kernel ℕ where
  task t := ⟨t, if t = 1 ∨ t = 2 then some 0 else none, 0, 0, (zeroBuf.records 0).comm⟩
  links := bootLinks
  initTask := 0

def bootChildren (p : ℕ) : List ℕ := if p = 0 then [1, 2] else []

def bootBirth (t : ℕ) : ℕ := if t ≤ 2 then t + 1 else 0

theorem boot_family : Family bootKernel 1 bootChildren bootBirth 4 := by
  have hmem : ∀ p, ∀ c ∈ bootChildren p, p = 0 ∧ (c = 1 ∨ c = 2) := by
    intro p c hc
    by_cases hp : p = 0
    · exact ⟨hp, by simpa [bootChildren, hp] using hc⟩
    · simp [bootChildren, hp] at hc
  refine ⟨⟨fun p hp => ?_, fun p hp q hq hpq y hy hyq => ?_⟩, fun p c hc => ?_, fun p c hc => ?_,
    fun p c hc => ?_, fun t => ?_, rfl, rfl, by decide⟩
  · rcases p with - | - | - | p
    · exact ⟨⟨⟨rfl, rfl⟩, ⟨rfl, rfl⟩, rfl, rfl⟩, by decide⟩
    · exact ⟨⟨rfl, rfl⟩, by simp [bootChildren]⟩
    · exact ⟨⟨rfl, rfl⟩, by simp [bootChildren]⟩
    · simp [bootBirth] at hp
  · rcases p with - | - | - | p <;> rcases q with - | - | - | q <;>
      simp_all [bootChildren, bootBirth]
  · obtain ⟨rfl, rfl | rfl⟩ := hmem p c hc <;> rfl
  · obtain ⟨rfl, rfl | rfl⟩ := hmem p c hc <;> decide
  · obtain ⟨rfl, rfl | rfl⟩ := hmem p c hc <;> decide
  · simp only [bootBirth]
    split_ifs <;> omega

/-- `init_task` with its children, `init` and `kthreadd`. -/
def bootProcesses : Processes ℕ := ⟨bootKernel, 1, bootChildren, bootBirth, 4, boot_family⟩

/-- `kthreadd` gets the children 3 and 4, and 3 the child 5. When the walk has recorded all but 4 and
has its cursor there, 3 exits. -/
def lateExit (n : ℕ) : Option (Edit ℕ) :=
  if n = 0 then some (.fork 2 3 (bootKernel.task 3))
  else if n = 1 then some (.fork 2 4 (bootKernel.task 4))
  else if n = 2 then some (.fork 3 5 (bootKernel.task 5))
  else if n = 50 then some (.exit 3)
  else none

theorem survives_of_undisturbed_lateExit : Survives 9 bootProcesses zeroBuf lateExit := by
  have hfinite : ∀ n ≥ 51, lateExit n = none := fun n hn => by
    simp only [lateExit]
    rw [if_neg (by omega), if_neg (by omega), if_neg (by omega), if_neg (by omega)]
  refine survives_of_undisturbed bootProcesses zeroBuf 9 lateExit ⟨51, hfinite⟩ fun n => ?_
  by_cases hexit : n = 50
  · -- the walk has left the list of `init`, to which the recorded child 5 moves
    subst hexit
    exact fun _ => ⟨by decide +kernel, fun _ => .inl ⟨by decide +kernel, by decide +kernel⟩⟩
  · rw [lateExit]
    split_ifs <;> trivial

/-- A child of `init` exits while the walk has its cursor on it. -/
def exitAtCursor (n : ℕ) : Option (Edit ℕ) :=
  if n = 0 then some (.fork 1 3 (bootKernel.task 3))
  else if n = 13 then some (.exit 3)
  else none

/-- The walk records the child that has exited a second time. -/
theorem not_survives : ¬∀ sched : ℕ → Option (Edit ℕ), (∃ N, ∀ n ≥ N, sched n = none) →
    Survives 9 bootProcesses zeroBuf sched := by
  intro hall
  have hfinite : ∀ n ≥ 14, exitAtCursor n = none := fun n hn => by
    simp only [exitAtCursor]
    rw [if_neg (by omega), if_neg (by omega)]
  obtain ⟨-, hnodup⟩ := hall exitAtCursor ⟨14, hfinite⟩
  have hrecorded : ((World.start bootProcesses zeroBuf).run 9 exitAtCursor 34).call.recorded =
      [0, 1, 3, 3] := by decide +kernel
  have htwice := hnodup 34
  rw [hrecorded] at htwice
  exact absurd htwice (by decide)

end OsProject.Ptree
