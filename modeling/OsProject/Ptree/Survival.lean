import OsProject.Ptree.Interleaving

/-!
# What undisturbed forks and exits leave of the walk

Each cursor of the walk is on the list of its task, the tasks on the stack are one below the other
in the tree of processes, and while there is room in the buffer the processes still to come on the
lists of the stack have no record, and neither have the descendants of a process without one. The
steps of the call keep this, and so do forks, and exits that do not disturb the call. So no process
gets a second record.

## Main definitions

* `restOf` — what is to come of a list behind a cursor.
* `Stacked`, `Tracks`, `World.Inv` — the invariant.

## Main results

* `World.Inv.exec` — the invariant is kept.
-/

namespace OsProject.Ptree

open Intrusive

variable {τ : Type*} [DecidableEq τ]

/-! ### Cursors -/

/-- The processes of a list of children that come after a cursor. -/
def restOf (l : List τ) : Node τ → List τ
  | .children _ => l
  | .sibling c => (l.dropWhile fun d => d ≠ c).tail

theorem restOf_append {l₁ l₂ : List τ} {c : τ} (h : c ∉ l₁) :
    restOf (l₁ ++ c :: l₂) (.sibling c) = l₂ := by
  have hdrop : ∀ l : List τ, c ∉ l →
      (l ++ c :: l₂).dropWhile (fun d => d ≠ c) = c :: l₂ := by
    intro l hl
    induction l with
    | nil => simp
    | cons d l ih =>
      rw [List.mem_cons, not_or] at hl
      rw [List.cons_append, List.dropWhile_cons_of_pos (by simpa using Ne.symm hl.1), ih hl.2]
  rw [restOf, hdrop l₁ h, List.tail_cons]

/-- The processes to come are on the list. -/
theorem mem_of_mem_restOf {l : List τ} {n : Node τ} {d : τ} (h : d ∈ restOf l n) : d ∈ l := by
  cases n with
  | children t => exact h
  | sibling c => exact (List.dropWhile_sublist _).mem (List.mem_of_mem_tail h)

/-- The parts of a list before and after one of its processes. -/
theorem restOf_of_mem {l : List τ} {c : τ} (hnd : l.Nodup) (hc : c ∈ l) :
    ∃ l₁, l = l₁ ++ c :: restOf l (.sibling c) ∧ c ∉ l₁ := by
  obtain ⟨l₁, l₂, rfl⟩ := List.append_of_mem hc
  have hnot : c ∉ l₁ := fun hm => (List.nodup_append.mp hnd).2.2 c hm c List.mem_cons_self rfl
  exact ⟨l₁, by rw [restOf_append hnot], hnot⟩

/-- A process does not come after itself. -/
theorem notMem_restOf {l : List τ} {c : τ} (hnd : l.Nodup) (hc : c ∈ l) :
    c ∉ restOf l (.sibling c) := by
  obtain ⟨l₁, hl, -⟩ := restOf_of_mem hnd hc
  rw [hl] at hnd
  exact (List.nodup_cons.mp (List.nodup_append.mp hnd).2.1).1

/-- The next process, and what is to come after it. -/
theorem restOf_cons {l : List τ} {n : Node τ} {d : τ} {ds : List τ} (hnd : l.Nodup)
    (hn : ∀ c, n = .sibling c → c ∈ l) (h : restOf l n = d :: ds) :
    d ∈ l ∧ restOf l (.sibling d) = ds := by
  refine ⟨mem_of_mem_restOf (h ▸ List.mem_cons_self), ?_⟩
  cases n with
  | children t =>
    rw [restOf] at h
    subst h
    exact restOf_append (List.not_mem_nil : d ∉ [])
  | sibling c =>
    obtain ⟨l₁, hl, -⟩ := restOf_of_mem hnd (hn c rfl)
    rw [h, List.append_cons] at hl
    have hnot : d ∉ l₁ ++ [c] := by
      rw [hl] at hnd
      exact fun hm => (List.nodup_append.mp hnd).2.2 d hm d List.mem_cons_self rfl
    rw [hl]
    exact restOf_append hnot

/-- Processes that are added to a list come after every cursor on the list. -/
theorem restOf_append_right {l : List τ} {n : Node τ} (l' : List τ) (hnd : l.Nodup)
    (hn : ∀ c, n = .sibling c → c ∈ l) : restOf (l ++ l') n = restOf l n ++ l' := by
  cases n with
  | children t => rfl
  | sibling c =>
    obtain ⟨l₁, hl, hnot⟩ := restOf_of_mem hnd (hn c rfl)
    have happend : l ++ l' = l₁ ++ c :: (restOf l (.sibling c) ++ l') := by
      conv_lhs => rw [hl]
      rw [List.append_assoc, List.cons_append]
    rw [happend, restOf_append hnot]

/-- What comes after a cursor on a list from which another process is taken came after it before. -/
theorem mem_restOf_erase {l : List τ} {n : Node τ} {t d : τ} (hnd : l.Nodup)
    (hn : ∀ c, n = .sibling c → c ∈ l) (ht : n ≠ .sibling t) (hd : d ∈ restOf (l.erase t) n) :
    d ∈ restOf l n := by
  cases n with
  | children s => exact List.mem_of_mem_erase hd
  | sibling c =>
    have hct : c ≠ t := fun he => ht (he ▸ rfl)
    obtain ⟨l₁, hl, hnot⟩ := restOf_of_mem hnd (hn c rfl)
    have hnot' : c ∉ l₁.erase t := fun hm => hnot (List.mem_of_mem_erase hm)
    rw [hl] at hd
    by_cases htl : t ∈ l₁
    · rw [List.erase_append_left _ htl, restOf_append hnot'] at hd
      exact hd
    · rw [List.erase_append_right _ htl, List.erase_cons_tail (by simpa using hct),
        restOf_append hnot] at hd
      exact List.mem_of_mem_erase hd

/-- The cursor of a frame is at the head of the list of its task, or on a node of this list. -/
def Frame.OnList (children : τ → List τ) (f : Frame τ) : Prop :=
  f.list = .children f.task ∨ ∃ c ∈ children f.task, f.list = .sibling c

omit [DecidableEq τ] in
theorem Frame.OnList.mem {children : τ → List τ} {f : Frame τ} (h : f.OnList children) {c : τ}
    (hc : f.list = .sibling c) : c ∈ children f.task := by
  rcases h with h | ⟨d, hd, h⟩
  · rw [h] at hc
    cases hc
  · rw [h] at hc
    exact Node.sibling.inj hc ▸ hd

/-- The processes of the list of a frame that are to come. -/
def Frame.rest (children : τ → List τ) (f : Frame τ) : List τ := restOf (children f.task) f.list

/-- The node after a cursor is that of the next process to come, or else the head of the list. -/
theorem Frame.OnList.next_eq {k : Kernel τ} {reaper : τ} {children : τ → List τ} {birth : τ → ℕ}
    {now : ℕ} {f : Frame τ} (F : Family k reaper children birth now) (hborn : 0 < birth f.task)
    (h : f.OnList children) :
    k.links.next f.list = ((f.rest children).map Node.sibling).headD (.children f.task) := by
  have hring := F.rings.ring f.task hborn
  rcases h with h | ⟨c, hc, h⟩
  · rw [rest, h]
    exact hring.next_head
  · obtain ⟨l₁, hl, -⟩ := restOf_of_mem (F.nodup f.task) hc
    rw [rest, h]
    rw [hl, List.map_append, List.map_cons] at hring
    exact hring.next_eq

/-! ### Stacks -/

/-- The innermost `pstree_dfs` runs for the process at the cursor of the one that has called it, and
so on up to the one for `init_task`. -/
def Nested (init : τ) : List (Frame τ) → Prop
  | [] => True
  | [f] => f.task = init
  | f :: g :: fs => g.list = .sibling f.task ∧ Nested init (g :: fs)

/-- The stack of a walk: nested loops, with their cursors on the lists of their tasks. -/
structure Stacked (P : Processes τ) (stack : List (Frame τ)) : Prop where
  nested : Nested P.kernel.initTask stack
  onList : ∀ f ∈ stack, f.OnList P.children

/-- While there is room, each process that the walk has come to has a record, and those on the lists
to come and their descendants have none. -/
structure Tracks (P : Processes τ) (stack : List (Frame τ)) (recorded : List τ) : Prop where
  tasks : ∀ f ∈ stack, f.task ∈ recorded
  rest : ∀ f ∈ stack, ∀ c ∈ f.rest P.children, c ∉ recorded
  closed : ∀ p, p ≠ P.kernel.initTask → p ∉ recorded → ∀ c ∈ P.children p, c ∉ recorded

namespace Stacked

variable {P : Processes τ} {f g : Frame τ} {fs stack : List (Frame τ)} {t : τ}
omit [DecidableEq τ]

theorem tail (h : Stacked P (f :: fs)) : Stacked P fs := by
  refine ⟨?_, fun g hg => h.onList g (List.mem_cons_of_mem _ hg)⟩
  cases fs with
  | nil => trivial
  | cons g fs => exact h.nested.2

/-- The task of a frame is a child of the task of the frame below, or `init_task`. -/
theorem task_cases (h : Stacked P (f :: fs)) :
    (fs = [] ∧ f.task = P.kernel.initTask) ∨
      ∃ g gs, fs = g :: gs ∧ g.list = .sibling f.task ∧ f.task ∈ P.children g.task := by
  cases fs with
  | nil => exact .inl ⟨rfl, h.nested⟩
  | cons g gs =>
    have hg : g.list = .sibling f.task := h.nested.1
    exact .inr ⟨g, gs, rfl, hg, (h.onList g (by simp)).mem hg⟩

theorem born (h : Stacked P stack) : ∀ f ∈ stack, 0 < P.birth f.task := by
  induction stack with
  | nil => simp
  | cons f fs ih =>
    intro g hg
    rcases List.mem_cons.mp hg with rfl | hg
    · rcases h.task_cases with ⟨-, hinit⟩ | ⟨e, -, -, -, hchild⟩
      · rw [hinit]
        exact P.family.init_born
      · exact P.family.child_born hchild
    · exact ih h.tail g hg

/-- The tasks further down on the stack were born earlier. -/
theorem birth_lt (h : Stacked P (f :: fs)) : ∀ g ∈ fs, P.birth g.task < P.birth f.task := by
  induction fs generalizing f with
  | nil => simp
  | cons e fs ih =>
    rcases h.task_cases with ⟨hnil, -⟩ | ⟨e', fs', heq, -, hchild⟩
    · cases hnil
    · cases heq
      have hlt := P.family.birth_lt _ _ hchild
      intro g hg
      rcases List.mem_cons.mp hg with rfl | hg
      · exact hlt
      · exact Nat.lt_trans (ih h.tail g hg) hlt

/-- The list of the task of a frame is no list of a frame further down. -/
theorem notMem_lower (h : Stacked P (f :: fs)) (ht : t ∈ P.children f.task) :
    ∀ g ∈ fs, t ∉ P.children g.task := by
  intro g hg hm
  have hlt := h.birth_lt g hg
  rw [P.family.parent_unique hm ht] at hlt
  exact Nat.lt_irrefl _ hlt

/-- The call for the process at the cursor. -/
theorem push (h : Stacked P (f :: fs)) (ht : f.list = .sibling t) :
    Stacked P (⟨t, .children t⟩ :: f :: fs) := by
  refine ⟨⟨ht, h.nested⟩, fun g hg => ?_⟩
  rcases List.mem_cons.mp hg with rfl | hg
  · exact .inl rfl
  · exact h.onList g hg

/-- The cursor moves on. -/
theorem move (h : Stacked P (f :: fs)) (ht : t ∈ P.children f.task) :
    Stacked P ({ f with list := .sibling t } :: fs) := by
  refine ⟨?_, fun g hg => ?_⟩
  · cases fs with
    | nil => exact h.nested
    | cons g fs => exact h.nested
  · rcases List.mem_cons.mp hg with rfl | hg
    · exact .inr ⟨t, ht, rfl⟩
    · exact h.onList g (List.mem_cons_of_mem _ hg)

end Stacked

namespace Tracks

variable {P : Processes τ} {f : Frame τ} {fs : List (Frame τ)} {recorded : List τ} {t : τ}

theorem tail (h : Tracks P (f :: fs) recorded) : Tracks P fs recorded :=
  ⟨fun g hg => h.tasks g (List.mem_cons_of_mem _ hg),
    fun g hg => h.rest g (List.mem_cons_of_mem _ hg), h.closed⟩

/-- The call for a process that has a record and whose children have none. -/
theorem push (h : Tracks P fs recorded) (ht : t ∈ recorded)
    (hchildren : ∀ c ∈ P.children t, c ∉ recorded) :
    Tracks P (⟨t, .children t⟩ :: fs) recorded := by
  refine ⟨fun g hg => ?_, fun g hg => ?_, h.closed⟩
  · rcases List.mem_cons.mp hg with rfl | hg
    · exact ht
    · exact h.tasks g hg
  · rcases List.mem_cons.mp hg with rfl | hg
    · exact hchildren
    · exact h.rest g hg

/-- The record of the process at the cursor. -/
theorem record (hs : Stacked P (f :: fs)) (h : Tracks P (f :: fs) recorded)
    (ht : f.list = .sibling t) : Tracks P (f :: fs) (recorded ++ [t]) := by
  have hchild : t ∈ P.children f.task := (hs.onList f (by simp)).mem ht
  refine ⟨fun g hg => List.mem_append_left _ (h.tasks g hg), fun g hg c hc => ?_,
    fun p hp hnot c hc => ?_⟩
  · rw [List.mem_append, List.mem_singleton, not_or]
    refine ⟨h.rest g hg c hc, ?_⟩
    rintro rfl
    rcases List.mem_cons.mp hg with rfl | hg
    · rw [Frame.rest, ht] at hc
      exact notMem_restOf (P.family.nodup _) hchild hc
    · exact hs.notMem_lower hchild g hg (mem_of_mem_restOf hc)
  · rw [List.mem_append, List.mem_singleton, not_or] at hnot ⊢
    refine ⟨h.closed p hp hnot.1 c hc, ?_⟩
    rintro rfl
    -- its parent is the task of the frame, which has a record
    rw [P.family.parent_unique hc hchild] at hnot
    exact hnot.1 (h.tasks f (by simp))

/-- The children of the process at the cursor have no record. -/
theorem children_of_cursor (h : Tracks P (f :: fs) recorded) (hchild : t ∈ P.children f.task)
    (ht : t ∉ recorded) : ∀ c ∈ P.children t, c ∉ recorded ++ [t] := by
  intro c hc
  rw [List.mem_append, List.mem_singleton, not_or]
  refine ⟨h.closed t (P.family.ne_init hchild) ht c hc, ?_⟩
  rintro rfl
  exact P.family.notMem_self _ hc

end Tracks

/-! ### Steps of the call -/

/-- What holds of the stack and the records. -/
structure Call.Sound (P : Processes τ) (nr : ℤ) (c : Call τ) : Prop where
  stacked : Stacked P c.stack
  tracks : c.walk.idx < nr → Tracks P c.stack c.recorded
  nodup : c.recorded.Nodup
  born : ∀ t ∈ c.recorded, 0 < P.birth t

/-- What holds at the place where the call stands. -/
def Call.Placed (nr : ℤ) (c : Call τ) : Prop :=
  match c.pc with
  | .root => c.stack = [] ∧ c.recorded = []
  | .advance => True
  | .entry => ∃ f fs t, c.stack = f :: fs ∧ f.list = .sibling t ∧
      (c.walk.idx < nr → t ∉ c.recorded)
  | .store _ t => ∃ f fs, c.stack = f :: fs ∧ f.list = .sibling t ∧ c.walk.idx < nr ∧
      t ∉ c.recorded
  | .done => c.stack = []
  | .wild => False

/-- The invariant of the walk. -/
structure World.Inv (nr : ℤ) (w : World τ) : Prop where
  sound : w.call.Sound w.procs nr
  placed : w.call.Placed nr

namespace Call

variable {P : Processes τ} {nr : ℤ} {c : Call τ} {f : Frame τ} {fs : List (Frame τ)} {t : τ}

/-- The recursive call for the process at the cursor. -/
theorem Sound.descend (h : c.Sound P nr) (hstack : c.stack = f :: fs) (ht : f.list = .sibling t)
    (hroom : c.walk.idx < nr → t ∈ c.recorded ∧ ∀ d ∈ P.children t, d ∉ c.recorded) :
    (c.descend t).Sound P nr where
  stacked := by
    have hs := h.stacked
    rw [hstack] at hs
    rw [Call.descend, hstack]
    exact hs.push ht
  tracks hidx := (h.tracks hidx).push (hroom hidx).1 (hroom hidx).2
  nodup := h.nodup
  born := h.born

/-- The first call, for `init_task`. -/
theorem Sound.descend_init (h : c.Sound P nr) (hstack : c.stack = [])
    (hroom : c.walk.idx < nr → P.kernel.initTask ∈ c.recorded ∧
      ∀ d ∈ P.children P.kernel.initTask, d ∉ c.recorded) :
    (c.descend P.kernel.initTask).Sound P nr where
  stacked := by
    rw [Call.descend, hstack]
    refine ⟨rfl, fun g hg => ?_⟩
    rw [List.mem_singleton.mp hg]
    exact .inl rfl
  tracks hidx := (h.tracks hidx).push (hroom hidx).1 (hroom hidx).2
  nodup := h.nodup
  born := h.born

/-- The pid of the first child is there to be stored. -/
theorem exists_firstChildPid (hborn : 0 < P.birth t) :
    ∃ pid, firstChildPid P.kernel t = some pid := by
  have hnext := (P.family.rings.ring t hborn).next_head
  rw [firstChildPid]
  split
  · exact ⟨0, rfl⟩
  · next hempty =>
    rw [listEmpty_iff] at hempty
    cases hl : P.children t with
    | nil => exact absurd (by rw [hnext, hl]; rfl) hempty
    | cons d l =>
      rw [hnext, hl]
      exact ⟨_, rfl⟩

/-- The pid of the next sibling is there to be stored. -/
theorem exists_nextSiblingPid {p : τ} (ht : t ∈ P.children p) :
    ∃ pid, nextSiblingPid P.kernel t = some pid := by
  have hring := P.family.rings.ring p (P.family.birth_pos p t ht)
  obtain ⟨l₁, hl, -⟩ := restOf_of_mem (P.family.nodup p) ht
  rw [hl, List.map_append, List.map_cons] at hring
  have hnext := hring.next_eq
  rw [nextSiblingPid]
  split_ifs with hempty hhead
  · exact ⟨0, rfl⟩
  · exact ⟨0, rfl⟩
  · rw [P.family.parent p t ht, Option.map_some, hnext] at hhead
    rw [hnext]
    cases hrest : restOf (P.children p) (.sibling t) with
    | nil => exact absurd (by rw [hrest]; rfl) hhead
    | cons d l => exact ⟨_, rfl⟩

/-- Every field of a process that is on a list is there to be stored. -/
theorem exists_storeField {p : τ} (ht : t ∈ P.children p) (w : Walk) (g : Field) :
    ∃ buf, storeField P.kernel t w g = some buf := by
  obtain ⟨first, hfirst⟩ := exists_firstChildPid (P.family.child_born ht)
  obtain ⟨next, hnext⟩ := exists_nextSiblingPid ht
  cases g <;> simp [storeField, hfirst, hnext]

end Call

/-- What a step of a call does, when its cursors are on their lists. -/
inductive Call.Steps (P : Processes τ) (nr : ℤ) (c : Call τ) : Call τ → Prop
  /-- `init_task` gets its record. -/
  | root {w : Walk} (hpc : c.pc = .root) (hroom : c.walk.idx < nr) (hw : w.idx = c.walk.idx + 1) :
    Steps P nr c (Call.descend { c with
      walk := w
      recorded := c.recorded ++ [P.kernel.initTask] } P.kernel.initTask)
  | rootFull (hpc : c.pc = .root) (hfull : ¬c.walk.idx < nr) :
    Steps P nr c (c.descend P.kernel.initTask)
  /-- The call ends. -/
  | finish {w : Walk} (hpc : c.pc = .advance) (hstack : c.stack = []) (hw : w.idx = c.walk.idx) :
    Steps P nr c { c with pc := .done, walk := w }
  /-- A loop ends. -/
  | back {w : Walk} {f : Frame τ} {fs : List (Frame τ)} (hpc : c.pc = .advance)
      (hstack : c.stack = f :: fs) (hrest : f.rest P.children = []) (hw : w.idx = c.walk.idx) :
    Steps P nr c { c with stack := fs, walk := w }
  /-- The cursor moves on to the next process. -/
  | next {f : Frame τ} {fs : List (Frame τ)} {t : τ} {ts : List τ} (hpc : c.pc = .advance)
      (hstack : c.stack = f :: fs) (hrest : f.rest P.children = t :: ts)
      (ht : t ∈ P.children f.task) (hts : restOf (P.children f.task) (.sibling t) = ts) :
    Steps P nr c { c with pc := .entry, stack := { f with list := .sibling t } :: fs }
  /-- The record of the process at the cursor is begun. -/
  | enter {f : Frame τ} {fs : List (Frame τ)} {t : τ} (hpc : c.pc = .entry)
      (hstack : c.stack = f :: fs) (ht : f.list = .sibling t) (hroom : c.walk.idx < nr)
      (hnot : t ∉ c.recorded) :
    Steps P nr c { c with pc := .store .parentPid t }
  /-- The process at the cursor gets no record. -/
  | pass {f : Frame τ} {fs : List (Frame τ)} {t : τ} (hpc : c.pc = .entry)
      (hstack : c.stack = f :: fs) (ht : f.list = .sibling t) (hfull : ¬c.walk.idx < nr) :
    Steps P nr c (c.descend t)
  /-- A field is stored. -/
  | put {w : Walk} {f : Frame τ} {fs : List (Frame τ)} {g g' : Field} {t : τ}
      (hpc : c.pc = .store g t) (hstack : c.stack = f :: fs) (ht : f.list = .sibling t)
      (hnext : g.next = some g') (hw : w.idx = c.walk.idx) :
    Steps P nr c { c with pc := .store g' t, walk := w }
  /-- The last field is stored, and the record is complete. -/
  | putLast {w : Walk} {f : Frame τ} {fs : List (Frame τ)} {g : Field} {t : τ}
      (hpc : c.pc = .store g t) (hstack : c.stack = f :: fs) (ht : f.list = .sibling t)
      (hnext : g.next = none) (hnot : t ∉ c.recorded) (hw : w.idx = c.walk.idx + 1) :
    Steps P nr c (Call.descend { c with walk := w, recorded := c.recorded ++ [t] } t)
  | done (hpc : c.pc = .done) : Steps P nr c c

namespace Call

variable {P : Processes τ} {nr : ℤ} {c : Call τ}

theorem steps_root (hpc : c.pc = .root) : c.Steps P nr (c.stepRoot P.kernel nr) := by
  rw [stepRoot]
  split
  · next hroom =>
    obtain ⟨first, hfirst⟩ := exists_firstChildPid P.family.init_born
    rw [fillRoot, hfirst]
    exact .root hpc hroom rfl
  · next hfull => exact .rootFull hpc hfull

theorem steps_advance (h : c.Sound P nr) (hpc : c.pc = .advance) :
    c.Steps P nr (c.stepAdvance P.kernel nr) := by
  rw [stepAdvance]
  split
  · next hstack =>
    refine .finish hpc hstack ?_
    split <;> rfl
  · next f fs hstack =>
    have hmem : f ∈ c.stack := hstack ▸ List.mem_cons_self
    have hon := h.stacked.onList f hmem
    have hnext := hon.next_eq P.family (h.stacked.born f hmem)
    rw [hnext]
    cases hrest : f.rest P.children with
    | nil =>
      rw [List.map_nil, List.headD_nil, if_pos rfl]
      exact .back hpc hstack hrest rfl
    | cons t ts =>
      obtain ⟨ht, hts⟩ := restOf_cons (P.family.nodup f.task) (fun _ hc => hon.mem hc) hrest
      rw [List.map_cons, List.headD_cons, if_neg (by simp)]
      exact .next hpc hstack hrest ht hts

theorem steps_entry (hpc : c.pc = .entry) (hplace : c.Placed nr) :
    c.Steps P nr (c.stepEntry nr) := by
  simp only [Placed, hpc] at hplace
  obtain ⟨f, fs, t, hstack, ht, hnot⟩ := hplace
  have hhead : (c.stack.head?.bind fun f => listEntry f.list) = some t := by
    rw [hstack, List.head?_cons, Option.bind_some, ht]
    rfl
  rw [stepEntry, hhead]
  dsimp only
  split
  · next hroom => exact .enter hpc hstack ht hroom (hnot hroom)
  · next hfull => exact .pass hpc hstack ht hfull

theorem steps_store (h : c.Sound P nr) {g : Field} {t : τ} (hpc : c.pc = .store g t)
    (hplace : c.Placed nr) : c.Steps P nr (c.stepStore P.kernel g t) := by
  simp only [Placed, hpc] at hplace
  obtain ⟨f, fs, hstack, ht, -, hnot⟩ := hplace
  have hmem : f ∈ c.stack := hstack ▸ List.mem_cons_self
  have hchild := (h.stacked.onList f hmem).mem ht
  obtain ⟨buf, hbuf⟩ := exists_storeField hchild c.walk g
  rw [stepStore, hbuf]
  cases hnext : g.next with
  | none => exact .putLast hpc hstack ht hnext hnot rfl
  | some g' => exact .put hpc hstack ht hnext rfl

/-- The steps of a call whose cursors are on their lists. -/
theorem steps_step (h : c.Sound P nr) (hplace : c.Placed nr) :
    c.Steps P nr (c.step P.kernel nr) := by
  rw [step]
  split
  · next hpc => exact steps_root hpc
  · next hpc => exact steps_advance h hpc
  · next hpc => exact steps_entry hpc hplace
  · next g t hpc => exact steps_store h hpc hplace
  · next hpc => exact .done hpc
  · next hpc => simp [Placed, hpc] at hplace

/-- A step keeps the invariant. -/
theorem Steps.inv {d : Call τ} (hstep : c.Steps P nr d) (h : c.Sound P nr)
    (hplace : c.Placed nr) : d.Sound P nr ∧ d.Placed nr := by
  have hmem : ∀ {f fs}, c.stack = f :: fs → f ∈ c.stack := fun hs => hs ▸ List.mem_cons_self
  cases hstep with
  | root hpc hroom hw =>
    simp only [Placed, hpc] at hplace
    obtain ⟨hstack, hrec⟩ := hplace
    have hne : ∀ p, ∀ d ∈ P.children p, d ∉ c.recorded ++ [P.kernel.initTask] := by
      intro p d hd
      simpa [hrec] using P.family.ne_init hd
    refine ⟨Sound.descend_init ⟨h.stacked, fun _ => ?_, ?_, ?_⟩ hstack fun _ => ?_, trivial⟩
    · refine ⟨by simp [hstack], by simp [hstack], fun p _ _ => hne p⟩
    · simp [hrec]
    · simpa [hrec] using P.family.init_born
    · exact ⟨by simp, hne _⟩
  | rootFull hpc hfull =>
    simp only [Placed, hpc] at hplace
    exact ⟨h.descend_init hplace.1 fun hroom => absurd hroom hfull, trivial⟩
  | finish hpc hstack hw =>
    refine ⟨⟨h.stacked, fun hroom => h.tracks (by rwa [← hw]), h.nodup, h.born⟩, hstack⟩
  | back hpc hstack hrest hw =>
    have hs := h.stacked
    rw [hstack] at hs
    refine ⟨⟨hs.tail, fun hroom => ?_, h.nodup, h.born⟩, by simp [Placed, hpc]⟩
    have ht := h.tracks (by rwa [← hw])
    rw [hstack] at ht
    exact ht.tail
  | @next f fs t ts hpc hstack hrest ht hts =>
    have hs := h.stacked
    rw [hstack] at hs
    have htracks : c.walk.idx < nr → Tracks P (f :: fs) c.recorded := fun hroom =>
      hstack ▸ h.tracks hroom
    refine ⟨⟨hs.move ht, fun hroom => ?_, h.nodup, h.born⟩, _, _, t, rfl, rfl, fun hroom => ?_⟩
    · refine ⟨fun g hg => ?_, fun g hg => ?_, (htracks hroom).closed⟩
      · rcases List.mem_cons.mp hg with rfl | hg
        · exact (htracks hroom).tasks f (by simp)
        · exact (htracks hroom).tasks g (List.mem_cons_of_mem _ hg)
      · rcases List.mem_cons.mp hg with rfl | hg
        · intro d hd
          rw [Frame.rest] at hd
          refine (htracks hroom).rest f (by simp) d ?_
          rw [hrest]
          exact List.mem_cons_of_mem _ (hts ▸ hd)
        · exact (htracks hroom).rest g (List.mem_cons_of_mem _ hg)
    · exact (htracks hroom).rest f (by simp) t (hrest ▸ List.mem_cons_self)
  | enter hpc hstack ht hroom hnot =>
    exact ⟨⟨h.stacked, h.tracks, h.nodup, h.born⟩, _, _, hstack, ht, hroom, hnot⟩
  | pass hpc hstack ht hfull =>
    exact ⟨h.descend hstack ht fun hroom => absurd hroom hfull, trivial⟩
  | put hpc hstack ht hnext hw =>
    simp only [Placed, hpc] at hplace
    obtain ⟨f, fs, hs, ht', hroom, hnot⟩ := hplace
    refine ⟨⟨h.stacked, fun hroom => h.tracks (by rwa [← hw]), h.nodup, h.born⟩, f, fs, hs, ht',
      ?_, hnot⟩
    rwa [hw]
  | @putLast w f fs g t hpc hstack ht hnext hnot hw =>
    simp only [Placed, hpc] at hplace
    obtain ⟨-, -, -, -, hroom, -⟩ := hplace
    have hs := h.stacked
    have htracks := h.tracks hroom
    rw [hstack] at hs htracks
    have hchild := (hs.onList f (by simp)).mem ht
    refine ⟨@Sound.descend _ _ _ _ _ f fs t ⟨h.stacked, fun _ => ?_, ?_, ?_⟩ hstack ht
      fun _ => ⟨by simp, htracks.children_of_cursor hchild hnot⟩, trivial⟩
    · rw [hstack]
      exact htracks.record hs ht
    · exact List.nodup_append.mpr ⟨h.nodup, List.nodup_singleton t, by
        rintro a ha b hb rfl
        exact hnot (List.mem_singleton.mp hb ▸ ha)⟩
    · intro d hd
      rcases List.mem_append.mp hd with hd | hd
      · exact h.born d hd
      · rw [List.mem_singleton.mp hd]
        exact P.family.child_born hchild
  | done hpc => exact ⟨h, hplace⟩

end Call

/-! ### Forks -/

section Fork

variable {P P' : Processes τ} {nr : ℤ} {call : Call τ} {p c : τ}

/-- A fork keeps the invariant: the new process has no record, and it comes at the end of a list. -/
theorem Call.Sound.fork (h : call.Sound P nr) (hborn : P.birth c = 0)
    (hinit : P'.kernel.initTask = P.kernel.initTask)
    (hchildren : P'.children = Function.update P.children p (P.children p ++ [c]))
    (hbirth : ∀ t, 0 < P.birth t → 0 < P'.birth t) : call.Sound P' nr := by
  have hnot : c ∉ call.recorded := fun hm => by
    have := h.born c hm
    omega
  have hmem : ∀ q, ∀ d ∈ P'.children q, d ∈ P.children q ∨ d = c := by
    intro q d hd
    rw [hchildren] at hd
    by_cases hq : q = p
    · rw [hq, Function.update_self, List.mem_append, List.mem_singleton] at hd
      exact hq ▸ hd
    · rw [Function.update_of_ne hq] at hd
      exact .inl hd
  have hsub : ∀ q, ∀ d ∈ P.children q, d ∈ P'.children q := by
    intro q d hd
    rw [hchildren]
    by_cases hq : q = p
    · rw [hq, Function.update_self]
      exact List.mem_append_left _ (hq ▸ hd)
    · rwa [Function.update_of_ne hq]
  refine ⟨⟨hinit ▸ h.stacked.nested, fun f hf => ?_⟩, fun hroom => ⟨(h.tracks hroom).tasks,
    fun f hf d hd => ?_, fun q hq hqnot d hd => ?_⟩, h.nodup, fun t ht => hbirth t (h.born t ht)⟩
  · exact (h.stacked.onList f hf).imp_right fun ⟨d, hd, hlist⟩ => ⟨d, hsub _ d hd, hlist⟩
  · have hrest := (h.tracks hroom).rest f hf d
    rw [Frame.rest, hchildren] at hd
    by_cases hfp : f.task = p
    · rw [hfp, Function.update_self, restOf_append_right _ (P.family.nodup p)
        fun e he => hfp ▸ (h.stacked.onList f hf).mem he, List.mem_append, List.mem_singleton] at hd
      rcases hd with hd | rfl
      · exact hrest (by rwa [Frame.rest, hfp])
      · exact hnot
    · rw [Function.update_of_ne hfp] at hd
      exact hrest hd
  · rcases hmem q d hd with hd | rfl
    · exact (h.tracks hroom).closed q (hinit ▸ hq) hqnot d hd
    · exact hnot

end Fork

/-! ### Exits -/

section Exit

variable {P P' : Processes τ} {nr : ℤ} {call : Call τ} {p t d q : τ}

theorem exitChildren_reaper {reaper : τ} {children : τ → List τ} :
    exitChildren reaper children t reaper = (children reaper ++ children t).erase t := by
  rw [exitChildren, Function.update_self]

theorem exitChildren_of_ne {reaper : τ} {children : τ → List τ} (hq : q ≠ reaper) (hqt : q ≠ t) :
    exitChildren reaper children t q = (children q).erase t := by
  rw [exitChildren, Function.update_of_ne hq, Function.update_of_ne hqt]

/-- The children after an exit are those from before, and those that the reaper has got. -/
theorem mem_of_mem_exitChildren {reaper : τ} {children : τ → List τ}
    (hd : d ∈ exitChildren reaper children t q) :
    d ∈ children q ∨ q = reaper ∧ d ∈ children t := by
  by_cases hq : q = reaper
  · rw [hq, exitChildren_reaper] at hd
    rcases List.mem_append.mp (List.mem_of_mem_erase hd) with hd | hd
    · exact .inl (hq ▸ hd)
    · exact .inr ⟨hq, hd⟩
  · by_cases hqt : q = t
    · rw [exitChildren, hqt, Function.update_of_ne (hqt ▸ hq), Function.update_self] at hd
      simp at hd
    · rw [exitChildren_of_ne hq hqt] at hd
      exact .inl (List.mem_of_mem_erase hd)

/-- The other children of a process that stays are its children after the exit. -/
theorem mem_exitChildren {reaper : τ} {children : τ → List τ} (hqt : q ≠ t) (hdt : d ≠ t)
    (hd : d ∈ children q) : d ∈ exitChildren reaper children t q := by
  by_cases hq : q = reaper
  · rw [hq, exitChildren_reaper, List.mem_erase_of_ne hdt]
    exact List.mem_append_left _ (hq ▸ hd)
  · rw [exitChildren_of_ne hq hqt]
    exact (List.mem_erase_of_ne hdt).mpr hd

omit [DecidableEq τ] in
/-- If no cursor is on the node of `t`, no task of the stack is `t`. -/
theorem Stacked.task_ne {stack : List (Frame τ)} (h : Stacked P stack)
    (hcursor : ∀ f ∈ stack, f.list ≠ .sibling t) (ht : t ≠ P.kernel.initTask) :
    ∀ f ∈ stack, f.task ≠ t := by
  induction stack with
  | nil => simp
  | cons f fs ih =>
    intro g hg
    rcases List.mem_cons.mp hg with rfl | hg
    · rcases h.task_cases with ⟨-, hinit⟩ | ⟨e, es, rfl, he, -⟩
      · rw [hinit]
        exact ht.symm
      · rintro rfl
        exact hcursor e (by simp) he
    · exact ih h.tail (fun e he => hcursor e (List.mem_cons_of_mem _ he)) g hg

/-- An exit that does not disturb the call keeps the invariant: the children that the reaper gets come
at the end of a list that the walk has left, or else have no record. -/
theorem Call.Sound.exit (h : call.Sound P nr) (ht : t ∈ P.children p)
    (hinit : P'.kernel.initTask = P.kernel.initTask)
    (hchildren : P'.children = exitChildren P.reaper P.children t)
    (hbirth : P'.birth = P.birth) (hcursor : ∀ f ∈ call.stack, f.list ≠ .sibling t)
    (horphans : call.walk.idx < nr →
      (P.reaper ∈ call.recorded ∧ ∀ f ∈ call.stack, f.task ≠ P.reaper) ∨
        ∀ d ∈ P.children t, d ∉ call.recorded) :
    call.Sound P' nr := by
  have hne := P.family.ne_init ht
  have htask := h.stacked.task_ne hcursor hne
  refine ⟨⟨hinit ▸ h.stacked.nested, fun f hf => ?_⟩, fun hroom => ⟨(h.tracks hroom).tasks,
    fun f hf d hd => ?_, fun q hq hqnot d hd => ?_⟩, h.nodup, fun t ht => hbirth ▸ h.born t ht⟩
  · refine (h.stacked.onList f hf).imp_right fun ⟨d, hd, hlist⟩ => ⟨d, ?_, hlist⟩
    rw [hchildren]
    exact mem_exitChildren (htask f hf) (fun he => hcursor f hf (he ▸ hlist)) hd
  · have hon := h.stacked.onList f hf
    rw [Frame.rest, hchildren] at hd
    by_cases hfr : f.task = P.reaper
    · have hnew := (horphans hroom).resolve_left fun hpast => hpast.2 f hf hfr
      have hnd : (P.children f.task ++ P.children t).Nodup := by
        refine List.nodup_append.mpr ⟨P.family.nodup _, P.family.nodup _, ?_⟩
        rintro a ha b hb rfl
        exact htask f hf (P.family.parent_unique ha hb)
      rw [hfr, exitChildren_reaper, ← hfr] at hd
      have hrest := mem_restOf_erase hnd (fun e he => List.mem_append_left _ (hon.mem he))
        (hcursor f hf) hd
      rw [restOf_append_right _ (P.family.nodup _) fun e he => hon.mem he] at hrest
      rcases List.mem_append.mp hrest with hrest | hrest
      · exact (h.tracks hroom).rest f hf d hrest
      · exact hnew d hrest
    · rw [exitChildren_of_ne hfr (htask f hf)] at hd
      exact (h.tracks hroom).rest f hf d
        (mem_restOf_erase (P.family.nodup _) (fun e he => hon.mem he) (hcursor f hf) hd)
  · rw [hchildren] at hd
    rcases mem_of_mem_exitChildren hd with hd | ⟨rfl, horphan⟩
    · exact (h.tracks hroom).closed q (hinit ▸ hq) hqnot d hd
    · exact (horphans hroom).resolve_left (fun hpast => hqnot hpast.1) d horphan

end Exit

/-! ### The invariant -/

namespace World

variable {w : World τ} {nr : ℤ}

theorem inv_start (P : Processes τ) (buf : UserBuf) : (start P buf).Inv nr where
  sound :=
    { stacked := ⟨trivial, by simp [start]⟩
      tracks := fun _ => ⟨by simp [start], by simp [start], by simp [start]⟩
      nodup := List.nodup_nil
      born := by simp [start] }
  placed := ⟨rfl, rfl⟩

/-- The steps of the call, the forks, and the exits that do not disturb the call keep the
invariant. -/
theorem Inv.exec {e : Option (Edit τ)} (h : w.Inv nr) (he : w.Undisturbed nr e) :
    (w.exec nr e).Inv nr := by
  cases e with
  | none =>
    have hstep := Call.steps_step h.sound h.placed
    obtain ⟨hsound, hplaced⟩ := hstep.inv h.sound h.placed
    exact ⟨hsound, hplaced⟩
  | some e =>
    refine ⟨?_, h.placed⟩
    change w.call.Sound (w.procs.apply e) nr
    cases e with
    | fork p c new =>
      rw [Processes.apply]
      split
      · next hfork =>
        refine h.sound.fork hfork.2 rfl rfl fun t ht => ?_
        change 0 < Function.update w.procs.birth c w.procs.now t
        rw [Function.update_of_ne (by rintro rfl; omega)]
        exact ht
      · exact h.sound
    | exit t =>
      rw [Processes.apply]
      split
      · next hexit =>
        obtain ⟨p, hp⟩ := w.procs.isChild_iff.mp hexit.1
        obtain ⟨hcursor, horphans⟩ := he hexit
        exact h.sound.exit hp (exitTask_initTask ..) rfl rfl hcursor horphans
      · exact h.sound

end World

end OsProject.Ptree
