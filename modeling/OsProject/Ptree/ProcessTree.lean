import OsProject.Lib.RoseTree
import OsProject.Ptree.Syscall

/-!
# Process trees in the kernel memory

The kernel memory holds a process tree when the children of each process are on the list of its
`children`, in order, linked through `sibling`, and have it as their `real_parent`. The pids that
the system call computes from the links are then those of the parent, the first child and the next
sibling in the tree.

## Main definitions

* `Linked`, `ProcessTree` — the trees that are linked in a kernel memory.
* `record` — the record of an entry of the listing of a tree.

## Main results

* `fillRecord_eq`, `fillRoot_eq` — the blocks that fill a record store the record of an entry.
-/

namespace OsProject.Ptree

open Intrusive RoseTree

variable {τ : Type*}

mutual

/-- The tree is linked in the kernel memory. -/
def Linked (k : Kernel τ) : RoseTree τ → Prop
  | .node t ts =>
    Ring k.links (.children t) (ts.map fun c => .sibling c.val) ∧ ForestLinked k t ts

/-- The trees of a list have the given parent and are linked in the kernel memory. -/
def ForestLinked (k : Kernel τ) (parent : τ) : List (RoseTree τ) → Prop
  | [] => True
  | c :: cs =>
    (k.task c.val).realParent = some parent ∧ Linked k c ∧ ForestLinked k parent cs

end

/-- The process tree of a kernel memory: it is rooted at `init_task` and linked. -/
structure ProcessTree (k : Kernel τ) where
  tree : RoseTree τ
  val_eq : tree.val = k.initTask
  linked : Linked k tree

/-- The pid of a process, or 0 in place of none. -/
def pidOf (k : Kernel τ) : Option τ → ℤ
  | some t => (k.task t).pid
  | none => 0

/-- The record of a process at its place in the tree. -/
def record (k : Kernel τ) (e : Entry τ) : Prinfo where
  parentPid := pidOf k e.parent
  pid := (k.task e.val).pid
  firstChildPid := pidOf k e.firstChild
  nextSiblingPid := pidOf k e.nextSibling
  state := (k.task e.val).state
  uid := (k.task e.val).uid
  comm := (k.task e.val).comm
  layer := e.depth

variable {k : Kernel τ}

theorem Linked.ring {t : RoseTree τ} (h : Linked k t) :
    Ring k.links (.children t.val) (t.children.map fun c => .sibling c.val) := by
  cases t
  rw [Linked] at h
  exact h.1

theorem Linked.forest {t : RoseTree τ} (h : Linked k t) : ForestLinked k t.val t.children := by
  cases t
  rw [Linked] at h
  exact h.2

theorem parentPid_eq {t p : τ} (h : (k.task t).realParent = some p) :
    parentPid k t = pidOf k (some p) := by
  rw [parentPid, h]
  rfl

variable [DecidableEq τ]

/-- The first child of a process in its tree. -/
theorem firstChildPid_eq {t : RoseTree τ} (h : Linked k t) :
    firstChildPid k t.val = some (pidOf k (headVal t.children)) := by
  have hnext := h.ring.next_head
  have hempty := h.ring.head_next_eq_iff
  cases hts : t.children with
  | nil =>
    rw [hts] at hempty
    rw [firstChildPid, if_pos (listEmpty_iff.mpr (hempty.mpr rfl))]
    rfl
  | cons c cs =>
    rw [hts] at hnext hempty
    have hne : ¬listEmpty k.links (.children t.val) = true := fun he =>
      List.cons_ne_nil _ _ (hempty.mp (listEmpty_iff.mp he))
    rw [firstChildPid, if_neg hne, hnext]
    rfl

/-- The next sibling of a process on the list of its parent. -/
theorem nextSiblingPid_eq {p : τ} {c : RoseTree τ} {cs : List (RoseTree τ)} {l : List (Node τ)}
    (hring : Ring k.links (.children p) (l ++ .sibling c.val :: cs.map fun c => .sibling c.val))
    (hparent : (k.task c.val).realParent = some p) :
    nextSiblingPid k c.val = some (pidOf k (headVal cs)) := by
  have hne : ¬listEmpty k.links (.sibling c.val) = true := fun he =>
    hring.next_ne_self (List.mem_append_right _ List.mem_cons_self) (listEmpty_iff.mp he)
  have hnext := hring.next_eq
  rw [nextSiblingPid, if_neg hne, hparent, hnext]
  cases cs with
  | nil => exact if_pos rfl
  | cons d ds => exact if_neg (by simp)

/-- The block of `pstree_dfs` stores the record of the child. -/
theorem fillRecord_eq {p : τ} {c : RoseTree τ} {cs : List (RoseTree τ)} {l : List (Node τ)}
    {w : Walk} {depth : ℕ}
    (hring : Ring k.links (.children p) (l ++ .sibling c.val :: cs.map fun c => .sibling c.val))
    (hparent : (k.task c.val).realParent = some p) (hc : Linked k c) (hw : w.layer = depth) :
    fillRecord k c.val w = some
      { w with
        buf := storeRecord w.buf w.idx
          (record k ⟨c.val, some p, depth, headVal c.children, headVal cs⟩)
        idx := w.idx + 1 } := by
  rw [fillRecord, firstChildPid_eq hc, nextSiblingPid_eq hring hparent, parentPid_eq hparent, hw]
  rfl

/-- The block of `ptree` stores the record of the root. -/
theorem fillRoot_eq (P : ProcessTree k) {w : Walk} (hw : w.layer = 0) :
    fillRoot k w = some
      { w with
        buf := storeRecord w.buf w.idx
          (record k ⟨P.tree.val, none, 0, headVal P.tree.children, none⟩)
        idx := w.idx + 1 } := by
  rw [fillRoot, ← P.val_eq, firstChildPid_eq P.linked, hw]
  rfl

end OsProject.Ptree
