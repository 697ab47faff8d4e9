import OsProject.Ptree.Processes

/-!
# `ptree` among forks and exits

The walk of `pstree_dfs` takes the lock of the list of tasks for each field of a record and lets it
go in between, and it reads `list->next` without the lock. Forks and exits come between these steps.
The state of the call is a stack of frames, one for each running `pstree_dfs` with its task and its
cursor `list`, and the place where the innermost one stands; what is computed from local variables
only is part of the step before.

The cursor is a node in the kernel memory. When a list is changed, the cursor stays on its node,
wherever that is linked now, and the end of the loop is the head of the list that the loop began
with. A cursor that comes to the head of another list takes the memory around it for a task; the
walk has gone `wild` then.

## Main definitions

* `Frame`, `Pc`, `Call` — the state of a call of `ptree`.
* `Call.step` — a step of the call.
* `World`, `World.run` — the call and the processes, under a schedule of the edits.

Source: `sys_ptree.c`.
-/

namespace OsProject.Ptree

open Intrusive

variable {τ : Type*}

/-- A running `pstree_dfs`: its task and its cursor. -/
structure Frame (τ : Type*) where
  task : τ
  list : Node τ

/-- The place where the call stands. -/
inductive Pc (τ : Type*)
  /-- The block of `ptree` that fills the record of `init_task`. -/
  | root
  /-- `list = list->next`, with the test for the end of the list; outside of `pstree_dfs`, the end
  of `ptree`. -/
  | advance
  /-- `list_entry`, with the test for room in the buffer. -/
  | entry
  /-- The store of a field of the record of the child. -/
  | store (f : Field) (child : τ)
  | done
  | wild

/-- The state of a call, with the processes that have a record so far. -/
structure Call (τ : Type*) where
  pc : Pc τ
  stack : List (Frame τ)
  walk : Walk
  recorded : List τ

/-- The field that is stored after a field. -/
def Field.next : Field → Option Field
  | .parentPid => some .pid
  | .pid => some .firstChildPid
  | .firstChildPid => some .nextSiblingPid
  | .nextSiblingPid => some .state
  | .state => some .uid
  | .uid => some .comm
  | .comm => some .layer
  | .layer => none

section Step

variable [DecidableEq τ] (k : Kernel τ) (nr : ℤ)

/-- The store of a field of the record of `t`, under the lock. -/
def storeField (t : τ) (w : Walk) : Field → Option UserBuf
  | .parentPid =>
    some (w.buf.putUser w.idx .parentPid fun p => { p with parentPid := parentPid k t })
  | .pid => some (w.buf.putUser w.idx .pid fun p => { p with pid := (k.task t).pid })
  | .firstChildPid => (firstChildPid k t).map fun first =>
    w.buf.putUser w.idx .firstChildPid fun p => { p with firstChildPid := first }
  | .nextSiblingPid => (nextSiblingPid k t).map fun next =>
    w.buf.putUser w.idx .nextSiblingPid fun p => { p with nextSiblingPid := next }
  | .state => some (w.buf.putUser w.idx .state fun p => { p with state := (k.task t).state })
  | .uid => some (w.buf.putUser w.idx .uid fun p => { p with uid := (k.task t).uid })
  | .comm => some (w.buf.copyToUser w.idx (k.task t).comm.1)
  | .layer => some (w.buf.putUser w.idx .layer fun p => { p with layer := w.layer })

namespace Call

/-- The recursive call of `pstree_dfs`. -/
def descend (c : Call τ) (t : τ) : Call τ :=
  { c with
    pc := .advance
    stack := ⟨t, .children t⟩ :: c.stack
    walk := { c.walk with layer := c.walk.layer + 1 } }

/-- The block of `ptree` for `init_task`, under the lock. -/
def stepRoot (c : Call τ) : Call τ :=
  if c.walk.idx < nr then
    match fillRoot k c.walk with
    | none => { c with pc := .wild }
    | some w => descend { c with walk := w, recorded := c.recorded ++ [k.initTask] } k.initTask
  else c.descend k.initTask

/-- The step of a loop to the next node, and the return at the end of the list. -/
def stepAdvance (c : Call τ) : Call τ :=
  match c.stack with
  | [] =>
    { c with
      pc := .done
      walk :=
        if c.walk.idx < nr then
          { c.walk with buf := c.walk.buf.copyToUser c.walk.idx finishHere }
        else c.walk }
  | f :: fs =>
    if k.links.next f.list = .children f.task then
      { c with stack := fs, walk := { c.walk with layer := c.walk.layer - 1 } }
    else { c with pc := .entry, stack := { f with list := k.links.next f.list } :: fs }

/-- The beginning of the body of a loop. -/
def stepEntry (c : Call τ) : Call τ :=
  match c.stack.head?.bind fun f => listEntry f.list with
  | none => { c with pc := .wild }
  | some child =>
    if c.walk.idx < nr then { c with pc := .store .parentPid child } else c.descend child

/-- The store of a field, with the recursive call after the last one. -/
def stepStore (f : Field) (child : τ) (c : Call τ) : Call τ :=
  match storeField k child c.walk f with
  | none => { c with pc := .wild }
  | some buf =>
    match f.next with
    | some g => { c with pc := .store g child, walk := { c.walk with buf := buf } }
    | none =>
      descend
        { c with
          walk := { c.walk with buf := buf, idx := c.walk.idx + 1 }
          recorded := c.recorded ++ [child] } child

/-- A step of the call. -/
def step (c : Call τ) : Call τ :=
  match c.pc with
  | .root => c.stepRoot k nr
  | .advance => c.stepAdvance k nr
  | .entry => c.stepEntry nr
  | .store f child => c.stepStore k f child
  | .done => c
  | .wild => c

end Call

end Step

/-- The processes and a call of `ptree`. -/
structure World (τ : Type*) where
  procs : Processes τ
  call : Call τ

namespace World

/-- The call has begun. -/
def start (P : Processes τ) (buf : UserBuf) : World τ where
  procs := P
  call := { pc := .root, stack := [], walk := ⟨buf, 0, 0⟩, recorded := [] }

variable [DecidableEq τ] (nr : ℤ)

/-- A fork or an exit, or else a step of the call. -/
def exec (w : World τ) : Option (Edit τ) → World τ
  | some e => { w with procs := w.procs.apply e }
  | none => { w with call := w.call.step w.procs.kernel nr }

/-- The states of the world under a schedule. -/
def run (w : World τ) (sched : ℕ → Option (Edit τ)) : ℕ → World τ
  | 0 => w
  | n + 1 => (w.run sched n).exec nr (sched n)

/-- The walk has been through the list of the child reaper. -/
def PastReaper (w : World τ) : Prop :=
  w.procs.reaper ∈ w.call.recorded ∧ ∀ f ∈ w.call.stack, f.task ≠ w.procs.reaper

/-- An exit does not disturb the call: no cursor is on the node of the process, and the walk has been
through the list of the child reaper, or none of the children that come to this list has a record,
or the buffer is full. -/
def Undisturbed (w : World τ) : Option (Edit τ) → Prop
  | some (.exit t) => w.procs.MayExit t →
    (∀ f ∈ w.call.stack, f.list ≠ .sibling t) ∧
      (w.call.walk.idx < nr → w.PastReaper ∨ ∀ c ∈ w.procs.children t, c ∉ w.call.recorded)
  | _ => True

end World

end OsProject.Ptree
