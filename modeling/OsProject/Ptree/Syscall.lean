import OsProject.Lib.ListHead
import Mathlib.Data.Int.Notation

/-!
# The system call `ptree`

`sys_ptree.c` walks the process tree depth first and stores a record for each process in a buffer
of the calling program. The model has the kernel memory that the walk reads, with the lists of
children as rings of list heads, and the buffer, field by field. A store into the buffer may fault;
the call then goes on without it. The kernel log is left out.

The walk runs on fuel: the recursion and the loops over the lists of children are only bounded by
the shape of the memory. The values of type `int`, `pid_t` and `long` are integers, as nothing is
computed from them but the two counters: `idx` stays below `*nr` while it is counted up, and
`layer` below the depth of the recursion.

## Main definitions

* `Kernel`, `TaskStruct`, `Node` — the kernel memory.
* `UserBuf`, `Prinfo` — the buffer.
* `fillRecord`, `pstreeDfs`, `ptree` — the functions of `sys_ptree.c`.
-/

namespace OsProject.Ptree

open Intrusive

/-- The list heads in the tasks: `children`, the head of a list, and `sibling`, a node on the list
of the parent. -/
inductive Node (τ : Type*)
  | children (t : τ)
  | sibling (t : τ)
deriving DecidableEq

/-- `char comm[16]`. -/
abbrev Comm := { l : List UInt8 // l.length = 16 }

/-- The fields of `struct task_struct` that the call reads, besides the list heads; `uid` is
`cred->uid`. -/
structure TaskStruct (τ : Type*) where
  pid : ℤ
  realParent : Option τ
  state : ℤ
  uid : BitVec 32
  comm : Comm

/-- The kernel memory: the tasks, their list heads and `init_task`. -/
structure Kernel (τ : Type*) where
  task : τ → TaskStruct τ
  links : Links (Node τ)
  initTask : τ

/-- `struct prinfo`. A `long` has 32 bits on the target, so that it holds the bits of a `uid_t`. -/
structure Prinfo where
  parentPid : ℤ
  pid : ℤ
  firstChildPid : ℤ
  nextSiblingPid : ℤ
  state : ℤ
  uid : BitVec 32
  comm : Comm
  layer : ℤ
deriving DecidableEq

/-- The fields of a record. -/
inductive Field
  | parentPid | pid | firstChildPid | nextSiblingPid | state | uid | comm | layer
deriving DecidableEq

/-- The bytes of a field. -/
def Field.bytes : Field → ℕ
  | .comm => 16
  | .parentPid | .pid | .firstChildPid | .nextSiblingPid | .state | .uid | .layer => 4

theorem Field.bytes_le (f : Field) : f.bytes ≤ 16 := by
  cases f <;> decide

/-- The user memory from `buf` on: the records, how many leading bytes of each field can be stored
to, and the stores that were attempted, in order. -/
structure UserBuf where
  records : ℕ → Prinfo
  writable : ℕ → Field → ℕ
  stores : List (ℕ × Field)

/-- `Put_user(x, &(buf[i].f))`, where `set` puts `x` into the field `f`. -/
def UserBuf.putUser (buf : UserBuf) (i : ℕ) (f : Field) (set : Prinfo → Prinfo) : UserBuf where
  records :=
    if f.bytes ≤ buf.writable i f then Function.update buf.records i (set (buf.records i))
    else buf.records
  writable := buf.writable
  stores := buf.stores ++ [(i, f)]

/-- Overwrite the leading bytes of a name. -/
def Comm.overwrite (c : Comm) (src : List UInt8) : Comm :=
  ⟨(src ++ c.1.drop src.length).take 16, by
    have := c.2
    simp only [List.length_take, List.length_append, List.length_drop]
    omega⟩

/-- `Copy_to_user(buf[i].comm, src, n)` for a source of `n` bytes, which stores up to the first
byte that cannot be stored to. -/
def UserBuf.copyToUser (buf : UserBuf) (i : ℕ) (src : List UInt8) : UserBuf where
  records := Function.update buf.records i
    { buf.records i with comm := (buf.records i).comm.overwrite (src.take (buf.writable i .comm)) }
  writable := buf.writable
  stores := buf.stores ++ [(i, .comm)]

/-- `list_entry(list, struct task_struct, sibling)`. There is no task around a head of a list. -/
def listEntry {τ : Type*} : Node τ → Option τ
  | .sibling t => some t
  | .children _ => none

/-- What the walk changes: the buffer and the counters `*idx` and `*layer`. -/
structure Walk where
  buf : UserBuf
  idx : ℕ
  layer : ℤ

section Functions

variable {τ : Type*} [DecidableEq τ] (k : Kernel τ)

/-- The pid of `real_parent`, or 0 without one. -/
def parentPid (t : τ) : ℤ :=
  match (k.task t).realParent with
  | some q => (k.task q).pid
  | none => 0

/-- The pid of the first entry of the list of children, or 0 if it is empty. -/
def firstChildPid (t : τ) : Option ℤ :=
  if listEmpty k.links (.children t) then some 0
  else (listEntry (k.links.next (.children t))).map fun q => (k.task q).pid

/-- The pid of the next entry of the list that the task is on, or 0 at the end of the list. -/
def nextSiblingPid (t : τ) : Option ℤ :=
  if listEmpty k.links (.sibling t) then some 0
  else if (k.task t).realParent.map Node.children = some (k.links.next (.sibling t)) then some 0
  else (listEntry (k.links.next (.sibling t))).map fun q => (k.task q).pid

/-- The stores of the values of one record, in the order of both functions. -/
def storeRecord (buf : UserBuf) (i : ℕ) (r : Prinfo) : UserBuf :=
  let buf := buf.putUser i .parentPid fun p => { p with parentPid := r.parentPid }
  let buf := buf.putUser i .pid fun p => { p with pid := r.pid }
  let buf := buf.putUser i .firstChildPid fun p => { p with firstChildPid := r.firstChildPid }
  let buf := buf.putUser i .nextSiblingPid fun p => { p with nextSiblingPid := r.nextSiblingPid }
  let buf := buf.putUser i .state fun p => { p with state := r.state }
  let buf := buf.putUser i .uid fun p => { p with uid := r.uid }
  let buf := buf.copyToUser i r.comm.1
  buf.putUser i .layer fun p => { p with layer := r.layer }

/-- The block of `pstree_dfs` that fills the record of a child and counts `*idx` up. -/
def fillRecord (t : τ) (w : Walk) : Option Walk :=
  (firstChildPid k t).bind fun first => (nextSiblingPid k t).map fun next =>
    { w with
      buf := storeRecord w.buf w.idx
        { parentPid := parentPid k t, pid := (k.task t).pid, firstChildPid := first,
          nextSiblingPid := next, state := (k.task t).state, uid := (k.task t).uid,
          comm := (k.task t).comm, layer := w.layer }
      idx := w.idx + 1 }

/-- The body of the loop of `pstree_dfs`, with its recursive call. -/
def visitChild (nr : ℤ) (dfs : τ → Walk → Option Walk) (list : Node τ) (w : Walk) :
    Option Walk :=
  (listEntry list).bind fun child =>
  (if w.idx < nr then fillRecord k child w else some w).bind fun w =>
  (dfs child { w with layer := w.layer + 1 }).map fun w => { w with layer := w.layer - 1 }

/-- `pstree_dfs`. -/
def pstreeDfs (nr : ℤ) : ℕ → τ → Walk → Option Walk
  | 0, _, _ => none
  | fuel + 1, task, w =>
    listForEach k.links (visitChild k nr (pstreeDfs nr fuel)) (.children task) fuel w

/-- The block of `ptree` that fills the record of `init_task`. -/
def fillRoot (w : Walk) : Option Walk :=
  (firstChildPid k k.initTask).map fun first =>
    { w with
      buf := storeRecord w.buf w.idx
        { parentPid := 0, pid := (k.task k.initTask).pid, firstChildPid := first,
          nextSiblingPid := 0, state := (k.task k.initTask).state,
          uid := (k.task k.initTask).uid, comm := (k.task k.initTask).comm, layer := w.layer }
      idx := w.idx + 1 }

/-- The bytes of `"Finish here!"` with its terminator. -/
def finishHere : List UInt8 := [70, 105, 110, 105, 115, 104, 32, 104, 101, 114, 101, 33, 0]

/-- `ptree`, with its result and the user memory after it; `none` for a null pointer. The integer
`*nr` is outside the buffer. -/
def ptree (fuel : ℕ) (buf : Option UserBuf) (nr : Option ℤ) : Option (ℤ × Option UserBuf) :=
  match buf, nr with
  | some buf, some nr =>
    let w : Walk := ⟨buf, 0, 0⟩
    (if w.idx < nr then fillRoot k w else some w).bind fun w =>
    (pstreeDfs k nr fuel k.initTask { w with layer := w.layer + 1 }).map fun w =>
      if w.idx < nr then (0, some (w.buf.copyToUser w.idx finishHere)) else (0, some w.buf)
  | buf, _ => some (1, buf)

end Functions

end OsProject.Ptree
