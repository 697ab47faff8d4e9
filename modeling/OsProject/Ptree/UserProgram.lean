import Mathlib.Data.List.TakeWhile
import Mathlib.Data.Nat.Digits.Defs
import OsProject.Ptree.Listing

/-!
# The program `ptree`

`main` of `ptree.c` makes the system call with an array of 100 records and prints a line for each
record up to the end mark, which is a name that any process can have.

Names end with a NUL within their 16 bytes; the program has no result when it prints one that does
not. The array of the program takes all stores.

## Main definitions

* `userMain` — the program, with what it prints.
* `ShowsEvery` — a line for each process, up to 100.

## Main results

* `printRecords_eq` — the records are printed up to the first one that is taken for the end mark.
* `shows_every_iff`.

Source: `Problem2/ptree.c`.
-/

namespace OsProject.Ptree

open Intrusive RoseTree

/-! ### The program -/

/-- The digits that `printf` writes for a number that is not negative. -/
def decimalNat (n : ℕ) : List UInt8 :=
  if n = 0 then [48] else (Nat.digits 10 n).reverse.map fun d => .ofNat (48 + d)

/-- `%d` and `%ld`. -/
def decimal (z : ℤ) : List UInt8 :=
  if z < 0 then 45 :: decimalNat z.natAbs else decimalNat z.natAbs

/-- The string in a name. -/
def Comm.text (c : Comm) : List UInt8 := c.1.takeWhile (· ≠ 0)

/-- `strcmp("Finish here!", comm) == 0`. -/
def Comm.IsFinish (c : Comm) : Prop := c.1.take finishHere.length = finishHere

instance (c : Comm) : Decidable c.IsFinish := inferInstanceAs (Decidable (_ = _))

/-- The array size of the program. -/
def bufSize : ℕ := 100

/-- The line of a record: the indentation, and
`printf("%s,%d,%ld,%d,%d,%d,%ld\n", comm, pid, state, parent_pid, ...)`. -/
def recordLine (r : Prinfo) : List UInt8 :=
  List.replicate (4 * r.layer.toNat) 32 ++ r.comm.text ++ 44 :: decimal r.pid ++
    44 :: decimal r.state ++ 44 :: decimal r.parentPid ++ 44 :: decimal r.firstChildPid ++
    44 :: decimal r.nextSiblingPid ++ 44 :: decimal r.uid.toInt ++ [10]

/-- The loop of `main` from the record `i` on, when so many records are left. -/
def printRecords (records : ℕ → Prinfo) : ℕ → ℕ → Option (List UInt8)
  | 0, _ => some []
  | n + 1, i =>
    if (records i).comm.IsFinish then some []
    else if 0 ∈ (records i).comm.1 then
      (printRecords records n (i + 1)).map fun rest => recordLine (records i) ++ rest
    else none

/-- The string `"Call failed\n"`. -/
def callFailed : List UInt8 := [67, 97, 108, 108, 32, 102, 97, 105, 108, 101, 100, 10]

/-- The array `buf` of the program with what was on the stack before. -/
def stackBuf (stack : ℕ → Prinfo) : UserBuf where
  records := stack
  writable i f := if i < bufSize then f.bytes else 0
  stores := []

section Program

variable {τ : Type*} [DecidableEq τ]

/-- `main` of `ptree.c`, with what it prints. -/
def userMain (k : Kernel τ) (fuel : ℕ) (stack : ℕ → Prinfo) : Option (List UInt8) :=
  (ptree k fuel (some (stackBuf stack)) (some bufSize)).bind fun r =>
    if r.1 = 1 then some callFailed
    else r.2.bind fun buf => printRecords buf.records bufSize 0

end Program

/-! ### Lines -/

theorem newline_notMem_decimalNat (n : ℕ) : 10 ∉ decimalNat n := by
  rw [decimalNat]
  split
  · decide
  · intro hmem
    obtain ⟨d, hd, hten⟩ := List.mem_map.mp hmem
    have hlt : d < 10 := Nat.digits_lt_base (by decide) (List.mem_reverse.mp hd)
    have hnat := congrArg UInt8.toNat hten
    rw [UInt8.toNat_ofNat_of_lt' (Nat.lt_trans (Nat.add_lt_add_left hlt 48) (by decide))] at hnat
    have hten' : (10 : UInt8).toNat = 10 := rfl
    omega

theorem newline_notMem_decimal (z : ℤ) : 10 ∉ decimal z := by
  rw [decimal]
  split
  · rw [List.mem_cons, not_or]
    exact ⟨by decide, newline_notMem_decimalNat _⟩
  · exact newline_notMem_decimalNat _

/-- The line of a record has its newline and those in the name. -/
theorem count_recordLine (r : Prinfo) : (recordLine r).count 10 = r.comm.text.count 10 + 1 := by
  have hdecimal (z : ℤ) : (decimal z).count 10 = 0 := List.count_eq_zero.mpr (newline_notMem_decimal z)
  have hcomma (l : List UInt8) : (44 :: l).count 10 = l.count 10 :=
    List.count_cons_of_ne (by decide)
  simp only [recordLine, List.count_append, hcomma, hdecimal, List.count_replicate]
  simp

theorem recordLine_ne_nil (r : Prinfo) : recordLine r ≠ [] := by
  intro hnil
  have hcount := count_recordLine r
  rw [hnil] at hcount
  cases hcount

section Printing

variable {τ : Type*} {k : Kernel τ}

/-- The entries of a listing that are printed: those before the first one whose name is taken for
the end mark. -/
def shown (k : Kernel τ) (es : List (Entry τ)) : List (Entry τ) :=
  (es.take bufSize).takeWhile fun e => ¬(k.task e.val).comm.IsFinish

/-- The loop prints the records of a listing that stand from `i` on in the array, up to the first
one that is taken for the end mark. -/
theorem printRecords_eq {records : ℕ → Prinfo} (hnames : ∀ t, 0 ∈ (k.task t).comm.1)
    {es : List (Entry τ)} {n i : ℕ}
    (hrecords : ∀ j e, es[j]? = some e → j < n → records (i + j) = record k e)
    (hmark : es.length < n → (records (i + es.length)).comm.IsFinish) :
    printRecords records n i =
      some (((es.take n).takeWhile fun e => ¬(k.task e.val).comm.IsFinish).flatMap fun e =>
        recordLine (record k e)) := by
  induction n generalizing es i with
  | zero => rw [printRecords, List.take_zero, List.takeWhile_nil, List.flatMap_nil]
  | succ n ih =>
    cases es with
    | nil =>
      have hfinish : (records i).comm.IsFinish := hmark (Nat.succ_pos n)
      rw [printRecords, if_pos hfinish, List.take_nil, List.takeWhile_nil,
        List.flatMap_nil]
    | cons e es =>
      have hfirst : records i = record k e := hrecords 0 e rfl (Nat.succ_pos n)
      have hcomm : (records i).comm = (k.task e.val).comm := by rw [hfirst]; rfl
      rw [printRecords, hcomm, List.take_succ_cons]
      by_cases hfinish : (k.task e.val).comm.IsFinish
      · rw [if_pos hfinish, List.takeWhile_cons_of_neg (by simpa using hfinish), List.flatMap_nil]
      · rw [if_neg hfinish, if_pos (hnames e.val), List.takeWhile_cons_of_pos (by simpa using hfinish),
          List.flatMap_cons, hfirst, @ih es (i + 1)]
        · rfl
        · intro j e' he' hj
          rw [← hrecords (j + 1) e' he' (Nat.succ_lt_succ hj)]
          congr 1
          omega
        · intro hlt
          have hlast := hmark (Nat.succ_lt_succ hlt)
          rwa [List.length_cons, Nat.add_comm es.length 1, ← Nat.add_assoc] at hlast

variable [DecidableEq τ] {fuel : ℕ}

/-- What the program prints for a process tree. -/
theorem userMain_eq (P : ProcessTree k) (hfuel : P.tree.size ≤ fuel)
    (hnames : ∀ t, 0 ∈ (k.task t).comm.1) (stack : ℕ → Prinfo) :
    userMain k fuel stack =
      some ((shown k P.tree.listing).flatMap fun e => recordLine (record k e)) := by
  have hlength : P.tree.listing.length = P.tree.size := P.tree.length_listing
  have hwritable : (stackBuf stack).Writable bufSize := by
    intro i f hi
    exact Nat.le_of_eq (if_pos (Int.ofNat_lt.mp hi)).symm
  obtain ⟨out, hout, hlisted⟩ := ptree_lists_preorder P bufSize hwritable hfuel
  have hret : ¬(0 : ℤ) = 1 := by decide
  rw [userMain, hout, Option.bind_some, if_neg hret, Option.bind_some]
  refine printRecords_eq hnames (fun j e he hj => ?_) fun hlt => ?_
  · rw [Nat.zero_add]
    exact hlisted.filled j e he (Int.ofNat_lt.mpr hj)
  · obtain ⟨rest, hrest⟩ := hlisted.endMark (Int.ofNat_lt.mpr (hlength ▸ hlt))
    rw [Nat.zero_add, hlength, Comm.IsFinish, ← hrest, List.take_left]

/-- The program prints one line for each of the records that the call filled in, in order. -/
structure ShowsEvery (k : Kernel τ) (tree : RoseTree τ) (output : List UInt8) : Prop where
  text : output = (tree.listing.take bufSize).flatMap fun e => recordLine (record k e)
  lines : output.count 10 = min bufSize tree.size

omit [DecidableEq τ] in
/-- There is a newline for each entry, and those in the names. -/
theorem count_flatMap_recordLine (es : List (Entry τ)) :
    (es.flatMap fun e => recordLine (record k e)).count 10 =
      (es.flatMap fun e => (k.task e.val).comm.text).count 10 + es.length := by
  induction es with
  | nil => rfl
  | cons e es ih =>
    have hline : (recordLine (record k e)).count 10 = (k.task e.val).comm.text.count 10 + 1 :=
      count_recordLine (record k e)
    rw [List.flatMap_cons, List.count_append, ih, hline, List.flatMap_cons, List.count_append,
      List.length_cons]
    omega

omit [DecidableEq τ] in
/-- All entries are printed only if none is taken for the end mark. -/
theorem not_isFinish_of_shown {es : List (Entry τ)}
    (h : ((shown k es).flatMap fun e => recordLine (record k e)) =
      (es.take bufSize).flatMap fun e => recordLine (record k e)) :
    ∀ e ∈ es.take bufSize, ¬(k.task e.val).comm.IsFinish := by
  have hsplit := List.takeWhile_append_dropWhile
    (p := fun e : Entry τ => decide ¬(k.task e.val).comm.IsFinish) (l := es.take bufSize)
  rw [← hsplit, List.flatMap_append, shown, eq_comm, List.append_right_eq_self] at h
  have hnil : (es.take bufSize).dropWhile
      (fun e => decide ¬(k.task e.val).comm.IsFinish) = [] := by
    by_contra hne
    obtain ⟨e, rest, hcons⟩ := List.exists_cons_of_ne_nil hne
    rw [hcons, List.flatMap_cons] at h
    exact recordLine_ne_nil _ (List.append_eq_nil_iff.mp h).1
  intro e he
  simpa using List.dropWhile_eq_nil_iff.mp hnil e he

/-- The program shows every process, up to 100, if and only if none of them has the end mark for its
name, or a newline in it. -/
theorem shows_every_iff (P : ProcessTree k) (hfuel : P.tree.size ≤ fuel)
    (hnames : ∀ t, 0 ∈ (k.task t).comm.1) (stack : ℕ → Prinfo) :
    ∃ output, userMain k fuel stack = some output ∧
      (ShowsEvery k P.tree output ↔ ∀ e ∈ P.tree.listing.take bufSize,
        ¬(k.task e.val).comm.IsFinish ∧ 10 ∉ (k.task e.val).comm.text) := by
  refine ⟨_, userMain_eq P hfuel hnames stack, ?_⟩
  have hlength : (P.tree.listing.take bufSize).length = min bufSize P.tree.size := by
    rw [List.length_take, P.tree.length_listing]
  constructor
  · rintro ⟨htext, hlines⟩ e he
    refine ⟨not_isFinish_of_shown htext e he, ?_⟩
    rw [htext, count_flatMap_recordLine, hlength] at hlines
    have hzero : ((P.tree.listing.take bufSize).flatMap fun e =>
        (k.task e.val).comm.text).count 10 = 0 := by omega
    exact fun hmem => List.count_eq_zero.mp hzero (List.mem_flatMap.mpr ⟨e, he, hmem⟩)
  · intro hgood
    have hall : shown k P.tree.listing = P.tree.listing.take bufSize := by
      rw [shown, List.takeWhile_eq_self_iff]
      exact fun e he => decide_eq_true (hgood e he).1
    refine ⟨by rw [hall], ?_⟩
    have hzero : ((P.tree.listing.take bufSize).flatMap fun e =>
        (k.task e.val).comm.text).count 10 = 0 := by
      rw [List.count_eq_zero]
      intro hmem
      obtain ⟨e, he, htext⟩ := List.mem_flatMap.mp hmem
      exact (hgood e he).2 htext
    rw [hall, count_flatMap_recordLine, hzero, hlength, Nat.zero_add]

end Printing

/-- `init_task` and one child with the given name. -/
def twoTasks (comm : Comm) : Kernel (Fin 2) where
  task
    | 0 => ⟨0, none, 0, 0, ⟨115 :: List.replicate 15 0, rfl⟩⟩
    | 1 => ⟨1, some 0, 1, 0, comm⟩
  links :=
    { next := fun
        | .children 0 => .sibling 1
        | .sibling 1 => .children 0
        | x => x
      prev := fun
        | .children 0 => .sibling 1
        | .sibling 1 => .children 0
        | x => x }
  initTask := 0

/-- Their tree. -/
def twoTree (comm : Comm) : ProcessTree (twoTasks comm) where
  tree := .node 0 [.node 1 []]
  val_eq := rfl
  linked := by
    have ring₀ : Ring (twoTasks comm).links (.children 0) [.sibling 1] :=
      ⟨⟨⟨rfl, rfl⟩, rfl, rfl⟩, by decide⟩
    have ring₁ : Ring (twoTasks comm).links (.children 1) [] := ⟨⟨rfl, rfl⟩, by decide⟩
    simp only [Linked, ForestLinked]
    exact ⟨ring₀, rfl, ⟨ring₁, trivial⟩, trivial⟩

theorem names_twoTasks {comm : Comm} (h : 0 ∈ comm.1) : ∀ t, 0 ∈ ((twoTasks comm).task t).comm.1
  | 0 => List.mem_cons_of_mem _ (List.mem_replicate.mpr ⟨by decide, rfl⟩)
  | 1 => h

/-- A child named `"init"`. -/
theorem shows_every_iff_twoTasks :
    let comm : Comm := ⟨[105, 110, 105, 116] ++ List.replicate 12 0, rfl⟩
    ∃ output, userMain (twoTasks comm) 2 zeroBuf.records = some output ∧
      (ShowsEvery (twoTasks comm) (twoTree comm).tree output ↔
        ∀ e ∈ (twoTree comm).tree.listing.take bufSize,
          ¬((twoTasks comm).task e.val).comm.IsFinish ∧
            10 ∉ ((twoTasks comm).task e.val).comm.text) :=
  shows_every_iff (twoTree _) (by decide) (names_twoTasks (by decide)) zeroBuf.records

/-- A child named like the end mark is not shown. -/
theorem not_shows_every : ¬∀ comm : Comm, 0 ∈ comm.1 → ∀ output,
    userMain (twoTasks comm) 2 zeroBuf.records = some output →
      ShowsEvery (twoTasks comm) (twoTree comm).tree output := by
  intro hall
  have hname : (0 : UInt8) ∈ finishHere ++ [0, 0, 0] := by decide
  have hcount : (userMain (twoTasks ⟨finishHere ++ [0, 0, 0], rfl⟩) 2 zeroBuf.records).map
      (fun output => output.count 10) = some 1 := by decide +kernel
  obtain ⟨output, houtput, hone⟩ := Option.map_eq_some_iff.mp hcount
  have hlines := (hall ⟨finishHere ++ [0, 0, 0], rfl⟩ hname output houtput).lines
  rw [hone] at hlines
  exact absurd hlines (by decide)

end OsProject.Ptree
