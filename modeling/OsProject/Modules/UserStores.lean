import OsProject.Ptree.Listing
import OsProject.Trace.Session

/-!
# Stores into user memory

`Put_user` and `Copy_to_user` in `sys_ptree.c` log a failure and go on, and `sys_get_trace` does not
look at the result of `put_user`. The calls return 0 all the same. So 0 means that the data has
arrived if and only if none of the stores that are attempted can fail.

## Main definitions

* `Arrived` — the records and the end mark are in the buffer.
* `Fits` — none of the stores that `ptree` attempts fails.

## Main results

* `arrived_of_fits`, `fits_of_arrived` — for `ptree`.
* `success_means_stored_iff` — for both calls.
-/

namespace OsProject.Modules

open Ptree RoseTree

variable {τ : Type*} {k : Kernel τ} {tree : RoseTree τ} {nr : ℤ}

/-! ### The buffer of `ptree` -/

/-- The records of the tree are in the buffer, as far as there is room, and the end mark behind
them. -/
structure Arrived (k : Kernel τ) (tree : RoseTree τ) (nr : ℤ) (out : UserBuf) : Prop where
  records : ∀ (i : ℕ) (e : Entry τ), tree.listing[i]? = some e → (i : ℤ) < nr →
    out.records i = record k e
  endMark : (tree.size : ℤ) < nr → finishHere <+: (out.records tree.size).comm.1

/-- All bytes that are stored for so many processes can be stored to. -/
structure Fits (writable : ℕ → Field → ℕ) (size : ℕ) (nr : ℤ) : Prop where
  records : ∀ i < size, (i : ℤ) < nr → ∀ f : Field, f.bytes ≤ writable i f
  endMark : (size : ℤ) < nr → finishHere.length ≤ writable size .comm

/-- A record whose fields all differ from those of the given one, and whose name differs in each
byte. -/
def contrary (r : Prinfo) : Prinfo where
  parentPid := r.parentPid + 1
  pid := r.pid + 1
  firstChildPid := r.firstChildPid + 1
  nextSiblingPid := r.nextSiblingPid + 1
  state := r.state + 1
  uid := r.uid + 1
  comm := ⟨r.comm.1.map (· + 1), by rw [List.length_map, r.comm.2]⟩
  layer := r.layer + 1

/-- What is copied of a name stands at its start, and its old bytes behind it. -/
theorem overwrite_take_getElem? (old : Comm) (src : List UInt8) {n i : ℕ} (hn : n ≤ i)
    (hi : i < 16) (hsrc : n ≤ src.length) :
    (old.overwrite (src.take n)).1[i]? = old.1[i]? := by
  have hlen : (src.take n).length = n := by rw [List.length_take, Nat.min_eq_left hsrc]
  change ((src.take n ++ old.1.drop (src.take n).length).take 16)[i]? = old.1[i]?
  rw [List.getElem?_take_of_lt hi, hlen, List.getElem?_append_right (by omega), hlen,
    List.getElem?_drop]
  congr 1
  omega

/-- A field keeps its contrary value when not all of it can be stored to. -/
theorem bytes_le_of_stored_contrary {writable : Field → ℕ} {r : Prinfo}
    (h : (contrary r).stored writable r = r) (f : Field) : f.bytes ≤ writable f := by
  by_contra hf
  cases f with
  | parentPid =>
    have := congrArg Prinfo.parentPid h
    simp only [Prinfo.stored, if_neg hf, contrary] at this
    omega
  | pid =>
    have := congrArg Prinfo.pid h
    simp only [Prinfo.stored, if_neg hf, contrary] at this
    omega
  | firstChildPid =>
    have := congrArg Prinfo.firstChildPid h
    simp only [Prinfo.stored, if_neg hf, contrary] at this
    omega
  | nextSiblingPid =>
    have := congrArg Prinfo.nextSiblingPid h
    simp only [Prinfo.stored, if_neg hf, contrary] at this
    omega
  | state =>
    have := congrArg Prinfo.state h
    simp only [Prinfo.stored, if_neg hf, contrary] at this
    omega
  | uid =>
    have := congrArg Prinfo.uid h
    simp only [Prinfo.stored, if_neg hf, contrary] at this
    bv_omega
  | comm =>
    have hlt : writable .comm < 16 := Nat.lt_of_not_le hf
    have hcomm := congrArg (fun r : Prinfo => r.comm.1[writable .comm]?) h
    have hlen := r.comm.2
    simp only [Prinfo.stored] at hcomm
    rw [overwrite_take_getElem? _ _ (Nat.le_refl _) hlt (by omega), contrary, List.getElem?_map,
      List.getElem?_eq_getElem (by omega)] at hcomm
    exact absurd (Option.some.inj hcomm) (by simp)
  | layer =>
    have := congrArg Prinfo.layer h
    simp only [Prinfo.stored, if_neg hf, contrary] at this
    omega

variable {writable : ℕ → Field → ℕ} [DecidableEq τ] {fuel : ℕ}

/-- Whatever is in a buffer with these bytes that can be stored to, 0 means that the data has
arrived. -/
def PtreeTruthful (k : Kernel τ) (tree : RoseTree τ) (fuel : ℕ) (nr : ℤ)
    (writable : ℕ → Field → ℕ) : Prop :=
  ∀ (buf out : UserBuf) (ret : ℤ), buf.writable = writable →
    ptree k fuel (some buf) (some nr) = some (ret, some out) → ret = 0 → Arrived k tree nr out

/-- The data arrives when all stores succeed. -/
theorem arrived_of_fits (P : ProcessTree k) (hfuel : P.tree.size ≤ fuel)
    (hfits : Fits writable P.tree.size nr) : PtreeTruthful k P.tree fuel nr writable := by
  intro buf out ret hbuf hcall _
  rw [ptree_eq P hfuel buf] at hcall
  obtain ⟨-, hout⟩ := Prod.mk.inj (Option.some.inj hcall)
  obtain rfl := Option.some.inj hout
  have hlength : P.tree.listing.length = P.tree.size := P.tree.length_listing
  constructor
  · intro i e he hi
    have hlt : i < P.tree.listing.length := (List.getElem?_eq_some_iff.mp he).1
    rw [finish_listing_records P.tree buf (by omega), if_pos hi, he, hbuf]
    exact Prinfo.stored_eq (hfits.records i (by omega) hi) _ _
  · intro hroom
    have hwritable : (storeEntries k nr ⟨buf, 0, 0⟩ P.tree.listing).buf.writable = buf.writable :=
      storeEntries_writable P.tree.listing ⟨buf, 0, 0⟩
    rw [finish_listing, if_pos hroom]
    exact UserBuf.prefix_copyToUser (by rw [hwritable, hbuf]; exact hfits.endMark hroom) (by decide)

/-- A buffer that has something else everywhere. -/
def contraryBuf (k : Kernel τ) (tree : RoseTree τ) (writable : ℕ → Field → ℕ) : UserBuf where
  records i := (tree.listing[i]?.map fun e => contrary (record k e)).getD
    ⟨0, 0, 0, 0, 0, 0, ⟨List.replicate 16 1, rfl⟩, 0⟩
  writable := writable
  stores := []

/-- A part of the end mark over a name of ones is not the end mark. -/
theorem not_endMark_of_cut {n : ℕ} (hn : n < finishHere.length) :
    ¬finishHere <+:
      (Comm.overwrite ⟨List.replicate 16 1, rfl⟩ (finishHere.take n)).1 := by
  have h : ∀ n : Fin 13, ¬finishHere <+:
      (Comm.overwrite ⟨List.replicate 16 1, rfl⟩ (finishHere.take n)).1 := by decide +kernel
  exact h ⟨n, hn⟩

/-- All stores succeed when the data arrives in a buffer that had something else everywhere. -/
theorem fits_of_arrived (P : ProcessTree k) (hfuel : P.tree.size ≤ fuel)
    (h : PtreeTruthful k P.tree fuel nr writable) : Fits writable P.tree.size nr := by
  have harrived := h (contraryBuf k P.tree writable) _ 0 rfl (ptree_eq P hfuel _) rfl
  have hlength : P.tree.listing.length = P.tree.size := P.tree.length_listing
  constructor
  · intro i hi hnr
    have he : P.tree.listing[i]? = some P.tree.listing[i] :=
      List.getElem?_eq_getElem (by omega)
    have hrecord := harrived.records i _ he hnr
    rw [finish_listing_records P.tree _ (by omega), if_pos hnr, he] at hrecord
    simp only [contraryBuf, he, Option.map_some, Option.getD_some] at hrecord
    exact bytes_le_of_stored_contrary hrecord
  · intro hroom
    by_contra hlt
    have hcut : writable P.tree.size .comm < finishHere.length := Nat.lt_of_not_le hlt
    have hwritable : (storeEntries k nr ⟨contraryBuf k P.tree writable, 0, 0⟩
        P.tree.listing).buf.writable = writable :=
      storeEntries_writable P.tree.listing ⟨contraryBuf k P.tree writable, 0, 0⟩
    have hbefore : (storeEntries k nr ⟨contraryBuf k P.tree writable, 0, 0⟩
        P.tree.listing).buf.records P.tree.size =
          ⟨0, 0, 0, 0, 0, 0, ⟨List.replicate 16 1, rfl⟩, 0⟩ := by
      have hnone : P.tree.listing[P.tree.size]? = none := List.getElem?_eq_none (by omega)
      rw [storeEntries_records, Nat.sub_zero, hnone]
      simp only [contraryBuf, hnone, Option.map_none, Option.getD_none, ite_self]
    have hmark := harrived.endMark hroom
    rw [finish_listing, if_pos hroom, UserBuf.copyToUser_records finishHere
      (Function.update_eq_self P.tree.size _).symm, Function.update_self, hbefore,
      hwritable] at hmark
    exact not_endMark_of_cut hcut hmark

/-! ### Both calls -/

variable {σ : Type*}

/-- `sys_get_trace` returns 0 only if it has stored the count of the task. -/
def GetTraceTruthful (m : Trace.Tasks σ) (pid : ℤ) (putUser : Bool) : Prop :=
  (Trace.sysGetTrace m pid putUser).1 = 0 → ∃ tsk, m.pidTask pid = some tsk ∧
    (Trace.sysGetTrace m pid putUser).2 = some (m.task tsk).wcounts

theorem getTraceTruthful_iff (m : Trace.Tasks σ) (pid : ℤ) (putUser : Bool) :
    GetTraceTruthful m pid putUser ↔ m.pidTask pid = none ∨ putUser = true := by
  rw [GetTraceTruthful, Trace.sysGetTrace]
  cases hfind : m.pidTask pid with
  | none => simp
  | some tsk => cases putUser <;> simp

/-- The calls return 0 only if the data has arrived, if and only if none of the stores that they
attempt fails. -/
theorem success_means_stored_iff (P : ProcessTree k) (hfuel : P.tree.size ≤ fuel) (nr : ℤ)
    (writable : ℕ → Field → ℕ) (m : Trace.Tasks σ) (pid : ℤ) (putUser : Bool) :
    (PtreeTruthful k P.tree fuel nr writable ↔ Fits writable P.tree.size nr) ∧
    (GetTraceTruthful m pid putUser ↔ m.pidTask pid = none ∨ putUser = true) :=
  ⟨⟨fits_of_arrived P hfuel, arrived_of_fits P hfuel⟩, getTraceTruthful_iff m pid putUser⟩

theorem success_means_stored_iff_fourTasks :
    (PtreeTruthful fourTasks fourTree.tree 4 5 (fun _ _ => 0) ↔
      Fits (fun _ _ => 0) fourTree.tree.size 5) ∧
    (GetTraceTruthful Trace.twoTasks 1 false ↔ Trace.twoTasks.pidTask 1 = none ∨ false = true) :=
  success_means_stored_iff fourTree (by decide) 5 _ Trace.twoTasks 1 false

/-- The call for the four processes returns 0 with a buffer that takes no store. -/
theorem not_success_means_stored : ¬∀ (writable : ℕ → Field → ℕ),
    PtreeTruthful fourTasks fourTree.tree 4 5 writable := by
  intro hall
  have hcall : (ptree fourTasks 4 (some { zeroBuf with writable := fun _ _ => 0 }) (some 5)).map
      (fun r => (r.1, r.2.map fun out => (out.records 1).pid)) = some (0, some 0) := by
    decide +kernel
  obtain ⟨⟨ret, out⟩, hcall, hresult⟩ := Option.map_eq_some_iff.mp hcall
  obtain ⟨rfl, hout⟩ := Prod.mk.inj hresult
  obtain ⟨out, rfl, hpid⟩ := Option.map_eq_some_iff.mp hout
  have he : fourTree.tree.listing[1]? = some ⟨1, some 0, 1, some 2, some 3⟩ := rfl
  have hrecord := (hall _ _ out 0 rfl hcall rfl).records 1 _ he (by decide)
  rw [hrecord] at hpid
  cases hpid

end OsProject.Modules
