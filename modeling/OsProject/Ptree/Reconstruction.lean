import OsProject.Lib.Outline
import OsProject.Ptree.Listing

/-!
# The process tree from the listing

The records that `ptree` stores are an outline of the process tree, with the field `layer` for the
depth. So the tree of the pids can be rebuilt from the layers alone, and the other pids of a record
are those of its parent, its first child and its next sibling in the rebuilt tree.

## Main definitions

* `Reconstructs` — the records determine the tree, and their pids agree with it.

## Main results

* `ptree_reconstructs`.
-/

namespace OsProject.Ptree

open RoseTree Outline

variable {τ : Type*} {k : Kernel τ}

/-- The layers of the records. -/
def layers (records : ℕ → Prinfo) (j : ℕ) : ℤ := (records j).layer

/-- The pids of the records. -/
def pids (records : ℕ → Prinfo) (j : ℕ) : ℤ := (records j).pid

/-- The records of a tree determine it by their layers and pids, and their other pids are those that
the layers tell. -/
structure Reconstructs (k : Kernel τ) (tree : RoseTree τ) (records : ℕ → Prinfo) : Prop where
  /-- Of all trees of the processes, only the process tree has the pids of the tree rebuilt from the
  layers. -/
  rebuilt : ∀ t : RoseTree τ, (∀ x ∈ t.preorder, x ∈ tree.preorder) →
    (t.map (fun x => (k.task x).pid) =
      rebuild (layers records) (pids records) tree.size tree.size 0 ↔ t = tree)
  parent : ∀ j < tree.size, ∀ i, ParentRow (layers records) i j →
    (records j).parentPid = (records i).pid
  noParent : ∀ j < tree.size, (∀ i, ¬ParentRow (layers records) i j) → (records j).parentPid = 0
  firstChild : ∀ j < tree.size, (records j).firstChildPid =
    if j + 1 < tree.size ∧ layers records (j + 1) = layers records j + 1 then (records (j + 1)).pid
    else 0
  nextSibling : ∀ j < tree.size, ∀ m < tree.size, SiblingRow (layers records) j m →
    (records j).nextSiblingPid = (records m).pid
  noSibling : ∀ j < tree.size, (∀ m < tree.size, ¬SiblingRow (layers records) j m) →
    (records j).nextSiblingPid = 0

/-- The rows of a listing, with any row behind it. -/
def rowsOf (tree : RoseTree τ) (j : ℕ) : Entry τ :=
  (tree.listing[j]?).getD ⟨tree.val, none, 0, none, none⟩

theorem treeAt_rowsOf (tree : RoseTree τ) : TreeAt (rowsOf tree) none 0 none 0 tree := by
  refine treeAt_of_listing fun j e he => ?_
  have he' : tree.listing[j]? = some e := he
  rw [Nat.zero_add, rowsOf, he', Option.getD_some]

theorem listing_getElem? {tree : RoseTree τ} {j : ℕ} (hj : j < tree.size) :
    tree.listing[j]? = some (rowsOf tree j) := by
  have hlt : j < tree.listing.length := by rwa [tree.length_listing]
  rw [rowsOf, List.getElem?_eq_getElem hlt, Option.getD_some]

/-- Records that are those of the listing determine the tree. -/
theorem reconstructs_of_records {tree : RoseTree τ} {records : ℕ → Prinfo}
    (hdistinct : (tree.preorder.map fun x => (k.task x).pid).Nodup)
    (hrecords : ∀ j < tree.size, records j = record k (rowsOf tree j)) :
    Reconstructs k tree records := by
  have hlayers : ∀ j < tree.size, layers records j = level (rowsOf tree) j := fun j hj => by
    rw [layers, hrecords j hj]
    rfl
  have hparentRow {i j : ℕ} (hj : j < tree.size) :
      ParentRow (layers records) i j ↔ ParentRow (level (rowsOf tree)) i j :=
    parentRow_congr fun m hm => hlayers m (Nat.lt_of_le_of_lt hm hj)
  have hsiblingRow {j m : ℕ} (hm : m < tree.size) :
      SiblingRow (layers records) j m ↔ SiblingRow (level (rowsOf tree)) j m :=
    siblingRow_congr fun l hl => hlayers l (Nat.lt_of_le_of_lt hl hm)
  have hlinks := links_eq (treeAt_rowsOf tree)
  have hrebuilt : rebuild (layers records) (pids records) tree.size tree.size 0 =
      tree.map fun x => (k.task x).pid := by
    have hpids : ∀ j < tree.size, pids records j = (k.task (value (rowsOf tree) j)).pid :=
      fun j hj => by
        rw [pids, hrecords j hj]
        rfl
    rw [rebuild_congr hlayers hpids tree.size 0 tree.size_pos,
      rebuild_map (fun x => (k.task x).pid),
      rebuild_eq (treeAt_rowsOf tree) (Nat.le_refl _)]
  refine ⟨fun t ht => ?_, fun j hj i hi => ?_, fun j hj hnone => ?_, fun j hj => ?_,
    fun j hj m hm hsibling => ?_, fun j hj hnone => ?_⟩
  · rw [hrebuilt]
    refine ⟨fun h => map_inj_on (fun x hx y hy hxy => ?_) h, fun h => h ▸ rfl⟩
    exact List.inj_on_of_nodup_map hdistinct (ht x hx) hy hxy
  · have hij : i < tree.size := Nat.lt_trans hi.1 hj
    rw [hrecords j hj, hrecords i hij, record, (hlinks j hj).parent i ((hparentRow hj).mp hi)]
    rfl
  · rw [hrecords j hj, record, (hlinks j hj).noParent fun i hi => hnone i ((hparentRow hj).mpr hi)]
    rfl
  · rw [hlayers j hj, hrecords j hj, record, (hlinks j hj).firstChild]
    by_cases hlast : j + 1 < tree.size
    · rw [hlayers _ hlast, hrecords _ hlast]
      split <;> rfl
    · rw [if_neg fun h => hlast h.1, if_neg fun h => hlast h.1]
      rfl
  · rw [hrecords j hj, hrecords m hm, record,
      (hlinks j hj).nextSibling m hm ((hsiblingRow hm).mp hsibling)]
    rfl
  · rw [hrecords j hj, record,
      (hlinks j hj).noSibling fun m hm hsibling => hnone m hm ((hsiblingRow hm).mpr hsibling)]
    rfl

/-- The listing determines the tree: with room to spare, the call stores records from which the
process tree can be rebuilt by the layers alone, and the pids in each record agree with it. -/
theorem ptree_reconstructs [DecidableEq τ] (P : ProcessTree k)
    (hdistinct : (P.tree.preorder.map fun x => (k.task x).pid).Nodup) {nr : ℤ}
    (hnr : (P.tree.size : ℤ) < nr) {buf : UserBuf} (hw : buf.Writable P.tree.size) {fuel : ℕ}
    (hfuel : P.tree.size ≤ fuel) :
    ∃ out, ptree k fuel (some buf) (some nr) = some (0, some out) ∧
      Reconstructs k P.tree out.records := by
  refine ⟨_, ptree_eq P hfuel buf, reconstructs_of_records hdistinct fun j hj => ?_⟩
  have hroom : (j : ℤ) < nr := by omega
  rw [finish_listing_records P.tree buf (by omega), if_pos hroom, listing_getElem? hj]
  exact Prinfo.stored_eq (fun f => hw j f (Int.ofNat_lt.mpr hj)) _ _

theorem ptree_reconstructs_fourTasks :
    ∃ out, ptree fourTasks 4 (some zeroBuf) (some 5) = some (0, some out) ∧
      Reconstructs fourTasks fourTree.tree out.records :=
  ptree_reconstructs fourTree (by decide) (by decide) (fun _ f _ => f.bytes_le) (by decide)

end OsProject.Ptree
