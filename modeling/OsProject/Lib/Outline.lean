import Mathlib.Data.List.Range
import OsProject.Lib.RoseTree

/-!
# Outlines of trees

An outline of a tree has a row for each node, in preorder, with the depth of the node. The parent of
a row is the nearest earlier row whose depth is one less. The depths determine the tree: it is
rebuilt from the parents of the rows.

## Main definitions

* `Outline.ParentRow`, `Outline.SiblingRow` — the places of rows, from the depths alone.
* `Outline.rebuild` — the tree below a row.
* `Outline.TreeAt` — the rows from some row on are the listing of a tree.

## Main results

* `Outline.rebuild_eq` — the tree below the first row of a listing is the tree that was listed.
* `Outline.links_eq` — the parent, the first child and the next sibling of a row.
-/

namespace Outline

open RoseTree

variable {α : Type*}

/-! ### Rows and their depths -/

section Depths

variable (depth : ℕ → ℤ)

/-- The parent of row `j` is row `i`, the nearest earlier row whose depth is one less. -/
def ParentRow (i j : ℕ) : Prop :=
  i < j ∧ depth i + 1 = depth j ∧ ∀ m < j, i < m → depth m + 1 ≠ depth j

/-- The next row of the depth of row `j` is row `m`, without a smaller depth in between. -/
def SiblingRow (j m : ℕ) : Prop := j < m ∧ depth m = depth j ∧ ∀ l < m, j < l → depth j < depth l

instance (i j : ℕ) : Decidable (ParentRow depth i j) := inferInstanceAs (Decidable (_ ∧ _ ∧ _))

instance (j m : ℕ) : Decidable (SiblingRow depth j m) := inferInstanceAs (Decidable (_ ∧ _ ∧ _))

/-- The rows among the first `n` whose parent is row `i`, in order. -/
def childRows (n i : ℕ) : List ℕ := (List.range n).filter fun j => ParentRow depth i j

/-- The tree below row `i` of `n` rows, up to so many levels. -/
def rebuild (val : ℕ → α) (n : ℕ) : ℕ → ℕ → RoseTree α
  | 0, i => .node (val i) []
  | fuel + 1, i => .node (val i) ((childRows depth n i).map (rebuild val n fuel))

end Depths

variable {depth depth' : ℕ → ℤ} {i i' j m m' n : ℕ}

theorem ParentRow.unique (h : ParentRow depth i j) (h' : ParentRow depth i' j) : i = i' := by
  obtain ⟨hlt, heq, hnone⟩ := h
  obtain ⟨hlt', heq', hnone'⟩ := h'
  rcases Nat.lt_trichotomy i i' with h | h | h
  · exact absurd heq' (hnone i' hlt' h)
  · exact h
  · exact absurd heq (hnone' i hlt h)

theorem SiblingRow.unique (h : SiblingRow depth j m) (h' : SiblingRow depth j m') : m = m' := by
  obtain ⟨hlt, heq, hdeep⟩ := h
  obtain ⟨hlt', heq', hdeep'⟩ := h'
  rcases Nat.lt_trichotomy m m' with h | h | h
  · have := hdeep' m h hlt
    omega
  · exact h
  · have := hdeep m' h hlt'
    omega

/-- The parent of a row depends on the depths up to this row. -/
theorem parentRow_congr (h : ∀ m ≤ j, depth m = depth' m) :
    ParentRow depth i j ↔ ParentRow depth' i j := by
  rw [ParentRow, ParentRow]
  refine and_congr_right fun hlt => ?_
  rw [h i (Nat.le_of_lt hlt), h j (Nat.le_refl j)]
  refine and_congr_right fun _ => forall₂_congr fun m hm => ?_
  rw [h m (Nat.le_of_lt hm)]

theorem siblingRow_congr (h : ∀ l ≤ m, depth l = depth' l) :
    SiblingRow depth j m ↔ SiblingRow depth' j m := by
  rw [SiblingRow, SiblingRow]
  refine and_congr_right fun hlt => ?_
  rw [h m (Nat.le_refl m), h j (Nat.le_of_lt hlt)]
  refine and_congr_right fun _ => forall₂_congr fun l hl => ?_
  rw [h l (Nat.le_of_lt hl)]

theorem rebuild_congr {val val' : ℕ → α} (h : ∀ m < n, depth m = depth' m)
    (hval : ∀ m < n, val m = val' m) (fuel : ℕ) :
    ∀ i < n, rebuild depth val n fuel i = rebuild depth' val' n fuel i := by
  have hrows (i : ℕ) : childRows depth n i = childRows depth' n i := by
    refine List.filter_congr fun j hj => ?_
    have hjn := List.mem_range.mp hj
    exact decide_eq_decide.mpr (parentRow_congr fun m hm => h m (Nat.lt_of_le_of_lt hm hjn))
  induction fuel with
  | zero => exact fun i hi => by rw [rebuild, rebuild, hval i hi]
  | succ fuel ih =>
    intro i hi
    rw [rebuild, rebuild, hval i hi, hrows]
    refine congrArg _ (List.map_congr_left fun j hj => ?_)
    exact ih j (List.mem_range.mp (List.mem_filter.mp hj).1)

/-- The tree with other values is rebuilt from other values. -/
theorem rebuild_map {β : Type*} (f : α → β) (val : ℕ → α) (n fuel : ℕ) :
    ∀ i, rebuild depth (fun j => f (val j)) n fuel i = (rebuild depth val n fuel i).map f := by
  induction fuel with
  | zero => exact fun i => rfl
  | succ fuel ih =>
    intro i
    rw [rebuild, rebuild, RoseTree.map, forestMap_eq, List.map_map]
    exact congrArg _ (List.map_congr_left fun j _ => ih j)

/-! ### Rows of a tree -/

mutual

/-- The rows from `o` on are the listing of a tree whose root has this parent, depth and next
sibling. -/
def TreeAt (rows : ℕ → Entry α) (parent : Option α) (depth : ℕ) (nextSibling : Option α) (o : ℕ) :
    RoseTree α → Prop
  | .node a ts =>
    rows o = ⟨a, parent, depth, headVal ts, nextSibling⟩ ∧ ForestAt rows a (depth + 1) (o + 1) ts

/-- The rows from `o` on are the listing of the trees below a node. -/
def ForestAt (rows : ℕ → Entry α) (parent : α) (depth : ℕ) (o : ℕ) : List (RoseTree α) → Prop
  | [] => True
  | t :: ts =>
    TreeAt rows (some parent) depth (headVal ts) o t ∧ ForestAt rows parent depth (o + t.size) ts

end

variable {rows : ℕ → Entry α} {parent nextSibling : Option α} {a : α} {d o : ℕ}

mutual

theorem treeAt_of_listing : ∀ {t : RoseTree α} {parent nextSibling : Option α} {d o : ℕ},
    (∀ j e, (listingAt parent d nextSibling t)[j]? = some e → rows (o + j) = e) →
      TreeAt rows parent d nextSibling o t
  | .node a ts, parent, nextSibling, d, o, h => by
    rw [TreeAt]
    refine ⟨h 0 _ rfl, forestAt_of_listing fun j e he => ?_⟩
    rw [← h (j + 1) e he]
    congr 1
    omega

theorem forestAt_of_listing : ∀ {ts : List (RoseTree α)} {a : α} {d o : ℕ},
    (∀ j e, (forestListing a d ts)[j]? = some e → rows (o + j) = e) → ForestAt rows a d o ts
  | [], _, _, _, _ => trivial
  | t :: ts, a, d, o, h => by
    rw [forestListing] at h
    have hlen : (listingAt (some a) d (headVal ts) t).length = t.size := length_listingAt _ _ _ t
    rw [ForestAt]
    refine ⟨treeAt_of_listing fun j e he => ?_, forestAt_of_listing fun j e he => ?_⟩
    · have hj := (List.getElem?_eq_some_iff.mp he).1
      exact h j e (by rw [List.getElem?_append_left hj, he])
    · rw [Nat.add_assoc]
      exact h (t.size + j) e (by
        rw [List.getElem?_append_right (by omega), hlen, Nat.add_sub_cancel_left, he])

end

/-- The row of the root. -/
theorem TreeAt.root {t : RoseTree α} (h : TreeAt rows parent d nextSibling o t) :
    rows o = ⟨t.val, parent, d, headVal t.children, nextSibling⟩ := by
  cases t
  rw [TreeAt] at h
  exact h.1

theorem TreeAt.below {t : RoseTree α} (h : TreeAt rows parent d nextSibling o t) :
    ForestAt rows t.val (d + 1) (o + 1) t.children := by
  cases t
  rw [TreeAt] at h
  exact h.2

mutual

/-- The rows of a tree below its root are deeper than the root. -/
theorem TreeAt.lt_depth : ∀ {t : RoseTree α} {parent nextSibling : Option α} {d o : ℕ},
    TreeAt rows parent d nextSibling o t → ∀ j, o < j → j < o + t.size → d < (rows j).depth
  | .node a ts, _, _, d, o, h, j, hj, hlt => by
    rw [TreeAt] at h
    rw [size] at hlt
    exact h.2.le_depth j (by omega) (by omega)

theorem ForestAt.le_depth : ∀ {ts : List (RoseTree α)} {a : α} {d o : ℕ},
    ForestAt rows a d o ts → ∀ j, o ≤ j → j < o + forestSize ts → d ≤ (rows j).depth
  | [], _, _, _, _, j, hj, hlt => absurd hlt (Nat.not_lt.mpr hj)
  | t :: ts, a, d, o, h, j, hj, hlt => by
    rw [ForestAt] at h
    rw [forestSize] at hlt
    rcases Nat.lt_trichotomy o j with hoj | rfl | hoj
    · by_cases hin : j < o + t.size
      · exact Nat.le_of_lt (h.1.lt_depth j hoj hin)
      · exact h.2.le_depth j (by omega) (by omega)
    · rw [h.1.root]
    · omega

end

mutual

/-- Every row of a tree but the root has an earlier row above it. -/
theorem TreeAt.exists_above : ∀ {t : RoseTree α} {parent nextSibling : Option α} {d o : ℕ},
    TreeAt rows parent d nextSibling o t → ∀ j, o < j → j < o + t.size →
      ∃ m, o ≤ m ∧ m < j ∧ (rows m).depth + 1 = (rows j).depth
  | .node a ts, _, _, d, o, h, j, hj, hlt => by
    have hroot := h.root
    rw [TreeAt] at h
    rw [size] at hlt
    rcases h.2.exists_above j (by omega) (by omega) with heq | ⟨m, hm, hmj, hdepth⟩
    · exact ⟨o, Nat.le_refl o, hj, by rw [hroot, heq]⟩
    · exact ⟨m, by omega, hmj, hdepth⟩

theorem ForestAt.exists_above : ∀ {ts : List (RoseTree α)} {a : α} {d o : ℕ},
    ForestAt rows a d o ts → ∀ j, o ≤ j → j < o + forestSize ts →
      (rows j).depth = d ∨ ∃ m, o ≤ m ∧ m < j ∧ (rows m).depth + 1 = (rows j).depth
  | [], _, _, _, _, j, hj, hlt => absurd hlt (Nat.not_lt.mpr hj)
  | t :: ts, a, d, o, h, j, hj, hlt => by
    rw [ForestAt] at h
    rw [forestSize] at hlt
    rcases Nat.lt_trichotomy o j with hoj | rfl | hoj
    · by_cases hin : j < o + t.size
      · exact .inr (h.1.exists_above j hoj hin)
      · rcases h.2.exists_above j (by omega) (by omega) with heq | ⟨m, hm, hmj, hdepth⟩
        · exact .inl heq
        · exact .inr ⟨m, by omega, hmj, hdepth⟩
    · rw [h.1.root]
      exact .inl rfl
    · omega

end

/-! ### Behind a tree -/

/-- The depths of the rows. -/
def level (rows : ℕ → Entry α) (j : ℕ) : ℤ := (rows j).depth

/-- The rows from `e` on, up to `n`, have nothing above them in an earlier row of depth `d` or
more. -/
def Closed (rows : ℕ → Entry α) (d e n : ℕ) : Prop :=
  ∀ x, d ≤ x → ∀ j, e ≤ j → j < n → (rows j).depth = x + 1 → ∃ m, e ≤ m ∧ m < j ∧ (rows m).depth = x

theorem closed_end (rows : ℕ → Entry α) (d n : ℕ) : Closed rows d n n :=
  fun _ _ _ hj hlt => absurd hlt (Nat.not_lt.mpr hj)

/-- The row behind a tree is not deeper than its root. -/
theorem Closed.depth_le {e : ℕ} (h : Closed rows d e n) (he : e < n) : (rows e).depth ≤ d := by
  by_contra hlt
  obtain ⟨m, hm, hme, -⟩ := h ((rows e).depth - 1) (by omega) e (Nat.le_refl e) he (by omega)
  omega

/-- A tree is closed by its later siblings. -/
theorem Closed.forest {ts : List (RoseTree α)} (hts : ForestAt rows a (d + 1) o ts)
    (h : Closed rows d (o + forestSize ts) n) : Closed rows (d + 1) o n := by
  intro x hx j hj hjn hdepth
  by_cases hin : j < o + forestSize ts
  · rcases hts.exists_above j hj hin with heq | ⟨m, hm, hmj, habove⟩
    · omega
    · exact ⟨m, hm, hmj, by omega⟩
  · obtain ⟨m, hm, hmj, habove⟩ := h x (by omega) j (by omega) hjn hdepth
    exact ⟨m, by omega, hmj, habove⟩

/-- The rows of the roots of some trees. -/
def rootRows (o : ℕ) : List (RoseTree α) → List ℕ
  | [] => []
  | t :: ts => o :: rootRows (o + t.size) ts

/-- A root below a row has this row for its parent. -/
theorem parentRow_root {t : RoseTree α} (ht : TreeAt rows (some a) (d + 1) nextSibling o t)
    (hi : i < o) (hdepth : (rows i).depth = d)
    (hbetween : ∀ m, i < m → m < o → d < (rows m).depth) : ParentRow (level rows) i o := by
  have hroot : (rows o).depth = d + 1 := by rw [ht.root]
  refine ⟨hi, by rw [level, level, hdepth, hroot]; rfl, fun m hm him heq => ?_⟩
  have := hbetween m him hm
  rw [level, level, hroot] at heq
  omega

/-- Among the rows of the trees below a row, its children are the roots. -/
theorem filter_parentRow : ∀ {ts : List (RoseTree α)} {o : ℕ}, ForestAt rows a (d + 1) o ts →
    i < o → (rows i).depth = d → (∀ m, i < m → m < o → d < (rows m).depth) →
      (List.range' o (forestSize ts)).filter (fun j => ParentRow (level rows) i j) = rootRows o ts
  | [], _, _, _, _, _ => rfl
  | t :: ts, o, h, hi, hdepth, hbetween => by
    rw [ForestAt] at h
    have hsize := t.size_pos
    have hblock : List.range' o (forestSize (t :: ts)) =
        o :: (List.range' (o + 1) (t.size - 1) ++ List.range' (o + t.size) (forestSize ts)) := by
      rw [forestSize, ← List.range'_append_1, ← List.cons_append, ← List.range'_succ,
        Nat.sub_add_cancel hsize]
    have hinner : (List.range' (o + 1) (t.size - 1)).filter
        (fun j => ParentRow (level rows) i j) = [] := by
      refine List.filter_eq_nil_iff.mpr fun j hj => ?_
      have hj := List.mem_range'_1.mp hj
      have hdeep := h.1.lt_depth j (by omega) (by omega)
      have hnot : ¬ParentRow (level rows) i j := by
        rintro ⟨-, heq, -⟩
        rw [level, level, hdepth] at heq
        omega
      simpa using hnot
    have hrest : ∀ m, i < m → m < o + t.size → d < (rows m).depth := by
      intro m him hm
      by_cases hmo : m < o
      · exact hbetween m him hmo
      · rcases Nat.eq_or_lt_of_le (Nat.le_of_not_lt hmo) with rfl | hom
        · rw [h.1.root]
          exact Nat.lt_succ_self d
        · exact Nat.lt_of_succ_lt (h.1.lt_depth m hom hm)
    rw [hblock, List.filter_cons_of_pos (by simpa using parentRow_root h.1 hi hdepth hbetween),
      List.filter_append, hinner, List.nil_append, rootRows,
      filter_parentRow h.2 (by omega) hdepth hrest]

/-- The children of the root of a tree are the roots of the trees below it. -/
theorem childRows_eq {t : RoseTree α} (ht : TreeAt rows parent d nextSibling o t)
    (hclosed : Closed rows d (o + t.size) n) (hn : o + t.size ≤ n) :
    childRows (level rows) n o = rootRows (o + 1) t.children := by
  have hdepth : (rows o).depth = d := by rw [ht.root]
  have hsize := t.size_eq
  have hsplit : List.range n = List.range' 0 (o + 1) ++
      (List.range' (o + 1) (forestSize t.children) ++
        List.range' (o + t.size) (n - (o + t.size))) := by
    have hbehind : o + t.size = o + 1 + forestSize t.children := by omega
    have hfirst : List.range' 0 (o + 1) ++
        List.range' (o + 1) (forestSize t.children + (n - (o + 1 + forestSize t.children))) =
          List.range' 0 (o + 1 + (forestSize t.children + (n - (o + 1 + forestSize t.children)))) := by
      have happend := @List.range'_append_1 0 (o + 1)
        (forestSize t.children + (n - (o + 1 + forestSize t.children)))
      rwa [Nat.zero_add] at happend
    rw [hbehind, List.range'_append_1, hfirst, List.range_eq_range']
    congr 1
    omega
  have hbefore : (List.range' 0 (o + 1)).filter (fun j => ParentRow (level rows) o j) = [] := by
    refine List.filter_eq_nil_iff.mpr fun j hj => ?_
    have hj := List.mem_range'_1.mp hj
    have hnot : ¬ParentRow (level rows) o j := by
      rintro ⟨hlt, -⟩
      omega
    simpa using hnot
  have hbehind : (List.range' (o + t.size) (n - (o + t.size))).filter
      (fun j => ParentRow (level rows) o j) = [] := by
    refine List.filter_eq_nil_iff.mpr fun j hj => ?_
    have hj := List.mem_range'_1.mp hj
    have hnot : ¬ParentRow (level rows) o j := by
      rintro ⟨-, heq, hnone⟩
      rw [level, level, hdepth] at heq
      obtain ⟨m, hm, hmj, habove⟩ := hclosed d (Nat.le_refl d) j hj.1 (by omega) (by omega)
      refine hnone m hmj (by omega) ?_
      rw [level, level, habove]
      omega
    simpa using hnot
  rw [childRows, hsplit, List.filter_append, List.filter_append, hbefore, hbehind,
    List.nil_append, List.append_nil]
  exact filter_parentRow ht.below (Nat.lt_succ_self o) hdepth fun m hm hlt => by omega

/-! ### The tree from its rows -/

/-- The values of the rows. -/
def value (rows : ℕ → Entry α) (j : ℕ) : α := (rows j).val

mutual

theorem rebuild_tree : ∀ {t : RoseTree α} {parent nextSibling : Option α} {d o fuel : ℕ},
    TreeAt rows parent d nextSibling o t → Closed rows d (o + t.size) n → o + t.size ≤ n →
      t.size ≤ fuel → rebuild (level rows) (value rows) n fuel o = t
  | t, _, _, _, _, 0, _, _, _, hfuel => absurd hfuel (Nat.not_le.mpr t.size_pos)
  | .node a ts, _, _, d, o, fuel + 1, h, hclosed, hn, hfuel => by
    have hval : value rows o = a := congrArg Entry.val h.root
    have hend : o + (node a ts).size = o + 1 + forestSize ts := by
      rw [size]
      omega
    rw [rebuild, hval, childRows_eq h hclosed hn]
    rw [size] at hfuel
    rw [hend] at hclosed hn
    exact congrArg _ (rebuild_forest h.below hclosed hn (Nat.le_of_succ_le_succ hfuel))

theorem rebuild_forest : ∀ {ts : List (RoseTree α)} {a : α} {d o fuel : ℕ},
    ForestAt rows a (d + 1) o ts → Closed rows d (o + forestSize ts) n → o + forestSize ts ≤ n →
      forestSize ts ≤ fuel →
        (rootRows o ts).map (rebuild (level rows) (value rows) n fuel) = ts
  | [], _, _, _, _, _, _, _, _ => rfl
  | t :: ts, a, d, o, fuel, h, hclosed, hn, hfuel => by
    rw [ForestAt] at h
    rw [forestSize] at hclosed hn hfuel
    rw [← Nat.add_assoc] at hclosed hn
    rw [rootRows, List.map_cons,
      rebuild_tree h.1 (hclosed.forest h.2) (by omega) (by omega),
      rebuild_forest h.2 hclosed hn (by omega)]

end

/-- The tree below the first row of the listing of a tree is this tree. -/
theorem rebuild_eq {t : RoseTree α} (h : TreeAt rows none 0 none 0 t) {fuel : ℕ}
    (hfuel : t.size ≤ fuel) : rebuild (level rows) (value rows) t.size fuel 0 = t := by
  refine rebuild_tree h ?_ (by omega) hfuel
  rw [Nat.zero_add]
  exact closed_end rows 0 t.size

/-! ### The links of a row -/

/-- The parent, the first child and the next sibling of row `j` of `n` rows are those that the depths
tell. -/
structure Links (rows : ℕ → Entry α) (n j : ℕ) : Prop where
  parent : ∀ i, ParentRow (level rows) i j → (rows j).parent = some (rows i).val
  noParent : (∀ i, ¬ParentRow (level rows) i j) → (rows j).parent = none
  firstChild : (rows j).firstChild =
    if j + 1 < n ∧ level rows (j + 1) = level rows j + 1 then some (rows (j + 1)).val else none
  nextSibling : ∀ m < n, SiblingRow (level rows) j m → (rows j).nextSibling = some (rows m).val
  noSibling : (∀ m < n, ¬SiblingRow (level rows) j m) → (rows j).nextSibling = none

/-- The first child of the root of a tree is in the next row. -/
theorem firstChild_root {t : RoseTree α} (h : TreeAt rows parent d nextSibling o t)
    (hclosed : Closed rows d (o + t.size) n) (hn : o + t.size ≤ n) :
    (rows o).firstChild =
      if o + 1 < n ∧ level rows (o + 1) = level rows o + 1 then some (rows (o + 1)).val
      else none := by
  have hsize := t.size_eq
  have hbelow := h.below
  rw [level, level, h.root]
  dsimp only
  cases hts : t.children with
  | nil =>
    rw [hts, forestSize, Nat.zero_add] at hsize
    rw [if_neg]
    · rfl
    · rintro ⟨hlt, heq⟩
      rw [hsize] at hclosed
      have := hclosed.depth_le hlt
      omega
  | cons c cs =>
    rw [hts, ForestAt] at hbelow
    rw [hts, forestSize] at hsize
    have hc := c.size_pos
    rw [hbelow.1.root, if_pos ⟨by omega, rfl⟩]
    rfl

/-- The next sibling of a tree among the trees below a row is behind it. -/
theorem nextSibling_root {t : RoseTree α} {ts : List (RoseTree α)}
    (ht : TreeAt rows (some a) (d + 1) (headVal ts) o t)
    (hts : ForestAt rows a (d + 1) (o + t.size) ts)
    (hclosed : Closed rows d (o + t.size + forestSize ts) n)
    (hn : o + t.size + forestSize ts ≤ n) :
    (∀ m < n, SiblingRow (level rows) o m → headVal ts = some (rows m).val) ∧
    ((∀ m < n, ¬SiblingRow (level rows) o m) → headVal ts = none) := by
  have hroot : (rows o).depth = d + 1 := by rw [ht.root]
  have hsize := t.size_pos
  cases ts with
  | nil =>
    refine ⟨fun m hm hsibling => ?_, fun _ => rfl⟩
    obtain ⟨hom, heq, hdeep⟩ := hsibling
    rw [level, level, hroot] at heq
    rw [forestSize, Nat.add_zero] at hclosed hn
    exfalso
    rcases Nat.lt_trichotomy m (o + t.size) with hin | rfl | hout
    · have := ht.lt_depth m hom hin
      omega
    · have := hclosed.depth_le hm
      omega
    · have hfirst := hdeep (o + t.size) hout (by omega)
      have := hclosed.depth_le (Nat.lt_trans hout hm)
      rw [level, level, hroot] at hfirst
      omega
  | cons c cs =>
    rw [ForestAt] at hts
    rw [forestSize] at hn
    have hc := c.size_pos
    have hnext : SiblingRow (level rows) o (o + t.size) := by
      refine ⟨by omega, ?_, fun l hl hol => ?_⟩
      · rw [level, level, hts.1.root, hroot]
      · have := ht.lt_depth l hol hl
        rw [level, level, hroot]
        omega
    refine ⟨fun m _ hsibling => ?_, fun hnone => absurd hnext (hnone _ (by omega))⟩
    rw [hsibling.unique hnext, hts.1.root]
    rfl

mutual

theorem links_tree : ∀ {t : RoseTree α} {parent nextSibling : Option α} {d o : ℕ},
    TreeAt rows parent d nextSibling o t → Closed rows d (o + t.size) n → o + t.size ≤ n →
      (∀ i, ParentRow (level rows) i o → parent = some (rows i).val) →
      ((∀ i, ¬ParentRow (level rows) i o) → parent = none) →
      (∀ m < n, SiblingRow (level rows) o m → nextSibling = some (rows m).val) →
      ((∀ m < n, ¬SiblingRow (level rows) o m) → nextSibling = none) →
        ∀ j, o ≤ j → j < o + t.size → Links rows n j
  | .node a ts, parent, nextSibling, d, o, h, hclosed, hn, hparent, hnoParent, hnext, hnoNext,
      j, hj, hlt => by
    have hroot := h.root
    rcases Nat.eq_or_lt_of_le hj with rfl | hoj
    · refine ⟨?_, ?_, firstChild_root h hclosed hn, ?_, ?_⟩ <;> rw [hroot]
      · exact hparent
      · exact hnoParent
      · exact hnext
      · exact hnoNext
    · have hend : o + (node a ts).size = o + 1 + forestSize ts := by
        rw [size]
        omega
      rw [hend] at hclosed hn hlt
      have hdepth : (rows o).depth = d := by rw [hroot]
      have hval : (rows o).val = a := by rw [hroot]; rfl
      exact links_forest h.below hclosed hn (Nat.lt_succ_self o) hdepth hval
        (fun m hm hlt => by omega) j hoj hlt

theorem links_forest : ∀ {ts : List (RoseTree α)} {a : α} {d o i : ℕ},
    ForestAt rows a (d + 1) o ts → Closed rows d (o + forestSize ts) n → o + forestSize ts ≤ n →
      i < o → (rows i).depth = d → (rows i).val = a →
      (∀ m, i < m → m < o → d < (rows m).depth) →
        ∀ j, o ≤ j → j < o + forestSize ts → Links rows n j
  | [], _, _, _, _, _, _, _, _, _, _, _, j, hj, hlt => absurd hlt (Nat.not_lt.mpr hj)
  | t :: ts, a, d, o, i, h, hclosed, hn, hi, hdepth, hval, hbetween, j, hj, hlt => by
    rw [ForestAt] at h
    rw [forestSize] at hclosed hn hlt
    rw [← Nat.add_assoc] at hclosed hn hlt
    have hparent := parentRow_root h.1 hi hdepth hbetween
    obtain ⟨hnext, hnoNext⟩ := nextSibling_root h.1 h.2 hclosed hn
    by_cases hin : j < o + t.size
    · refine links_tree h.1 (hclosed.forest h.2) (by omega) (fun i' hi' => ?_)
        (fun hnone => absurd hparent (hnone i)) hnext hnoNext j hj hin
      rw [hi'.unique hparent, hval]
    · refine links_forest h.2 hclosed hn (by omega) hdepth hval (fun m him hm => ?_) j (by omega) hlt
      by_cases hmo : m < o
      · exact hbetween m him hmo
      · rcases Nat.eq_or_lt_of_le (Nat.le_of_not_lt hmo) with rfl | hom
        · rw [h.1.root]
          exact Nat.lt_succ_self d
        · exact Nat.lt_of_succ_lt (h.1.lt_depth m hom hm)

end

/-- The links of every row of the listing of a tree are those that the depths tell. -/
theorem links_eq {t : RoseTree α} (h : TreeAt rows none 0 none 0 t) :
    ∀ j < t.size, Links rows t.size j := by
  intro j hj
  have hclosed : Closed rows 0 (0 + t.size) t.size := by
    rw [Nat.zero_add]
    exact closed_end rows 0 t.size
  refine links_tree h hclosed (by omega) (fun i hi => absurd hi.1 (Nat.not_lt_zero i)) (fun _ => rfl)
    (fun m hm hsibling => ?_) (fun _ => rfl) j (Nat.zero_le j) (by omega)
  have hdeep := h.lt_depth m hsibling.1 (by omega)
  have heq := hsibling.2.1
  rw [level, level, h.root] at heq
  dsimp only at heq
  omega

end Outline
