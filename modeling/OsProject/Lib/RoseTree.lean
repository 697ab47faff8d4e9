import Mathlib.Data.List.Basic
import Mathlib.Data.Nat.Notation

/-!
# Finite ordered trees

A tree has a value at its root and an ordered list of subtrees. Its *listing* has an entry for
each of its nodes in depth-first preorder, with the value, the depth, and the values of the parent,
of the first child and of the next sibling of the node.

## Main definitions

* `RoseTree` — finite ordered trees.
* `RoseTree.preorder`, `RoseTree.listing` — the nodes in preorder, and with their places.
* `RoseTree.size` — the number of nodes.
* `RoseTree.map` — the tree with other values.

## Main results

* `RoseTree.map_val_listing` — the listing is in preorder.
* `RoseTree.length_listing` — it has one entry for each node.
* `RoseTree.map_inj_on` — a tree is determined by its image when its values are.
-/

/-- A value and the subtrees below it, in order. -/
inductive RoseTree (α : Type*)
  | node (val : α) (children : List (RoseTree α))

namespace RoseTree

variable {α : Type*}

/-- The value at the root. -/
def val : RoseTree α → α
  | node a _ => a

/-- The subtrees below the root. -/
def children : RoseTree α → List (RoseTree α)
  | node _ ts => ts

/-- The value at the root of the first tree of a list. -/
def headVal (ts : List (RoseTree α)) : Option α := ts.head?.map val

/-- A node of a tree and its place in the tree. -/
structure Entry (α : Type*) where
  val : α
  parent : Option α
  depth : ℕ
  firstChild : Option α
  nextSibling : Option α
deriving DecidableEq

mutual

/-- The number of nodes. -/
def size : RoseTree α → ℕ
  | node _ ts => forestSize ts + 1

/-- The number of nodes of a list of trees. -/
def forestSize : List (RoseTree α) → ℕ
  | [] => 0
  | t :: ts => t.size + forestSize ts

end

mutual

/-- The nodes in depth-first preorder. -/
def preorder : RoseTree α → List α
  | node a ts => a :: forestPreorder ts

/-- The nodes of a list of trees in depth-first preorder. -/
def forestPreorder : List (RoseTree α) → List α
  | [] => []
  | t :: ts => t.preorder ++ forestPreorder ts

end

mutual

/-- The entries of a tree whose root has the given parent, depth and next sibling. -/
def listingAt (parent : Option α) (depth : ℕ) (nextSibling : Option α) :
    RoseTree α → List (Entry α)
  | node a ts =>
    ⟨a, parent, depth, headVal ts, nextSibling⟩ :: forestListing a (depth + 1) ts

/-- The entries of the trees below a node. -/
def forestListing (parent : α) (depth : ℕ) : List (RoseTree α) → List (Entry α)
  | [] => []
  | t :: ts => listingAt (some parent) depth (headVal ts) t ++ forestListing parent depth ts

end

/-- The entries of a tree: its root has no parent and no sibling. -/
def listing (t : RoseTree α) : List (Entry α) := t.listingAt none 0 none

theorem listingAt_eq (parent : Option α) (depth : ℕ) (nextSibling : Option α) (t : RoseTree α) :
    listingAt parent depth nextSibling t =
      ⟨t.val, parent, depth, headVal t.children, nextSibling⟩ ::
        forestListing t.val (depth + 1) t.children := by
  cases t
  rfl

theorem size_pos (t : RoseTree α) : 0 < t.size := by
  cases t
  exact Nat.succ_pos _

theorem size_eq (t : RoseTree α) : t.size = forestSize t.children + 1 := by
  cases t
  rfl

/-- A list of trees has at most as many trees as nodes. -/
theorem length_le_forestSize : ∀ ts : List (RoseTree α), ts.length ≤ forestSize ts
  | [] => Nat.zero_le _
  | t :: ts => by
    have := length_le_forestSize ts
    have := t.size_pos
    rw [List.length_cons, forestSize]
    omega

mutual

theorem map_val_listingAt (parent : Option α) (depth : ℕ) (nextSibling : Option α) :
    ∀ t : RoseTree α, (listingAt parent depth nextSibling t).map Entry.val = t.preorder
  | node a ts => by
    rw [listingAt, List.map_cons, map_val_forestListing, preorder]

theorem map_val_forestListing (parent : α) (depth : ℕ) :
    ∀ ts : List (RoseTree α),
      (forestListing parent depth ts).map Entry.val = forestPreorder ts
  | [] => rfl
  | t :: ts => by
    rw [forestListing, List.map_append, map_val_listingAt, map_val_forestListing, forestPreorder]

end

/-- The listing has the nodes in depth-first preorder. -/
theorem map_val_listing (t : RoseTree α) : t.listing.map Entry.val = t.preorder :=
  map_val_listingAt none 0 none t

mutual

theorem length_listingAt (parent : Option α) (depth : ℕ) (nextSibling : Option α) :
    ∀ t : RoseTree α, (listingAt parent depth nextSibling t).length = t.size
  | node a ts => by
    rw [listingAt, List.length_cons, length_forestListing, size]

theorem length_forestListing (parent : α) (depth : ℕ) :
    ∀ ts : List (RoseTree α), (forestListing parent depth ts).length = forestSize ts
  | [] => rfl
  | t :: ts => by
    rw [forestListing, List.length_append, length_listingAt, length_forestListing, forestSize]

end

/-- The listing has an entry for each node. -/
theorem length_listing (t : RoseTree α) : t.listing.length = t.size :=
  length_listingAt none 0 none t

/-! ### Trees with other values -/

section Map

variable {β : Type*} {f : α → β}

mutual

/-- The tree with other values at its nodes. -/
def map (f : α → β) : RoseTree α → RoseTree β
  | node a ts => node (f a) (forestMap f ts)

def forestMap (f : α → β) : List (RoseTree α) → List (RoseTree β)
  | [] => []
  | t :: ts => t.map f :: forestMap f ts

end

theorem forestMap_eq (f : α → β) (ts : List (RoseTree α)) : forestMap f ts = ts.map (map f) := by
  induction ts with
  | nil => rfl
  | cons t ts ih => rw [forestMap, ih, List.map_cons]

mutual

/-- Trees whose values can be told apart by `f` can be told apart by their images. -/
theorem map_inj_on : ∀ {t t' : RoseTree α},
    (∀ x ∈ t.preorder, ∀ y ∈ t'.preorder, f x = f y → x = y) → t.map f = t'.map f → t = t'
  | node a ts, node b us, hf, h => by
    rw [map, map, node.injEq] at h
    simp only [preorder, List.mem_cons] at hf
    have hval : a = b := hf a (.inl rfl) b (.inl rfl) h.1
    have hbelow : ts = us :=
      forestMap_inj_on (fun x hx y hy => hf x (.inr hx) y (.inr hy)) h.2
    rw [hval, hbelow]

theorem forestMap_inj_on : ∀ {ts us : List (RoseTree α)},
    (∀ x ∈ forestPreorder ts, ∀ y ∈ forestPreorder us, f x = f y → x = y) →
      forestMap f ts = forestMap f us → ts = us
  | [], [], _, _ => rfl
  | [], _ :: _, _, h => by simp [forestMap] at h
  | _ :: _, [], _, h => by simp [forestMap] at h
  | t :: ts, u :: us, hf, h => by
    rw [forestMap, forestMap, List.cons.injEq] at h
    simp only [forestPreorder, List.mem_append] at hf
    have hfirst : t = u := map_inj_on (fun x hx y hy => hf x (.inl hx) y (.inl hy)) h.1
    have hrest : ts = us := forestMap_inj_on (fun x hx y hy => hf x (.inr hx) y (.inr hy)) h.2
    rw [hfirst, hrest]

end

end Map

end RoseTree
