import Mathlib.Data.List.Nodup
import Mathlib.Algebra.BigOperators.Group.List.Basic
import Mathlib.Algebra.Order.BigOperators.Group.Finset
import Mathlib.Order.Antichain
import OsProject.Lib.RoseTree

/-!
# Walks through trees of pointers

Each node of a tree points to its first child, its parent and its next sibling. A walk over the
tree needs no stack: it visits a node when it comes to it from above, goes on to its first child,
and when the children are done visits the node once more and goes on to the next sibling, or back
to the parent. A visit returns a number, and one other than zero ends the walk.

The tree is given by the function `kids` from nodes to their children in order; the pointers follow
it at every node of the tree. The walk is then the recursive one, which is defined on the tree.

## Main definitions

* `TreeWalk.Pointers`, `TreeWalk.Pointers.Follows` — the pointers, and what they mean.
* `TreeWalk.walkFor` — the walk, for at most so many steps.
* `RoseTree.Branches` — a tree whose nodes have the given children.
* `RoseTree.visit` — the recursive walk.
* `RoseTree.grow`, `RoseTree.prune` — a tree with one more leaf, and without a subtree.

## Main results

* `TreeWalk.walkFor_eq_visit` — the walk is the recursive one, from any node of the tree.
* `RoseTree.visit_nop` — visits that leave the data alone find the first error in preorder.
* `TreeWalk.sum_antichain_le` — when no node has less than its children together, nodes of which
  none is below another have no more than the root together.
* `RoseTree.Branches.grow`, `RoseTree.Branches.prune`.
-/

namespace RoseTree

variable {α δ : Type*}

/-! ### Trees with given children -/

mutual

/-- The nodes of the tree have the children `kids` says. -/
def Branches (kids : α → List α) : RoseTree α → Prop
  | node a ts => ts.map val = kids a ∧ ForestBranches kids ts

def ForestBranches (kids : α → List α) : List (RoseTree α) → Prop
  | [] => True
  | t :: ts => t.Branches kids ∧ ForestBranches kids ts

end

theorem headVal_eq (ts : List (RoseTree α)) : headVal ts = (ts.map val).head? := by
  cases ts <;> rfl

theorem val_mem_preorder (t : RoseTree α) : t.val ∈ t.preorder := by
  cases t
  rw [preorder]
  exact List.mem_cons_self

theorem length_preorder (t : RoseTree α) : t.preorder.length = t.size := by
  rw [← map_val_listing, List.length_map, length_listing]

theorem forestBranches_iff {kids : α → List α} {ts : List (RoseTree α)} :
    ForestBranches kids ts ↔ ∀ t ∈ ts, t.Branches kids := by
  induction ts with
  | nil => simp [ForestBranches]
  | cons t ts ih => simp [ForestBranches, ih]

theorem mem_forestPreorder {ts : List (RoseTree α)} {a : α} :
    a ∈ forestPreorder ts ↔ ∃ t ∈ ts, a ∈ t.preorder := by
  induction ts with
  | nil => simp [forestPreorder]
  | cons t ts ih => simp [forestPreorder, ih]

mutual

/-- Only the children of the nodes of the tree matter. -/
theorem Branches.congr {kids kids' : α → List α} : ∀ {t : RoseTree α}, t.Branches kids →
    (∀ a ∈ t.preorder, kids' a = kids a) → t.Branches kids'
  | node a ts, h, heq => by
    rw [Branches] at h ⊢
    rw [preorder] at heq
    exact ⟨h.1.trans (heq a List.mem_cons_self).symm,
      ForestBranches.congr h.2 fun b hb => heq b (List.mem_cons_of_mem _ hb)⟩

theorem ForestBranches.congr {kids kids' : α → List α} : ∀ {ts : List (RoseTree α)},
    ForestBranches kids ts → (∀ a ∈ forestPreorder ts, kids' a = kids a) →
    ForestBranches kids' ts
  | [], _, _ => trivial
  | t :: ts, h, heq => by
    rw [forestPreorder] at heq
    exact ⟨h.1.congr fun a ha => heq a (List.mem_append_left _ ha),
      ForestBranches.congr h.2 fun a ha => heq a (List.mem_append_right _ ha)⟩

end

mutual

/-- The children of a node of the tree are nodes of the tree. -/
theorem Branches.kids_subset {kids : α → List α} : ∀ {t : RoseTree α}, t.Branches kids →
    ∀ a ∈ t.preorder, ∀ c ∈ kids a, c ∈ t.preorder
  | node a ts, h, b, hb, c, hc => by
    rw [preorder, List.mem_cons] at hb ⊢
    rw [Branches] at h
    rcases hb with rfl | hb
    · rw [← h.1, List.mem_map] at hc
      obtain ⟨u, hu, rfl⟩ := hc
      exact .inr (mem_forestPreorder.mpr ⟨u, hu, u.val_mem_preorder⟩)
    · exact .inr (ForestBranches.kids_subset h.2 b hb c hc)

theorem ForestBranches.kids_subset {kids : α → List α} : ∀ {ts : List (RoseTree α)},
    ForestBranches kids ts → ∀ a ∈ forestPreorder ts, ∀ c ∈ kids a, c ∈ forestPreorder ts
  | [], _, _, hb, _, _ => absurd hb List.not_mem_nil
  | t :: ts, h, b, hb, c, hc => by
    rw [forestPreorder, List.mem_append] at hb ⊢
    rcases hb with hb | hb
    · exact .inl (h.1.kids_subset b hb c hc)
    · exact .inr (ForestBranches.kids_subset h.2 b hb c hc)

end

mutual

/-- Every node is the root or the child of a node. -/
theorem Branches.mem_cases {kids : α → List α} : ∀ {t : RoseTree α}, t.Branches kids →
    ∀ a ∈ t.preorder, a = t.val ∨ ∃ b ∈ t.preorder, a ∈ kids b
  | node r ts, h, a, ha => by
    rw [Branches] at h
    rw [preorder, List.mem_cons] at ha
    refine ha.imp_right fun ha => ?_
    rcases ForestBranches.mem_cases h.2 a ha with hval | ⟨b, hb, hab⟩
    · exact ⟨r, by rw [preorder]; exact List.mem_cons_self, h.1 ▸ hval⟩
    · exact ⟨b, by rw [preorder]; exact List.mem_cons_of_mem _ hb, hab⟩

theorem ForestBranches.mem_cases {kids : α → List α} : ∀ {ts : List (RoseTree α)},
    ForestBranches kids ts → ∀ a ∈ forestPreorder ts,
      a ∈ ts.map val ∨ ∃ b ∈ forestPreorder ts, a ∈ kids b
  | [], _, _, ha => absurd ha List.not_mem_nil
  | t :: ts, h, a, ha => by
    rw [forestPreorder, List.mem_append] at ha
    simp only [forestPreorder, List.mem_append, List.map_cons, List.mem_cons]
    rcases ha with ha | ha
    · rcases h.1.mem_cases a ha with hval | ⟨b, hb, hab⟩
      · exact .inl (.inl hval)
      · exact .inr ⟨b, .inl hb, hab⟩
    · rcases ForestBranches.mem_cases h.2 a ha with hval | ⟨b, hb, hab⟩
      · exact .inl (.inr hval)
      · exact .inr ⟨b, .inr hb, hab⟩

end

mutual

/-- Every node is the root of a part of the tree. -/
theorem Branches.exists_subtree {kids : α → List α} : ∀ {t : RoseTree α}, t.Branches kids →
    ∀ a ∈ t.preorder, ∃ u : RoseTree α, u.val = a ∧ u.Branches kids ∧
      u.preorder.Sublist t.preorder
  | node r ts, h, a, ha => by
    have hbelow := h
    rw [Branches] at hbelow
    rw [preorder, List.mem_cons] at ha
    rcases ha with rfl | ha
    · exact ⟨node a ts, rfl, h, .refl _⟩
    · obtain ⟨u, hval, hu, hsub⟩ := ForestBranches.exists_subtree hbelow.2 a ha
      exact ⟨u, hval, hu, by rw [preorder]; exact hsub.cons _⟩

theorem ForestBranches.exists_subtree {kids : α → List α} : ∀ {ts : List (RoseTree α)},
    ForestBranches kids ts → ∀ a ∈ forestPreorder ts, ∃ u : RoseTree α, u.val = a ∧
      u.Branches kids ∧ u.preorder.Sublist (forestPreorder ts)
  | [], _, _, ha => absurd ha List.not_mem_nil
  | t :: ts, h, a, ha => by
    rw [forestPreorder, List.mem_append] at ha
    rw [forestPreorder]
    rcases ha with ha | ha
    · obtain ⟨u, hval, hu, hsub⟩ := h.1.exists_subtree a ha
      exact ⟨u, hval, hu, hsub.trans (List.sublist_append_left _ _)⟩
    · obtain ⟨u, hval, hu, hsub⟩ := ForestBranches.exists_subtree h.2 a ha
      exact ⟨u, hval, hu, hsub.trans (List.sublist_append_right _ _)⟩

end

/-- The root is nobody's child. -/
theorem Branches.val_notMem_kids {kids : α → List α} {t : RoseTree α} (h : t.Branches kids)
    (hnd : t.preorder.Nodup) : ∀ a ∈ t.preorder, t.val ∉ kids a := by
  obtain ⟨a, ts⟩ := t
  intro b hb hmem
  rw [Branches] at h
  rw [preorder, List.mem_cons] at hb
  rw [preorder, List.nodup_cons] at hnd
  rcases hb with rfl | hb
  · rw [← h.1, List.mem_map] at hmem
    obtain ⟨u, hu, hval⟩ := hmem
    have hu' : b ∈ u.preorder := by
      rw [show b = u.val from hval.symm]
      exact u.val_mem_preorder
    exact hnd.1 (mem_forestPreorder.mpr ⟨u, hu, hu'⟩)
  · exact hnd.1 (ForestBranches.kids_subset h.2 b hb a hmem)

/-! ### Growing and pruning -/

section Edit

variable [DecidableEq α]

mutual

/-- The tree with the leaf `c` as the first child of the node `p`. -/
def grow (p c : α) : RoseTree α → RoseTree α
  | node a ts => node a (if a = p then node c [] :: forestGrow p c ts else forestGrow p c ts)

def forestGrow (p c : α) : List (RoseTree α) → List (RoseTree α)
  | [] => []
  | t :: ts => t.grow p c :: forestGrow p c ts

end

mutual

/-- The tree without the subtrees at `c` below its root. -/
def prune (c : α) : RoseTree α → RoseTree α
  | node a ts => node a (forestPrune c ts)

def forestPrune (c : α) : List (RoseTree α) → List (RoseTree α)
  | [] => []
  | t :: ts => if t.val = c then forestPrune c ts else t.prune c :: forestPrune c ts

end

variable {p c : α} {kids kids' : α → List α}

@[simp]
theorem val_grow (t : RoseTree α) : (t.grow p c).val = t.val := by
  cases t
  rfl

@[simp]
theorem val_prune (t : RoseTree α) : (t.prune c).val = t.val := by
  cases t
  rfl

theorem map_val_forestGrow (ts : List (RoseTree α)) : (forestGrow p c ts).map val = ts.map val := by
  induction ts with
  | nil => rfl
  | cons t ts ih => simp [forestGrow, ih]

theorem map_val_forestPrune (ts : List (RoseTree α)) :
    (forestPrune c ts).map val = (ts.map val).filter (· ≠ c) := by
  induction ts with
  | nil => rfl
  | cons t ts ih =>
    rw [forestPrune]
    split_ifs with h
    · simp [ih, h]
    · simp [ih, h]

mutual

theorem Branches.grow (hp : kids' p = c :: kids p) (hc : kids' c = []) : ∀ {t : RoseTree α},
    t.Branches kids → (∀ a ∈ t.preorder, a ≠ p → kids' a = kids a) → (t.grow p c).Branches kids'
  | node a ts, h, hother => by
    rw [Branches] at h
    simp only [preorder, List.mem_cons, forall_eq_or_imp] at hother
    have hbelow := ForestBranches.grow hp hc h.2 hother.2
    rw [RoseTree.grow]
    split_ifs with ha
    · subst ha
      rw [Branches, ForestBranches, Branches, List.map_cons, map_val_forestGrow, h.1, hp, val, hc]
      exact ⟨rfl, ⟨rfl, trivial⟩, hbelow⟩
    · rw [Branches, map_val_forestGrow, h.1, hother.1 ha]
      exact ⟨rfl, hbelow⟩

theorem ForestBranches.grow (hp : kids' p = c :: kids p) (hc : kids' c = []) :
    ∀ {ts : List (RoseTree α)}, ForestBranches kids ts →
      (∀ a ∈ forestPreorder ts, a ≠ p → kids' a = kids a) →
      ForestBranches kids' (forestGrow p c ts)
  | [], _, _ => trivial
  | t :: ts, h, hother => by
    simp only [forestPreorder, List.mem_append] at hother
    exact ⟨h.1.grow hp hc fun a ha => hother a (.inl ha),
      ForestBranches.grow hp hc h.2 fun a ha => hother a (.inr ha)⟩

end

mutual

theorem Branches.prune : ∀ {t : RoseTree α}, t.Branches kids → t.val ≠ c →
    (∀ a ∈ t.preorder, a ≠ c → kids' a = (kids a).filter (· ≠ c)) → (t.prune c).Branches kids'
  | node a ts, h, hne, hother => by
    rw [Branches] at h
    simp only [preorder, List.mem_cons, forall_eq_or_imp] at hother
    rw [RoseTree.prune, Branches, map_val_forestPrune, h.1, hother.1 hne]
    exact ⟨rfl, ForestBranches.prune h.2 hother.2⟩

theorem ForestBranches.prune : ∀ {ts : List (RoseTree α)}, ForestBranches kids ts →
    (∀ a ∈ forestPreorder ts, a ≠ c → kids' a = (kids a).filter (· ≠ c)) →
    ForestBranches kids' (forestPrune c ts)
  | [], _, _ => trivial
  | t :: ts, h, hother => by
    simp only [forestPreorder, List.mem_append] at hother
    have hrest := ForestBranches.prune h.2 fun a ha => hother a (.inr ha)
    rw [forestPrune]
    split_ifs with ht
    · exact hrest
    · exact ⟨h.1.prune ht fun a ha => hother a (.inl ha), hrest⟩

end

mutual

/-- A leaf comes in for each node `p`. -/
theorem preorder_grow_count : ∀ t : RoseTree α,
    (t.grow p c).preorder.Perm (List.replicate (t.preorder.count p) c ++ t.preorder)
  | node a ts => by
    have hbelow := forestPreorder_grow_count ts
    rw [grow]
    split_ifs with ha
    · subst ha
      rw [preorder, forestPreorder, preorder, preorder, List.count_cons_self, List.replicate_succ]
      refine (List.Perm.swap c a _).trans (List.Perm.cons c ?_)
      exact (hbelow.cons a).trans List.perm_middle.symm
    · rw [preorder, preorder, List.count_cons_of_ne ha]
      exact (hbelow.cons a).trans List.perm_middle.symm

theorem forestPreorder_grow_count : ∀ ts : List (RoseTree α),
    (forestPreorder (forestGrow p c ts)).Perm
      (List.replicate ((forestPreorder ts).count p) c ++ forestPreorder ts)
  | [] => by simp [forestGrow, forestPreorder]
  | t :: ts => by
    have hfirst := preorder_grow_count t
    have hrest := forestPreorder_grow_count ts
    rw [forestGrow, forestPreorder, forestPreorder, List.count_append, List.replicate_add]
    refine (hfirst.append hrest).trans ?_
    rw [List.append_assoc, List.append_assoc]
    refine List.Perm.append_left _ ?_
    rw [← List.append_assoc, ← List.append_assoc]
    exact List.perm_append_comm.append_right _

end

/-- A tree grows by its new leaf. -/
theorem preorder_grow {t : RoseTree α} (hnd : t.preorder.Nodup) (hp : p ∈ t.preorder) :
    (t.grow p c).preorder.Perm (c :: t.preorder) := by
  have h := t.preorder_grow_count (p := p) (c := c)
  rwa [List.count_eq_one_of_mem hnd hp] at h

mutual

/-- A tree shrinks by its leaf. -/
theorem preorder_prune (hc : kids c = []) : ∀ {t : RoseTree α}, t.Branches kids → t.val ≠ c →
    (t.prune c).preorder = t.preorder.filter (· ≠ c)
  | node a ts, h, hne => by
    rw [Branches] at h
    have ha : a ≠ c := hne
    rw [prune, preorder, preorder, forestPreorder_prune hc h.2, List.filter_cons_of_pos (by simpa)]

theorem forestPreorder_prune (hc : kids c = []) : ∀ {ts : List (RoseTree α)},
    ForestBranches kids ts →
    forestPreorder (forestPrune c ts) = (forestPreorder ts).filter (· ≠ c)
  | [], _ => rfl
  | t :: ts, h => by
    have hrest := forestPreorder_prune hc h.2
    rw [forestPrune, forestPreorder, List.filter_append]
    split_ifs with ht
    · -- the subtree at `c` is a leaf
      obtain ⟨a, us⟩ := t
      obtain rfl : a = c := ht
      have hleaf : us.map val = [] := by rw [h.1.1, hc]
      rw [hrest, preorder, List.map_eq_nil_iff.mp hleaf, forestPreorder]
      simp
    · rw [forestPreorder, preorder_prune hc h.1 ht, hrest]

end

end Edit

/-! ### The recursive walk -/

/-- Go on with `k`, unless a visit has failed. -/
def andThen (r : ℤ × δ) (k : δ → ℤ × δ) : ℤ × δ := if r.1 ≠ 0 then r else k r.2

mutual

/-- The recursive walk over a tree: `down` when it enters a node, `up` when it leaves it. -/
def visit (down up : α → δ → ℤ × δ) : RoseTree α → δ → ℤ × δ
  | node a ts, d => andThen (down a d) fun d => andThen (forestVisit down up ts d) (up a)

def forestVisit (down up : α → δ → ℤ × δ) : List (RoseTree α) → δ → ℤ × δ
  | [], d => (0, d)
  | t :: ts, d => andThen (visit down up t d) (forestVisit down up ts)

end

/-- The first result that is an error. -/
def firstError (l : List ℤ) : ℤ := (l.find? (· ≠ 0)).getD 0

theorem firstError_cons (r : ℤ) (l : List ℤ) :
    firstError (r :: l) = if r ≠ 0 then r else firstError l := by
  by_cases h : r = 0
  · simp [firstError, h]
  · simp [firstError, h]

theorem firstError_append (l₁ l₂ : List ℤ) :
    firstError (l₁ ++ l₂) = if firstError l₁ ≠ 0 then firstError l₁ else firstError l₂ := by
  induction l₁ with
  | nil => simp [firstError]
  | cons r l₁ ih =>
    rw [List.cons_append, firstError_cons, firstError_cons, ih]
    split_ifs <;> simp_all

theorem firstError_eq_zero_iff {l : List ℤ} : firstError l = 0 ↔ ∀ r ∈ l, r = 0 := by
  induction l with
  | nil => simp [firstError]
  | cons r l ih =>
    rw [firstError_cons]
    by_cases h : r = 0
    · simp [h, ih]
    · simp [h]

theorem firstError_mem {l : List ℤ} (h : firstError l ≠ 0) : firstError l ∈ l := by
  induction l with
  | nil => exact absurd rfl h
  | cons r l ih =>
    rw [firstError_cons] at h ⊢
    split_ifs at h ⊢ with hr
    · exact List.mem_cons_self
    · exact List.mem_cons_of_mem _ (ih h)

section Nop

variable (check : α → δ → ℤ) (d : δ)

mutual

/-- Visits that leave the data alone find the first error in preorder. -/
theorem visit_nop : ∀ t : RoseTree α, visit (fun a d => (check a d, d)) (fun _ d => (0, d)) t d =
    (firstError (t.preorder.map fun a => check a d), d)
  | node a ts => by
    have hforest := forestVisit_nop ts
    rw [visit, preorder, List.map_cons, firstError_cons]
    simp only [andThen]
    rw [hforest]
    split_ifs <;> simp_all

theorem forestVisit_nop : ∀ ts : List (RoseTree α),
    forestVisit (fun a d => (check a d, d)) (fun _ d => (0, d)) ts d =
      (firstError ((forestPreorder ts).map fun a => check a d), d)
  | [] => rfl
  | t :: ts => by
    rw [forestVisit, visit_nop t, forestPreorder, List.map_append, firstError_append]
    simp only [andThen]
    split_ifs
    · rfl
    · exact forestVisit_nop ts

end

end Nop

end RoseTree

/-! ### The walk by pointers -/

namespace TreeWalk

open RoseTree

variable {α δ : Type*}

/-- The pointers of nodes: to the first child, to the child of `p` after `c`, and to the parent. -/
structure Pointers (α : Type*) where
  first : α → Option α
  next : α → α → Option α
  parent : α → Option α

/-- At the node `p` the pointers are those of a tree. -/
structure Pointers.Follows (P : Pointers α) (kids : α → List α) (p : α) : Prop where
  first : P.first p = (kids p).head?
  next : ∀ {l₁ : List α} {c : α} {l₂ : List α}, kids p = l₁ ++ c :: l₂ → P.next p c = l₂.head?
  parent : ∀ c ∈ kids p, P.parent c = some p

/-- Where a walk is: about to enter a node, or about to leave it. -/
inductive Position (α : Type*)
  | down (p : α)
  | up (p : α)

/-- Go on to a child of `p`, or leave `p` when there is none. -/
def goOn (p : α) : Option α → Position α
  | some c => .down c
  | none => .up p

variable (P : Pointers α) (down up : α → δ → ℤ × δ) (origin : α)

section Walk

variable [DecidableEq α]

/-- One step of a walk that began at `origin`. -/
def step : Position α × δ → (ℤ × δ) ⊕ (Position α × δ)
  | (.down p, d) =>
    let r := down p d
    if r.1 ≠ 0 then .inl r else .inr (goOn p (P.first p), r.2)
  | (.up p, d) =>
    let r := up p d
    if r.1 ≠ 0 ∨ p = origin then .inl r
    else
      match P.parent p with
      | none => .inl r
      | some q => .inr (goOn q (P.next q p), r.2)

/-- The result of a walk, if it ends within `n` steps. -/
def walkFor : ℕ → Position α × δ → Option (ℤ × δ)
  | 0, _ => none
  | n + 1, s =>
    match step P down up origin s with
    | .inl r => some r
    | .inr s => walkFor n s

/-- Go on with the walk, unless a visit has failed. -/
def resume (n : ℕ) (p : Position α) (r : ℤ × δ) : Option (ℤ × δ) :=
  if r.1 ≠ 0 then some r else walkFor P down up origin n (p, r.2)

theorem walkFor_down (n : ℕ) (p : α) (d : δ) :
    walkFor P down up origin (n + 1) (.down p, d) =
      resume P down up origin n (goOn p (P.first p)) (down p d) := by
  rw [walkFor, step, resume]
  by_cases h : (down p d).1 = 0 <;> simp [h]

theorem walkFor_up (n : ℕ) {p q : α} (hp : p ≠ origin) (hq : P.parent p = some q) (d : δ) :
    walkFor P down up origin (n + 1) (.up p, d) =
      resume P down up origin n (goOn q (P.next q p)) (up p d) := by
  rw [walkFor, step, resume, hq]
  simp only [hp, or_false]
  split_ifs <;> rfl

theorem walkFor_up_origin (n : ℕ) (d : δ) :
    walkFor P down up origin (n + 1) (.up origin, d) = some (up origin d) := by
  rw [walkFor, step]
  simp

theorem resume_andThen (n : ℕ) (p : Position α) (r : ℤ × δ) (k : δ → ℤ × δ) :
    resume P down up origin n p (andThen r k) =
      if r.1 ≠ 0 then some r else resume P down up origin n p (k r.2) := by
  rw [andThen]
  split_ifs with h
  · rw [resume, if_pos h]
  · rfl

variable {P down up origin} {kids : α → List α}

mutual

/-- The walk through a tree below the origin is the recursive one, and then goes on to the next
sibling of its root, or to the parent. -/
theorem walkFor_tree {q : α} : ∀ {t : RoseTree α}, t.Branches kids →
    (∀ a ∈ t.preorder, P.Follows kids a) → origin ∉ t.preorder → P.parent t.val = some q →
    ∀ (n : ℕ) (d : δ), walkFor P down up origin (2 * t.size + n) (.down t.val, d) =
      resume P down up origin n (goOn q (P.next q t.val)) (visit down up t d)
  | node a ts, ht, hP, ho, hq, n, d => by
    rw [Branches] at ht
    rw [preorder, List.mem_cons, not_or] at ho
    simp only [preorder, List.mem_cons, forall_eq_or_imp] at hP
    have hsize : 2 * (node a ts).size + n = (2 * forestSize ts + (n + 1)) + 1 := by
      rw [size]; omega
    have hfirst : P.first a = headVal ts := by rw [hP.1.first, ← ht.1, headVal_eq]
    rw [hsize, val, walkFor_down, visit, resume_andThen, hfirst, resume]
    split_ifs with hdown
    · rfl
    · rw [walkFor_forest ht.2 hP.1 hP.2 ho.2 [] (by rw [← ht.1, List.nil_append]),
        resume_andThen, resume]
      split_ifs with hforest
      · rfl
      · exact walkFor_up P down up origin n (Ne.symm ho.1) hq _

/-- The walk through the trees below a node, and then the node is left. -/
theorem walkFor_forest {a : α} : ∀ {ts : List (RoseTree α)}, ForestBranches kids ts →
    P.Follows kids a → (∀ b ∈ forestPreorder ts, P.Follows kids b) →
    origin ∉ forestPreorder ts → ∀ (l₁ : List α), kids a = l₁ ++ ts.map val →
    ∀ (n : ℕ) (d : δ), walkFor P down up origin (2 * forestSize ts + n) (goOn a (headVal ts), d) =
      resume P down up origin n (.up a) (forestVisit down up ts d)
  | [], _, _, _, _, _, _, n, d => by
    simp [headVal, goOn, forestSize, forestVisit, resume]
  | t :: ts, ht, ha, hP, ho, l₁, hkids, n, d => by
    rw [forestPreorder, List.mem_append, not_or] at ho
    simp only [forestPreorder, List.mem_append] at hP
    have hsize : 2 * forestSize (t :: ts) + n = 2 * t.size + (2 * forestSize ts + n) := by
      rw [forestSize]; omega
    have hparent : P.parent t.val = some a := ha.parent _ (by rw [hkids]; simp)
    have hnext : P.next a t.val = headVal ts := by
      rw [ha.next (hkids.trans (by rw [List.map_cons])), headVal_eq]
    have hrest : kids a = (l₁ ++ [t.val]) ++ ts.map val := by rw [hkids]; simp
    have hfirst : headVal (t :: ts) = some t.val := rfl
    rw [hsize, hfirst, goOn, walkFor_tree ht.1 (fun b hb => hP b (.inl hb)) ho.1 hparent, hnext,
      forestVisit, resume_andThen, resume]
    split_ifs with htree
    · rfl
    · exact walkFor_forest ht.2 ha (fun b hb => hP b (.inr hb)) ho.2 (l₁ ++ [t.val]) hrest n _

end

/-- The walk from a node over the tree below it is the recursive walk, whatever the tree is a part
of. It ends after two steps for each node. -/
theorem walkFor_eq_visit {t : RoseTree α} (ht : t.Branches kids) (hnd : t.preorder.Nodup)
    (hP : ∀ a ∈ t.preorder, P.Follows kids a) {n : ℕ} (hn : 2 * t.size ≤ n) (d : δ) :
    walkFor P down up t.val n (.down t.val, d) = some (visit down up t d) := by
  obtain ⟨a, ts⟩ := t
  rw [Branches] at ht
  rw [preorder, List.nodup_cons] at hnd
  simp only [preorder, List.mem_cons, forall_eq_or_imp] at hP
  obtain ⟨m, rfl⟩ : ∃ m, n = (2 * forestSize ts + (m + 1)) + 1 := by
    rw [size] at hn
    exact ⟨n - 2 * forestSize ts - 2, by omega⟩
  have hfirst : P.first a = headVal ts := by rw [hP.1.first, ← ht.1, headVal_eq]
  rw [val, walkFor_down, visit, hfirst, resume]
  split_ifs with hdown
  · rw [andThen, if_pos hdown]
  · rw [walkFor_forest ht.2 hP.1 hP.2 hnd.1 [] (by rw [← ht.1, List.nil_append]), resume,
      andThen, if_neg hdown, andThen]
    split_ifs with hforest
    · rfl
    · exact walkFor_up_origin P down up a m _

end Walk

/-! ### Shares -/

/-- The node `a` is below the node `b`. -/
def Pointers.Below (P : Pointers α) : α → α → Prop :=
  Relation.TransGen fun a b => P.parent a = some b

section Shares

variable {P : Pointers α} {kids : α → List α}

mutual

theorem below_val : ∀ {t : RoseTree α}, t.Branches kids → (∀ a ∈ t.preorder, P.Follows kids a) →
    ∀ a ∈ t.preorder, a = t.val ∨ P.Below a t.val
  | node r ts, ht, hP, a, ha => by
    rw [Branches] at ht
    rw [preorder, List.mem_cons] at ha
    simp only [preorder, List.mem_cons, forall_eq_or_imp] at hP
    exact ha.imp_right fun ha => below_parent ht.2 hP.2
      (fun t ht' => hP.1.parent _ (ht.1 ▸ List.mem_map_of_mem ht')) a ha

theorem below_parent {p : α} : ∀ {ts : List (RoseTree α)}, ForestBranches kids ts →
    (∀ a ∈ forestPreorder ts, P.Follows kids a) → (∀ t ∈ ts, P.parent t.val = some p) →
    ∀ a ∈ forestPreorder ts, P.Below a p
  | [], _, _, _, _, ha => absurd ha List.not_mem_nil
  | t :: ts, ht, hP, hp, a, ha => by
    rw [forestPreorder, List.mem_append] at ha
    simp only [forestPreorder, List.mem_append] at hP
    rcases ha with ha | ha
    · have hparent : P.Below t.val p := .single (hp t List.mem_cons_self)
      rcases below_val ht.1 (fun b hb => hP b (.inl hb)) a ha with rfl | hbelow
      · exact hparent
      · exact hbelow.trans hparent
    · exact below_parent ht.2 (fun b hb => hP b (.inr hb))
        (fun u hu => hp u (List.mem_cons_of_mem _ hu)) a ha

end

variable [DecidableEq α] {M : Type*} [AddCommMonoid M] [PartialOrder M] {f : α → M}

mutual

/-- When no node has less than its children together, nodes of which none is below another have
no more than the root together. -/
theorem sum_antichain_le [IsOrderedAddMonoid M] : ∀ {t : RoseTree α}, t.Branches kids →
    (∀ a ∈ t.preorder, P.Follows kids a) → (∀ a ∈ t.preorder, ((kids a).map f).sum ≤ f a) →
    ∀ {S : Finset α}, (∀ a ∈ S, a ∈ t.preorder) → IsAntichain P.Below (S : Set α) →
    ∑ a ∈ S, f a ≤ f t.val
  | node r ts, ht, hP, hf, S, hS, hanti => by
    rw [Branches] at ht
    simp only [preorder, List.mem_cons] at hS
    simp only [preorder, List.mem_cons, forall_eq_or_imp] at hP hf
    have hparent : ∀ t ∈ ts, P.parent t.val = some r := fun t ht' =>
      hP.1.parent _ (ht.1 ▸ List.mem_map_of_mem ht')
    by_cases hr : r ∈ S
    · -- everything else is below the root
      have hsingle : S = {r} := by
        refine Finset.eq_singleton_iff_unique_mem.mpr ⟨hr, fun a ha => ?_⟩
        by_contra hne
        have hbelow := below_parent ht.2 hP.2 hparent a ((hS a ha).resolve_left hne)
        exact hanti ha hr hne hbelow
      rw [hsingle, Finset.sum_singleton, val]
    · have hforest : ∑ a ∈ S, f a ≤ (ts.map fun t => f t.val).sum :=
        sum_antichain_le_forest ht.2 hP.2 hf.2
          (fun a ha => (hS a ha).resolve_left fun he => hr (he ▸ ha)) hanti
      have hmap : (ts.map fun t => f t.val) = (kids r).map f := by
        rw [← ht.1, List.map_map]
        rfl
      exact hforest.trans (hmap ▸ hf.1)

theorem sum_antichain_le_forest [IsOrderedAddMonoid M] : ∀ {ts : List (RoseTree α)},
    ForestBranches kids ts →
    (∀ a ∈ forestPreorder ts, P.Follows kids a) →
    (∀ a ∈ forestPreorder ts, ((kids a).map f).sum ≤ f a) →
    ∀ {S : Finset α}, (∀ a ∈ S, a ∈ forestPreorder ts) → IsAntichain P.Below (S : Set α) →
    ∑ a ∈ S, f a ≤ (ts.map fun t => f t.val).sum
  | [], _, _, _, S, hS, _ => by
    have hempty : S = ∅ := Finset.eq_empty_of_forall_notMem fun a ha =>
      absurd (hS a ha) List.not_mem_nil
    simp [hempty]
  | t :: ts, ht, hP, hf, S, hS, hanti => by
    simp only [forestPreorder, List.mem_append] at hS hP hf
    rw [← Finset.sum_filter_add_sum_filter_not S (· ∈ t.preorder), List.map_cons, List.sum_cons]
    refine add_le_add ?_ ?_
    · exact sum_antichain_le ht.1 (fun a ha => hP a (.inl ha)) (fun a ha => hf a (.inl ha))
        (fun a ha => (Finset.mem_filter.mp ha).2)
        (hanti.subset (Finset.coe_subset.mpr (Finset.filter_subset _ S)))
    · exact sum_antichain_le_forest ht.2 (fun a ha => hP a (.inr ha))
        (fun a ha => hf a (.inr ha))
        (fun a ha => (hS a (Finset.mem_filter.mp ha).1).resolve_left (Finset.mem_filter.mp ha).2)
        (hanti.subset (Finset.coe_subset.mpr (Finset.filter_subset _ S)))

end

end Shares

end TreeWalk
