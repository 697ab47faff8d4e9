import Mathlib.Data.List.Nodup
import Mathlib.Data.List.Basic
import Mathlib.Logic.Function.Basic

/-!
# Intrusive circular doubly linked lists

A list node is embedded in the object it links; a list is a ring of nodes through one
distinguished node, its *head*. The links of all nodes of a memory are one value
`Intrusive.Links ν`, and the primitives write them one pointer at a time, whether or not the
nodes they are given belong to a ring.

`Intrusive.Ring L h l` says that the nodes of `l`, in this order, are the ring of the head `h`.
Each primitive applied to nodes of a ring, or to a node outside it, acts on `l` as the list
operation it is named after, and leaves every other ring alone.

## Main definitions

* `Intrusive.Links` — the pointers `next` and `prev` of all nodes.
* `Intrusive.Chain`, `Intrusive.Ring` — a doubly linked path, and a ring through its head.
* `Intrusive.Owns` — a ring outside of which every node is linked to itself.

## Main results

* `Intrusive.Ring.listAdd`, `Intrusive.Ring.listAddTail`, `Intrusive.Ring.listDelInit`,
  `Intrusive.Ring.listMoveTail`.
* `Intrusive.Ring.next_head`, `Intrusive.Ring.prev_head` — the ends of a ring.
* `Intrusive.Ring.congr` — a ring only depends on the links of its own nodes.
-/

namespace Intrusive

variable {ν : Type*}

/-- The `next` and `prev` pointers of all nodes of a memory. -/
@[ext]
structure Links (ν : Type*) where
  next : ν → ν
  prev : ν → ν

section Primitives

variable [DecidableEq ν]

/-- Link a node to itself. -/
def initListHead (L : Links ν) (x : ν) : Links ν where
  next := Function.update L.next x x
  prev := Function.update L.prev x x

/-- Whether the list of the head `h` is empty; also whether the node `h` is on no list. -/
def listEmpty (L : Links ν) (h : ν) : Bool := L.next h == h

/-- Insert `x` between two consecutive nodes, by four pointer writes. -/
def listAddBetween (L : Links ν) (x before after : ν) : Links ν where
  next := Function.update (Function.update L.next x after) before x
  prev := Function.update (Function.update L.prev after x) x before

/-- Insert `x` at the head of the list of `h`. -/
def listAdd (L : Links ν) (x h : ν) : Links ν := listAddBetween L x h (L.next h)

/-- Insert `x` at the tail of the list of `h`. -/
def listAddTail (L : Links ν) (x h : ν) : Links ν := listAddBetween L x (L.prev h) h

/-- Make two nodes neighbours, dropping whatever stood between them. -/
def listDelBetween (L : Links ν) (before after : ν) : Links ν where
  next := Function.update L.next before after
  prev := Function.update L.prev after before

/-- Unlink `x` from its neighbours; its own pointers are kept. -/
def listDelEntry (L : Links ν) (x : ν) : Links ν := listDelBetween L (L.prev x) (L.next x)

/-- Unlink `x` and link it to itself. -/
def listDelInit (L : Links ν) (x : ν) : Links ν := initListHead (listDelEntry L x) x

/-- Unlink `x` and insert it at the tail of the list of `h`. -/
def listMoveTail (L : Links ν) (x h : ν) : Links ν := listAddTail (listDelEntry L x) x h

/-- Copy the pointers of the node `x` to the node `y`, as a copy of the enclosing object does. -/
def copyNode (L : Links ν) (x y : ν) : Links ν where
  next := Function.update L.next y (L.next x)
  prev := Function.update L.prev y (L.prev x)

end Primitives

/-! ### Chains -/

/-- The nodes of `l` lead, doubly linked, from `a` to `b`. -/
def Chain (L : Links ν) : ν → List ν → ν → Prop
  | a, [], b => L.next a = b ∧ L.prev b = a
  | a, x :: l, b => (L.next a = x ∧ L.prev x = a) ∧ Chain L x l b

@[simp]
theorem chain_nil {L : Links ν} {a b : ν} : Chain L a [] b ↔ L.next a = b ∧ L.prev b = a :=
  Iff.rfl

@[simp]
theorem chain_cons {L : Links ν} {a x b : ν} {l : List ν} :
    Chain L a (x :: l) b ↔ (L.next a = x ∧ L.prev x = a) ∧ Chain L x l b :=
  Iff.rfl

/-- A chain through a node splits at that node. -/
theorem chain_append_cons {L : Links ν} {x b : ν} {l₂ : List ν} :
    ∀ {l₁ : List ν} {a : ν}, Chain L a (l₁ ++ x :: l₂) b ↔ Chain L a l₁ x ∧ Chain L x l₂ b
  | [], a => by simp
  | y :: l₁, a => by
    simp only [List.cons_append, chain_cons, chain_append_cons, and_assoc]

/-- A chain only reads `next` at its nodes but the last and `prev` at its nodes but the first. -/
theorem Chain.congr {L L' : Links ν} :
    ∀ {l : List ν} {a b : ν}, Chain L a l b → (∀ y ∈ a :: l, L'.next y = L.next y) →
      (∀ y ∈ b :: l, L'.prev y = L.prev y) → Chain L' a l b
  | [], a, b, h, hn, hp => by
    simp only [chain_nil] at h ⊢
    exact ⟨(hn a (by simp)).trans h.1, (hp b (by simp)).trans h.2⟩
  | x :: l, a, b, h, hn, hp => by
    obtain ⟨⟨h₁, h₂⟩, h₃⟩ := h
    refine ⟨⟨(hn a (by simp)).trans h₁, (hp x (by simp)).trans h₂⟩, h₃.congr ?_ ?_⟩
    · exact fun y hy => hn y (List.mem_cons_of_mem _ hy)
    · intro y hy
      rcases List.mem_cons.mp hy with rfl | hy
      · exact hp _ (by simp)
      · exact hp y (by simp [hy])

/-- The first step of a chain. -/
theorem Chain.next_eq {L : Links ν} {a b : ν} :
    ∀ {l : List ν}, Chain L a l b → L.next a = l.headD b
  | [], h => h.1
  | _ :: _, h => h.1.1

/-- The last step of a chain. -/
theorem Chain.prev_eq {L : Links ν} :
    ∀ {l : List ν} {a b : ν}, Chain L a l b → L.prev b = l.getLastD a
  | [], _, _, h => h.2
  | [x], a, b, h => by simpa using h.2.2
  | x :: y :: l, a, b, h => by
    have ih : L.prev b = (y :: l).getLastD x := h.2.prev_eq
    rw [ih, List.getLastD_cons, List.getLastD_cons, List.getLastD_cons]

/-- The links determine the nodes between two ends. -/
theorem Chain.unique {L : Links ν} {b : ν} : ∀ {l l' : List ν} {a : ν},
    Chain L a l b → Chain L a l' b → b ∉ l → b ∉ l' → l = l'
  | [], [], _, _, _, _, _ => rfl
  | [], y :: l', a, h, h', _, hb' => by
    have : b = y := h.1.symm.trans h'.1.1
    exact absurd (this ▸ List.mem_cons_self) hb'
  | x :: l, [], a, h, h', hb, _ => by
    have : b = x := h'.1.symm.trans h.1.1
    exact absurd (this ▸ List.mem_cons_self) hb
  | x :: l, y :: l', a, h, h', hb, hb' => by
    obtain rfl : x = y := h.1.1.symm.trans h'.1.1
    rw [h.2.unique h'.2 (fun hm => hb (List.mem_cons_of_mem _ hm))
      fun hm => hb' (List.mem_cons_of_mem _ hm)]

/-! ### Rings -/

/-- The nodes of `l`, in this order and without repetition, are the ring of the head `h`. -/
structure Ring (L : Links ν) (h : ν) (l : List ν) : Prop where
  chain : Chain L h l h
  nodup : (h :: l).Nodup

namespace Ring

variable {L L' : Links ν} {h x : ν} {l : List ν}

theorem head_notMem (r : Ring L h l) : h ∉ l := (List.nodup_cons.mp r.nodup).1

theorem nodup_tail (r : Ring L h l) : l.Nodup := (List.nodup_cons.mp r.nodup).2

theorem ne_head (r : Ring L h l) (hx : x ∈ l) : x ≠ h := fun he => r.head_notMem (he ▸ hx)

/-- A ring only depends on the links of its own nodes. -/
theorem congr (r : Ring L h l) (hn : ∀ y ∈ h :: l, L'.next y = L.next y)
    (hp : ∀ y ∈ h :: l, L'.prev y = L.prev y) : Ring L' h l :=
  ⟨r.chain.congr hn hp, r.nodup⟩

/-- The links determine the ring. -/
theorem unique {l' : List ν} (r : Ring L h l) (r' : Ring L h l') : l = l' :=
  r.chain.unique r'.chain r.head_notMem r'.head_notMem

theorem next_head (r : Ring L h l) : L.next h = l.headD h := r.chain.next_eq

theorem prev_head (r : Ring L h l) : L.prev h = l.getLastD h := r.chain.prev_eq

/-- The chains before and after a node of a ring. -/
theorem split {l₁ l₂ : List ν} (r : Ring L h (l₁ ++ x :: l₂)) :
    Chain L h l₁ x ∧ Chain L x l₂ h :=
  chain_append_cons.mp r.chain

/-- The node after a node of a ring is the next of the list, or the head at its end. -/
theorem next_eq {l₁ l₂ : List ν} (r : Ring L h (l₁ ++ x :: l₂)) : L.next x = l₂.headD h :=
  r.split.2.next_eq

theorem prev_eq {l₁ l₂ : List ν} (r : Ring L h (l₁ ++ x :: l₂)) : L.prev x = l₁.getLastD h :=
  r.split.1.prev_eq

/-- A node of a ring is not linked to itself. -/
theorem next_ne_self (r : Ring L h l) (hx : x ∈ l) : L.next x ≠ x := by
  obtain ⟨l₁, l₂, rfl⟩ := List.append_of_mem hx
  rw [r.next_eq]
  have hnd := r.nodup
  cases l₂ with
  | nil => exact fun he => r.ne_head hx he.symm
  | cons y l₂ =>
    intro he
    simp only [List.headD_cons] at he
    subst he
    simp [List.nodup_append] at hnd

theorem head_next_eq_iff (r : Ring L h l) : L.next h = h ↔ l = [] := by
  rw [r.next_head]
  cases l with
  | nil => simp
  | cons y l => simpa using r.ne_head (List.mem_cons_self ..)

/-- A ring has at least two nodes besides its head exactly when the head's neighbours differ. -/
theorem prev_head_ne_next_head_iff (r : Ring L h l) : L.prev h ≠ L.next h ↔ 2 ≤ l.length := by
  rw [r.next_head, r.prev_head]
  cases l with
  | nil => simp
  | cons y l =>
    cases l with
    | nil => simp
    | cons z l =>
      have hy : y ∉ z :: l := (List.nodup_cons.mp r.nodup_tail).1
      have hmem : (z :: l).getLast (by simp) ∈ z :: l := List.getLast_mem _
      simp only [List.getLastD_eq_getLast?, List.headD_cons, List.length_cons]
      refine iff_of_true (fun he => hy ?_) (by omega)
      rw [List.getLast?_eq_getLast_of_ne_nil (by simp), Option.getD_some,
        List.getLast_cons (by simp)] at he
      exact he ▸ hmem

end Ring

/-! ### The primitives on rings -/

section PrimitivesOnRings

variable [DecidableEq ν] {L : Links ν} {h x : ν} {l : List ν}

theorem listEmpty_iff : listEmpty L x = true ↔ L.next x = x := by simp [listEmpty]

theorem Ring.init (L : Links ν) (h : ν) : Ring (initListHead L h) h [] :=
  ⟨by simp [initListHead], by simp⟩

theorem initListHead_next_of_ne {y : ν} (hy : y ≠ x) : (initListHead L x).next y = L.next y := by
  simp [initListHead, hy]

theorem initListHead_prev_of_ne {y : ν} (hy : y ≠ x) : (initListHead L x).prev y = L.prev y := by
  simp [initListHead, hy]

/-- Linking a node outside of a ring to itself does not touch the ring. -/
theorem Ring.initListHead (r : Ring L h l) (hx : x ∉ h :: l) : Ring (initListHead L x) h l :=
  r.congr (fun _ hy => initListHead_next_of_ne (ne_of_mem_of_not_mem hy hx))
    fun _ hy => initListHead_prev_of_ne (ne_of_mem_of_not_mem hy hx)

/-- Overwriting the links of a node outside of a ring does not touch the ring. -/
theorem Ring.copyNode {y : ν} (r : Ring L h l) (hy : y ∉ h :: l) : Ring (copyNode L x y) h l :=
  r.congr (fun z hz => by simp [Intrusive.copyNode, ne_of_mem_of_not_mem hz hy])
    fun z hz => by simp [Intrusive.copyNode, ne_of_mem_of_not_mem hz hy]

/-- A chain that starts at `a` also starts at a node inserted right after `a`. -/
private theorem chain_insert_head {a b : ν} {l : List ν} (hc : Chain L a l b)
    (hnd : (a :: l).Nodup) (hb : b ∉ l) (hx : x ∉ a :: l) (hxb : x ≠ b) :
    Chain (listAddBetween L x a (l.headD b)) x l b := by
  have hxa : x ≠ a := fun he => hx (he ▸ List.mem_cons_self ..)
  cases l with
  | nil => simp [listAddBetween, hxa, hxb.symm]
  | cons y l =>
    have hyx : y ≠ x := fun he => hx (he ▸ by simp)
    refine ⟨by simp [listAddBetween, hxa, hyx], hc.2.congr ?_ ?_⟩
    · intro z hz
      have hza : z ≠ a := fun he => (List.nodup_cons.mp hnd).1 (he ▸ hz)
      have hzx : z ≠ x := fun he => hx (he ▸ List.mem_cons_of_mem _ hz)
      simp [listAddBetween, hza, hzx]
    · intro z hz
      have hzy : z ≠ y := by
        rcases List.mem_cons.mp hz with rfl | hz
        · exact fun he => hb (he ▸ List.mem_cons_self ..)
        · exact fun he => (List.nodup_cons.mp (List.nodup_cons.mp hnd).2).1 (he ▸ hz)
      have hzx : z ≠ x := by
        rcases List.mem_cons.mp hz with rfl | hz
        · exact hxb.symm
        · exact fun he => hx (he ▸ by simp [hz])
      simp [listAddBetween, hzx, hzy]

/-- Inserting a new node between two neighbours of a chain. -/
theorem Chain.listAddBetween {b : ν} {l₂ : List ν} (hxb : x ≠ b) :
    ∀ {l₁ : List ν} {a : ν}, Chain L a (l₁ ++ l₂) b → (a :: (l₁ ++ l₂)).Nodup →
      b ∉ l₁ ++ l₂ → x ∉ a :: (l₁ ++ l₂) →
      Chain (listAddBetween L x (l₁.getLastD a) (l₂.headD b)) a (l₁ ++ x :: l₂) b
  | [], a, hc, hnd, hb, hx => by
    have hxa : x ≠ a := fun he => hx (he ▸ List.mem_cons_self ..)
    exact ⟨by simp [Intrusive.listAddBetween], chain_insert_head hc hnd hb hx hxb⟩
  | y :: l₁, a, hc, hnd, hb, hx => by
    obtain ⟨hstep, htail⟩ := hc
    obtain ⟨ha, hnd'⟩ := List.nodup_cons.mp hnd
    have hane : a ≠ l₁.getLastD y := fun he => ha (by
      rw [he]
      rcases List.mem_cons.mp (List.getLastD_mem_cons : l₁.getLastD y ∈ y :: l₁) with h | h
      · rw [h]; exact List.mem_cons_self ..
      · exact List.mem_cons_of_mem _ (List.mem_append_left _ h))
    have hax : a ≠ x := fun he => hx (he ▸ List.mem_cons_self ..)
    have hyx : y ≠ x := fun he => hx (he ▸ by simp)
    have hyafter : y ≠ l₂.headD b := by
      cases l₂ with
      | nil => exact fun he => hb (by simp [← show y = b from he])
      | cons z l₂ => exact fun he => (List.nodup_cons.mp hnd').1 (by simp [show y = z from he])
    rw [List.getLastD_cons]
    refine ⟨?_, Chain.listAddBetween hxb htail hnd' (fun h => hb (List.mem_cons_of_mem _ h))
      fun h => hx (List.mem_cons_of_mem _ h)⟩
    simp only [Intrusive.listAddBetween]
    rw [Function.update_of_ne hane, Function.update_of_ne hax, Function.update_of_ne hyx,
      Function.update_of_ne hyafter]
    exact hstep

/-- Dropping a node of a chain. -/
theorem Chain.listDelBetween {b : ν} {l₂ : List ν} :
    ∀ {l₁ : List ν} {a : ν}, Chain L a (l₁ ++ x :: l₂) b → (a :: (l₁ ++ x :: l₂)).Nodup →
      b ∉ l₁ ++ x :: l₂ →
      Chain (listDelBetween L (l₁.getLastD a) (l₂.headD b)) a (l₁ ++ l₂) b
  | [], a, hc, hnd, hb => by
    obtain ⟨-, hc⟩ := hc
    cases l₂ with
    | nil => simp [Intrusive.listDelBetween]
    | cons y l₂ =>
      refine ⟨by simp [Intrusive.listDelBetween], hc.2.congr ?_ ?_⟩
      · intro z hz
        have hza : z ≠ a := fun he => (List.nodup_cons.mp hnd).1 (he ▸ by simp_all)
        simp [Intrusive.listDelBetween, hza]
      · intro z hz
        have hzy : z ≠ y := by
          rcases List.mem_cons.mp hz with rfl | hz
          · exact fun he => hb (by simp [he])
          · rintro rfl
            simp_all
        simp [Intrusive.listDelBetween, hzy]
  | y :: l₁, a, hc, hnd, hb => by
    obtain ⟨hstep, htail⟩ := hc
    obtain ⟨ha, hnd'⟩ := List.nodup_cons.mp hnd
    have hane : a ≠ l₁.getLastD y := fun he => ha (by
      rw [he]
      rcases List.mem_cons.mp (List.getLastD_mem_cons : l₁.getLastD y ∈ y :: l₁) with h | h
      · rw [h]; exact List.mem_cons_self ..
      · exact List.mem_cons_of_mem _ (List.mem_append_left _ h))
    have hyafter : y ≠ l₂.headD b := by
      cases l₂ with
      | nil => exact fun he => hb (by simp [← show y = b from he])
      | cons z l₂ => exact fun he => (List.nodup_cons.mp hnd').1 (by simp [show y = z from he])
    rw [List.getLastD_cons]
    refine ⟨?_, Chain.listDelBetween htail hnd' fun h => hb (List.mem_cons_of_mem _ h)⟩
    simp only [Intrusive.listDelBetween]
    rw [Function.update_of_ne hane, Function.update_of_ne hyafter]
    exact hstep

namespace Ring

variable {l₁ l₂ : List ν}

/-- Inserting a new node between two neighbours of a ring. -/
theorem listAddBetween (r : Ring L h (l₁ ++ l₂)) (hx : x ∉ h :: (l₁ ++ l₂)) :
    Ring (listAddBetween L x (l₁.getLastD h) (l₂.headD h)) h (l₁ ++ x :: l₂) := by
  have hxh : x ≠ h := fun he => hx (he ▸ List.mem_cons_self ..)
  refine ⟨Chain.listAddBetween hxh r.chain r.nodup r.head_notMem hx, ?_⟩
  have hperm : (h :: (l₁ ++ x :: l₂)).Perm (x :: h :: (l₁ ++ l₂)) :=
    (List.perm_middle.cons h).trans (List.Perm.swap ..)
  exact hperm.nodup_iff.mpr (List.nodup_cons.mpr ⟨hx, r.nodup⟩)

theorem listAdd (r : Ring L h l) (hx : x ∉ h :: l) : Ring (listAdd L x h) h (x :: l) := by
  have r' : Ring L h ([] ++ l) := r
  rw [Intrusive.listAdd, r.next_head]
  exact r'.listAddBetween hx

theorem listAddTail (r : Ring L h l) (hx : x ∉ h :: l) :
    Ring (listAddTail L x h) h (l ++ [x]) := by
  have r' : Ring L h (l ++ []) := by rwa [List.append_nil]
  rw [Intrusive.listAddTail, r.prev_head]
  exact r'.listAddBetween (by rwa [List.append_nil])

theorem listDelEntry (r : Ring L h (l₁ ++ x :: l₂)) : Ring (listDelEntry L x) h (l₁ ++ l₂) := by
  have hc := Chain.listDelBetween r.chain r.nodup r.head_notMem
  rw [← r.prev_eq, ← r.next_eq] at hc
  refine ⟨hc, r.nodup.sublist ?_⟩
  exact ((List.sublist_cons_self x l₂).append_left l₁).cons_cons h

theorem listDelInit (r : Ring L h (l₁ ++ x :: l₂)) : Ring (listDelInit L x) h (l₁ ++ l₂) := by
  refine r.listDelEntry.initListHead ?_
  have hnd := r.nodup
  simp only [List.nodup_cons, List.nodup_append, List.mem_append, List.mem_cons] at hnd ⊢
  grind

theorem listMoveTail (r : Ring L h (l₁ ++ x :: l₂)) :
    Ring (listMoveTail L x h) h (l₁ ++ l₂ ++ [x]) := by
  refine r.listDelEntry.listAddTail ?_
  have hnd := r.nodup
  simp only [List.nodup_cons, List.nodup_append, List.mem_append, List.mem_cons] at hnd ⊢
  grind

end Ring

/-! ### A list that owns all linked nodes -/

/-- The nodes of `l` are the ring of `h`, and every other node is linked to itself. -/
structure Owns (L : Links ν) (h : ν) (l : List ν) : Prop extends Ring L h l where
  self : ∀ y ∉ h :: l, L.next y = y ∧ L.prev y = y

namespace Owns

/-- Whether a node is linked tells whether it is on the list. -/
theorem listEmpty_iff (o : Owns L h l) (hx : x ≠ h) : listEmpty L x = true ↔ x ∉ l := by
  rw [Intrusive.listEmpty_iff]
  refine ⟨fun he hm => o.next_ne_self hm he, fun hm => (o.self x ?_).1⟩
  simp [hx, hm]

theorem init (hself : ∀ y, y ≠ h → L.next y = y ∧ L.prev y = y) : Owns (initListHead L h) h [] := by
  refine ⟨Ring.init L h, fun y hy => ?_⟩
  have hyh : y ≠ h := by simpa using hy
  rw [initListHead_next_of_ne hyh, initListHead_prev_of_ne hyh]
  exact hself y hyh

theorem initListHead (o : Owns L h l) (hx : x ∉ h :: l) : Owns (initListHead L x) h l := by
  refine ⟨o.toRing.initListHead hx, fun y hy => ?_⟩
  by_cases hyx : y = x
  · simp [Intrusive.initListHead, hyx]
  · rw [initListHead_next_of_ne hyx, initListHead_prev_of_ne hyx]
    exact o.self y hy

/-- Copying links onto a node off the list and then linking that node to itself leaves no trace. -/
theorem copyNode_initListHead {y : ν} (o : Owns L h l) (hy : y ∉ h :: l) :
    Owns (Intrusive.initListHead (copyNode L x y) y) h l := by
  refine ⟨(o.toRing.copyNode hy).initListHead hy, fun z hz => ?_⟩
  by_cases hzy : z = y
  · simp [Intrusive.initListHead, hzy]
  · simpa [Intrusive.initListHead, copyNode, hzy] using o.self z hz

theorem listAddBetween {l₁ l₂ : List ν} (o : Owns L h (l₁ ++ l₂)) (hx : x ∉ h :: (l₁ ++ l₂)) :
    Owns (listAddBetween L x (l₁.getLastD h) (l₂.headD h)) h (l₁ ++ x :: l₂) := by
  refine ⟨o.toRing.listAddBetween hx, fun y hy => ?_⟩
  have hbefore : l₁.getLastD h ∈ h :: l₁ := List.getLastD_mem_cons
  have hafter : l₂.headD h ∈ h :: l₂ := by cases l₂ <;> simp
  simp only [List.mem_cons, List.mem_append, not_or] at hy hbefore hafter
  have hyb : y ≠ l₁.getLastD h := by grind
  have hya : y ≠ l₂.headD h := by grind
  have hself := o.self y (by simp [hy])
  simp only [Intrusive.listAddBetween, Function.update_of_ne hyb, Function.update_of_ne hya,
    Function.update_of_ne hy.2.2.1, hself, and_self]

theorem listAdd (o : Owns L h l) (hx : x ∉ h :: l) : Owns (listAdd L x h) h (x :: l) := by
  have o' : Owns L h ([] ++ l) := o
  rw [Intrusive.listAdd, o.next_head]
  exact o'.listAddBetween hx

theorem listAddTail (o : Owns L h l) (hx : x ∉ h :: l) :
    Owns (listAddTail L x h) h (l ++ [x]) := by
  have o' : Owns L h (l ++ []) := by rwa [List.append_nil]
  rw [Intrusive.listAddTail, o.prev_head]
  exact o'.listAddBetween (by rwa [List.append_nil])

private theorem listDelEntry_self {l₁ l₂ : List ν} (o : Owns L h (l₁ ++ x :: l₂)) {y : ν}
    (hy : y ∉ h :: (l₁ ++ x :: l₂)) :
    (listDelEntry L x).next y = y ∧ (listDelEntry L x).prev y = y := by
  have hbefore : l₁.getLastD h ∈ h :: l₁ := List.getLastD_mem_cons
  have hafter : l₂.headD h ∈ h :: l₂ := by cases l₂ <;> simp
  rw [← o.prev_eq] at hbefore
  rw [← o.next_eq] at hafter
  have hself := o.self y hy
  simp only [List.mem_cons, List.mem_append, not_or] at hy hbefore hafter
  have hyb : y ≠ L.prev x := by grind
  have hya : y ≠ L.next x := by grind
  simpa [listDelEntry, listDelBetween, hyb, hya] using hself

/-- Deleting a node leaves the others in order. -/
theorem listDelInit {l₁ l₂ : List ν} (o : Owns L h (l₁ ++ x :: l₂)) :
    Owns (listDelInit L x) h (l₁ ++ l₂) := by
  refine ⟨o.toRing.listDelInit, fun y hy => ?_⟩
  by_cases hyx : y = x
  · simp [Intrusive.listDelInit, Intrusive.initListHead, hyx]
  · rw [Intrusive.listDelInit, initListHead_next_of_ne hyx, initListHead_prev_of_ne hyx]
    exact o.listDelEntry_self (by simp_all)

/-- Moving a node to the tail keeps the order of the others. -/
theorem listMoveTail {l₁ l₂ : List ν} (o : Owns L h (l₁ ++ x :: l₂)) :
    Owns (listMoveTail L x h) h (l₁ ++ l₂ ++ [x]) := by
  have hx : x ∉ h :: (l₁ ++ l₂) := by
    have hnd := o.nodup
    simp only [List.nodup_cons, List.nodup_append, List.mem_append, List.mem_cons] at hnd ⊢
    grind
  have hr := o.toRing.listDelEntry
  refine ⟨o.toRing.listMoveTail, fun y hy => ?_⟩
  have hy' : y ∉ h :: (l₁ ++ x :: l₂) := by simp_all
  obtain ⟨hn, hp⟩ := o.listDelEntry_self hy'
  have hlast : (listDelEntry L x).prev h ∈ h :: (l₁ ++ l₂) := by
    rw [hr.prev_head]
    exact List.getLastD_mem_cons
  simp only [List.mem_cons, List.mem_append, List.not_mem_nil, or_false, not_or] at hy hlast
  have hyl : y ≠ (listDelEntry L x).prev h := by grind
  have hyx : y ≠ x := hy.2.2
  simp [Intrusive.listMoveTail, Intrusive.listAddTail, Intrusive.listAddBetween, hyl, hyx, hy.1,
    hn, hp]

end Owns

end PrimitivesOnRings

/-! ### Traversal -/

section Traversal

variable {σ : Type*} [DecidableEq ν] {L : Links ν}

/-- Run a loop body on the nodes of a list, from the node `x` on until the head `h` comes round.
The loop is bounded by a number of rounds. -/
def listForEachFrom (L : Links ν) (f : ν → σ → Option σ) (h : ν) : ℕ → ν → σ → Option σ
  | 0, x, s => if x = h then some s else none
  | n + 1, x, s =>
    if x = h then some s else (f x s).bind fun s => listForEachFrom L f h n (L.next x) s

/-- Run a loop body on the nodes of the list of `h`, from its first node on. -/
def listForEach (L : Links ν) (f : ν → σ → Option σ) (h : ν) (n : ℕ) (s : σ) : Option σ :=
  listForEachFrom L f h n (L.next h) s

theorem listForEachFrom_chain {f : ν → σ → Option σ} {h : ν} :
    ∀ {l : List ν} {a : ν} {n : ℕ} {s : σ}, Chain L a l h → h ∉ l → l.length ≤ n →
      listForEachFrom L f h n (L.next a) s = l.foldlM (fun s x => f x s) s
  | [], a, n, s, hc, _, _ => by
    rw [hc.1]
    cases n <;> simp [listForEachFrom]
  | x :: l, a, 0, s, _, _, hn => absurd hn (Nat.not_succ_le_zero _)
  | x :: l, a, n + 1, s, hc, hh, hn => by
    have hx : x ≠ h := fun he => hh (he ▸ List.mem_cons_self)
    rw [hc.1.1, listForEachFrom, if_neg hx, List.foldlM_cons]
    congr 1
    funext s
    exact listForEachFrom_chain hc.2 (fun hm => hh (List.mem_cons_of_mem _ hm))
      (Nat.le_of_succ_le_succ hn)

/-- On a ring the loop visits the nodes of the list in order, given at least as many rounds. -/
theorem Ring.listForEach {f : ν → σ → Option σ} {h : ν} {l : List ν} {n : ℕ} {s : σ}
    (r : Ring L h l) (hn : l.length ≤ n) :
    listForEach L f h n s = l.foldlM (fun s x => f x s) s :=
  listForEachFrom_chain r.chain r.head_notMem hn

end Traversal

end Intrusive
