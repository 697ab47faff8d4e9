import Mathlib.Algebra.Order.BigOperators.Group.Finset
import Mathlib.Logic.Relation
import Mathlib.Order.Antichain

/-!
# Accounts that are rolled up a forest

Every node of a finite forest has an account and, unless it is a root, a parent. An amount that is
posted to a node is added to its account and to those of all nodes above it, by a loop that follows
the pointers to the parents. When no node has less than its children together, this stays so, and
nodes of which none is above another have no more than a node above them all.

## Main definitions

* `Rollup.Above` — a node is another one or above it.
* `Rollup.walkUp` — the loop over a node and those above it, for at most so many passes.
* `Rollup.Ranked` — the nodes of a finite forest.
* `Rollup.Covered` — no node has less than its children together.

## Main results

* `Rollup.walkUp_update` — the loop visits every node above once, and ends.
* `Rollup.Covered.post` — a posted amount keeps the accounts covered.
* `Rollup.Covered.sum_antichain_le`.
-/

namespace Rollup

variable {α β γ : Type*} {parent : α → Option α} {nodes : Finset α} {rank : α → ℕ} {a b c t : α}

/-- `b` is `a` or above it. -/
def Above (parent : α → Option α) (a b : α) : Prop :=
  Relation.ReflTransGen (fun x y => parent x = some y) a b

/-- The parents of nodes are nodes, and have a lower rank. -/
structure Ranked (parent : α → Option α) (nodes : Finset α) (rank : α → ℕ) : Prop where
  mem : ∀ {a b}, a ∈ nodes → parent a = some b → b ∈ nodes
  lt : ∀ {a b}, a ∈ nodes → parent a = some b → rank b < rank a

theorem above_iff : Above parent a b ↔ a = b ∨ ∃ c, parent a = some c ∧ Above parent c b :=
  Relation.ReflTransGen.cases_head_iff

theorem Above.trans (h : Above parent a b) (h' : Above parent b c) : Above parent a c :=
  Relation.ReflTransGen.trans h h'

/-- Of two nodes above a third one is above the other. -/
theorem Above.total (hb : Above parent a b) (hc : Above parent a c) :
    Above parent b c ∨ Above parent c b :=
  Relation.ReflTransGen.total_of_right_unique
    (fun _ _ _ h h' => Option.some.inj (h.symm.trans h')) hb hc

namespace Ranked

theorem mem_of_above (h : Ranked parent nodes rank) (ha : a ∈ nodes) (hab : Above parent a b) :
    b ∈ nodes := by
  induction hab with
  | refl => exact ha
  | tail _ hstep ih => exact h.mem ih hstep

theorem rank_le (h : Ranked parent nodes rank) (ha : a ∈ nodes) (hab : Above parent a b) :
    rank b ≤ rank a := by
  induction hab with
  | refl => exact le_rfl
  | tail hab hstep ih => exact (h.lt (h.mem_of_above ha hab) hstep).le.trans ih

/-- A child is not above its parent. -/
theorem not_above_child (h : Ranked parent nodes rank) (hc : c ∈ nodes) (hp : parent c = some a) :
    ¬Above parent a c := fun hac =>
  absurd (h.rank_le (h.mem hc hp) hac) (Nat.not_le.mpr (h.lt hc hp))

/-- At most one child of a node is above another node. -/
theorem child_unique (h : Ranked parent nodes rank) (hb : b ∈ nodes) (hc : c ∈ nodes)
    (hbp : parent b = some a) (hcp : parent c = some a) (hb' : Above parent t b)
    (hc' : Above parent t c) : b = c := by
  have hne : ∀ {x y}, x ∈ nodes → y ∈ nodes → parent x = some a → parent y = some a →
      Above parent x y → x = y := fun {x y} _ hy hxp hyp hxy => by
    rcases above_iff.mp hxy with heq | ⟨d, hd, hdy⟩
    · exact heq
    · obtain rfl : a = d := Option.some.inj (hxp.symm.trans hd)
      exact absurd hdy (h.not_above_child hy hyp)
  rcases hb'.total hc' with hbc | hcb
  · exact hne hb hc hbp hcp hbc
  · exact (hne hc hb hcp hbp hcb).symm

end Ranked

/-! ### Nodes that come and go -/

section Changes

variable [DecidableEq α] {p : α}

/-- A new leaf. -/
theorem Ranked.insert (h : Ranked parent nodes rank) (hc : c ∉ nodes) (hp : p ∈ nodes) :
    Ranked (Function.update parent c (some p)) (insert c nodes)
      (Function.update rank c (rank p + 1)) := by
  have hne : ∀ {x}, x ∈ nodes → x ≠ c := fun hx he => hc (he ▸ hx)
  refine ⟨fun {a _} ha hab => ?_, fun {a _} ha hab => ?_⟩
  · rcases Finset.mem_insert.mp ha with rfl | ha
    · rw [Function.update_self] at hab
      exact Finset.mem_insert_of_mem (Option.some.inj hab ▸ hp)
    · rw [Function.update_of_ne (hne ha)] at hab
      exact Finset.mem_insert_of_mem (h.mem ha hab)
  · rcases Finset.mem_insert.mp ha with rfl | ha
    · rw [Function.update_self] at hab
      obtain rfl := Option.some.inj hab
      rw [Function.update_self, Function.update_of_ne (hne hp)]
      exact Nat.lt_succ_self _
    · rw [Function.update_of_ne (hne ha)] at hab
      rw [Function.update_of_ne (hne ha), Function.update_of_ne (hne (h.mem ha hab))]
      exact h.lt ha hab

/-- A leaf is removed. -/
theorem Ranked.erase (h : Ranked parent nodes rank) (hleaf : ∀ a ∈ nodes, parent a ≠ some c) :
    Ranked parent (nodes.erase c) rank :=
  ⟨fun {a _} ha hab => Finset.mem_erase.mpr
      ⟨fun he => hleaf a (Finset.mem_of_mem_erase ha) (he ▸ hab),
        h.mem (Finset.mem_of_mem_erase ha) hab⟩,
    fun ha hab => h.lt (Finset.mem_of_mem_erase ha) hab⟩

/-- A new leaf is not above other nodes. -/
theorem Ranked.above_insert (h : Ranked parent nodes rank) (hc : c ∉ nodes) (ha : a ∈ nodes)
    (hab : Above parent a b) : Above (Function.update parent c (some p)) a b := by
  induction hab with
  | refl => exact .refl
  | tail hab hstep ih =>
    refine ih.tail ?_
    rwa [Function.update_of_ne fun he : _ = c => hc (he ▸ h.mem_of_above ha hab)]

/-- A loop that stops before a root visits the other nodes above. -/
theorem above_filter {r : α} (hr : parent r = none) (ha : a ≠ r) :
    Above (fun x => (parent x).filter (· ≠ r)) a b ↔ Above parent a b ∧ b ≠ r := by
  constructor
  · intro hab
    induction hab with
    | refl => exact ⟨.refl, ha⟩
    | tail _ hstep ih =>
      obtain ⟨hpar, hne⟩ := Option.filter_eq_some_iff.mp hstep
      exact ⟨ih.1.tail hpar, by simpa using hne⟩
  · rintro ⟨hab, hb⟩
    induction hab with
    | refl => exact .refl
    | @tail x y _ hstep ih =>
      have hx : x ≠ r := fun he => by rw [he, hr] at hstep; cases hstep
      exact (ih hx).tail (Option.filter_eq_some_iff.mpr ⟨hstep, by simpa using hb⟩)

theorem Ranked.filter (h : Ranked parent nodes rank) (r : α) :
    Ranked (fun x => (parent x).filter (· ≠ r)) nodes rank :=
  ⟨fun ha hab => h.mem ha (Option.filter_eq_some_iff.mp hab).1,
    fun ha hab => h.lt ha (Option.filter_eq_some_iff.mp hab).1⟩

end Changes

/-! ### The loop upwards -/

/-- The loop over a node and those above it, for at most so many passes. -/
def walkUp (parent : α → Option α) (f : α → β → β) : ℕ → Option α → β → β
  | n + 1, some a, s => walkUp parent f n (parent a) (f a s)
  | 0, _, s => s
  | _, none, s => s

section WalkUp

variable [DecidableEq α]

/-- With as many passes as there are nodes of no higher rank, the loop changes the account of every
node above once, and no other. -/
theorem walkUp_update (h : Ranked parent nodes rank) (g : γ → γ) {n : ℕ} (ha : a ∈ nodes)
    (hn : (nodes.filter fun x => rank x ≤ rank a).card ≤ n) (s : α → γ) :
    (∀ b, Above parent a b →
      walkUp parent (fun x s => Function.update s x (g (s x))) n (some a) s b = g (s b)) ∧
    ∀ b, ¬Above parent a b →
      walkUp parent (fun x s => Function.update s x (g (s x))) n (some a) s b = s b := by
  induction n generalizing a s with
  | zero =>
    have hmem : a ∈ nodes.filter fun x => rank x ≤ rank a :=
      Finset.mem_filter.mpr ⟨ha, le_rfl⟩
    rw [Finset.card_eq_zero.mp (Nat.le_zero.mp hn)] at hmem
    exact absurd hmem (Finset.notMem_empty a)
  | succ n ih =>
    rw [walkUp]
    cases hp : parent a with
    | none =>
      have hwalk : ∀ s : α → γ,
          walkUp parent (fun x s => Function.update s x (g (s x))) n none s = s := fun s => by
        cases n <;> rfl
      have hroot : ∀ b, Above parent a b ↔ a = b := fun b => by simp [above_iff (a := a), hp]
      rw [hwalk]
      refine ⟨fun b hb => ?_, fun b hb => ?_⟩
      · obtain rfl := (hroot b).mp hb
        exact Function.update_self ..
      · exact Function.update_of_ne (fun he => hb ((hroot b).mpr he.symm)) ..
    | some c =>
      have hlt : rank c < rank a := h.lt ha hp
      have hcard : (nodes.filter fun x => rank x ≤ rank c).card ≤ n := by
        have hsub : (nodes.filter fun x => rank x ≤ rank c) ⊂
            nodes.filter fun x => rank x ≤ rank a := by
          refine Finset.ssubset_iff_subset_ne.mpr ⟨fun x hx => ?_, fun he => ?_⟩
          · obtain ⟨hx, hle⟩ := Finset.mem_filter.mp hx
            exact Finset.mem_filter.mpr ⟨hx, hle.trans hlt.le⟩
          · have hmem : a ∈ nodes.filter fun x => rank x ≤ rank c :=
              he ▸ Finset.mem_filter.mpr ⟨ha, le_rfl⟩
            exact absurd (Finset.mem_filter.mp hmem).2 (Nat.not_le.mpr hlt)
        have := Finset.card_lt_card hsub
        omega
      obtain ⟨habove, hother⟩ := ih (h.mem ha hp) hcard (Function.update s a (g (s a)))
      have hnot : ¬Above parent c a := h.not_above_child ha hp
      refine ⟨fun b hb => ?_, fun b hb => ?_⟩
      · rcases above_iff.mp hb with rfl | ⟨d, hd, hdb⟩
        · rw [hother a hnot, Function.update_self]
        · obtain rfl : c = d := Option.some.inj (hp.symm.trans hd)
          rw [habove b hdb, Function.update_of_ne fun he : b = a => hnot (he ▸ hdb)]
      · rw [hother b fun hcb => hb (above_iff.mpr (.inr ⟨c, hp, hcb⟩)),
          Function.update_of_ne fun he : b = a => hb (he ▸ .refl)]

end WalkUp

/-! ### Sums over nodes -/

section Sums

variable [DecidableEq α] {M : Type*} [AddCommMonoid M] [PartialOrder M] {f f' : α → M}

/-- No node has less than its children together. -/
def Covered (parent : α → Option α) (nodes : Finset α) (f : α → M) : Prop :=
  ∀ a ∈ nodes, ∑ c ∈ nodes.filter fun c => parent c = some a, f c ≤ f a

namespace Covered

variable [IsOrderedAddMonoid M]

/-- A posted amount is in the account of a node when it is in that of a child, and of one child at
most. -/
theorem post (hc : Covered parent nodes f) (h : Ranked parent nodes rank) {v : M} (hv : 0 ≤ v)
    (habove : ∀ b, Above parent t b → f' b = f b + v) (hother : ∀ b, ¬Above parent t b → f' b = f b) :
    Covered parent nodes f' := by
  classical
  intro a ha
  obtain ⟨kids, hkids⟩ : ∃ kids, kids = nodes.filter fun c => parent c = some a := ⟨_, rfl⟩
  have hmem : ∀ {c}, c ∈ kids ↔ c ∈ nodes ∧ parent c = some a := by simp [hkids]
  have hsum : ∑ c ∈ kids, f' c = ∑ c ∈ kids, f c + ∑ c ∈ kids.filter (Above parent t ·), v := by
    rw [Finset.sum_filter, ← Finset.sum_add_distrib]
    refine Finset.sum_congr rfl fun c _ => ?_
    split
    · next hab => exact habove c hab
    · next hab => rw [hother c hab, add_zero]
  have hold : ∑ c ∈ kids, f c ≤ f a := hkids ▸ hc a ha
  rw [← hkids, hsum]
  rcases (kids.filter (Above parent t ·)).eq_empty_or_nonempty with hnone | ⟨c, hcmem⟩
  · rw [hnone, Finset.sum_empty, add_zero]
    by_cases hab : Above parent t a
    · rw [habove a hab]
      exact le_add_of_le_of_nonneg hold hv
    · rwa [hother a hab]
  · obtain ⟨hck, hct⟩ := Finset.mem_filter.mp hcmem
    obtain ⟨hcn, hcp⟩ := hmem.mp hck
    have hsingle : kids.filter (Above parent t ·) = {c} := by
      refine Finset.eq_singleton_iff_unique_mem.mpr ⟨hcmem, fun b hb => ?_⟩
      obtain ⟨hbk, hbt⟩ := Finset.mem_filter.mp hb
      obtain ⟨hbn, hbp⟩ := hmem.mp hbk
      exact h.child_unique hbn hcn hbp hcp hbt hct
    rw [hsingle, Finset.sum_singleton, habove a (hct.tail hcp)]
    exact add_le_add_left hold v

omit [IsOrderedAddMonoid M] in
/-- A new leaf with an empty account. -/
theorem insertLeaf (hc : Covered parent nodes f) (h : Ranked parent nodes rank) {p : α} (hn : t ∉ nodes) :
    Covered (Function.update parent t (some p)) (insert t nodes) (Function.update f t 0) := by
  have hne : ∀ {x}, x ∈ nodes → x ≠ t := fun hx he => hn (he ▸ hx)
  intro a ha
  have hsum : ∑ c ∈ (insert t nodes).filter fun c => Function.update parent t (some p) c = some a,
      Function.update f t 0 c = ∑ c ∈ nodes.filter fun c => parent c = some a, f c := by
    rw [Finset.sum_filter, Finset.sum_insert hn, Function.update_self t 0 f, ite_self, zero_add,
      Finset.sum_filter]
    refine Finset.sum_congr rfl fun c hc => ?_
    rw [Function.update_of_ne (hne hc), Function.update_of_ne (hne hc)]
  rw [hsum]
  rcases Finset.mem_insert.mp ha with rfl | ha
  · rw [Function.update_self, Finset.sum_eq_zero]
    intro c hc'
    obtain ⟨hcn, hcp⟩ := Finset.mem_filter.mp hc'
    exact absurd (h.mem hcn hcp) hn
  · rw [Function.update_of_ne (hne ha)]
    exact hc a ha

/-- A leaf is removed. -/
theorem eraseLeaf (hc : Covered parent nodes f) (hf : ∀ a, 0 ≤ f a) :
    Covered parent (nodes.erase t) f := fun a ha =>
  (Finset.sum_le_sum_of_subset_of_nonneg
    (Finset.filter_subset_filter _ (Finset.erase_subset t nodes)) fun _ _ _ => hf _).trans
      (hc a (Finset.mem_of_mem_erase ha))

/-- Nodes below a node, of which none is above another, are the node itself or below its children. -/
theorem sum_le_of_children (hc : Covered parent nodes f) (h : Ranked parent nodes rank) {r : α}
    (hr : r ∈ nodes) {S : Finset α} (hS : ∀ x ∈ S, x ∈ nodes ∧ Above parent x r)
    (hanti : IsAntichain (Above parent) (S : Set α))
    (hkids : ∀ c ∈ nodes, parent c = some r →
      ∀ T ⊆ S, (∀ x ∈ T, Above parent x c) → ∑ x ∈ T, f x ≤ f c) : ∑ x ∈ S, f x ≤ f r := by
  classical
  by_cases hrS : r ∈ S
  · have hsingle : S = {r} := by
      refine Finset.eq_singleton_iff_unique_mem.mpr ⟨hrS, fun x hx => ?_⟩
      by_contra hne
      exact hanti hx hrS hne (hS x hx).2
    rw [hsingle, Finset.sum_singleton]
  · obtain ⟨kids, hkidsEq⟩ : ∃ kids, kids = nodes.filter fun c => parent c = some r := ⟨_, rfl⟩
    have hmem : ∀ {c}, c ∈ kids ↔ c ∈ nodes ∧ parent c = some r := by simp [hkidsEq]
    have hunion : S = kids.biUnion fun c => S.filter (Above parent · c) := by
      ext x
      simp only [Finset.mem_biUnion, Finset.mem_filter]
      refine ⟨fun hx => ?_, fun ⟨_, _, hx, _⟩ => hx⟩
      obtain ⟨hxn, hxr⟩ := hS x hx
      rcases Relation.ReflTransGen.cases_tail_iff _ _ _ |>.mp hxr with heq | ⟨c, hxc, hcr⟩
      · exact absurd (heq ▸ hx) hrS
      · exact ⟨c, hmem.mpr ⟨h.mem_of_above hxn hxc, hcr⟩, hx, hxc⟩
    have hdisj : (kids : Set α).PairwiseDisjoint fun c => S.filter (Above parent · c) := by
      intro b hb c hc' hne
      refine Finset.disjoint_left.mpr fun x hxb hxc => hne ?_
      obtain ⟨hbn, hbp⟩ := hmem.mp hb
      obtain ⟨hcn, hcp⟩ := hmem.mp hc'
      exact h.child_unique hbn hcn hbp hcp (Finset.mem_filter.mp hxb).2 (Finset.mem_filter.mp hxc).2
    calc ∑ x ∈ S, f x = ∑ c ∈ kids, ∑ x ∈ S.filter (Above parent · c), f x := by
          conv_lhs => rw [hunion]
          exact Finset.sum_biUnion hdisj
      _ ≤ ∑ c ∈ kids, f c := Finset.sum_le_sum fun c hck =>
          hkids c (hmem.mp hck).1 (hmem.mp hck).2 _ (Finset.filter_subset _ S)
            fun x hx => (Finset.mem_filter.mp hx).2
      _ ≤ f r := hkidsEq ▸ hc r hr

/-- Nodes of which none is above another have no more than a node above them all. -/
theorem sum_antichain_le (hc : Covered parent nodes f) (h : Ranked parent nodes rank) {r : α}
    (hr : r ∈ nodes) {S : Finset α} (hS : ∀ x ∈ S, x ∈ nodes ∧ Above parent x r)
    (hanti : IsAntichain (Above parent) (S : Set α)) : ∑ x ∈ S, f x ≤ f r := by
  -- by induction on the number of ranks below the node
  obtain ⟨k, hk⟩ : ∃ k, ∀ x ∈ nodes, rank x ≤ rank r + k :=
    ⟨nodes.sup rank, fun x hx => (Finset.le_sup hx).trans (Nat.le_add_left _ _)⟩
  induction k generalizing r S with
  | zero =>
    refine hc.sum_le_of_children h hr hS hanti fun c hcn hcr => ?_
    have := h.lt hcn hcr
    have := hk c hcn
    omega
  | succ k ih =>
    refine hc.sum_le_of_children h hr hS hanti fun c hcn hcr T hT hTc => ?_
    have hlt := h.lt hcn hcr
    refine ih hcn (fun x hx => ⟨(hS x (hT hx)).1, hTc x hx⟩) (hanti.subset hT) fun x hx => ?_
    have := hk x hx
    omega

end Covered

end Sums

end Rollup
