import Mathlib.Data.List.Basic
import Mathlib.Order.Lattice

/-!
# Lists of disjoint ranges

Each item of a list covers a half-open range of a linear order; the list is *ordered* if the ranges
are not empty and each ends before the next ones start. Then an item is determined by any point it
covers, and searches for the first or the last item on one side of a point say which points are
covered.

## Main definitions

* `Ranges.Covers`, `Ranges.Ordered`.
* `Ranges.itemAt` — the item that covers a point.
* `Ranges.next`, `Ranges.prev` — the neighbours of an item.
* `Ranges.replace` — parts in the place of an item.

## Main results

* `Ranges.Ordered.eq_of_covers` — at most one item covers a point.
* `Ranges.Ordered.not_covers_of_lt_lo` — what the first item that ends after a point says about it.
* `Ranges.Ordered.not_covers_hi` — the end of an item is covered by the next item or not at all.
* `Ranges.Ordered.prev_of_next` — the item before the next one.
* `Ranges.Ordered.replace` — a list stays ordered when an item is split into parts.
-/

namespace Ranges

variable {σ α : Type*} [LinearOrder α] (lo hi : σ → α)

/-- The point is in the range of the item. -/
def Covers (s : σ) (a : α) : Prop := lo s ≤ a ∧ a < hi s

instance (s : σ) (a : α) : Decidable (Covers lo hi s a) := inferInstanceAs (Decidable (_ ∧ _))

/-- The ranges are not empty, and each ends before the next ones start. -/
def Ordered (l : List σ) : Prop :=
  (∀ s ∈ l, lo s < hi s) ∧ l.Pairwise fun s t => hi s ≤ lo t

/-- The item that covers the point. -/
def itemAt (l : List σ) (a : α) : Option σ := l.find? fun s => Covers lo hi s a

/-- The first item that starts at the end of `s` or later. -/
def next (l : List σ) (s : σ) : Option σ := l.find? fun t => hi s ≤ lo t

/-- The last item that ends at the start of `s` or earlier. -/
def prev (l : List σ) (s : σ) : Option σ := l.reverse.find? fun t => hi t ≤ lo s

variable {lo hi} {l : List σ} {s t : σ} {a : α}

theorem mem_of_next (h : next lo hi l s = some t) : t ∈ l := List.mem_of_find?_eq_some h

theorem le_of_next (h : next lo hi l s = some t) : hi s ≤ lo t := by
  simpa using List.find?_some h

namespace Ordered

variable (h : Ordered lo hi l)
include h

theorem lo_lt_hi (hs : s ∈ l) : lo s < hi s := h.1 s hs

/-- Two items of the list are one, or one of them is after the other. -/
theorem trichotomy (hs : s ∈ l) (ht : t ∈ l) : s = t ∨ hi s ≤ lo t ∨ hi t ≤ lo s := by
  obtain ⟨-, hpair⟩ := h
  induction l with
  | nil => simp at hs
  | cons u l ih =>
    rw [List.pairwise_cons] at hpair
    rcases List.mem_cons.mp hs with rfl | hs'
    · rcases List.mem_cons.mp ht with rfl | ht'
      · exact .inl rfl
      · exact .inr (.inl (hpair.1 t ht'))
    · rcases List.mem_cons.mp ht with rfl | ht'
      · exact .inr (.inr (hpair.1 s hs'))
      · exact ih hs' ht' hpair.2

/-- At most one item covers a point. -/
theorem eq_of_covers (hs : s ∈ l) (ht : t ∈ l) (hsa : Covers lo hi s a) (hta : Covers lo hi t a) :
    s = t := by
  rcases h.trichotomy hs ht with heq | hst | hts
  · exact heq
  · exact absurd (hst.trans hta.1) (not_le_of_gt hsa.2)
  · exact absurd (hts.trans hsa.1) (not_le_of_gt hta.2)

theorem itemAt_eq_some_iff : itemAt lo hi l a = some s ↔ s ∈ l ∧ Covers lo hi s a := by
  constructor
  · intro hs
    exact ⟨List.mem_of_find?_eq_some hs, by simpa using List.find?_some hs⟩
  · rintro ⟨hs, hsa⟩
    cases ht : itemAt lo hi l a with
    | none => exact absurd hsa (by simpa using List.find?_eq_none.mp ht s hs)
    | some t =>
      have hta : Covers lo hi t a := by simpa using List.find?_some ht
      rw [h.eq_of_covers (List.mem_of_find?_eq_some ht) hs hta hsa]

omit h in
theorem itemAt_eq_none_iff : itemAt lo hi l a = none ↔ ∀ s ∈ l, ¬Covers lo hi s a := by
  simp [itemAt]

/-- The items with a property start after the first one that has it. -/
theorem eq_or_le_of_find? {p : σ → Bool} (hs : l.find? p = some s) (ht : t ∈ l) (hp : p t) :
    t = s ∨ hi s ≤ lo t := by
  obtain ⟨-, as, bs, rfl, has⟩ := List.find?_eq_some_iff_append.mp hs
  rcases List.mem_append.mp ht with hta | htb
  · exact absurd hp (by simpa using has t hta)
  · rcases List.mem_cons.mp htb with rfl | htb
    · exact .inl rfl
    · exact .inr ((List.pairwise_cons.mp (List.pairwise_append.mp h.2).2.1).1 t htb)

/-- The items with a property end before the last one that has it. -/
theorem eq_or_le_of_find?_reverse {p : σ → Bool} (hs : l.reverse.find? p = some s) (ht : t ∈ l)
    (hp : p t) : t = s ∨ hi t ≤ lo s := by
  obtain ⟨-, as, bs, hrev, has⟩ := List.find?_eq_some_iff_append.mp hs
  have hpair := List.pairwise_reverse.mpr h.2
  rw [hrev] at hpair
  rcases List.mem_append.mp (hrev ▸ List.mem_reverse.mpr ht) with hta | htb
  · exact absurd hp (by simpa using has t hta)
  · rcases List.mem_cons.mp htb with rfl | htb
    · exact .inl rfl
    · exact .inr ((List.pairwise_cons.mp (List.pairwise_append.mp hpair).2.1).1 t htb)

/-- If the first item that ends after a point starts after it as well, no item covers it. -/
theorem not_covers_of_lt_lo (hs : l.find? (fun s => a < hi s) = some s) (ha : a < lo s)
    (ht : t ∈ l) : ¬Covers lo hi t a := by
  rintro ⟨hlo, hhi⟩
  rcases h.eq_or_le_of_find? hs ht (by simpa using hhi) with rfl | hst
  · exact absurd hlo (not_le_of_gt ha)
  · have hsl := h.lo_lt_hi (List.mem_of_find?_eq_some hs)
    exact absurd hlo (not_le_of_gt (ha.trans (hsl.trans_le hst)))

omit h in
/-- If no item ends after a point, no item covers it. -/
theorem not_covers_of_find?_eq_none (hn : l.find? (fun s => a < hi s) = none) (ht : t ∈ l) :
    ¬Covers lo hi t a := by
  rintro ⟨-, hhi⟩
  exact absurd hhi (by simpa using List.find?_eq_none.mp hn t ht)

/-- Nothing covers the end of an item if the next item starts later. -/
theorem not_covers_hi (hs : s ∈ l) (hnext : ∀ t, next lo hi l s = some t → lo t ≠ hi s)
    (ht : t ∈ l) : ¬Covers lo hi t (hi s) := by
  rintro ⟨hlo, hhi⟩
  have hst : hi s ≤ lo t := by
    rcases h.trichotomy hs ht with rfl | hst | hts
    · exact absurd hhi (lt_irrefl _)
    · exact hst
    · exact absurd (hhi.trans_le hts) (not_lt_of_ge (h.lo_lt_hi hs).le)
  cases hu : next lo hi l s with
  | none => exact absurd hst (by simpa using List.find?_eq_none.mp hu t ht)
  | some u =>
    rcases h.eq_or_le_of_find? hu ht (by simpa using hst) with rfl | hut
    · exact hnext t hu (le_antisymm hlo hst)
    · have hlu := h.lo_lt_hi (mem_of_next hu)
      exact absurd (hlu.trans_le (hut.trans hlo)) (not_lt_of_ge (le_of_next hu))

/-- The item after `s` has `s` before it. -/
theorem prev_of_next (hs : s ∈ l) (hnext : next lo hi l s = some t) : prev lo hi l t = some s := by
  have hst := le_of_next hnext
  cases hq : prev lo hi l t with
  | none =>
    exact absurd hst (by simpa using List.find?_eq_none.mp hq s (List.mem_reverse.mpr hs))
  | some q =>
    have hql : q ∈ l := List.mem_reverse.mp (List.mem_of_find?_eq_some hq)
    have hqt : hi q ≤ lo t := by simpa using List.find?_some hq
    rcases h.eq_or_le_of_find?_reverse hq hs (by simpa using hst) with rfl | hsq
    · rfl
    · -- `q` starts after `s`, so it is the item after `s` or starts later
      exfalso
      have hlq := h.lo_lt_hi hql
      rcases h.eq_or_le_of_find? hnext hql (by simpa using hsq) with rfl | htq
      · exact absurd hlq (not_lt_of_ge hqt)
      · have hlt := h.lo_lt_hi (mem_of_next hnext)
        exact absurd (hlt.trans_le (htq.trans hlq.le)) (not_lt_of_ge hqt)

end Ordered

/-! ### Parts of an item -/

section Replace

variable [DecidableEq σ] {parts : List σ}

/-- The list with parts in the place of the item `s`. -/
def replace (l : List σ) (s : σ) (parts : List σ) : List σ :=
  l.flatMap fun t => if t = s then parts else [t]

theorem mem_replace (hs : s ∈ l) : t ∈ replace l s parts ↔ t ∈ parts ∨ t ∈ l ∧ t ≠ s := by
  rw [replace, List.mem_flatMap]
  constructor
  · rintro ⟨u, hu, ht⟩
    split at ht
    · exact .inl ht
    · next hus =>
      obtain rfl := List.mem_singleton.mp ht
      exact .inr ⟨hu, hus⟩
  · rintro (ht | ⟨ht, hts⟩)
    · exact ⟨s, hs, by rwa [if_pos rfl]⟩
    · exact ⟨t, ht, by rw [if_neg hts]; exact List.mem_singleton_self t⟩

theorem Ordered.replace (h : Ordered lo hi l) (hs : s ∈ l) (hparts : Ordered lo hi parts)
    (hwithin : ∀ t ∈ parts, lo s ≤ lo t ∧ hi t ≤ hi s) : Ordered lo hi (replace l s parts) := by
  -- what stands in the place of an item is in its range
  have hplace (t u : σ) (hu : u ∈ if t = s then parts else [t]) : lo t ≤ lo u ∧ hi u ≤ hi t := by
    split at hu
    · next hts => exact hts ▸ hwithin u hu
    · obtain rfl := List.mem_singleton.mp hu
      exact ⟨le_refl _, le_refl _⟩
  refine ⟨fun t ht => ?_, ?_⟩
  · rcases (mem_replace hs).mp ht with ht | ⟨ht, -⟩
    · exact hparts.1 t ht
    · exact h.1 t ht
  · rw [Ranges.replace, List.pairwise_flatMap]
    refine ⟨fun t _ => ?_, h.2.imp fun {t u} htu x hx y hy => ?_⟩
    · split
      · exact hparts.2
      · exact List.pairwise_singleton _ t
    · exact (hplace t x hx).2.trans (htu.trans (hplace u y hy).1)

end Replace

end Ranges
