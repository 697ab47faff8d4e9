import Mathlib.Logic.Function.Basic

/-!
# Tables with replaced entries

Several owners each replace one entry of a shared table and later put the entry back that they
found. Every owner has a slot of its own. A table *overlays* a base table by a family of
replacements if the slot of each owner holds its replacement, or the base entry while it has none,
and the rest of the table is the base table.

## Main definitions

* `Overlays` — a table overlays a base table by the replacements of the owners.

## Main results

* `Overlays.install`, `Overlays.remove` — an owner replaces its entry and puts the base entry back.
* `Overlays.eq_base` — a table without replacements is the base table.
-/

variable {κ ι v : Type*} {slot : κ → ι} {base t : ι → v} {patch : κ → Option v}

/-- The table `t` is the table `base` with the entries of `patch` in the slots of their owners. -/
structure Overlays (slot : κ → ι) (base : ι → v) (patch : κ → Option v) (t : ι → v) : Prop where
  at_slot : ∀ k, t (slot k) = (patch k).getD (base (slot k))
  off_slots : ∀ i, (∀ k, slot k ≠ i) → t i = base i

namespace Overlays

theorem base_none (slot : κ → ι) (base : ι → v) : Overlays slot base (fun _ => none) base where
  at_slot _ := rfl
  off_slots _ _ := rfl

theorem at_slot_of_none (h : Overlays slot base patch t) {k : κ} (hk : patch k = none) :
    t (slot k) = base (slot k) := by
  rw [h.at_slot, hk, Option.getD_none]

/-- Without replacements the table is the base table. -/
theorem eq_base (h : Overlays slot base patch t) (hp : ∀ k, patch k = none) : t = base := by
  funext i
  by_cases hi : ∃ k, slot k = i
  · obtain ⟨k, rfl⟩ := hi
    exact h.at_slot_of_none (hp k)
  · exact h.off_slots i fun k hk => hi ⟨k, hk⟩

variable [DecidableEq κ] [DecidableEq ι]

/-- Writing an entry into the slot of an owner, along with its replacement. -/
private theorem update (h : Overlays slot base patch t) (hslot : Function.Injective slot) (k : κ)
    {o : Option v} {x : v} (hx : x = o.getD (base (slot k))) :
    Overlays slot base (Function.update patch k o) (Function.update t (slot k) x) where
  at_slot j := by
    by_cases hj : j = k
    · subst hj
      rw [Function.update_self, Function.update_self, hx]
    · rw [Function.update_of_ne hj, Function.update_of_ne fun he => hj (hslot he)]
      exact h.at_slot j
  off_slots i hi := by
    rw [Function.update_of_ne (hi k).symm]
    exact h.off_slots i hi

/-- An owner replaces its entry. -/
theorem install (h : Overlays slot base patch t) (hslot : Function.Injective slot) (k : κ) (x : v) :
    Overlays slot base (Function.update patch k (some x)) (Function.update t (slot k) x) :=
  h.update hslot k rfl

/-- An owner puts the base entry back. -/
theorem remove (h : Overlays slot base patch t) (hslot : Function.Injective slot) (k : κ) :
    Overlays slot base (Function.update patch k none)
      (Function.update t (slot k) (base (slot k))) :=
  h.update hslot k rfl

end Overlays
