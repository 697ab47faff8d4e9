import Mathlib.Data.List.Basic
import Mathlib.Logic.Function.Basic
import Mathlib.Logic.Relation

/-!
# Moves on an array of queues

A family of queues is changed by moves: an entry is taken off some of the queues, put in front of a
queue or at its end, or moved to the end of its queue. The entries that are not moved keep their
order, and the first entry of a queue stays so unless another one is put in front of it.

## Main definitions

* `PrioQueues.Move`, `PrioQueues.Move.apply`.
* `PrioQueues.Moves` — any number of moves that meet a condition.

## Main results

* `PrioQueues.Moves.filter_eq` — entries that are not moved keep their order.
* `PrioQueues.Moves.head?_eq` — the first entry of a queue stays the first.
* `PrioQueues.Moves.foldl`, `PrioQueues.Moves.foldr` — the moves of a loop.
-/

namespace PrioQueues

variable {ι α : Type*}

inductive Move (ι α : Type*)
  /-- The entry is taken off the queues of a set. -/
  | off (p : α) (on : ι → Bool)
  | put (p : α) (i : ι) (head : Bool)
  | requeue (p : α) (i : ι)

/-- The entry that is moved. -/
def Move.entry : Move ι α → α
  | .off p _ => p
  | .put p _ _ => p
  | .requeue p _ => p

variable [DecidableEq ι] [DecidableEq α]

def Move.apply (q : ι → List α) : Move ι α → ι → List α
  | .off p on => fun i => if on i then (q i).erase p else q i
  | .put p i head => Function.update q i (if head then p :: q i else q i ++ [p])
  | .requeue p i => Function.update q i ((q i).erase p ++ [p])

/-- Some moves, each of which meets the condition. -/
def Moves (ok : Move ι α → Prop) : (ι → List α) → (ι → List α) → Prop :=
  Relation.ReflTransGen fun q q' => ∃ m, ok m ∧ q' = m.apply q

variable {ok ok' : Move ι α → Prop} {q q' q'' : ι → List α} {A : α → Bool} {m : Move ι α} {p : α}
  {i : ι}

/-- Taking an entry off a list does not change the order of others. -/
theorem filter_erase_of_eq_false (hp : A p = false) (l : List α) :
    (l.erase p).filter A = l.filter A := by
  rw [← List.erase_filter, List.erase_of_not_mem]
  intro hm
  rw [(List.mem_filter.mp hm).2] at hp
  cases hp

theorem Move.filter_apply (hA : A m.entry = false) (i : ι) :
    (m.apply q i).filter A = (q i).filter A := by
  cases m with
  | off p on =>
    simp only [Move.apply]
    split
    · exact filter_erase_of_eq_false hA _
    · rfl
  | put p j head =>
    have hp : A p = false := hA
    by_cases hi : i = j
    · subst hi
      cases head <;> simp [Move.apply, hp]
    · simp [Move.apply, hi]
  | requeue p j =>
    have hp : A p = false := hA
    by_cases hi : i = j
    · subst hi
      simp [Move.apply, hp, filter_erase_of_eq_false]
    · simp [Move.apply, hi]

/-- The first entry of a queue stays the first, unless it is moved or another one is put in front. -/
theorem Move.head?_apply (hp : m.entry ≠ p) (hput : ∀ t, m ≠ .put t i true)
    (hq : (q i).head? = some p) : (m.apply q i).head? = some p := by
  obtain ⟨l, hl⟩ := List.head?_eq_some_iff.mp hq
  have herase : ∀ t, t ≠ p → (q i).erase t = p :: l.erase t := fun t ht => by
    rw [hl, List.erase_cons_tail (by simpa using ht.symm)]
  cases m with
  | off t on =>
    simp only [Move.apply]
    split
    · rw [herase t hp, List.head?_cons]
    · exact hq
  | put t j head =>
    by_cases hi : i = j
    · subst hi
      cases head with
      | true => exact absurd rfl (hput t)
      | false => simp [Move.apply, hl]
    · simpa [Move.apply, hi] using hq
  | requeue t j =>
    by_cases hi : i = j
    · subst hi
      simp [Move.apply, herase t hp]
    · simpa [Move.apply, hi] using hq

namespace Moves

theorem refl (ok : Move ι α → Prop) (q : ι → List α) : Moves ok q q := Relation.ReflTransGen.refl

theorem single (hm : ok m) : Moves ok q (m.apply q) := Relation.ReflTransGen.single ⟨m, hm, rfl⟩

theorem of_eq (h : q' = q) : Moves ok q q' := h ▸ refl ok q'

theorem trans (h : Moves ok q q') (h' : Moves ok q' q'') : Moves ok q q'' :=
  Relation.ReflTransGen.trans h h'

theorem mono (h : Moves ok q q') (hok : ∀ m, ok m → ok' m) : Moves ok' q q' :=
  Relation.ReflTransGen.mono (fun _ _ ⟨m, hm, he⟩ => ⟨m, hok m hm, he⟩) _ _ h

/-- Entries that are not moved keep their order. -/
theorem filter_eq (h : Moves ok q q') (hA : ∀ m, ok m → A m.entry = false) (i : ι) :
    (q' i).filter A = (q i).filter A := by
  induction h with
  | refl => rfl
  | tail _ hstep ih =>
    obtain ⟨m, hm, rfl⟩ := hstep
    rw [Move.filter_apply (hA m hm), ih]

/-- The first entry of a queue stays the first, unless it is moved or another one is put in
front. -/
theorem head?_eq (h : Moves ok q q') (hp : ∀ m, ok m → m.entry ≠ p)
    (hput : ∀ t, ¬ok (.put t i true)) (hq : (q i).head? = some p) : (q' i).head? = some p := by
  induction h with
  | refl => exact hq
  | tail _ hstep ih =>
    obtain ⟨m, hm, rfl⟩ := hstep
    exact Move.head?_apply (hp m hm) (fun t he => hput t (he ▸ hm)) ih

section Loops

variable {β γ : Type*} {v : β → ι → List α} {l : List γ}

/-- A loop moves what its rounds move. -/
theorem foldl {f : β → γ → β} (hf : ∀ b, ∀ c ∈ l, Moves ok (v b) (v (f b c))) (b : β) :
    Moves ok (v b) (v (l.foldl f b)) := by
  induction l generalizing b with
  | nil => exact refl ok _
  | cons c l ih =>
    have hrest : ∀ b, ∀ c ∈ l, Moves ok (v b) (v (f b c)) := fun b c hc =>
      hf b c (List.mem_cons_of_mem _ hc)
    exact (hf b c List.mem_cons_self).trans (ih hrest (f b c))

theorem foldr {f : γ → β → β} (hf : ∀ b, ∀ c ∈ l, Moves ok (v b) (v (f c b))) (b : β) :
    Moves ok (v b) (v (l.foldr f b)) := by
  induction l with
  | nil => exact refl ok _
  | cons c l ih =>
    have hrest : ∀ b, ∀ c ∈ l, Moves ok (v b) (v (f c b)) := fun b c hc =>
      hf b c (List.mem_cons_of_mem _ hc)
    exact (ih hrest).trans (hf _ c List.mem_cons_self)

end Loops

end Moves

end PrioQueues
