import Mathlib.Data.Set.Insert
import OsProject.Lib.ListHead

/-!
# Several intrusive lists

The nodes of a memory are on several lists at once, which have no node in common. Adding a node to
one of them, deleting a node of one or moving a node from one to another acts on the lists as on
lists of items, and leaves the others alone.

## Main definitions

* `Intrusive.Rings` — disjoint rings, indexed by the set `I`.

## Main results

* `Intrusive.Rings.listAdd`, `Intrusive.Rings.listAddTail`, `Intrusive.Rings.listDelInit`, `Intrusive.Rings.listMoveTail`.
* `Intrusive.Rings.initListHead` — the list of a new head.
* `Intrusive.Rings.listMoveTail_next` — nodes that are on no list stay as they are.
-/

namespace Intrusive

variable {ν ι : Type*}

section Other

variable [DecidableEq ν] {L : Links ν} {h h' x : ν} {l l' l₁ l₂ : List ν}

/-- Adding a node to a ring does not touch the other nodes. -/
theorem Ring.listAddTail_of_notMem (r : Ring L h l) {y : ν} (hy : y ∉ h :: l) (hyx : y ≠ x) :
    (Intrusive.listAddTail L x h).next y = L.next y ∧
      (Intrusive.listAddTail L x h).prev y = L.prev y := by
  have hlast : L.prev h ∈ h :: l := by
    rw [r.prev_head]
    exact List.getLastD_mem_cons
  have hylast : y ≠ L.prev h := fun he => hy (he ▸ hlast)
  have hyh : y ≠ h := fun he => hy (he ▸ List.mem_cons_self)
  simp only [Intrusive.listAddTail, Intrusive.listAddBetween, Function.update_of_ne hylast,
    Function.update_of_ne hyx, Function.update_of_ne hyh, and_self]

/-- Dropping a node of a ring does not touch the other nodes. -/
theorem Ring.listDelEntry_of_notMem (r : Ring L h (l₁ ++ x :: l₂)) {y : ν}
    (hy : y ∉ h :: (l₁ ++ x :: l₂)) :
    (Intrusive.listDelEntry L x).next y = L.next y ∧
      (Intrusive.listDelEntry L x).prev y = L.prev y := by
  have hbefore : L.prev x ∈ h :: (l₁ ++ x :: l₂) := by
    rw [r.prev_eq]
    have hmem : l₁.getLastD h ∈ h :: l₁ := List.getLastD_mem_cons
    rcases List.mem_cons.mp hmem with he | hm
    · rw [he]
      exact List.mem_cons_self
    · exact List.mem_cons_of_mem _ (List.mem_append_left _ hm)
  have hafter : L.next x ∈ h :: (l₁ ++ x :: l₂) := by
    rw [r.next_eq]
    cases l₂ with
    | nil => exact List.mem_cons_self
    | cons z l₂ => simp
  have hyb : y ≠ L.prev x := fun he => hy (he ▸ hbefore)
  have hya : y ≠ L.next x := fun he => hy (he ▸ hafter)
  simp only [Intrusive.listDelEntry, listDelBetween, Function.update_of_ne hyb,
    Function.update_of_ne hya, and_self]

/-- Adding a node to a ring does not touch a disjoint ring. -/
theorem Ring.listAddTail_other (r : Ring L h l) (r' : Ring L h' l')
    (hdisj : ∀ y ∈ h' :: l', y ∉ h :: l) (hx : x ∉ h' :: l') :
    Ring (Intrusive.listAddTail L x h) h' l' :=
  r'.congr (fun y hy => (r.listAddTail_of_notMem (hdisj y hy) (ne_of_mem_of_not_mem hy hx)).1)
    fun y hy => (r.listAddTail_of_notMem (hdisj y hy) (ne_of_mem_of_not_mem hy hx)).2

/-- Adding a node at the head of a ring does not touch a disjoint ring. -/
theorem Ring.listAdd_other (r : Ring L h l) (r' : Ring L h' l')
    (hdisj : ∀ y ∈ h' :: l', y ∉ h :: l) (hx : x ∉ h' :: l') :
    Ring (Intrusive.listAdd L x h) h' l' := by
  have hfirst : L.next h ∈ h :: l := by
    rw [r.next_head]
    cases l with
    | nil => exact List.mem_cons_self
    | cons z l => simp
  have hother : ∀ y ∈ h' :: l', (Intrusive.listAdd L x h).next y = L.next y ∧
      (Intrusive.listAdd L x h).prev y = L.prev y := fun y hy => by
    have hyx : y ≠ x := ne_of_mem_of_not_mem hy hx
    have hyf : y ≠ L.next h := fun he => hdisj y hy (he ▸ hfirst)
    have hyh : y ≠ h := fun he => hdisj y hy (he ▸ List.mem_cons_self)
    simp only [Intrusive.listAdd, Intrusive.listAddBetween, Function.update_of_ne hyx,
      Function.update_of_ne hyf, Function.update_of_ne hyh, and_self]
  exact r'.congr (fun y hy => (hother y hy).1) fun y hy => (hother y hy).2

/-- Dropping a node of a ring does not touch a disjoint ring. -/
theorem Ring.listDelEntry_other (r : Ring L h (l₁ ++ x :: l₂)) (r' : Ring L h' l')
    (hdisj : ∀ y ∈ h' :: l', y ∉ h :: (l₁ ++ x :: l₂)) :
    Ring (Intrusive.listDelEntry L x) h' l' :=
  r'.congr (fun y hy => (r.listDelEntry_of_notMem (hdisj y hy)).1)
    fun y hy => (r.listDelEntry_of_notMem (hdisj y hy)).2

end Other

/-- The items of the lists are on rings that have no node in common. -/
structure Rings (L : Links ν) (I : Set ι) (head : ι → ν) (items : ι → List ν) : Prop where
  ring : ∀ i ∈ I, Ring L (head i) (items i)
  disjoint : ∀ i ∈ I, ∀ j ∈ I, i ≠ j → ∀ y ∈ head i :: items i, y ∉ head j :: items j

namespace Rings

variable {L : Links ν} {I : Set ι} {head : ι → ν} {items : ι → List ν} {i j : ι} {x : ν}

theorem nodup (r : Rings L I head items) (hi : i ∈ I) : (items i).Nodup := (r.ring i hi).nodup_tail

/-- A node that is on the list of `i` is on no other list. -/
theorem notMem_other (r : Rings L I head items) (hi : i ∈ I) (hj : j ∈ I) (hne : j ≠ i)
    (hx : x ∈ items i) : x ∉ head j :: items j :=
  r.disjoint i hi j hj hne.symm x (List.mem_cons_of_mem _ hx)

theorem congr (r : Rings L I head items) {items' : ι → List ν}
    (h : ∀ i ∈ I, items' i = items i) : Rings L I head items' :=
  ⟨fun i hi => h i hi ▸ r.ring i hi,
    fun i hi j hj => h i hi ▸ h j hj ▸ r.disjoint i hi j hj⟩

/-- Lists may be left out. -/
theorem mono (r : Rings L I head items) {J : Set ι} (hJ : J ⊆ I) : Rings L J head items :=
  ⟨fun i hi => r.ring i (hJ hi), fun i hi j hj => r.disjoint i (hJ hi) j (hJ hj)⟩

variable [DecidableEq ι]

/-- The lists, when the list of `i` gets other items that were on no other list. -/
private theorem disjoint_update (r : Rings L I head items) (hi : i ∈ I) {l : List ν}
    (hl : ∀ y ∈ l, y ∈ items i ∨ ∀ j ∈ I, j ≠ i → y ∉ head j :: items j) :
    ∀ j ∈ I, ∀ k ∈ I, j ≠ k → ∀ y ∈ head j :: Function.update items i l j,
      y ∉ head k :: Function.update items i l k := by
  have hnew : ∀ k ∈ I, k ≠ i → ∀ y ∈ head i :: l, y ∉ head k :: items k := by
    intro k hk hki y hy
    rcases List.mem_cons.mp hy with rfl | hy
    · exact r.disjoint i hi k hk hki.symm _ List.mem_cons_self
    · rcases hl y hy with hy | hy
      · exact r.notMem_other hi hk hki hy
      · exact hy k hk hki
  intro j hj k hk hjk y hyj hyk
  by_cases hji : j = i
  · subst hji
    rw [Function.update_self] at hyj
    rw [Function.update_of_ne hjk.symm] at hyk
    exact hnew k hk hjk.symm y hyj hyk
  · rw [Function.update_of_ne hji] at hyj
    by_cases hki : k = i
    · subst hki
      rw [Function.update_self] at hyk
      exact hnew j hj hji y hyk hyj
    · rw [Function.update_of_ne hki] at hyk
      exact r.disjoint j hj k hk hjk y hyj hyk

variable [DecidableEq ν]

/-- Add a node that is on no list to the tail of one. -/
theorem listAddTail (r : Rings L I head items) (hi : i ∈ I) (hx : ∀ j ∈ I, x ∉ head j :: items j) :
    Rings (Intrusive.listAddTail L x (head i)) I head
      (Function.update items i (items i ++ [x])) where
  ring j hj := by
    by_cases hji : j = i
    · subst hji
      rw [Function.update_self]
      exact (r.ring j hj).listAddTail (hx j hj)
    · rw [Function.update_of_ne hji]
      exact (r.ring i hi).listAddTail_other (r.ring j hj) (r.disjoint j hj i hi hji) (hx j hj)
  disjoint := by
    refine r.disjoint_update hi fun y hy => ?_
    rcases List.mem_append.mp hy with hy | hy
    · exact .inl hy
    · rw [List.mem_singleton.mp hy]
      exact .inr fun j hj _ => hx j hj

/-- Add a node that is on no list to the head of one. -/
theorem listAdd (r : Rings L I head items) (hi : i ∈ I) (hx : ∀ j ∈ I, x ∉ head j :: items j) :
    Rings (Intrusive.listAdd L x (head i)) I head (Function.update items i (x :: items i)) where
  ring j hj := by
    by_cases hji : j = i
    · subst hji
      rw [Function.update_self]
      exact (r.ring j hj).listAdd (hx j hj)
    · rw [Function.update_of_ne hji]
      exact (r.ring i hi).listAdd_other (r.ring j hj) (r.disjoint j hj i hi hji) (hx j hj)
  disjoint := by
    refine r.disjoint_update hi fun y hy => ?_
    rcases List.mem_cons.mp hy with rfl | hy
    · exact .inr fun j hj _ => hx j hj
    · exact .inl hy

/-- Drop a node of the list of `i`. -/
theorem listDelEntry (r : Rings L I head items) (hi : i ∈ I) (hx : x ∈ items i) :
    Rings (Intrusive.listDelEntry L x) I head
      (Function.update items i ((items i).erase x)) where
  ring j hj := by
    obtain ⟨l₁, l₂, hnot, hitems, herase⟩ := List.exists_erase_eq hx
    have hri := r.ring i hi
    rw [hitems] at hri
    by_cases hji : j = i
    · subst hji
      rw [Function.update_self, herase]
      exact hri.listDelEntry
    · rw [Function.update_of_ne hji]
      refine hri.listDelEntry_other (r.ring j hj) ?_
      rw [← hitems]
      exact r.disjoint j hj i hi hji
  disjoint := r.disjoint_update hi fun y hy => .inl (List.mem_of_mem_erase hy)

/-- A node that was dropped is on no list. -/
theorem notMem_of_listDelEntry (r : Rings L I head items) (hi : i ∈ I) (hx : x ∈ items i)
    (hj : j ∈ I) : x ∉ head j :: Function.update items i ((items i).erase x) j := by
  by_cases hji : j = i
  · subst hji
    rw [Function.update_self, List.mem_cons, not_or]
    exact ⟨(r.ring j hj).ne_head hx, fun hm => (r.nodup hj).not_mem_erase hm⟩
  · rw [Function.update_of_ne hji]
    exact r.notMem_other hi hj hji hx

omit [DecidableEq ι] in
/-- Linking a node that is on no list to itself does not touch the lists. -/
theorem initListHead_other (r : Rings L I head items) (hx : ∀ j ∈ I, x ∉ head j :: items j) :
    Rings (Intrusive.initListHead L x) I head items where
  ring j hj := (r.ring j hj).initListHead (hx j hj)
  disjoint := r.disjoint

/-- Delete a node of the list of `i`. -/
theorem listDelInit (r : Rings L I head items) (hi : i ∈ I) (hx : x ∈ items i) :
    Rings (Intrusive.listDelInit L x) I head (Function.update items i ((items i).erase x)) :=
  (r.listDelEntry hi hx).initListHead_other fun _ hj => r.notMem_of_listDelEntry hi hx hj

/-- Move a node of the list of `i` to the tail of the list of `j`. -/
theorem listMoveTail (r : Rings L I head items) (hi : i ∈ I) (hj : j ∈ I) (hx : x ∈ items i)
    (hij : i ≠ j) :
    Rings (Intrusive.listMoveTail L x (head j)) I head
      (Function.update (Function.update items i ((items i).erase x)) j (items j ++ [x])) := by
  have hdel := r.listDelEntry hi hx
  have hadd := hdel.listAddTail hj fun _ hk => r.notMem_of_listDelEntry hi hx hk
  rwa [Function.update_of_ne hij.symm] at hadd

/-! Nodes on no list. -/

omit [DecidableEq ι] in
theorem listAddTail_next (r : Rings L I head items) (hi : i ∈ I) {y : ν}
    (hy : ∀ j ∈ I, y ∉ head j :: items j) (hyx : y ≠ x) :
    (Intrusive.listAddTail L x (head i)).next y = L.next y :=
  ((r.ring i hi).listAddTail_of_notMem (hy i hi) hyx).1

omit [DecidableEq ι] in
theorem listDelEntry_next (r : Rings L I head items) (hi : i ∈ I) (hx : x ∈ items i) {y : ν}
    (hy : ∀ j ∈ I, y ∉ head j :: items j) : (Intrusive.listDelEntry L x).next y = L.next y := by
  obtain ⟨l₁, l₂, hitems⟩ := List.append_of_mem hx
  have hri := r.ring i hi
  have hyi := hy i hi
  rw [hitems] at hri hyi
  exact (hri.listDelEntry_of_notMem hyi).1

omit [DecidableEq ι] in
theorem listDelInit_next (r : Rings L I head items) (hi : i ∈ I) (hx : x ∈ items i) {y : ν}
    (hy : ∀ j ∈ I, y ∉ head j :: items j) : (Intrusive.listDelInit L x).next y = L.next y := by
  have hyx : y ≠ x := fun he => hy i hi (he ▸ List.mem_cons_of_mem _ hx)
  rw [Intrusive.listDelInit, initListHead_next_of_ne hyx, r.listDelEntry_next hi hx hy]

theorem listMoveTail_next (r : Rings L I head items) (hi : i ∈ I) (hj : j ∈ I) (hx : x ∈ items i)
    {y : ν} (hy : ∀ j ∈ I, y ∉ head j :: items j) :
    (Intrusive.listMoveTail L x (head j)).next y = L.next y := by
  have hyx : y ≠ x := fun he => hy i hi (he ▸ List.mem_cons_of_mem _ hx)
  have hydel : ∀ k ∈ I, y ∉ head k :: Function.update items i ((items i).erase x) k := by
    intro k hk hm
    by_cases hki : k = i
    · rw [hki, Function.update_self, List.mem_cons] at hm
      exact hy i hi (List.mem_cons.mpr (hm.imp_right List.mem_of_mem_erase))
    · rw [Function.update_of_ne hki] at hm
      exact hy k hk hm
  rw [Intrusive.listMoveTail, (r.listDelEntry hi hx).listAddTail_next hj hydel hyx,
    r.listDelEntry_next hi hx hy]

omit [DecidableEq ι] in
/-- A new head has the empty list. -/
theorem initListHead (r : Rings L I head items) (hi : i ∉ I) (hitems : items i = [])
    (hx : ∀ j ∈ I, head i ∉ head j :: items j) :
    Rings (Intrusive.initListHead L (head i)) (insert i I) head items := by
  have hother := r.initListHead_other hx
  refine ⟨fun j hj => ?_, fun j hj k hk hjk y hyj hyk => ?_⟩
  · rcases Set.mem_insert_iff.mp hj with rfl | hjI
    · rw [hitems]
      exact Ring.init L _
    · exact hother.ring j hjI
  · rcases Set.mem_insert_iff.mp hj with rfl | hjI
    · rcases Set.mem_insert_iff.mp hk with rfl | hkI
      · exact hjk rfl
      · rw [hitems, List.mem_singleton] at hyj
        exact hx k hkI (hyj ▸ hyk)
    · rcases Set.mem_insert_iff.mp hk with rfl | hkI
      · rw [hitems, List.mem_singleton] at hyk
        exact hx j hjI (hyk ▸ hyj)
      · exact r.disjoint j hjI k hkI hjk y hyj hyk

end Rings

end Intrusive
