import Mathlib.Algebra.BigOperators.Group.Finset.Basic
import Mathlib.Data.List.Basic
import Mathlib.Data.List.Count
import Mathlib.Data.List.Induction
import Mathlib.Data.List.Nodup

/-!
# Counting keys in a table with limited room

A sequence of keys is counted online. A key that is in the table has its count raised, a new key gets
a place as long as there is one, and the keys that find no place are dropped. Each entry also holds
where its key was seen last.

## Main definitions

* `OnlineTable.add` — count a key.
* `OnlineTable.table` — the table for a sequence, described by its first keys.

## Main results

* `OnlineTable.add_table` — counting the keys one by one gives this table.
* `OnlineTable.exists_last`, `OnlineTable.count_le_lastSeen` — what the entries say of the sequence.
* `OnlineTable.sum_table` — with room for all keys, sums over the table are sums over the keys.
-/

namespace OnlineTable

open scoped BigOperators

variable {α : Type*}

/-- What a table holds of a key. -/
@[ext]
structure Entry (α : Type*) where
  key : α
  count : ℕ
  /-- One more than the place where the key was seen last. -/
  last : ℕ

variable [DecidableEq α] {room now : ℕ} {k q : α} {ks : List α} {es : List (Entry α)}

omit [DecidableEq α] in
def touch (now : ℕ) (e : Entry α) : Entry α := { e with count := e.count + 1, last := now + 1 }

/-- Raise the count of a key that is in the table. -/
def bump (now : ℕ) (k : α) : List (Entry α) → Option (List (Entry α))
  | [] => none
  | e :: es => if e.key = k then some (touch now e :: es) else (bump now k es).map (e :: ·)

/-- Count a key that is seen at the place `now`. -/
def add (room now : ℕ) (k : α) (es : List (Entry α)) : List (Entry α) :=
  (bump now k es).getD (if es.length < room then es ++ [⟨k, 1, now + 1⟩] else es)

/-- One more than the last place of a key in a sequence, and zero for other keys. -/
def lastSeen (ks : List α) (k : α) : ℕ := ks.length - ks.reverse.idxOf k

def entry (ks : List α) (k : α) : Entry α := ⟨k, ks.count k, lastSeen ks k⟩

/-- The entries of the keys that are seen first. -/
def table (room : ℕ) (ks : List α) : List (Entry α) := (ks.eraseDups.take room).map (entry ks)

/-! ### The last place of a key -/

theorem lastSeen_append_self (ks : List α) (k : α) : lastSeen (ks ++ [k]) k = ks.length + 1 := by
  rw [lastSeen, List.reverse_append, List.reverse_singleton, List.singleton_append,
    List.idxOf_cons_self, List.length_append, List.length_singleton, Nat.sub_zero]

theorem lastSeen_append_of_ne (hq : q ≠ k) (ks : List α) :
    lastSeen (ks ++ [k]) q = lastSeen ks q := by
  rw [lastSeen, lastSeen, List.reverse_append, List.reverse_singleton, List.singleton_append,
    List.idxOf_cons_ne _ (Ne.symm hq), List.length_append, List.length_singleton]
  omega

/-- A key has been seen as often as places have passed, at most. -/
theorem count_le_lastSeen (ks : List α) (q : α) : ks.count q ≤ lastSeen ks q := by
  induction ks using List.reverseRecOn with
  | nil => exact Nat.zero_le _
  | append_singleton ks k ih =>
    by_cases hq : q = k
    · subst hq
      rw [lastSeen_append_self]
      exact Nat.le_trans List.count_le_length (by simp)
    · rw [lastSeen_append_of_ne hq, List.count_append, List.count_singleton, beq_false_of_ne (Ne.symm hq)]
      exact ih

theorem exists_last (hq : q ∈ ks) :
    ∃ i, ks[i]? = some q ∧ (∀ j, i < j → ks[j]? ≠ some q) ∧ lastSeen ks q = i + 1 := by
  induction ks using List.reverseRecOn with
  | nil => cases hq
  | append_singleton ks k ih =>
    by_cases hqk : q = k
    · subst hqk
      refine ⟨ks.length, by simp, fun j hj => ?_, lastSeen_append_self ks q⟩
      rw [List.getElem?_eq_none (by simp; omega)]
      simp
    · have hmem : q ∈ ks := (List.mem_append.mp hq).resolve_right (by simpa using hqk)
      obtain ⟨i, hi, hlast, heq⟩ := ih hmem
      have hlt : i < ks.length := (List.getElem?_eq_some_iff.mp hi).1
      refine ⟨i, by rw [List.getElem?_append_left hlt, hi], fun j hj => ?_,
        by rw [lastSeen_append_of_ne hqk, heq]⟩
      by_cases hjl : j < ks.length
      · rw [List.getElem?_append_left hjl]
        exact hlast j hj
      · rw [List.getElem?_append_right (by omega)]
        intro h
        have hk := List.mem_of_getElem? h
        exact hqk (List.mem_singleton.mp hk)

theorem lastSeen_pos (hq : q ∈ ks) : 0 < lastSeen ks q := by
  obtain ⟨i, -, -, heq⟩ := exists_last hq
  omega

/-! ### The keys of a sequence -/

theorem eraseDups_append_of_mem (hk : k ∈ ks) : (ks ++ [k]).eraseDups = ks.eraseDups := by
  rw [List.eraseDups_append]
  simp [List.removeAll, hk]

theorem eraseDups_append_of_notMem (hk : k ∉ ks) :
    (ks ++ [k]).eraseDups = ks.eraseDups ++ [k] := by
  rw [List.eraseDups_append]
  simp [List.removeAll, hk, List.eraseDups_cons]

theorem nodup_eraseDups (ks : List α) : ks.eraseDups.Nodup := by
  induction ks using List.reverseRecOn with
  | nil => simp
  | append_singleton ks k ih =>
    by_cases hk : k ∈ ks
    · rwa [eraseDups_append_of_mem hk]
    · rw [eraseDups_append_of_notMem hk]
      refine ih.append (List.nodup_singleton k) ?_
      simpa [List.mem_eraseDups] using hk

/-! ### Counting -/

theorem entry_append_self (ks : List α) (k : α) :
    entry (ks ++ [k]) k = touch ks.length (entry ks k) := by
  rw [entry, entry, touch, lastSeen_append_self]
  simp

theorem entry_append_of_ne (hq : q ≠ k) (ks : List α) : entry (ks ++ [k]) q = entry ks q := by
  rw [entry, entry, lastSeen_append_of_ne hq, List.count_append, List.count_singleton,
    beq_false_of_ne (Ne.symm hq)]
  rfl

/-- The entry of a key that is seen for the first time. -/
theorem entry_append_of_notMem (hk : k ∉ ks) : entry (ks ++ [k]) k = ⟨k, 1, ks.length + 1⟩ := by
  rw [entry, lastSeen_append_self, List.count_append, List.count_eq_zero_of_not_mem hk]
  simp

theorem map_entry_append {ds : List α} (hds : k ∉ ds) (ks : List α) :
    ds.map (entry (ks ++ [k])) = ds.map (entry ks) :=
  List.map_congr_left fun q hq => entry_append_of_ne (by rintro rfl; exact hds hq) ks

theorem bump_eq_none (hk : ∀ e ∈ es, e.key ≠ k) : bump now k es = none := by
  induction es with
  | nil => rfl
  | cons e es ih =>
    obtain ⟨he, hes⟩ := List.forall_mem_cons.mp hk
    rw [bump, if_neg he, ih hes]
    rfl

theorem length_bump {es' : List (Entry α)} (h : bump now k es = some es') :
    es'.length = es.length := by
  induction es generalizing es' with
  | nil => cases h
  | cons e es ih =>
    rw [bump] at h
    split at h
    · obtain rfl := Option.some.inj h
      rfl
    · obtain ⟨rest, hrest, rfl⟩ := Option.map_eq_some_iff.mp h
      exact congrArg (· + 1) (ih hrest)

/-- The entry of a key that occurs once in a list is changed there. -/
theorem bump_map {ds : List α} {f : α → Entry α} (hkey : ∀ d, (f d).key = d) (hnodup : ds.Nodup)
    (hk : k ∈ ds) :
    bump now k (ds.map f) = some (ds.map fun d => if d = k then touch now (f d) else f d) := by
  induction ds with
  | nil => cases hk
  | cons d ds ih =>
    obtain ⟨hd, hnodup⟩ := List.nodup_cons.mp hnodup
    rw [List.map_cons, bump, hkey, List.map_cons]
    by_cases hdk : d = k
    · subst hdk
      have hrest : (ds.map fun q => if q = d then touch now (f q) else f q) = ds.map f :=
        List.map_congr_left fun q hq => if_neg (by rintro rfl; exact hd hq)
      rw [if_pos rfl, if_pos rfl, hrest]
    · have hmem : k ∈ ds := (List.mem_cons.mp hk).resolve_left (Ne.symm hdk)
      rw [if_neg hdk, if_neg hdk, ih hnodup hmem, Option.map_some]

/-- A key without a place has no entry whose count could be raised. -/
theorem bump_table_eq_none (hk : k ∉ ks.eraseDups.take room) : bump now k (table room ks) = none := by
  refine bump_eq_none fun e he => ?_
  obtain ⟨q, hq, rfl⟩ := List.mem_map.mp he
  rintro rfl
  exact hk hq

theorem length_table (room : ℕ) (ks : List α) :
    (table room ks).length = min room ks.eraseDups.length := by
  rw [table, List.length_map, List.length_take]

/-- A key that is seen for the first time gets a place as long as there is one. -/
theorem table_append_of_notMem (hk : k ∉ ks) : table room (ks ++ [k]) =
    if (table room ks).length < room then table room ks ++ [⟨k, 1, ks.length + 1⟩]
    else table room ks := by
  have hnot : k ∉ ks.eraseDups.take room := fun h =>
    hk (List.mem_eraseDups.mp (List.mem_of_mem_take h))
  have hlen := length_table room ks
  split
  · next hlt =>
    have htake : (ks ++ [k]).eraseDups.take room = ks.eraseDups.take room ++ [k] := by
      rw [eraseDups_append_of_notMem hk, List.take_of_length_le (by simp; omega),
        List.take_of_length_le (by omega)]
    rw [table, table, htake, List.map_append, List.map_singleton, map_entry_append hnot,
      entry_append_of_notMem hk]
  · next hge =>
    have htake : (ks ++ [k]).eraseDups.take room = ks.eraseDups.take room := by
      rw [eraseDups_append_of_notMem hk, List.take_append_of_le_length (by omega)]
    rw [table, table, htake, map_entry_append hnot]

/-- The table of a sequence is that of the keys before, with the last key counted. -/
theorem add_table (room : ℕ) (ks : List α) (k : α) :
    add room ks.length k (table room ks) = table room (ks ++ [k]) := by
  by_cases hin : k ∈ ks.eraseDups.take room
  · -- the key has a place
    have hk : k ∈ ks := List.mem_eraseDups.mp (List.mem_of_mem_take hin)
    have hnodup : (ks.eraseDups.take room).Nodup :=
      (nodup_eraseDups ks).sublist (List.take_sublist _ _)
    rw [add, table, bump_map (fun _ => rfl) hnodup hin, Option.getD_some, table,
      eraseDups_append_of_mem hk]
    refine List.map_congr_left fun q _ => ?_
    split
    · next hq => rw [hq, entry_append_self]
    · next hq => rw [entry_append_of_ne hq]
  rw [add, bump_table_eq_none hin, Option.getD_none]
  by_cases hk : k ∈ ks
  · -- the key has been dropped before
    have hfull : ¬(table room ks).length < room := by
      intro hlt
      rw [length_table] at hlt
      rw [List.take_of_length_le (by omega)] at hin
      exact hin (List.mem_eraseDups.mpr hk)
    rw [if_neg hfull, table, table, eraseDups_append_of_mem hk, map_entry_append hin]
  · rw [table_append_of_notMem hk]

theorem length_table_le (room : ℕ) (ks : List α) : (table room ks).length ≤ room := by
  rw [length_table]
  exact Nat.min_le_left _ _

/-- With room for all keys the table has an entry for each. -/
theorem table_of_length_le (h : ks.eraseDups.length ≤ room) :
    table room ks = ks.eraseDups.map (entry ks) := by
  rw [table, List.take_of_length_le h]

theorem toFinset_eraseDups (ks : List α) : ks.eraseDups.toFinset = ks.toFinset := by
  ext k
  rw [List.mem_toFinset, List.mem_toFinset, List.mem_eraseDups]

theorem card_toFinset (ks : List α) : ks.toFinset.card = ks.eraseDups.length := by
  rw [← toFinset_eraseDups, List.toFinset_card_of_nodup (nodup_eraseDups ks)]

/-- With room for all keys a sum over the table is one over the keys. -/
theorem sum_table {M : Type*} [AddCommMonoid M] (h : ks.toFinset.card ≤ room) (f : Entry α → M) :
    ((table room ks).map f).sum = ∑ k ∈ ks.toFinset, f (entry ks k) := by
  rw [card_toFinset] at h
  rw [table_of_length_le h, List.map_map, ← toFinset_eraseDups,
    List.sum_toFinset _ (nodup_eraseDups ks)]
  rfl

end OnlineTable
