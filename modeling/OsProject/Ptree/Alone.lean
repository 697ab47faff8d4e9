import Mathlib.Logic.Relation
import OsProject.Ptree.Interleaving

/-!
# The steps of a call that is left alone

Without forks and exits the steps of a call of `ptree` add up to the functions of `sys_ptree.c`: a
`pstree_dfs` that returns takes the walk to the same buffer and the same counters, and the call ends
with the buffer that `ptree` leaves.

## Main definitions

* `Call.Leads` — a sequence of steps of a call.

## Main results

* `Call.leads_pstreeDfs` — the steps of a `pstree_dfs`.
* `Call.leads_ptree` — the steps of a call.

Source: `sys_ptree.c`.
-/

namespace OsProject.Ptree

open Intrusive

variable {τ : Type*} [DecidableEq τ]

namespace Call

/-- The call gets from one state to the other, in a kernel memory that does not change. -/
def Leads (k : Kernel τ) (nr : ℤ) : Call τ → Call τ → Prop :=
  Relation.ReflTransGen fun c d => c.step k nr = d

variable {k : Kernel τ} {nr : ℤ} {c d e : Call τ}

theorem Leads.head (h : c.step k nr = d) (hd : Leads k nr d e) : Leads k nr c e :=
  Relation.ReflTransGen.head h hd

theorem Leads.refl (c : Call τ) : Leads k nr c c := Relation.ReflTransGen.refl

theorem Leads.trans (h : Leads k nr c d) (hd : Leads k nr d e) : Leads k nr c e :=
  Relation.ReflTransGen.trans h hd

theorem step_store {g g' : Field} {t : τ} {s : List (Frame τ)} {w : Walk} {r : List τ}
    {buf : UserBuf} (hbuf : storeField k t w g = some buf) (hnext : g.next = some g') :
    step k nr ⟨.store g t, s, w, r⟩ = ⟨.store g' t, s, { w with buf := buf }, r⟩ := by
  simp only [step, stepStore, hbuf, hnext]

theorem step_store_last {g : Field} {t : τ} {s : List (Frame τ)} {w : Walk} {r : List τ}
    {buf : UserBuf} (hbuf : storeField k t w g = some buf) (hnext : g.next = none) :
    step k nr ⟨.store g t, s, w, r⟩ =
      descend ⟨.store g t, s, { w with buf := buf, idx := w.idx + 1 }, r ++ [t]⟩ t := by
  simp only [step, stepStore, hbuf, hnext]

/-- The eight stores of a record. -/
theorem leads_fillRecord {t : τ} {w w' : Walk} {s : List (Frame τ)} {r : List τ}
    (hfill : fillRecord k t w = some w') :
    Leads k nr ⟨.store .parentPid t, s, w, r⟩
      (descend ⟨.store .layer t, s, w', r ++ [t]⟩ t) := by
  rw [fillRecord, Option.bind_eq_some_iff] at hfill
  obtain ⟨first, hfirst, hfill⟩ := hfill
  obtain ⟨next, hnext, rfl⟩ := Option.map_eq_some_iff.mp hfill
  refine .head (step_store rfl rfl) ?_
  refine .head (step_store rfl rfl) ?_
  refine .head (step_store (by rw [storeField, hfirst, Option.map_some]) rfl) ?_
  refine .head (step_store (by rw [storeField, hnext, Option.map_some]) rfl) ?_
  refine .head (step_store rfl rfl) ?_
  refine .head (step_store rfl rfl) ?_
  refine .head (step_store rfl rfl) ?_
  exact .head (step_store_last rfl rfl) (.refl _)

/-- What the steps of the recursive call for a process do. -/
def LeadsDfs (k : Kernel τ) (nr : ℤ) (dfs : τ → Walk → Option Walk) : Prop :=
  ∀ t w w', dfs t w = some w' → ∀ s r, ∃ r',
    Leads k nr ⟨.advance, ⟨t, .children t⟩ :: s, w, r⟩
      ⟨.advance, s, { w' with layer := w'.layer - 1 }, r'⟩

/-- The body of a loop. -/
theorem leads_visitChild {dfs : τ → Walk → Option Walk} (hdfs : LeadsDfs k nr dfs) {f : Frame τ}
    {fs : List (Frame τ)} {w w' : Walk} {r : List τ}
    (hvisit : visitChild k nr dfs f.list w = some w') :
    ∃ r', Leads k nr ⟨.entry, f :: fs, w, r⟩ ⟨.advance, f :: fs, w', r'⟩ := by
  rw [visitChild, Option.bind_eq_some_iff] at hvisit
  obtain ⟨child, hchild, hvisit⟩ := hvisit
  obtain ⟨w₁, hfill, hvisit⟩ := Option.bind_eq_some_iff.mp hvisit
  obtain ⟨w₂, hcall, rfl⟩ := Option.map_eq_some_iff.mp hvisit
  by_cases hroom : w.idx < nr
  · rw [if_pos hroom] at hfill
    obtain ⟨r', hrest⟩ := hdfs _ _ _ hcall (f :: fs) (r ++ [child])
    have hentry : step k nr ⟨.entry, f :: fs, w, r⟩ =
        ⟨.store .parentPid child, f :: fs, w, r⟩ := by
      simp [step, stepEntry, hchild, hroom]
    exact ⟨r', .head hentry ((leads_fillRecord hfill).trans hrest)⟩
  · rw [if_neg hroom] at hfill
    cases hfill
    obtain ⟨r', hrest⟩ := hdfs _ _ _ hcall (f :: fs) r
    have hentry : step k nr ⟨.entry, f :: fs, w, r⟩ = descend ⟨.entry, f :: fs, w, r⟩ child := by
      simp [step, stepEntry, hchild, hroom]
    exact ⟨r', .head hentry hrest⟩

/-- The return at the end of a list. -/
theorem step_return {task : τ} {list : Node τ} {fs : List (Frame τ)} {w : Walk} {r : List τ}
    (hhead : k.links.next list = .children task) :
    step k nr ⟨.advance, ⟨task, list⟩ :: fs, w, r⟩ =
      ⟨.advance, fs, { w with layer := w.layer - 1 }, r⟩ := by
  simp [step, stepAdvance, hhead]

/-- The rounds of a loop that are left. -/
theorem leads_listForEachFrom {dfs : τ → Walk → Option Walk} (hdfs : LeadsDfs k nr dfs) {n : ℕ}
    {task : τ} {list : Node τ} {fs : List (Frame τ)} {w w' : Walk} {r : List τ}
    (hloop : listForEachFrom k.links (visitChild k nr dfs) (.children task) n
      (k.links.next list) w = some w') :
    ∃ r', Leads k nr ⟨.advance, ⟨task, list⟩ :: fs, w, r⟩
      ⟨.advance, fs, { w' with layer := w'.layer - 1 }, r'⟩ := by
  induction n generalizing list w r with
  | zero =>
    rw [listForEachFrom] at hloop
    split at hloop
    · next hhead =>
      cases hloop
      exact ⟨r, .head (step_return hhead) (.refl _)⟩
    · cases hloop
  | succ n ih =>
    rw [listForEachFrom] at hloop
    split at hloop
    · next hhead =>
      cases hloop
      exact ⟨r, .head (step_return hhead) (.refl _)⟩
    · next hhead =>
      obtain ⟨w₁, hvisit, hloop⟩ := Option.bind_eq_some_iff.mp hloop
      obtain ⟨r₁, hfirst⟩ : ∃ r₁, Leads k nr ⟨.entry, ⟨task, k.links.next list⟩ :: fs, w, r⟩
          ⟨.advance, ⟨task, k.links.next list⟩ :: fs, w₁, r₁⟩ := leads_visitChild hdfs hvisit
      obtain ⟨r₂, hrest⟩ := ih (r := r₁) hloop
      have hstep : step k nr ⟨.advance, ⟨task, list⟩ :: fs, w, r⟩ =
          ⟨.entry, ⟨task, k.links.next list⟩ :: fs, w, r⟩ := by
        simp [step, stepAdvance, hhead]
      exact ⟨r₂, .head hstep (hfirst.trans hrest)⟩

/-- The steps of a `pstree_dfs` that returns. -/
theorem leads_pstreeDfs (fuel : ℕ) : LeadsDfs k nr (pstreeDfs k nr fuel) := by
  induction fuel with
  | zero =>
    intro t w w' hdfs
    cases hdfs
  | succ fuel ih =>
    intro t w w' hdfs s r
    rw [pstreeDfs, listForEach] at hdfs
    exact leads_listForEachFrom ih hdfs

/-- The steps of a call that is left alone end with what `ptree` returns. -/
theorem leads_ptree {fuel : ℕ} {buf out : UserBuf}
    (hptree : ptree k fuel (some buf) (some nr) = some (0, some out)) :
    ∃ c, c.pc = .done ∧ c.walk.buf = out ∧ Leads k nr ⟨.root, [], ⟨buf, 0, 0⟩, []⟩ c := by
  simp only [ptree, Option.bind_eq_some_iff, Option.map_eq_some_iff] at hptree
  obtain ⟨w, hroot, w', hdfs, hout⟩ := hptree
  have hfirst : ∃ r, step k nr ⟨.root, [], ⟨buf, 0, 0⟩, []⟩ =
      ⟨.advance, [⟨k.initTask, .children k.initTask⟩], { w with layer := w.layer + 1 }, r⟩ := by
    by_cases hroom : ((0 : ℕ) : ℤ) < nr
    · rw [if_pos hroom] at hroot
      exact ⟨[k.initTask], by simp only [step, stepRoot, if_pos hroom, hroot]; rfl⟩
    · rw [if_neg hroom] at hroot
      cases hroot
      exact ⟨[], by simp only [step, stepRoot, if_neg hroom]; rfl⟩
  obtain ⟨r, hstart⟩ := hfirst
  obtain ⟨r', hrest⟩ := leads_pstreeDfs fuel _ _ _ hdfs [] r
  refine ⟨step k nr ⟨.advance, [], { w' with layer := w'.layer - 1 }, r'⟩, rfl, ?_,
    .head hstart (hrest.trans (.head rfl (.refl _)))⟩
  simp only [step, stepAdvance]
  split at hout
  · next hroom =>
    rw [if_pos hroom]
    simpa using hout
  · next hroom =>
    rw [if_neg hroom]
    simpa using hout

end Call

end OsProject.Ptree
