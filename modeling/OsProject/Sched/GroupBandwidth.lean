import Mathlib.Algebra.BigOperators.Field
import Mathlib.Algebra.BigOperators.Ring.Finset
import Mathlib.Algebra.Order.Field.Rat
import Mathlib.Tactic.FieldSimp
import Mathlib.Tactic.Linarith
import Mathlib.Tactic.Positivity
import OsProject.Sched.TaskGroups

/-!
# Real-time bandwidth of task groups

Bandwidths are compared as numbers of 20 fractional bits, added up in 32 bits. In every reachable
state the children of a group have together no more than the group, and the sums are too small to
wrap around. A limit that does not pass its check has been in force for a while before it is taken
back; groups that are changed in the meantime are held to it, and may keep more than the limit
allows afterwards. With changes at other times only, no group has more than the limit.

## Main definitions

* `RtBandwidth.share` — the part of the time a group has.
* `Fits` — bandwidths that the check lets through.
* `TaskGroups.lastLimit` — the last limit that has passed its check.

## Main results

* `rt_groups_never_oversubscribed` — groups of which none is below another have together no more
  than the root group.
* `rt_groups_within_limit` — and no more than the limit, if nothing is set during writes.
* `set_rt_runtime_accepted_iff` — the bandwidths of a group, of its parent and of their children
  decide whether a run time is accepted.

Sources: `kernel/sched/core.c`, `kernel/sched/sched.h`.
-/

namespace OsProject.Sched

open Intrusive RoseTree Transition TreeWalk

variable {τ : Type*}

/-! ### Ratios -/

namespace RtBandwidth

/-- No more run time than the period, and not so much that shifting it overflows. -/
def Ok (b : RtBandwidth) : Prop :=
  b.rtRuntime = runtimeInf64 ∨ b.rtRuntime ≤ b.rtPeriod ∧ b.rtRuntime.toNat < 2 ^ 44

/-- The part of the time. -/
def share (b : RtBandwidth) : ℚ :=
  if b.rtRuntime = runtimeInf64 then 1 else (b.rtRuntime.toNat : ℚ) / b.rtPeriod.toNat

theorem ratio_inf {b : RtBandwidth} (h : b.rtRuntime = runtimeInf64) : b.ratio.toNat = 2 ^ 20 := by
  rw [ratio, toRatio, if_pos h]
  rfl

theorem ratio_toNat {b : RtBandwidth} (hle : b.rtRuntime ≤ b.rtPeriod)
    (hlt : b.rtRuntime.toNat < 2 ^ 44) (hne : b.rtRuntime ≠ runtimeInf64) :
    b.ratio.toNat = b.rtRuntime.toNat * 2 ^ 20 / b.rtPeriod.toNat := by
  have hshift : (b.rtRuntime <<< 20).toNat = b.rtRuntime.toNat * 2 ^ 20 := by
    rw [UInt64.toNat_shiftLeft, Nat.shiftLeft_eq]
    exact Nat.mod_eq_of_lt (by
      have : (20 : UInt64).toNat % 64 = 20 := rfl
      rw [this]
      omega)
  have hquot : b.rtRuntime.toNat * 2 ^ 20 / b.rtPeriod.toNat ≤ 2 ^ 20 :=
    Nat.div_le_of_le_mul (Nat.mul_le_mul_right _ (UInt64.le_iff_toNat_le.mp hle))
  rw [ratio, toRatio, if_neg hne, UInt64.toNat_toUInt32, UInt64.toNat_div, hshift]
  exact Nat.mod_eq_of_lt (by omega)

theorem ratio_le {b : RtBandwidth} (h : b.Ok) : b.ratio.toNat ≤ 2 ^ 20 := by
  by_cases hinf : b.rtRuntime = runtimeInf64
  · exact (ratio_inf hinf).le
  · obtain ⟨hle, hlt⟩ := h.resolve_left hinf
    rw [ratio_toNat hle hlt hinf]
    exact Nat.div_le_of_le_mul (Nat.mul_le_mul_right _ (UInt64.le_iff_toNat_le.mp hle))

/-- The ratio is the share, rounded down. -/
theorem ratio_share {b : RtBandwidth} (h : b.Ok) :
    (b.ratio.toNat : ℚ) ≤ b.share * 2 ^ 20 ∧ b.share * 2 ^ 20 ≤ b.ratio.toNat + 1 := by
  by_cases hinf : b.rtRuntime = runtimeInf64
  · rw [ratio_inf hinf, share, if_pos hinf]
    norm_num
  · obtain ⟨hle, hlt⟩ := h.resolve_left hinf
    have hle' := UInt64.le_iff_toNat_le.mp hle
    rw [ratio_toNat hle hlt hinf, share, if_neg hinf]
    rcases Nat.eq_zero_or_pos b.rtPeriod.toNat with h0 | hpos
    · rw [h0]
      norm_num
    · have hpos' : (0 : ℚ) < b.rtPeriod.toNat := by exact_mod_cast hpos
      obtain ⟨q, hq⟩ : ∃ q, q = b.rtRuntime.toNat * 2 ^ 20 / b.rtPeriod.toNat := ⟨_, rfl⟩
      have h₁ : q * b.rtPeriod.toNat ≤ b.rtRuntime.toNat * 2 ^ 20 := hq ▸ Nat.div_mul_le_self _ _
      have h₂ : b.rtRuntime.toNat * 2 ^ 20 < (q + 1) * b.rtPeriod.toNat :=
        (Nat.div_lt_iff_lt_mul hpos).mp (hq ▸ Nat.lt_succ_self _)
      rw [← hq, div_mul_eq_mul_div]
      refine ⟨(le_div_iff₀ hpos').mpr ?_, (div_le_iff₀ hpos').mpr ?_⟩
      · exact_mod_cast h₁
      · exact_mod_cast h₂.le

end RtBandwidth

/-! ### The checks -/

/-- The groups whose parent is `g`. -/
def TaskGroups.childrenOf [DecidableEq τ] (s : TaskGroups τ) (g : τ) : List τ :=
  s.groups.filter fun c => s.parent c = some g

/-- The ratios of the children of a group together, for any bandwidths. -/
def TaskGroups.childRatios [DecidableEq τ] (s : TaskGroups τ) (b : τ → RtBandwidth) (g : τ) : ℕ :=
  ((s.childrenOf g).map fun c => (b c).ratio.toNat).sum

/-- The limit for all groups. -/
def TaskGroups.limit (s : TaskGroups τ) : RtBandwidth := ⟨s.globalRtPeriod, s.globalRtRuntime⟩

variable [DecidableEq τ] {s s' : TaskGroups τ} {kids : τ → List τ} {t : RoseTree τ}
  {d : RtSchedulableData τ} {b : τ → RtBandwidth}

theorem mem_childrenOf {g c : τ} : c ∈ s.childrenOf g ↔ c ∈ s.groups ∧ s.parent c = some g := by
  simp [TaskGroups.childrenOf]

theorem Hierarchy.childrenOf_nodup (h : Hierarchy s kids t) (g : τ) : (s.childrenOf g).Nodup :=
  h.groups.filter _

theorem Hierarchy.kids_perm (h : Hierarchy s kids t) {g : τ} (hg : g ∈ s.groups) :
    (kids g).Perm (s.childrenOf g) := by
  refine (List.perm_ext_iff_of_nodup (h.kids_nodup hg) (h.childrenOf_nodup g)).mpr fun c => ?_
  rw [mem_childrenOf]
  refine ⟨fun hc => ?_, fun ⟨hc, hp⟩ => (h.mem_kids_iff hg hc).mpr hp⟩
  have hc' := h.kids_mem hg hc
  exact ⟨hc', (h.mem_kids_iff hg hc').mp hc⟩

theorem Hierarchy.childRatios_eq (h : Hierarchy s kids t) {g : τ} (hg : g ∈ s.groups)
    (b : τ → RtBandwidth) :
    s.childRatios b g = ((kids g).map fun c => (b c).ratio.toNat).sum :=
  ((h.kids_perm hg).map _).sum_eq.symm

omit [DecidableEq τ] in
/-- The sum in 32 bits. -/
theorem foldl_ratio (b : τ → RtBandwidth) (l : List τ) (sum : UInt32) :
    (l.foldl (fun sum c => sum + (b c).ratio) sum).toNat =
      (sum.toNat + (l.map fun c => (b c).ratio.toNat).sum) % 2 ^ 32 := by
  induction l generalizing sum with
  | nil => simp [Nat.mod_eq_of_lt sum.toNat_lt]
  | cons c l ih =>
    rw [List.foldl_cons, ih, UInt32.toNat_add, List.map_cons, List.sum_cons, Nat.mod_add_mod,
      Nat.add_assoc]

/-- The children of a group are added up, as far as the sum fits. -/
theorem sumChildren_toNat (h : Hierarchy s kids t) {g : τ} (hg : g ∈ s.groups)
    (hsum : s.childRatios (bandwidthIn s d) g < 2 ^ 32) :
    (sumChildren s d g).toNat = s.childRatios (bandwidthIn s d) g := by
  have hring := h.rings.ring g hg
  have hlen : ((kids g).map GroupNode.siblings).length ≤ s.groups.length := by
    rw [List.length_map]
    exact ((h.kids_nodup hg).subperm fun c hc => h.kids_mem hg hc).length_le
  have hfold : ∀ (l : List τ) (sum : UInt32),
      (l.map GroupNode.siblings).foldlM
        (fun (sum : UInt32) x => some (sum + (bandwidthIn s d x.group).ratio)) sum =
        some (l.foldl (fun sum c => sum + (bandwidthIn s d c).ratio) sum) := by
    intro l
    induction l with
    | nil => exact fun _ => rfl
    | cons c l ih => exact fun sum => ih _
  rw [sumChildren, hring.listForEach hlen, hfold, Option.getD_some, foldl_ratio,
    ← h.childRatios_eq hg]
  simpa using Nat.mod_eq_of_lt hsum

/-- What the check of a group says, as far as the ratios of its children add up. -/
theorem tgRtSchedulable_eq_zero_iff (h : Hierarchy s kids t) {g : τ} (hg : g ∈ s.groups)
    (hsum : s.childRatios (bandwidthIn s d) g < 2 ^ 32) :
    (tgRtSchedulable s g d).1 = 0 ↔
      ((bandwidthIn s d g).rtRuntime = runtimeInf64 ∨
          (bandwidthIn s d g).rtRuntime ≤ (bandwidthIn s d g).rtPeriod) ∧
        ¬(s.rtBandwidthEnabled ∧ (bandwidthIn s d g).rtRuntime = 0 ∧ tgHasRtTasks s g) ∧
        (bandwidthIn s d g).ratio ≤ s.limit.ratio ∧
        s.childRatios (bandwidthIn s d) g ≤ (bandwidthIn s d g).ratio.toNat := by
  have hchild : sumChildren s d g ≤ (bandwidthIn s d g).ratio ↔
      s.childRatios (bandwidthIn s d) g ≤ (bandwidthIn s d g).ratio.toNat := by
    rw [UInt32.le_iff_toNat_le, sumChildren_toNat h hg hsum]
  have hlimit : s.limit.ratio = toRatio s.globalRtPeriod s.globalRtRuntime := rfl
  rw [← hchild, hlimit, tgRtSchedulable]
  split_ifs with h₁ h₂ h₃ h₄
  · exact iff_of_false (by simp [einval]) fun hc =>
      hc.1.elim h₁.2 fun hle => absurd h₁.1 (UInt64.not_lt.mpr hle)
  · exact iff_of_false (by simp [ebusy]) fun hc => hc.2.1 h₂
  · exact iff_of_false (by simp [einval]) fun hc => UInt32.not_lt.mpr hc.2.2.1 h₃
  · exact iff_of_false (by simp [einval]) fun hc => UInt32.not_lt.mpr hc.2.2.2 h₄
  · refine iff_of_true rfl ⟨?_, h₂, UInt32.not_lt.mp h₃, UInt32.not_lt.mp h₄⟩
    by_cases hinf : (bandwidthIn s d g).rtRuntime = runtimeInf64
    · exact .inl hinf
    · exact .inr (UInt64.not_lt.mp fun hlt => h₁ ⟨hlt, hinf⟩)

/-- An error of the check of a group. -/
theorem tgRtSchedulable_error (s : TaskGroups τ) (g : τ) (d : RtSchedulableData τ) :
    (tgRtSchedulable s g d).1 ∈ [0, -einval, -ebusy] ∧ (tgRtSchedulable s g d).2 = d := by
  rw [tgRtSchedulable]
  split_ifs <;> simp

/-- The walk checks every group, and its result is the first error. -/
theorem rtSchedulable_eq (h : Hierarchy s kids t) (tg : Option τ) (period runtime : UInt64) :
    rtSchedulable s tg period runtime =
      some (firstError (t.preorder.map fun g => (tgRtSchedulable s g ⟨tg, period, runtime⟩).1)) := by
  have hlen : 2 * t.size ≤ 2 * s.groups.length := by
    rw [← t.length_preorder]
    exact Nat.mul_le_mul_left 2 (h.nodup.subperm fun g hg => (h.mem g).mp hg).length_le
  have hvisit : (tgRtSchedulable s : τ → RtSchedulableData τ → ℤ × RtSchedulableData τ) =
      fun g d => ((tgRtSchedulable s g d).1, d) :=
    funext fun g => funext fun d => Prod.ext rfl (tgRtSchedulable_error s g d).2
  rw [rtSchedulable, walkTgTree, walkTgTreeFrom, ← h.val,
    walkFor_eq_visit h.branches h.nodup (fun a ha => h.follows ((h.mem a).mp ha)) hlen, hvisit]
  exact congrArg (Option.map Prod.fst ∘ some) (visit_nop _ _ t)

/-- A bandwidth is accepted when every group passes its check. -/
theorem rtSchedulable_eq_zero_iff (h : Hierarchy s kids t) {tg : Option τ}
    {period runtime : UInt64} :
    rtSchedulable s tg period runtime = some 0 ↔
      ∀ g ∈ s.groups, (tgRtSchedulable s g ⟨tg, period, runtime⟩).1 = 0 := by
  rw [rtSchedulable_eq h, Option.some.injEq, firstError_eq_zero_iff]
  simp [h.mem]

/-! ### Bandwidths that fit -/

/-- Every bandwidth is in order, and no group has less than its children together. -/
structure Fits (s : TaskGroups τ) (b : τ → RtBandwidth) : Prop where
  ok : ∀ g ∈ s.groups, (b g).Ok
  sum : ∀ g ∈ s.groups, s.childRatios b g ≤ (b g).ratio.toNat

/-- Real-time tasks in a group that is to have no run time. -/
def Starves (s : TaskGroups τ) (b : τ → RtBandwidth) (g : τ) : Prop :=
  s.rtBandwidthEnabled ∧ (b g).rtRuntime = 0 ∧ tgHasRtTasks s g

omit [DecidableEq τ] in
/-- When one term of a sum changes, the sum grows by no more than the new term. -/
theorem sum_map_le_add (f f' : τ → ℕ) {a : τ} {v : ℕ} (hv : f' a ≤ v)
    (hf : ∀ c, c ≠ a → f' c = f c) : ∀ {l : List τ}, l.Nodup → (l.map f').sum ≤ (l.map f).sum + v
  | [], _ => Nat.zero_le _
  | c :: l, hnd => by
    obtain ⟨hc, hnd⟩ := List.nodup_cons.mp hnd
    rw [List.map_cons, List.sum_cons, List.map_cons, List.sum_cons]
    by_cases hca : c = a
    · have hrest : l.map f' = l.map f := List.map_congr_left fun x hx =>
        hf x fun he => hc (hca ▸ he ▸ hx)
      rw [hrest, hca]
      omega
    · have := sum_map_le_add f f' hv hf hnd
      rw [hf c hca]
      omega

theorem bandwidthIn_of_eq {g : τ} (h : some g = d.tg) :
    bandwidthIn s d g = ⟨d.rtPeriod, d.rtRuntime⟩ := if_pos h

theorem bandwidthIn_of_ne {g : τ} (h : some g ≠ d.tg) : bandwidthIn s d g = s.rtBandwidth g :=
  if_neg h

/-- After a change of one group the ratios still add up without wrapping around. -/
theorem childRatios_bandwidthIn_lt (h : Hierarchy s kids t) (hf : Fits s s.rtBandwidth)
    (hok : ∀ g ∈ s.groups, (bandwidthIn s d g).Ok) (hd : ∀ tg ∈ d.tg, tg ∈ s.groups) {g : τ}
    (hg : g ∈ s.groups) : s.childRatios (bandwidthIn s d) g < 2 ^ 32 := by
  have hsum := hf.sum g hg
  have hle := RtBandwidth.ratio_le (hf.ok g hg)
  cases htg : d.tg with
  | none =>
    have hsame : bandwidthIn s d = s.rtBandwidth := funext fun c => bandwidthIn_of_ne (by simp [htg])
    rw [hsame]
    omega
  | some tg =>
    have hnew := RtBandwidth.ratio_le (hok tg (hd tg htg))
    have hold : ∀ c, c ≠ tg →
        (bandwidthIn s d c).ratio.toNat = (s.rtBandwidth c).ratio.toNat := fun c hc => by
      have hne : some c ≠ d.tg := by rw [htg]; simpa using hc
      rw [bandwidthIn_of_ne hne]
    have hadd : s.childRatios (bandwidthIn s d) g ≤ s.childRatios s.rtBandwidth g + 2 ^ 20 :=
      sum_map_le_add _ (fun c => (bandwidthIn s d c).ratio.toNat) hnew hold (h.childrenOf_nodup g)
    omega

/-- All groups pass their checks if and only if the new bandwidths fit, starve nobody, and are
within the limit. -/
theorem forall_tgRtSchedulable_iff (h : Hierarchy s kids t) (hf : Fits s s.rtBandwidth)
    (hd : ∀ tg ∈ d.tg, tg ∈ s.groups ∧
      (d.rtRuntime = runtimeInf64 ∨ d.rtRuntime.toNat < 2 ^ 44)) :
    (∀ g ∈ s.groups, (tgRtSchedulable s g d).1 = 0) ↔
      Fits s (bandwidthIn s d) ∧ ∀ g ∈ s.groups, ¬Starves s (bandwidthIn s d) g ∧
        (bandwidthIn s d g).ratio ≤ s.limit.ratio := by
  have hmem : ∀ tg ∈ d.tg, tg ∈ s.groups := fun tg ht => (hd tg ht).1
  refine ⟨fun hall => ?_, fun ⟨hfits, hall⟩ g hg => ?_⟩
  · have hok : ∀ g ∈ s.groups, (bandwidthIn s d g).Ok := fun g hg => by
      by_cases htg : some g = d.tg
      · -- the new bandwidth has passed its own check
        have hcheck := hall g hg
        have hrange := (hd g htg.symm).2
        rw [tgRtSchedulable] at hcheck
        rw [bandwidthIn_of_eq htg] at hcheck ⊢
        by_cases hinf : d.rtRuntime = runtimeInf64
        · exact .inl hinf
        · split_ifs at hcheck with h₁
          · exact absurd hcheck (by simp [einval])
          all_goals
            exact .inr ⟨UInt64.not_lt.mp fun hlt => h₁ ⟨hlt, hinf⟩, hrange.resolve_left hinf⟩
      · rw [bandwidthIn_of_ne htg]
        exact hf.ok g hg
    have hcheck := fun g hg => (tgRtSchedulable_eq_zero_iff h hg
      (childRatios_bandwidthIn_lt h hf hok hmem hg)).mp (hall g hg)
    exact ⟨⟨hok, fun g hg => (hcheck g hg).2.2.2⟩,
      fun g hg => ⟨(hcheck g hg).2.1, (hcheck g hg).2.2.1⟩⟩
  · rw [tgRtSchedulable_eq_zero_iff h hg (childRatios_bandwidthIn_lt h hf hfits.ok hmem hg)]
    exact ⟨(hfits.ok g hg).imp_right And.left, (hall g hg).1, (hall g hg).2, hfits.sum g hg⟩

/-! ### The invariant -/

/-- The groups are a tree, their bandwidths fit, and the run queues of the groups have them. -/
structure GroupInv (s : TaskGroups τ) : Prop where
  hierarchy : ∃ kids t, Hierarchy s kids t
  fits : Fits s s.rtBandwidth
  rtRqRuntime : ∀ g ∈ s.groups, s.rtRqRuntime g = (s.rtBandwidth g).rtRuntime

theorem ratio_zero (period : UInt64) : (RtBandwidth.mk period 0).ratio = 0 := by
  have h0 : (0 : UInt64) <<< 20 = 0 := rfl
  have hne : (0 : UInt64) ≠ runtimeInf64 := by decide
  rw [RtBandwidth.ratio, toRatio, if_neg hne, h0]
  simp

/-- A new group has no run time. -/
theorem GroupInv.create (h : GroupInv s) {p c : τ} (hp : p ∈ s.groups) (hc : c ∉ s.groups) :
    GroupInv (schedCreateGroup s p c) := by
  obtain ⟨kids, t, hh⟩ := h.hierarchy
  have hh' := hh.create hp hc
  have hpc : p ≠ c := fun he => hc (he ▸ hp)
  have hne : ∀ g ∈ s.groups, g ≠ c := fun g hg he => hc (he ▸ hg)
  have hnew : (schedCreateGroup s p c).rtBandwidth c = ⟨s.defRtBandwidth.rtPeriod, 0⟩ :=
    Function.update_self ..
  have hother : ∀ g ∈ s.groups, (schedCreateGroup s p c).rtBandwidth g = s.rtBandwidth g :=
    fun g hg => Function.update_of_ne (hne g hg) ..
  refine ⟨⟨_, _, hh'⟩, ⟨fun g hg => ?_, fun g hg => ?_⟩, fun g hg => ?_⟩
  · rcases List.mem_cons.mp hg with rfl | hg
    · rw [hnew]
      have hzero : (0 : UInt64).toNat < 2 ^ 44 := by decide
      exact .inr ⟨UInt64.le_iff_toNat_le.mpr (Nat.zero_le _), hzero⟩
    · rw [hother g hg]
      exact h.fits.ok g hg
  · have hkids : ∀ k ∈ s.groups, ((kids k).map fun x =>
        ((schedCreateGroup s p c).rtBandwidth x).ratio.toNat).sum = s.childRatios s.rtBandwidth k :=
      fun k hk => by
        rw [hh.childRatios_eq hk, List.map_congr_left fun x hx => ?_]
        rw [hother x (hh.kids_mem hk hx)]
    rw [hh'.childRatios_eq hg]
    rcases List.mem_cons.mp hg with rfl | hg'
    · rw [Function.update_of_ne hpc.symm, Function.update_self]
      exact Nat.zero_le _
    · rw [hother g hg']
      by_cases hgp : g = p
      · subst hgp
        rw [Function.update_self, List.map_cons, List.sum_cons, hnew, ratio_zero, hkids g hg']
        simpa using h.fits.sum g hg'
      · rw [Function.update_of_ne hgp, Function.update_of_ne (hne g hg'), hkids g hg']
        exact h.fits.sum g hg'
  · rcases List.mem_cons.mp hg with rfl | hg
    · rw [hnew]
      exact Function.update_self ..
    · rw [hother g hg, ← h.rtRqRuntime g hg]
      exact Function.update_of_ne (hne g hg) ..

theorem GroupInv.destroy (h : GroupInv s) {c : τ} (hc : c ∈ s.groups) (hne : c ≠ s.rootTaskGroup)
    (hleaf : listEmpty s.links (.children c)) : GroupInv (schedDestroyGroup s c) := by
  obtain ⟨kids, t, hh⟩ := h.hierarchy
  obtain ⟨kids', t', hh', hk⟩ := hh.destroy hc hne hleaf
  have hmem : ∀ g ∈ (schedDestroyGroup s c).groups, g ∈ s.groups := fun g hg =>
    List.mem_of_mem_erase hg
  refine ⟨⟨kids', t', hh'⟩, ⟨fun g hg => h.fits.ok g (hmem g hg), fun g hg => ?_⟩,
    fun g hg => h.rtRqRuntime g (hmem g hg)⟩
  have hsum := h.fits.sum g (hmem g hg)
  rw [hh.childRatios_eq (hmem g hg)] at hsum
  rw [hh'.childRatios_eq hg, hk g]
  refine le_trans (List.Sublist.sum_le_sum (List.filter_sublist.map _) fun _ _ => Nat.zero_le _) hsum

/-- A step that leaves the groups and their bandwidths alone. -/
theorem GroupInv.congr (h : GroupInv s) (hroot : s'.rootTaskGroup = s.rootTaskGroup)
    (hgroups : s'.groups = s.groups) (hlinks : s'.links = s.links) (hparent : s'.parent = s.parent)
    (hb : s'.rtBandwidth = s.rtBandwidth) (hr : s'.rtRqRuntime = s.rtRqRuntime) : GroupInv s' := by
  obtain ⟨kids, t, hh⟩ := h.hierarchy
  have hh' := hh.congr hroot hgroups hlinks hparent
  refine ⟨⟨kids, t, hh'⟩, ⟨fun g hg => ?_, fun g hg => ?_⟩, fun g hg => ?_⟩
  · rw [hb]
    exact h.fits.ok g (hgroups ▸ hg)
  · rw [hh'.childRatios_eq hg, hb, ← hh.childRatios_eq (hgroups ▸ hg)]
    exact h.fits.sum g (hgroups ▸ hg)
  · rw [hb, hr]
    exact h.rtRqRuntime g (hgroups ▸ hg)

/-- The bandwidths after a change of one group. -/
theorem bandwidthIn_eq_update (s : TaskGroups τ) (tg : τ) (x : RtBandwidth) :
    bandwidthIn s ⟨some tg, x.rtPeriod, x.rtRuntime⟩ = Function.update s.rtBandwidth tg x := by
  funext g
  by_cases hg : g = tg
  · rw [hg, Function.update_self, bandwidthIn_of_eq rfl]
  · rw [Function.update_of_ne hg, bandwidthIn_of_ne (by simpa using hg)]

/-- A bandwidth is accepted if and only if it and the others fit, starve nobody, and are within
the limit. -/
theorem GroupInv.rtSchedulable_iff (h : GroupInv s) {tg : τ} (ht : tg ∈ s.groups) {x : RtBandwidth}
    (hx : x.rtRuntime = runtimeInf64 ∨ x.rtRuntime.toNat < 2 ^ 44) :
    rtSchedulable s (some tg) x.rtPeriod x.rtRuntime = some 0 ↔
      Fits s (Function.update s.rtBandwidth tg x) ∧
        ∀ g ∈ s.groups, ¬Starves s (Function.update s.rtBandwidth tg x) g ∧
          (Function.update s.rtBandwidth tg x g).ratio ≤ s.limit.ratio := by
  obtain ⟨kids, t, hh⟩ := h.hierarchy
  rw [rtSchedulable_eq_zero_iff hh, forall_tgRtSchedulable_iff hh h.fits (by
    rintro g ⟨⟩
    exact ⟨ht, hx⟩), bandwidthIn_eq_update]

/-- A bandwidth that has been accepted leaves the invariant behind. -/
theorem GroupInv.setBandwidth (h : GroupInv s) {tg : τ} {x : RtBandwidth}
    (hfits : Fits s (Function.update s.rtBandwidth tg x)) : GroupInv (s.setBandwidth tg x) := by
  obtain ⟨kids, t, hh⟩ := h.hierarchy
  refine ⟨⟨kids, t, hh.congr rfl rfl rfl rfl⟩, ⟨hfits.ok, hfits.sum⟩, fun g hg => ?_⟩
  by_cases hgt : g = tg
  · simp [TaskGroups.setBandwidth, hgt]
  · simpa [TaskGroups.setBandwidth, hgt] using h.rtRqRuntime g hg

/-- The run times that system calls and limits ask for are not too large to be shifted. -/
theorem ofInt_mul_lt {us : Int32} (h : 0 ≤ us.toInt) :
    (UInt64.ofInt us.toInt * nsecPerUsec).toNat = us.toInt.toNat * 1000 ∧
      us.toInt.toNat * 1000 < 2 ^ 44 := by
  have hlt : us.toInt < 2 ^ 31 := us.toInt_lt
  have hus : us.toInt.toNat < 2 ^ 31 := by omega
  have hof : (UInt64.ofInt us.toInt).toNat = us.toInt.toNat := by
    rw [UInt64.ofInt, UInt64.toNat_ofNat']
    omega
  have hk : nsecPerUsec.toNat = 1000 := rfl
  refine ⟨?_, by omega⟩
  rw [UInt64.toNat_mul, hof, hk]
  exact Nat.mod_eq_of_lt (by omega)

theorem runtimeOfUs_range (us : Int32) :
    runtimeOfUs us = runtimeInf64 ∨ (runtimeOfUs us).toNat < 2 ^ 44 := by
  rw [runtimeOfUs]
  split_ifs with h
  · exact .inl rfl
  · have hpos : 0 ≤ us.toInt := by
      rw [Int32.lt_iff_toInt_lt] at h
      simpa using h
    exact .inr ((ofInt_mul_lt hpos).1 ▸ (ofInt_mul_lt hpos).2)

/-- Every step keeps the invariant. -/
theorem GroupInv.step (h : GroupInv s) {op : GroupOp τ} (hx : GroupStep s op s') :
    GroupInv s' := by
  cases hx with
  | create hp hc => exact h.create hp hc
  | destroy hc hne hleaf => exact h.destroy hc hne hleaf
  | refuse => exact h
  | setRtRuntime ht us hb hret =>
    have hrange := hb ▸ runtimeOfUs_range us
    exact h.setBandwidth ((h.rtSchedulable_iff ht hrange).mp hret).1
  | @setRtPeriod tg ht us b hb hret =>
    have hrange := hb ▸ (h.fits.ok tg ht).imp_right And.right
    exact h.setBandwidth ((h.rtSchedulable_iff ht hrange).mp hret).1
  | write | takeBack | pass | threads => exact h.congr rfl rfl rfl rfl rfl rfl

theorem GroupInv.boot (h : GroupBoot s) : GroupInv s := by
  have hh := Hierarchy.boot h
  have hroot : ∀ g ∈ s.groups, g = s.rootTaskGroup := fun g hg => by simpa [h.groups] using hg
  have hb : s.rtBandwidth s.rootTaskGroup = ⟨1000000000, 950000000⟩ := by
    rw [h.bandwidth, TaskGroups.globalRtPeriod, TaskGroups.globalRtRuntime, h.period, h.runtime]
    rfl
  refine ⟨⟨_, _, hh⟩, ⟨fun g hg => ?_, fun g hg => ?_⟩, fun g hg => ?_⟩
  · rw [hroot g hg, hb]
    exact .inr ⟨by decide, by decide⟩
  · rw [hh.childRatios_eq hg]
    exact Nat.zero_le _
  · rw [hroot g hg, h.rtRqRuntime, h.bandwidth]

theorem reachable_groupInv (h : Reachable groupSystem s) : GroupInv s := by
  induction h with
  | init hs => exact GroupInv.boot hs
  | step _ hstep ih => exact ih.step (groupStep_of_exec hstep)

/-! ### Sums over the hierarchy -/

/-- Groups of which none is below another have together no more than the root group. -/
theorem GroupInv.sum_ratio_le (h : GroupInv s) {S : Finset τ} (hS : ∀ g ∈ S, g ∈ s.groups)
    (hanti : IsAntichain (Below s) (S : Set τ)) :
    ∑ g ∈ S, (s.rtBandwidth g).ratio.toNat ≤ (s.rtBandwidth s.rootTaskGroup).ratio.toNat := by
  obtain ⟨kids, t, hh⟩ := h.hierarchy
  have hsum : ∀ g ∈ t.preorder, ((kids g).map fun c => (s.rtBandwidth c).ratio.toNat).sum ≤
      (s.rtBandwidth g).ratio.toNat := fun g hg => by
    have hg' := (hh.mem g).mp hg
    rw [← hh.childRatios_eq hg']
    exact h.fits.sum g hg'
  exact hh.val ▸ sum_antichain_le hh.branches (fun g hg => hh.follows ((hh.mem g).mp hg)) hsum
    (fun g hg => (hh.mem g).mpr (hS g hg)) hanti

/-- The shares, but for what is rounded off. -/
theorem GroupInv.sum_share_le (h : GroupInv s) {S : Finset τ} (hS : ∀ g ∈ S, g ∈ s.groups)
    (hanti : IsAntichain (Below s) (S : Set τ)) :
    ∑ g ∈ S, (s.rtBandwidth g).share ≤
      ((s.rtBandwidth s.rootTaskGroup).ratio.toNat + S.card) / 2 ^ 20 := by
  have hsum : (∑ g ∈ S, ((s.rtBandwidth g).ratio.toNat : ℚ)) ≤
      (s.rtBandwidth s.rootTaskGroup).ratio.toNat := by exact_mod_cast h.sum_ratio_le hS hanti
  have hone : ∀ g ∈ S, (s.rtBandwidth g).share ≤ ((s.rtBandwidth g).ratio.toNat + 1) / 2 ^ 20 :=
    fun g hg => (le_div_iff₀ (by norm_num)).mpr
      (RtBandwidth.ratio_share (h.fits.ok g (hS g hg))).2
  calc ∑ g ∈ S, (s.rtBandwidth g).share
      ≤ ∑ g ∈ S, ((s.rtBandwidth g).ratio.toNat + 1 : ℚ) / 2 ^ 20 := Finset.sum_le_sum hone
    _ = (∑ g ∈ S, ((s.rtBandwidth g).ratio.toNat : ℚ) + S.card) / 2 ^ 20 := by
      rw [← Finset.sum_div, Finset.sum_add_distrib, Finset.sum_const, nsmul_eq_mul, mul_one]
    _ ≤ _ := div_le_div_of_nonneg_right (by linarith) (by norm_num)

/-- In every reachable state, whatever has been written to the limits and when, groups of which
none is below another have together no larger part of the time than the root group: in units of
`2 ^ -20`, and as fractions but for one such unit for each of them. So their ratios, those of the
children of a group for example, add up in 32 bits; the sum that rejects a request may wrap around. -/
theorem rt_groups_never_oversubscribed (h : Reachable groupSystem s) {S : Finset τ}
    (hS : ∀ g ∈ S, g ∈ s.groups) (hanti : IsAntichain (Below s) (S : Set τ)) :
    ∑ g ∈ S, (s.rtBandwidth g).ratio.toNat ≤ (s.rtBandwidth s.rootTaskGroup).ratio.toNat ∧
      ∑ g ∈ S, (s.rtBandwidth g).share ≤
        (s.rtBandwidth s.rootTaskGroup).share + S.card / 2 ^ 20 := by
  have hinv := reachable_groupInv h
  obtain ⟨kids, t, hh⟩ := hinv.hierarchy
  refine ⟨hinv.sum_ratio_le hS hanti, (hinv.sum_share_le hS hanti).trans ?_⟩
  rw [add_div]
  have hroot := (RtBandwidth.ratio_share (hinv.fits.ok _ hh.root_mem)).1
  have hle : ((s.rtBandwidth s.rootTaskGroup).ratio.toNat : ℚ) / 2 ^ 20 ≤
      (s.rtBandwidth s.rootTaskGroup).share := (div_le_iff₀ (by norm_num)).mpr hroot
  linarith

/-- Children of a group without a parent are not below one another. -/
theorem isAntichain_of_parent {p : τ} (hp : s.parent p = none) {S : Finset τ}
    (hS : ∀ g ∈ S, s.parent g = some p) : IsAntichain (Below s) (S : Set τ) := by
  have hbelow : ∀ a b, Below s a b → s.parent a = some p → b = p := by
    intro a b h
    induction h with
    | single hab => exact fun ha => Option.some.inj (hab.symm.trans ha)
    | tail _ hbc ih =>
      intro ha
      have hc : s.parent p = some _ := ih ha ▸ hbc
      rw [hp] at hc
      exact absurd hc (by simp)
  intro a ha b hb _ hab
  have hbp : b = p := hbelow a b hab (hS a ha)
  have hpb := hS b hb
  rw [hbp, hp] at hpb
  exact absurd hpb (by simp)

theorem rt_groups_never_oversubscribed_nestedGroups :
    ∃ s, execAll groupExec referenceGroups nestedGroups = some s ∧
      ∑ g ∈ {1, 2}, (s.rtBandwidth g).ratio.toNat ≤ (s.rtBandwidth s.rootTaskGroup).ratio.toNat ∧
      ∑ g ∈ {1, 2}, (s.rtBandwidth g).share ≤
        (s.rtBandwidth s.rootTaskGroup).share + (Finset.card {1, 2} : ℕ) / 2 ^ 20 := by
  obtain ⟨s, hs⟩ : ∃ s, s = (execAll groupExec referenceGroups nestedGroups).get
    (by decide +kernel) := ⟨_, rfl⟩
  have hrun : execAll groupExec referenceGroups nestedGroups = some s := by simp [hs]
  have hmem : ∀ g ∈ ({1, 2} : Finset ℕ), g ∈ s.groups := by rw [hs]; decide +kernel
  have hroot : s.parent 0 = none := by rw [hs]; decide +kernel
  have hparent : ∀ g ∈ ({1, 2} : Finset ℕ), s.parent g = some 0 := by rw [hs]; decide +kernel
  exact ⟨s, hrun, rt_groups_never_oversubscribed
    ((Reachable.init groupBoot_referenceGroups).run (run_of_execAll hrun)) hmem
    (isAntichain_of_parent hroot hparent)⟩

/-! ### The limit -/

/-- The last limit that has passed its check. -/
def TaskGroups.lastLimit (s : TaskGroups τ) : RtBandwidth :=
  match s.old with
  | none => s.limit
  | some (period, runtime) =>
    { s with sysctlSchedRtPeriod := period, sysctlSchedRtRuntime := runtime }.limit

/-- A step that sets a bandwidth, when no limit waits for its check. -/
def SetsBetweenWrites (s : TaskGroups τ) : GroupOp τ → Prop
  | .setRtRuntime _ _ => s.old = none
  | .setRtPeriod _ _ => s.old = none
  | _ => True

instance (s : TaskGroups τ) : ∀ op, Decidable (SetsBetweenWrites s op)
  | .setRtRuntime _ _ => inferInstanceAs (Decidable (s.old = none))
  | .setRtPeriod _ _ => inferInstanceAs (Decidable (s.old = none))
  | .create _ _ => .isTrue trivial
  | .destroy _ => .isTrue trivial
  | .writeRtPeriod _ => .isTrue trivial
  | .writeRtRuntime _ => .isTrue trivial
  | .checkWrite => .isTrue trivial
  | .threads _ => .isTrue trivial

/-- The root group has no more than the last limit. -/
structure LimitInv (s : TaskGroups τ) : Prop where
  ok : s.lastLimit.Ok
  root : (s.rtBandwidth s.rootTaskGroup).ratio ≤ s.lastLimit.ratio

omit [DecidableEq τ] in
theorem LimitInv.congr (h : LimitInv s) (hl : s'.lastLimit = s.lastLimit)
    (hb : s'.rtBandwidth s'.rootTaskGroup = s.rtBandwidth s.rootTaskGroup) : LimitInv s' :=
  ⟨hl ▸ h.ok, by rw [hl, hb]; exact h.root⟩

omit [DecidableEq τ] in
theorem limit_range (s : TaskGroups τ) :
    s.globalRtRuntime = runtimeInf64 ∨ s.globalRtRuntime.toNat < 2 ^ 44 := by
  exact runtimeOfUs_range s.sysctlSchedRtRuntime

omit [DecidableEq τ] in
theorem lastLimit_of_none (h : s.old = none) : s.lastLimit = s.limit := by
  rw [TaskGroups.lastLimit, h]

theorem LimitInv.setBandwidth (h : LimitInv s) (hold : s.old = none) {tg : τ} {x : RtBandwidth}
    (hroot : (Function.update s.rtBandwidth tg x s.rootTaskGroup).ratio ≤ s.limit.ratio) :
    LimitInv (s.setBandwidth tg x) :=
  ⟨h.ok, (lastLimit_of_none hold).symm ▸ hroot⟩

theorem LimitInv.step (h : LimitInv s) (hi : GroupInv s) {op : GroupOp τ}
    (hq : SetsBetweenWrites s op) (hx : GroupStep s op s') : LimitInv s' := by
  obtain ⟨kids, t, hh⟩ := hi.hierarchy
  cases hx with
  | @create p c hp hc =>
    have hne : s.rootTaskGroup ≠ c := fun he => hc (he ▸ hh.root_mem)
    exact h.congr rfl (Function.update_of_ne hne ..)
  | refuse => exact h
  | setRtRuntime ht us hb hret =>
    have hrange := hb ▸ runtimeOfUs_range us
    exact h.setBandwidth hq (((hi.rtSchedulable_iff ht hrange).mp hret).2 _ hh.root_mem).2
  | @setRtPeriod tg ht us b hb hret =>
    have hrange := hb ▸ (hi.fits.ok tg ht).imp_right And.right
    exact h.setBandwidth hq (((hi.rtSchedulable_iff ht hrange).mp hret).2 _ hh.root_mem).2
  | write hold => exact h.congr (lastLimit_of_none hold).symm rfl
  | @takeBack old hold =>
    -- the old limit is in force again
    have hlast : s.lastLimit =
        { s with sysctlSchedRtPeriod := old.1, sysctlSchedRtRuntime := old.2 }.limit := by
      rw [TaskGroups.lastLimit, hold]
    exact h.congr hlast.symm rfl
  | pass hold hret =>
    -- the new limit has been checked
    rw [schedRtGlobalConstraints] at hret
    split_ifs at hret with h₁ h₂
    · exact absurd (Option.some.inj hret) (by decide)
    · exact absurd (Option.some.inj hret) (by decide)
    have hall := (rtSchedulable_eq_zero_iff hh).mp hret
    have hroot := ((forall_tgRtSchedulable_iff hh hi.fits
      (fun tg ht => absurd ht (by simp))).mp hall).2 _ hh.root_mem
    rw [bandwidthIn_of_ne (by simp)] at hroot
    have hok : s.limit.Ok := by
      by_cases hinf : s.globalRtRuntime = runtimeInf64
      · exact .inl hinf
      · exact .inr ⟨UInt64.not_lt.mp fun hlt => h₂ ⟨hlt, hinf⟩, (limit_range s).resolve_left hinf⟩
    exact ⟨hok, hroot.2⟩
  | destroy | threads => exact h.congr rfl rfl

omit [DecidableEq τ] in
theorem LimitInv.boot (h : GroupBoot s) : LimitInv s := by
  have hlast : s.lastLimit = s.limit := by rw [TaskGroups.lastLimit, h.old]
  have hlimit : s.limit = ⟨1000000000, 950000000⟩ := by
    rw [TaskGroups.limit, TaskGroups.globalRtPeriod, TaskGroups.globalRtRuntime, h.period,
      h.runtime]
    rfl
  have hroot : s.rtBandwidth s.rootTaskGroup = s.limit := h.bandwidth
  refine ⟨?_, ?_⟩
  · rw [hlast, hlimit]
    exact .inr ⟨by decide, by decide⟩
  · rw [hlast, hroot]
    exact UInt32.le_refl _

theorem reachable_limitInv (h : Reachable (groupSystem.restrict SetsBetweenWrites) s) :
    LimitInv s := by
  induction h with
  | init hs => exact LimitInv.boot hs
  | step hs hstep ih =>
    exact ih.step (reachable_groupInv hs.of_restrict) hstep.1 (groupStep_of_exec hstep.2)

/-- When nothing is set while a limit waits for its check, groups of which none is below another
have together no more than the last limit that has passed: also while another one waits, and after it
has been taken back. This is exact in units of `2 ^ -20`, as the kernel rounds the ratios; as fractions
of the time the groups may have more by one such unit for each of them. -/
theorem rt_groups_within_limit (h : Reachable (groupSystem.restrict SetsBetweenWrites) s)
    {S : Finset τ} (hS : ∀ g ∈ S, g ∈ s.groups) (hanti : IsAntichain (Below s) (S : Set τ)) :
    ∑ g ∈ S, (s.rtBandwidth g).ratio.toNat ≤ s.lastLimit.ratio.toNat ∧
      ∑ g ∈ S, (s.rtBandwidth g).share ≤ s.lastLimit.share + S.card / 2 ^ 20 := by
  have hlimit := reachable_limitInv h
  have hinv := reachable_groupInv h.of_restrict
  have hle : (s.rtBandwidth s.rootTaskGroup).ratio.toNat ≤ s.lastLimit.ratio.toNat :=
    UInt32.le_iff_toNat_le.mp hlimit.root
  refine ⟨(hinv.sum_ratio_le hS hanti).trans hle, (hinv.sum_share_le hS hanti).trans ?_⟩
  rw [add_div]
  have hroot : ((s.rtBandwidth s.rootTaskGroup).ratio.toNat : ℚ) ≤ s.lastLimit.ratio.toNat := by
    exact_mod_cast hle
  have hle : ((s.rtBandwidth s.rootTaskGroup).ratio.toNat : ℚ) / 2 ^ 20 ≤ s.lastLimit.share :=
    (div_le_iff₀ (by norm_num)).mpr (hroot.trans (RtBandwidth.ratio_share hlimit.ok).1)
  linarith

/-- Execute steps that set no bandwidth during writes. -/
def nestedGroupsOk : Option (TaskGroups ℕ) :=
  execAll (fun s op => if SetsBetweenWrites s op then groupExec s op else none) referenceGroups
    nestedGroups

theorem reachable_nestedGroupsOk {s : TaskGroups ℕ} (h : nestedGroupsOk = some s) :
    Reachable (groupSystem.restrict SetsBetweenWrites) s :=
  (Reachable.init groupBoot_referenceGroups).run (run_restrict_of_execAll h)

theorem rt_groups_within_limit_nestedGroups :
    ∃ s, nestedGroupsOk = some s ∧
      ∑ g ∈ {1, 2}, (s.rtBandwidth g).ratio.toNat ≤ s.lastLimit.ratio.toNat ∧
      ∑ g ∈ {1, 2}, (s.rtBandwidth g).share ≤
        s.lastLimit.share + (Finset.card {1, 2} : ℕ) / 2 ^ 20 := by
  obtain ⟨s, hs⟩ : ∃ s, s = nestedGroupsOk.get (by decide +kernel) := ⟨_, rfl⟩
  have hrun : nestedGroupsOk = some s := by simp [hs]
  have hmem : ∀ g ∈ ({1, 2} : Finset ℕ), g ∈ s.groups := by rw [hs]; decide +kernel
  have hroot : s.parent 0 = none := by rw [hs]; decide +kernel
  have hparent : ∀ g ∈ ({1, 2} : Finset ℕ), s.parent g = some 0 := by rw [hs]; decide +kernel
  exact ⟨s, hrun, rt_groups_within_limit (reachable_nestedGroupsOk hrun) hmem
    (isAntichain_of_parent hroot hparent)⟩

/-! ### What is accepted -/

/-- The group `tg` may have the bandwidth `b`, by what its parent, its children and the limit
have. -/
def Room (s : TaskGroups τ) (tg : τ) (b : RtBandwidth) : Prop :=
  (b.rtRuntime = runtimeInf64 ∨ b.rtRuntime ≤ b.rtPeriod) ∧ b.ratio ≤ s.limit.ratio ∧
    s.childRatios s.rtBandwidth tg ≤ b.ratio.toNat ∧
    ∀ p, s.parent tg = some p →
      s.childRatios (Function.update s.rtBandwidth tg b) p ≤ (s.rtBandwidth p).ratio.toNat

/-- The threads of the processor count for the root group. -/
theorem reachable_rqTg (h : Reachable groupSystem s) : s.rqTg = s.rootTaskGroup := by
  refine h.invariant (fun s (hs : GroupBoot s) => hs.rqTg) fun s op s' _ ih hstep => ?_
  cases groupStep_of_exec hstep <;> exact ih

/-- No group is its own child. -/
theorem Hierarchy.notMem_childrenOf (h : Hierarchy s kids t) {g : τ} (hg : g ∈ s.groups) :
    g ∉ s.childrenOf g := by
  obtain ⟨u, rfl, hu, hnd, -⟩ := h.subtree hg
  rw [← (h.kids_perm hg).mem_iff]
  exact hu.val_notMem_kids hnd _ u.val_mem_preorder

/-- Only the bandwidths of the children matter to the sum over them. -/
theorem childRatios_update_of_notMem {g tg : τ} (h : tg ∉ s.childrenOf g) (x : RtBandwidth) :
    s.childRatios (Function.update s.rtBandwidth tg x) g = s.childRatios s.rtBandwidth g := by
  have hsame : ∀ c ∈ s.childrenOf g,
      (Function.update s.rtBandwidth tg x c).ratio.toNat = (s.rtBandwidth c).ratio.toNat :=
    fun c hc => by rw [Function.update_of_ne (ne_of_mem_of_not_mem hc h)]
  exact congrArg List.sum (List.map_congr_left hsame)

/-- Between writes of the limits, the check of all groups comes down to that of one group and of
the sum over its siblings. -/
theorem rtSchedulable_iff_room (hi : GroupInv s) (hl : LimitInv s) (hold : s.old = none)
    (hrq : s.rqTg = s.rootTaskGroup) {tg : τ} (ht : tg ∈ s.groups) {x : RtBandwidth}
    (hx : x.rtRuntime = runtimeInf64 ∨ x.rtRuntime.toNat < 2 ^ 44) :
    rtSchedulable s (some tg) x.rtPeriod x.rtRuntime = some 0 ↔
      Room s tg x ∧ ¬Starves s (Function.update s.rtBandwidth tg x) s.rootTaskGroup := by
  obtain ⟨kids, t, hh⟩ := hi.hierarchy
  rw [hi.rtSchedulable_iff ht hx]
  obtain ⟨b, hbdef⟩ : ∃ b, b = Function.update s.rtBandwidth tg x := ⟨_, rfl⟩
  have hself : b tg = x := by rw [hbdef, Function.update_self]
  have hother : ∀ g, g ≠ tg → b g = s.rtBandwidth g := fun g hg => by
    rw [hbdef, Function.update_of_ne hg]
  have hsame : ∀ g, tg ∉ s.childrenOf g → s.childRatios b g = s.childRatios s.rtBandwidth g :=
    fun g hg => hbdef ▸ childRatios_update_of_notMem hg x
  rw [Room, ← hbdef]
  constructor
  · rintro ⟨hfits, hall⟩
    refine ⟨⟨?_, hself ▸ (hall tg ht).2, ?_, fun p hp => ?_⟩, (hall _ hh.root_mem).1⟩
    · exact hself ▸ (hfits.ok tg ht).imp_right And.left
    · rw [← hsame tg (hh.notMem_childrenOf ht), ← hself]
      exact hfits.sum tg ht
    · have hne : tg ≠ s.rootTaskGroup := fun he => by
        rw [he, hh.root] at hp
        exact absurd hp (by simp)
      obtain ⟨q, hq, hpq, -⟩ := hh.exists_parent ht hne
      obtain rfl : p = q := Option.some.inj (hp.symm.trans hpq)
      have hptg : p ≠ tg := fun he =>
        hh.notMem_childrenOf ht (mem_childrenOf.mpr ⟨ht, he ▸ hp⟩)
      rw [← hother p hptg]
      exact hfits.sum p hq
  · rintro ⟨⟨hvalid, hlimit, hchild, hparent⟩, hstarve⟩
    refine ⟨⟨fun g hg => ?_, fun g hg => ?_⟩, fun g hg => ⟨?_, ?_⟩⟩
    · by_cases hgt : g = tg
      · rw [hgt, hself]
        by_cases hinf : x.rtRuntime = runtimeInf64
        · exact .inl hinf
        · exact .inr ⟨hvalid.resolve_left hinf, hx.resolve_left hinf⟩
      · rw [hother g hgt]
        exact hi.fits.ok g hg
    · by_cases hgt : g = tg
      · rw [hgt, hself, hsame tg (hh.notMem_childrenOf ht)]
        exact hchild
      · rw [hother g hgt]
        by_cases hmem : tg ∈ s.childrenOf g
        · exact hparent g (mem_childrenOf.mp hmem).2
        · rw [hsame g hmem]
          exact hi.fits.sum g hg
    · by_cases hgr : g = s.rootTaskGroup
      · rwa [hgr]
      · -- no thread counts for another group
        rintro ⟨-, -, hrt⟩
        rw [tgHasRtTasks, List.any_eq_true] at hrt
        obtain ⟨prio, -, hprio⟩ := hrt
        rw [Bool.and_eq_true, decide_eq_true_eq] at hprio
        exact hgr (hprio.2.symm.trans hrq)
    · by_cases hgt : g = tg
      · rw [hgt, hself]
        exact hlimit
      · -- no group has more than the root group
        have hone := hi.sum_ratio_le (S := {g}) (by simpa using hg)
          (by simp)
        rw [Finset.sum_singleton] at hone
        rw [hother g hgt, ← lastLimit_of_none hold]
        exact UInt32.le_iff_toNat_le.mpr (hone.trans (UInt32.le_iff_toNat_le.mp hl.root))

omit [DecidableEq τ] in
/-- What has been set is read back; a limit that has been lifted reads as `-1`. -/
theorem schedGroupRtRuntime_eq {tg : τ} {us : Int32}
    (h : (s.rtBandwidth tg).rtRuntime = runtimeOfUs us) :
    (schedGroupRtRuntime s tg).toInt = max us.toInt (-1) := by
  rw [schedGroupRtRuntime, h, runtimeOfUs]
  by_cases hneg : us < 0
  · have hlt : us.toInt < 0 := by
      rw [Int32.lt_iff_toInt_lt] at hneg
      simpa using hneg
    rw [if_pos hneg, if_pos rfl, max_eq_right (by omega)]
    rfl
  · have hpos : 0 ≤ us.toInt := by
      rw [Int32.lt_iff_toInt_lt] at hneg
      simpa using hneg
    have hlt : us.toInt < 2 ^ 31 := us.toInt_lt
    obtain ⟨hmul, hrange⟩ := ofInt_mul_lt hpos
    have hk : nsecPerUsec.toNat = 1000 := rfl
    have hne : UInt64.ofInt us.toInt * nsecPerUsec ≠ runtimeInf64 := fun he => by
      have hinf : runtimeInf64.toNat = 2 ^ 64 - 1 := rfl
      rw [he, hinf] at hmul
      omega
    have hdiv : (UInt64.ofInt us.toInt * nsecPerUsec / nsecPerUsec).toNat = us.toInt.toNat := by
      rw [UInt64.toNat_div, hmul, hk]
      omega
    rw [if_neg hneg, if_neg hne, hdiv, max_eq_left (by omega), Int32.toInt_ofNat_of_lt (by omega)]
    omega

/-- Between writes of the limits, a run time is accepted if and only if it fits the group, its
siblings and the limit, and does not starve the root group: no other group is in the way, and the
check for tasks protects no group but the root. An error changes nothing, and an accepted run time
is read back. -/
theorem set_rt_runtime_accepted_iff (h : Reachable (groupSystem.restrict SetsBetweenWrites) s)
    (hold : s.old = none) {tg : τ} (ht : tg ∈ s.groups) (us : Int32) :
    ∃ ret s', schedGroupSetRtRuntime s tg us = some (ret, s') ∧
      (ret = 0 ↔ Room s tg ⟨(s.rtBandwidth tg).rtPeriod, runtimeOfUs us⟩ ∧
        ¬Starves s (Function.update s.rtBandwidth tg
          ⟨(s.rtBandwidth tg).rtPeriod, runtimeOfUs us⟩) s.rootTaskGroup) ∧
      (ret ≠ 0 → s' = s ∧ ret ∈ [-einval, -ebusy]) ∧
      (ret = 0 → (schedGroupRtRuntime s' tg).toInt = max us.toInt (-1)) := by
  have hi := reachable_groupInv h.of_restrict
  obtain ⟨kids, t, hh⟩ := hi.hierarchy
  obtain ⟨x, hxdef⟩ : ∃ x : RtBandwidth, x = ⟨(s.rtBandwidth tg).rtPeriod, runtimeOfUs us⟩ :=
    ⟨_, rfl⟩
  have hroom := rtSchedulable_iff_room hi (reachable_limitInv h) hold
    (reachable_rqTg h.of_restrict) ht (x := x) (hxdef ▸ runtimeOfUs_range us)
  obtain ⟨ret, hret⟩ : ∃ ret, rtSchedulable s (some tg) x.rtPeriod x.rtRuntime = some ret :=
    ⟨_, rtSchedulable_eq hh ..⟩
  have hmem : ret ∈ [0, -einval, -ebusy] := by
    rw [rtSchedulable_eq hh, Option.some.injEq] at hret
    by_cases h0 : ret = 0
    · simp [h0]
    · obtain ⟨g, -, hg⟩ := List.mem_map.mp (hret ▸ firstError_mem (hret.symm ▸ h0))
      exact hg ▸ (tgRtSchedulable_error s g _).1
  have hset : schedGroupSetRtRuntime s tg us =
      some (if ret ≠ 0 then (ret, s) else (0, s.setBandwidth tg x)) := by
    rw [hxdef] at hret ⊢
    rw [schedGroupSetRtRuntime, tgSetRtBandwidth, hret]
    rfl
  rw [hret, Option.some.injEq] at hroom
  rw [← hxdef, ← hroom]
  by_cases h0 : ret = 0
  · rw [h0, if_neg (by simp)] at hset
    refine ⟨0, _, hset, by simp [h0], by simp, fun _ => schedGroupRtRuntime_eq ?_⟩
    simp [TaskGroups.setBandwidth, hxdef]
  · rw [if_pos h0] at hset
    exact ⟨ret, s, hset, Iff.rfl, fun _ => ⟨rfl, by simpa [h0] using hmem⟩, fun hz => absurd hz h0⟩

theorem set_rt_runtime_accepted_iff_nestedGroups :
    ∃ s, nestedGroupsOk = some s ∧
      ∃ ret s', schedGroupSetRtRuntime s 3 250000 = some (ret, s') ∧
        (ret = 0 ↔ Room s 3 ⟨(s.rtBandwidth 3).rtPeriod, runtimeOfUs 250000⟩ ∧
          ¬Starves s (Function.update s.rtBandwidth 3
            ⟨(s.rtBandwidth 3).rtPeriod, runtimeOfUs 250000⟩) s.rootTaskGroup) ∧
        (ret ≠ 0 → s' = s ∧ ret ∈ [-einval, -ebusy]) ∧
        (ret = 0 → (schedGroupRtRuntime s' 3).toInt = max (250000 : Int32).toInt (-1)) := by
  obtain ⟨s, hs⟩ : ∃ s, s = nestedGroupsOk.get (by decide +kernel) := ⟨_, rfl⟩
  have hrun : nestedGroupsOk = some s := by simp [hs]
  have hmem : 3 ∈ s.groups := by rw [hs]; decide +kernel
  have hold : s.old = none := by rw [hs]; decide +kernel
  exact ⟨s, hrun, set_rt_runtime_accepted_iff (reachable_nestedGroupsOk hrun) hold hmem 250000⟩

end OsProject.Sched
