import MzCache.Core.PlannerBounds

/-!
# When the planner's totals are feasible

Whatever the engine has evicted so far, the planner asks for chunks the plan has. It asks
for layers the model has, and so predicts no negative ratio, if no layer is unloaded yet;
otherwise exactly if unloading the remaining ones reaches the target.
-/

namespace MzCache.Theorems

open MzCache MzCache.Lib

/-- Totals the engine can reach from `c`: the ratio, and the chunks to compress, the chunks to
store and the layers to unload. -/
structure Feasible (cfg : Config) (c : Core) (r : ℚ × Int × Int × Int) : Prop where
  comp_ge : c.kv.nCurCompChunks ≤ r.2.1
  comp_le : r.2.1 ≤ c.kv.maxCompChunks
  store_ge : c.kv.nCurStoreChunks ≤ r.2.2.1
  store_le : r.2.2.1 ≤ c.kv.maxStoreChunks
  unload_ge : c.nCurUnloadLayers ≤ r.2.2.2
  unload_le : r.2.2.2 ≤ cfg.numLayers
  chunks : r.2.1 + r.2.2.1 ≤ c.totalChunks cfg
  freed : getFreedBytes cfg r.2.1 r.2.2.1 r.2.2.2 ≤ c.fullBytes
  ratio : 0 ≤ r.1

/-- The planner's totals are feasible if and only if no layer is unloaded yet or unloading the
remaining ones reaches the target. -/
theorem planner_feasible_iff (cfg : Config) (io : Io) (c : Core)
    (hreach : (engine cfg io).Reachable c) (target : ℚ) :
    Feasible cfg c (mzcacheProfileChunksLayers cfg target c) ↔
      c.nCurUnloadLayers = 0 ∨ (Plan.allUnloaded cfg c).ratio cfg c ≤ target := by
  obtain ⟨⟨hok, hphase⟩, ht⟩ := engine_totals c hreach
  have hun := ht.nonneg
  have hres : mzcacheProfileChunksLayers cfg target c =
      ((planEnd cfg target c).ratio cfg c, (planEnd cfg target c).compChunks,
        (planEnd cfg target c).storeChunks, (planEnd cfg target c).unloadLayers) := rfl
  obtain ⟨hw, hge, hle⟩ := planEnd_within hok hphase target
  rw [hres]
  constructor
  · intro h
    rcases eq_or_lt_of_le hun with hzero | hpos
    · exact Or.inl hzero.symm
    · exact Or.inr ((planEnd_unload_le hok ht hpos target).mp h.unload_le)
  · intro hcond
    have hunload : (planEnd cfg target c).unloadLayers ≤ cfg.numLayers := by
      rcases eq_or_lt_of_le hun with hzero | hpos
      · omega
      · refine (planEnd_unload_le hok ht hpos target).mpr (hcond.resolve_left ?_)
        exact ne_of_gt hpos
    have hnn : 0 ≤ (planEnd cfg target c).compChunks :=
      le_trans hok.ladder.nComp_nonneg hw.comp_ge
    have hsum : (planEnd cfg target c).compChunks + (planEnd cfg target c).storeChunks ≤
        c.totalChunks cfg := by
      have h1 := hok.totalChunks
      have h2 := hw.comp_le
      have h3 := hw.store_le
      omega
    have hfreed := getFreedBytes_le_full ht.full hnn hsum hunload
    refine ⟨hw.comp_ge, hw.comp_le, hw.store_ge, hw.store_le, hge, hunload, hsum, hfreed, ?_⟩
    refine Plan.ratio_nonneg ?_ hfreed
    rw [ht.full]
    exact fullBytesOf_nonneg cfg _

/-- On the small engine, swapped out completely, the planner asks for two layers more than
there are. -/
theorem planner_infeasible_smallOut :
    (engine .small .ok).Reachable .smallOut ∧ Core.smallOut.nCurUnloadLayers = 2 ∧
      (mzcacheProfileChunksLayers .small 0 .smallOut).2 = (2, 2, 4) ∧
      ¬ Feasible .small .smallOut (mzcacheProfileChunksLayers .small 0 .smallOut) := by
  have hplan : (mzcacheProfileChunksLayers .small 0 .smallOut).2 = (2, 2, 4) := by
    with_unfolding_all decide
  refine ⟨Core.smallOut_reachable, by with_unfolding_all decide, hplan, ?_⟩
  intro h
  have hle := h.unload_le
  rw [hplan] at hle
  exact absurd hle (by decide)

/-- From the fresh small engine the planner asks for everything there is. -/
theorem planner_feasible_small :
    (mzcacheProfileChunksLayers .small 0 .small).2 = (2, 2, 2) ∧
      Feasible .small .small (mzcacheProfileChunksLayers .small 0 .small) :=
  ⟨by with_unfolding_all decide,
    (planner_feasible_iff .small .ok .small (Core.small_reachable .ok) 0).mpr (Or.inl rfl)⟩

end MzCache.Theorems
