import MzCache.Sync.Progress

/-!
# Layer synchronisation

In `swapin_generate` a layer's promise is set exactly once, and not before everything that
was evicted from the layer is back. Three of the four variants therefore never let the
decode pass a layer too early; the fourth starts the decode before it rebuilds `layer_sync`,
and then a wait on the old vector returns at once.
-/

namespace MzCache.Theorems

open MzCache MzCache.Lib MzCache.Sync

section

variable {cfg : Config} {io : Io} {early : List ℕ} {v : Variant} {w : Work} {c : Core}

/-- In every schedule of `swapin_generate` the counters stay non-negative, a promise is
set at most once and only for a restored layer, and every look-up finds its future; no schedule
goes on forever, and one that stops has set every promise once. -/
theorem swapinGenerate_layer_sync (hc : (engine cfg io).Reachable c)
    (hw : cycleWork .generate cfg io early c = some w) (workers : CoreType → ℕ) :
    (cycle cfg workers .generate w c).Invariant (LayerSyncSafe c) ∧
      (∀ run : ℕ → Sys, CycleStart .generate w c (run 0) →
        ¬ ∀ n, (cycle cfg workers .generate w c).step (run n) (run (n + 1))) ∧
      ((∀ g, 0 < workers g) → ∀ s, (cycle cfg workers .generate w c).Reachable s →
        Stuck cfg.numLayers workers s →
        ∀ i < cfg.numLayers, ∃ y, s.layerSync[i]? = some y ∧ y.sets = 1) := by
  have hok := (engine_ok c hc).1
  have hof := workOf_of_cycleWork hok hw
  refine ⟨fun s hs => layerSyncSafe_of_inv hok hof (cycle_inv hok hof hs),
    cycle_finite hok hof, fun hworkers s hs hstuck i hi => ?_⟩
  exact stuck_sets (cycle_inv hok hof hs) (cycle_live hok hof hs) hstuck hworkers
    (by rw [hof.length_totals]; exact hi)

end

/-- The small engine, swapped out completely, has three tasks for each layer. -/
theorem swapinGenerate_layer_sync_smallOut :
    ∃ w, cycleWork .generate .small .ok [] .smallOut = some w ∧ w.totals = [3, 3] ∧
      ∀ workers, (cycle .small workers .generate w .smallOut).Invariant
        (LayerSyncSafe .smallOut) := by
  obtain ⟨w, hw⟩ := Option.isSome_iff_exists.mp
    (cycleWork_isSome .generate .small .ok (fun _ => rfl) [] .smallOut)
  refine ⟨w, hw, ?_, fun workers =>
    (swapinGenerate_layer_sync Core.smallOut_reachable hw workers).1⟩
  rw [(workOf_of_cycleWork (engine_ok _ Core.smallOut_reachable).1 hw).totals]
  with_unfolding_all decide

section

variable {cfg : Config} {io : Io} {early : List ℕ} {v : Variant} {w : Work} {c : Core}

/-- The decode never passes a layer that is not restored, whatever the schedule, exactly
when the variant rebuilds `layer_sync` before it starts the decode or nothing is evicted. -/
theorem compute_behind_restore_iff (hc : (engine cfg io).Reachable c)
    (hw : cycleWork v cfg io early c = some w) (workers : CoreType → ℕ) :
    (∀ s, (cycle cfg workers v w c).Reachable s → s.decode = .computing →
        ∀ i < cfg.numLayers, s.passes i = true → Restored c s i) ↔
      v ≠ .noAllocOverlap ∨ ∀ i < cfg.numLayers, Untouched c i := by
  have hok := (engine_ok c hc).1
  have hof := workOf_of_cycleWork hok hw
  constructor
  · intro hall
    by_contra hno
    push Not at hno
    obtain ⟨rfl, i, hi, hev⟩ := hno
    obtain ⟨s, hs, hd, hpass, hst, hwl⟩ := noAllocOverlap_computes cfg workers w c
    obtain ⟨hkv, hweight⟩ := hall s hs hd i hi (hpass i)
    refine hev ⟨fun j hj => ?_, hwl ▸ hweight⟩
    have := hkv j hj
    rwa [hst] at this
  · rintro (hv | hu) s hs hd i hi hp
    · exact restored_of_passes hok hof hv hs hd hi hp
    · exact (hu i hi).restored (cycle_inv hok hof hs)

end

/-- `swapin_generate` on the small engine, swapped out completely. -/
theorem compute_behind_restore_smallOut :
    ∃ w, cycleWork .generate .small .ok [] .smallOut = some w ∧
      ∀ workers s, (cycle .small workers .generate w .smallOut).Reachable s →
        s.decode = .computing → s.passes 0 = true → s.states (0, 0) = .raw := by
  obtain ⟨w, hw⟩ := Option.isSome_iff_exists.mp
    (cycleWork_isSome .generate .small .ok (fun _ => rfl) [] .smallOut)
  refine ⟨w, hw, fun workers s hs hd hp => ?_⟩
  have hr := (compute_behind_restore_iff Core.smallOut_reachable hw workers).mpr
    (Or.inl (by simp)) s hs hd 0 (by decide) hp
  exact hr.1 0 (by with_unfolding_all decide)

/-- `swapin_generate_no_alloc_overlap` on the same state: the decode passes layer 0 while its
first chunk is compressed, its second one stored and its weights unloaded. -/
theorem decode_passes_unrestored_layer :
    ∃ w s, cycleWork .noAllocOverlap .small .ok [] .smallOut = some w ∧
      (cycle .small (fun _ => 1) .noAllocOverlap w .smallOut).Reachable s ∧
      s.decode = .computing ∧ s.passes 0 = true ∧ s.states (0, 0) = .compressed ∧
      s.states (0, 1) = .stored ∧ s.weightLoaded 0 = false := by
  obtain ⟨w, hw⟩ := Option.isSome_iff_exists.mp
    (cycleWork_isSome .noAllocOverlap .small .ok (fun _ => rfl) [] .smallOut)
  obtain ⟨s, hs, hd, hpass, hst, hwl⟩ := noAllocOverlap_computes .small (fun _ => 1) w .smallOut
  refine ⟨w, s, hw, hs, hd, hpass 0, ?_, ?_, ?_⟩
  · rw [hst]
    with_unfolding_all decide
  · rw [hst]
    with_unfolding_all decide
  · rw [hwl]
    with_unfolding_all decide

end MzCache.Theorems
