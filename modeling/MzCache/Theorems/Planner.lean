import MzCache.Core.Planner
import MzCache.Theorems.Accounting

/-!
# Planner and executor

What `mzcache_profile_chunks_layers` returns for a target is what `swapout_impl` with
that target has evicted when it leaves phase 2, from every state the engine reaches
with no layer unloaded, no arena offloaded and no growth parked.
-/

namespace MzCache.Theorems

open MzCache MzCache.Lib

/-- The byte totals are in order in every state of the engine. -/
theorem engine_acct {cfg : Config} {io : Io} (hf : cfg.FixedRate) :
    (engine cfg io).Invariant fun c => (CoreOk cfg c ∧ PhaseOk cfg c.kv) ∧ Acct cfg c.kv := by
  refine TSys.invariant_of_step ?_ ?_
  · rintro c ⟨n, alloc, mem, hpos, hle, rfl⟩
    have hok := CoreOk.init n alloc mem hpos hle
    exact ⟨⟨hok, hok.ladder.phaseOk_of_clean rfl rfl⟩, acct_init cfg n alloc mem⟩
  · intro c c' ⟨h, ha⟩ hs
    refine ⟨engineStep_ok h hs, ?_⟩
    cases hs with
    | swapout target ratio c' hs => exact ha.evictRun hf h.1 (h.1.swapout h.2 hs).2.2
    | swapin early late r hs => exact ha.swapinGenerate h.1 hs
    | grow need => exact (ha.mzGrowChunks need).1
    | grown n => exact ha.onKvChunksGrown n
    | write l j mem hw => exact ha.keep rfl rfl

/-- With no growth parked, `swapout_impl` enters its loops from the core as it is. -/
theorem planned_start {cfg : Config} {c : Core} (hok : CoreOk cfg c) (ha : Acct cfg c.kv)
    (hoff : c.kv.nCurArenaOffloadBytes = 0)
    (hpend : c.kv.pendingChunksTotal ≤ c.kv.numChunksPerTensor) (target : ℚ) :
    Planned cfg c (swapoutStart cfg target c).core (Plan.start c) := by
  have hgrow : applyPendingGrowth cfg c.kv = { c.kv with pendingChunksTotal := 0 } := by
    unfold applyPendingGrowth
    rw [if_neg (by omega)]
  have hcore : (swapoutStart cfg target c).core =
      { c with kv := { c.kv with pendingChunksTotal := 0 } } := by
    unfold swapoutStart
    dsimp only
    rw [hgrow]
    exact followKv_of_eq hok.follow
  rw [hcore]
  exact
    { ok := hok.withKv (hok.ladder.of_view rfl) rfl
      acct := ha.keep rfl rfl
      noOffload := hoff
      full := rfl
      chunks := rfl
      maxComp := rfl
      maxStore := rfl
      comp := rfl
      store := rfl
      unloaded := rfl
      processed := rfl }

/-- The planner's totals and ratio are those of the executor at the end of phase 2. -/
theorem planner_eq_executor (cfg : Config) (hf : cfg.FixedRate) (io : Io) (c : Core)
    (hreach : (engine cfg io).Reachable c) (hunload : c.nCurUnloadLayers = 0)
    (hoff : c.kv.nCurArenaOffloadBytes = 0)
    (hpend : c.kv.pendingChunksTotal ≤ c.kv.numChunksPerTensor) (io' : Io)
    (hstore : ∀ t, (io' .storeOpen t).opened) (hdump : ∀ t, (io' .weightDump t).opened)
    (target : ℚ) :
    ∃ k, let at' := fun j => (swapoutStart cfg target c).run cfg io' target j
      (∀ j < k, (at' j).Evicting) ∧ ¬ (at' k).Evicting ∧
      mzcacheProfileChunksLayers cfg target c =
        ((at' k).core.curRatio cfg, (at' k).core.kv.nCurCompChunks,
          (at' k).core.kv.nCurStoreChunks, (at' k).core.nCurUnloadLayers) := by
  obtain ⟨⟨hok, hphase⟩, ha⟩ := engine_acct hf c hreach
  have hplan := planned_start hok ha hoff hpend target
  have hm := (SwapoutOk.start io' target hok hphase).1
  set m := swapoutStart cfg target c with hmdef
  set start := Plan.start c
  have hends : EndsAt cfg io' target c m
      (planPhases cfg target c (c.boundChunks cfg - start.processedChunks).toNat start) := by
    have hratio := hplan.ratio hf
    have hpc : m.pc = if m.core.curRatio cfg ≤ target then .returned (m.core.curRatio cfg)
        else .phase1 := rfl
    by_cases hreached : start.ratio cfg c ≤ target
    · rw [planPhases_reached hreached]
      rw [if_pos (by rw [hratio]; exact hreached)] at hpc
      exact EndsAt.here (Swapout.not_evicting_returned hpc) hplan
    · rw [if_neg (by rw [hratio]; exact hreached)] at hpc
      have hzero : m.initialUnloadLayers = 0 := by
        have hun := hm.pc
        rw [hpc] at hun
        rw [hun.2.1, hplan.unloaded]
        exact hunload
      exact Planned.phase1 hf hstore hdump target _ m start hm hpc hzero hplan hreached
        (by omega)
  obtain ⟨k, hin, hout, hp⟩ := hends
  refine ⟨k, hin, hout, ?_⟩
  unfold mzcacheProfileChunksLayers
  dsimp only
  rw [hp.ratio hf, hp.comp, hp.store, hp.unloaded]

/-- The small engine asked to keep nothing: both chunks of each kind and both layers go, and
the executor gets there too. -/
theorem planner_eq_executor_small :
    ∃ k, let m := (swapoutStart .small 0 .small).run .small .ok 0 k
      ¬ m.Evicting ∧ (m.core.kv.nCurCompChunks, m.core.kv.nCurStoreChunks,
        m.core.nCurUnloadLayers) = (2, 2, 2) := by
  obtain ⟨k, _, hout, heq⟩ := planner_eq_executor .small (Or.inl rfl) .ok .small
    (Core.small_reachable .ok) rfl rfl (by decide) .ok (fun _ => rfl) (fun _ => rfl) 0
  refine ⟨k, hout, ?_⟩
  have hplan : (mzcacheProfileChunksLayers .small 0 .small).2 = (2, 2, 2) := by
    with_unfolding_all decide
  rw [heq] at hplan
  exact hplan

end MzCache.Theorems
