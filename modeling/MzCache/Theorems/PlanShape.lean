import MzCache.Core.Engine

/-!
# The shape of a plan and what the phases of a swapout ask of it

With exact arithmetic the compress regions shrink from layer to layer, cover the balance
chunks, and leave the rest to the store regions. Whatever the arithmetic and the file
operations do, phase 1 of a swapout that runs to its end leaves the balance chunks at most,
and phase 2 asks for no more than the compress regions still hold.
-/

namespace MzCache.Theorems

open MzCache MzCache.Lib

/-- `derive_swapout_plan` and the two phases that follow its plan. -/
theorem swapout_plan_shape (cfg : Config) :
    ((∀ x, cfg.f32.fl x = x) → ∀ s : KvState,
      let p := deriveSwapoutPlan cfg s
      let n := s.numChunksPerTensor
      (∀ i, p.chunkBound i ≤ n) ∧ Antitone p.chunkBound ∧
      (∀ i j, i ≤ j → p.chunkBound i = 0 → p.chunkBound j = 0) ∧
      (∀ i j, i ≤ j → p.chunkBound j = n → p.chunkBound i = n) ∧
      p.maxCompChunks + p.maxStoreChunks = n * cfg.numLayers ∧
      min (cfg.perLayerBalance * cfg.numLayers : Int) (n * cfg.numLayers) ≤ p.maxCompChunks) ∧
    ∀ io c, (engine cfg io).Reachable c → ∀ (io' : Io) (target : ℚ) (k : Nat),
      let m := (swapoutStart cfg target c).run cfg io' target k
      let m' := m.step cfg io' target
      (m.pc = .phase1 → ∀ i, m'.pc = .phase2 i →
        (m'.core.numChunksPerTensor * cfg.numLayers : Int) -
            cfg.perLayerBalance * cfg.numLayers ≤ m'.processedChunks ∧
          m'.processedChunks = m'.core.kv.nCurCompChunks + m'.core.kv.nCurStoreChunks ∧
          ∀ e ∈ m'.core.kv.storeCells cfg, m'.core.kv.states e.1 e.2 = .stored) ∧
      ∀ i, m.pc = .phase2 (i + 1) →
        min (cfg.perLayerBalance : Int) (m.core.totalChunks cfg - m.processedChunks) ≤
          (m.core.kv.compCells cfg).length - (m.core.kv.compBeyond cfg).length := by
  constructor
  · intro hexact s p n
    have hanti : Antitone p.chunkBound := chunkBounds_antitone cfg hexact
    have hle : ∀ i, p.chunkBound i ≤ n := by
      intro i
      have h := (chunkBounds_shape (cfg.exactUpTo n) (le_max_left n _)).le i
      rw [chunkBounds_exactUpTo cfg hexact] at h
      exact h
    refine ⟨hle, hanti, ?_, ?_, chunkBounds_total cfg n, ?_⟩
    · intro i j hij hz
      have h := hanti hij
      omega
    · intro i j hij hn
      have h := hanti hij
      have := hle i
      omega
    · have h := maxComp_ge_balance (cfg.exactUpTo n) (n := n) (le_max_left n _)
      rw [chunkBounds_exactUpTo cfg hexact] at h
      unfold nWeightBalanceChunks at h
      push_cast at h
      exact h
  · intro io c hreach io' target k m m'
    obtain ⟨hok, hphase⟩ := engine_ok c hreach
    have hm : SwapoutOk cfg m :=
      ((SwapoutOk.start io' target hok hphase).1.run io' target k).1
    constructor
    · intro hpc i hend
      have hm' : SwapoutOk cfg m' := (hm.step io' target).1
      have hpc' := hm'.pc
      rw [hend] at hpc'
      obtain ⟨hproc, -, hfull⟩ := hpc'
      have hstep : m' = phase1Step cfg io' target m := by
        show m.step cfg io' target = _
        unfold Swapout.step
        rw [hpc]
      refine ⟨?_, hproc, ?_⟩
      · have h := @SwapoutOk.phase1_end cfg io' m target hm hpc i (by rw [← hstep]; exact hend)
        rw [← hstep] at h
        exact h
      · intro e he
        rw [← hm'.core.ladder.storeBeyond_of_full hfull] at he
        exact ((hm'.core.ladder.stored_iff e).mp he).2.2
    · intro i hpc
      have hpc' := hm.pc
      rw [hpc] at hpc'
      obtain ⟨hproc, -, hfull⟩ := hpc'
      have h1 := hm.core.totalChunks
      have h2 := hm.core.ladder.length_compCells
      have h3 := hm.core.ladder.nComp
      omega

/-- The small engine halves each layer's chunks, and its swapout stores both store regions
before phase 2. -/
theorem swapout_plan_small :
    Antitone (deriveSwapoutPlan .small Core.small.kv).chunkBound ∧
      (deriveSwapoutPlan .small Core.small.kv).maxStoreChunks = 2 ∧
      ((swapoutStart .small 0 .small).run .small .ok 0 1).step .small .ok 0 =
        (swapoutStart .small 0 .small).run .small .ok 0 2 ∧
      ∀ e ∈ ((swapoutStart .small 0 .small).run .small .ok 0 2).core.kv.storeCells .small,
        ((swapoutStart .small 0 .small).run .small .ok 0 2).core.kv.states e.1 e.2 = .stored := by
  obtain ⟨hplan, hrun⟩ := swapout_plan_shape .small
  have hphase := (hrun .ok .small (Core.small_reachable .ok) .ok 0 1).1
  refine ⟨(hplan (fun _ => rfl) Core.small.kv).2.1, by with_unfolding_all decide, rfl, ?_⟩
  exact (hphase (by with_unfolding_all decide) 2 (by with_unfolding_all decide)).2.2

end MzCache.Theorems
