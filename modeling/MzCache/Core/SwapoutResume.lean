import MzCache.Core.SwapoutAlike

/-!
# Stopping a swapout and going on

Where every call succeeds, a swapout from a clean ladder goes down one fixed sequence of
loop heads and leaves it at the first one whose ratio is low enough. `Descent` is what holds
at these heads. A second call derives its bounds anew from the counters and arrives, after
at most two empty steps, at the head where the first one stopped.
-/

namespace MzCache

open MzCache.Lib

/-- The machine has not returned. -/
def Swapout.AtHead (m : Swapout) : Prop := ∀ ratio, m.pc ≠ .returned ratio

/-- Nothing is left to evict: chunks, weight layers, arenas. -/
structure Core.Emptied (cfg : Config) (c : Core) : Prop where
  chunks : c.kv.AllOut
  weights : c.nCurUnloadLayers = cfg.numLayers
  arenas : c.kv.nextLayerToOffload < 0

/-- What holds on the way down from a clean ladder: no head has reached the target, phase 2
has enough layers left for the balance chunks, and only an emptied engine misses the
target. -/
structure Descent (cfg : Config) (target : ℚ) (m : Swapout) : Prop where
  ok : SwapoutOk cfg m
  totals : m.Totals cfg
  pending : m.core.kv.pendingChunksTotal = 0
  above : m.AtHead → target < m.core.curRatio cfg
  fresh : m.pc = .phase1 → m.core.nCurUnloadLayers = 0
  left : ∀ i, m.pc = .phase2 i →
    m.core.totalChunks cfg - m.processedChunks ≤ cfg.perLayerBalance * i
  weights : m.pc = .phase3 → m.core.nCurUnloadLayers = cfg.numLayers
  done : ∀ ratio, m.pc = .returned ratio →
    ratio = m.core.curRatio cfg ∧ (ratio ≤ target ∨ m.core.Emptied cfg)

section

variable {cfg : Config} {io : Io} {target : ℚ} {m : Swapout}

/-! ## Growth stays away -/

theorem compressChunks_pending (n : Nat) : ∀ s : KvState,
    (mzcacheCompressChunks cfg n s).1.pendingChunksTotal = s.pendingChunksTotal := by
  induction n with
  | zero => intro s; rfl
  | succ n ih =>
      intro s
      rw [mzcacheCompressChunks]
      dsimp only
      split
      · rfl
      · exact ih _

theorem storeChunks_pending (n : Nat) : ∀ s : KvState,
    (mzcacheStoreChunks cfg io n s).pendingChunksTotal = s.pendingChunksTotal := by
  induction n with
  | zero => intro s; rfl
  | succ n ih =>
      intro s
      obtain ⟨fds, tick, hopen⟩ := openToStore_eq io s.skipToStore.curToStore.row.toNat s.skipToStore
      rw [mzcacheStoreChunks]
      dsimp only
      split
      · rfl
      · rw [hopen]
        split
        · exact ih _
        · rfl

theorem offloadArenas_pending (s : KvState) :
    (mzcacheOffloadArenas io s).1.pendingChunksTotal = s.pendingChunksTotal := by
  unfold mzcacheOffloadArenas
  split
  · rfl
  · dsimp only
    split
    · split <;> rfl
    · rfl

/-- A swapout parks no growth. -/
theorem Swapout.step_pending (m : Swapout) :
    (m.step cfg io target).core.kv.pendingChunksTotal = m.core.kv.pendingChunksTotal := by
  have hevict : ∀ c : Core, ∀ a b : Int,
      (phase1Evict cfg io c a b).kv.pendingChunksTotal = c.kv.pendingChunksTotal := by
    intro c a b
    unfold phase1Evict
    dsimp only
    split
    · rw [storeChunks_pending]
      split
      · exact compressChunks_pending _ _
      · rfl
    · split
      · exact compressChunks_pending _ _
      · rfl
  have hunload : (mzcacheUnloadLayers io 1 (phase2Compress cfg m)).1.kv.pendingChunksTotal =
      m.core.kv.pendingChunksTotal := by
    obtain ⟨tick, hkv⟩ := unloadLayers_kv io 1 (phase2Compress cfg m)
    rw [hkv]
    unfold phase2Compress
    dsimp only
    split
    · exact compressChunks_pending _ _
    · rfl
  unfold Swapout.step
  split
  · unfold phase1Step
    split
    · dsimp only
      split
      · exact hevict _ _ _
      · split
        · exact hevict _ _ _
        · exact hevict _ _ _
    · rfl
  · rw [enterPhase3_core]
  · unfold phase2Step
    dsimp only
    split
    · split
      · exact hunload
      · split
        · rw [enterPhase3_core]
          exact hunload
        · exact hunload
    · rw [enterPhase3_core]
      exact hunload
  · unfold phase3Step
    split
    · dsimp only
      split
      · exact offloadArenas_pending _
      · exact offloadArenas_pending _
    · rfl
  · rfl

/-! ## The way down -/

/-- Leaving phase 2 with everything out leads to phase 3. -/
theorem enterPhase3_out (hchunks : m.core.totalChunks cfg -
      (m.core.kv.nCurCompChunks + m.core.kv.nCurStoreChunks) = 0)
    (hweights : m.core.nCurUnloadLayers = cfg.numLayers) :
    enterPhase3 cfg m = { m with pc := .phase3 } := by
  unfold enterPhase3
  dsimp only
  rw [if_pos ⟨hchunks, hweights⟩]

theorem Descent.phase1 (h : Descent cfg target m) (hpc : m.pc = .phase1) :
    Descent cfg target (m.step cfg io target) := by
  have hok := (h.ok.step io target).1
  have htotals := h.ok.totals_step io target h.totals
  have hpending := (@Swapout.step_pending cfg io target m).trans h.pending
  have habove := h.above fun ratio hr => by rw [hpc] at hr; cases hr
  have hfresh := h.fresh hpc
  -- where the step leads, and that no layer was unloaded on the way
  have hcases : (m.step cfg io target).core.nCurUnloadLayers = 0 ∧
      (((m.step cfg io target).pc = .returned ((m.step cfg io target).core.curRatio cfg) ∧
          (m.step cfg io target).core.curRatio cfg ≤ target) ∨
        (((m.step cfg io target).pc = .phase1 ∨ ∃ i, (m.step cfg io target).pc = .phase2 i) ∧
          target < (m.step cfg io target).core.curRatio cfg)) := by
    unfold Swapout.step
    rw [hpc]
    dsimp only
    unfold phase1Step
    split
    · dsimp only
      split
      · exact ⟨hfresh, Or.inl ⟨rfl, by assumption⟩⟩
      · rename_i hratio
        split
        · exact ⟨hfresh, Or.inr ⟨Or.inr ⟨_, rfl⟩, not_le.mp hratio⟩⟩
        · exact ⟨hfresh, Or.inr ⟨Or.inl hpc, not_le.mp hratio⟩⟩
    · exact ⟨hfresh, Or.inr ⟨Or.inr ⟨_, rfl⟩, habove⟩⟩
  obtain ⟨hun, hret | ⟨hgo, hratio⟩⟩ := hcases
  · obtain ⟨hpc', hlow⟩ := hret
    refine ⟨hok, htotals, hpending, fun hhead => absurd hpc' (hhead _), ?_, ?_, ?_, ?_⟩
    · intro hp; rw [hpc'] at hp; cases hp
    · intro i hp; rw [hpc'] at hp; cases hp
    · intro hp; rw [hpc'] at hp; cases hp
    · intro ratio hp
      rw [hpc'] at hp
      cases hp
      exact ⟨rfl, Or.inl hlow⟩
  · refine ⟨hok, htotals, hpending, fun _ => hratio, fun _ => hun, ?_, ?_, ?_⟩
    · intro i hp
      have hpast := htotals.past i hp
      have hi := hok.pc
      rw [hp] at hi
      obtain ⟨-, hi, -⟩ := hi
      unfold Core.boundChunks at hpast
      rw [show (i : Int) = cfg.numLayers by omega]
      omega
    · intro hp
      rcases hgo with hgo | ⟨j, hgo⟩ <;> rw [hgo] at hp <;> cases hp
    · intro ratio hp
      rcases hgo with hgo | ⟨j, hgo⟩ <;> rw [hgo] at hp <;> cases hp

theorem Descent.phase2 (hio : io.Succeeds) (h : Descent cfg target m) {i : Nat}
    (hpc : m.pc = .phase2 (i + 1)) : Descent cfg target (m.step cfg io target) := by
  have hok := (h.ok.step io target).1
  have htotals := h.ok.totals_step io target h.totals
  have hpending := (@Swapout.step_pending cfg io target m).trans h.pending
  have hleft := h.left _ hpc
  have hpc' := h.ok.pc
  rw [hpc] at hpc'
  obtain ⟨hproc, hi, hfull⟩ := hpc'
  have hcore := h.ok.core
  have htotal := hcore.totalChunks
  have hnc := hcore.ladder.nComp_le
  -- the chunks compressed, and the layer unloaded
  set k := min (cfg.perLayerBalance : Int) (m.core.totalChunks cfg - m.processedChunks) with hk
  have hev : Evicted cfg io m.core (phase2Compress cfg m) k 0 :=
    hcore.evictComp io (by omega) (by omega)
  have hnComp := hev.nComp
  have hstore1 := hev.nStore_ge
  have hstore2 := hev.nStore_le
  have hun1 := hev.unloaded
  have hchunks1 := hev.chunks
  set c1 : Core := phase2Compress cfg m with hc1
  have hcore1 : CoreOk cfg c1 := hcore.evictRun hev.run
  have hone : ((1 : Nat) : Int) ≤ c1.curLayerIdxToUnload + 1 := by
    have := hcore1.unloaded
    push_cast at hi ⊢
    omega
  obtain ⟨hcore2, hview, hcount⟩ := CoreOk.unloadLayers io 1 hcore1 hone
  have hsucc : (mzcacheUnloadLayers io 1 c1).2 = true :=
    ((Core.Alike.refl c1).unloadLayers hio 1).2.1
  have hunl := hcount hsucc
  have hchunks2 : (mzcacheUnloadLayers io 1 c1).1.numChunksPerTensor = c1.numChunksPerTensor :=
    unloadLayers_chunks 1 c1
  have hstep : m.step cfg io target = phase2Step cfg io target i m := by
    unfold Swapout.step
    rw [hpc]
  unfold phase2Step at hstep
  dsimp only at hstep
  rw [← hc1, if_pos hsucc] at hstep
  set c2 := (mzcacheUnloadLayers io 1 c1).1
  have hcomp2 : c2.kv.nCurCompChunks = c1.kv.nCurCompChunks :=
    congrArg LadderView.nCurCompChunks hview
  have hstore : c2.kv.nCurStoreChunks = c1.kv.nCurStoreChunks :=
    congrArg LadderView.nCurStoreChunks hview
  have htot : c2.totalChunks cfg = m.core.totalChunks cfg := by
    unfold Core.totalChunks
    rw [hchunks2, hchunks1]
  split at hstep
  · rename_i hlow
    rw [hstep] at hok htotals hpending ⊢
    refine ⟨hok, htotals, hpending, fun hhead => absurd rfl (hhead _), ?_, ?_, ?_, ?_⟩
    · intro hp; cases hp
    · intro j hp; cases hp
    · intro hp; cases hp
    · intro ratio hp
      cases hp
      exact ⟨rfl, Or.inl hlow⟩
  · rename_i hratio
    split at hstep
    · rename_i hall
      obtain ⟨hw, hc⟩ := hall
      rw [enterPhase3_out (show c2.totalChunks cfg -
        (c2.kv.nCurCompChunks + c2.kv.nCurStoreChunks) = 0 by omega) hw] at hstep
      rw [hstep] at hok htotals hpending ⊢
      refine ⟨hok, htotals, hpending, fun _ => not_le.mp hratio, ?_, ?_, fun _ => hw, ?_⟩
      · intro hp; cases hp
      · intro j hp; cases hp
      · intro ratio hp; cases hp
    · rw [hstep] at hok htotals hpending ⊢
      refine ⟨hok, htotals, hpending, fun _ => not_le.mp hratio, ?_, ?_, ?_, ?_⟩
      · intro hp; cases hp
      · intro j hp
        cases hp
        show c2.totalChunks cfg - (c2.kv.nCurCompChunks + c2.kv.nCurStoreChunks) ≤ _
        have hmul : (cfg.perLayerBalance : Int) * ((i + 1 : Nat) : Int) =
            cfg.perLayerBalance * i + cfg.perLayerBalance := by
          push_cast
          ring
        have hnn : (0 : Int) ≤ cfg.perLayerBalance * i := by positivity
        omega
      · intro hp; cases hp
      · intro ratio hp; cases hp

/-- Phase 2 ends with everything out. -/
theorem Descent.phase2_end (h : Descent cfg target m) (hpc : m.pc = .phase2 0) :
    Descent cfg target (m.step cfg io target) := by
  have hok := (h.ok.step io target).1
  have htotals := h.ok.totals_step io target h.totals
  have hpending := (@Swapout.step_pending cfg io target m).trans h.pending
  have habove := h.above fun ratio hr => by rw [hpc] at hr; cases hr
  have hleft := h.left _ hpc
  have hpc' := h.ok.pc
  rw [hpc] at hpc'
  obtain ⟨hproc, hi, hfull⟩ := hpc'
  have htotal := h.ok.core.totalChunks
  have hnc := h.ok.core.ladder.nComp_le
  have hw : m.core.nCurUnloadLayers = cfg.numLayers := by
    push_cast at hi
    omega
  have hstep : m.step cfg io target = { m with pc := .phase3 } := by
    unfold Swapout.step
    rw [hpc]
    refine enterPhase3_out ?_ hw
    push_cast at hleft
    omega
  rw [hstep] at hok htotals hpending ⊢
  refine ⟨hok, htotals, hpending, fun _ => habove, ?_, ?_, fun _ => hw, ?_⟩
  · intro hp; cases hp
  · intro j hp; cases hp
  · intro ratio hp; cases hp

theorem Descent.phase3 (h : Descent cfg target m) (hpc : m.pc = .phase3) :
    Descent cfg target (m.step cfg io target) := by
  have hok := (h.ok.step io target).1
  have htotals := h.ok.totals_step io target h.totals
  have hpending := (@Swapout.step_pending cfg io target m).trans h.pending
  have hw := h.weights hpc
  have hout := h.ok.pc
  rw [hpc] at hout
  have hstep : m.step cfg io target = phase3Step cfg io target m := by
    unfold Swapout.step
    rw [hpc]
  unfold phase3Step at hstep
  split at hstep
  · dsimp only at hstep
    split at hstep
    · rename_i hlow
      rw [hstep] at hok htotals hpending ⊢
      refine ⟨hok, htotals, hpending, fun hhead => absurd rfl (hhead _), ?_, ?_, ?_, ?_⟩
      · intro hp; cases hp
      · intro j hp; cases hp
      · intro hp; cases hp
      · intro ratio hp
        cases hp
        exact ⟨rfl, Or.inl hlow⟩
    · rename_i hratio
      rw [hstep] at hok htotals hpending ⊢
      refine ⟨hok, htotals, hpending, fun _ => not_le.mp hratio, ?_, ?_, fun _ => hw, ?_⟩
      · intro hp; dsimp only at hp; rw [hpc] at hp; cases hp
      · intro j hp; dsimp only at hp; rw [hpc] at hp; cases hp
      · intro ratio hp; dsimp only at hp; rw [hpc] at hp; cases hp
  · rename_i hneg
    rw [hstep] at hok htotals hpending ⊢
    refine ⟨hok, htotals, hpending, fun hhead => absurd rfl (hhead _), ?_, ?_, ?_, ?_⟩
    · intro hp; cases hp
    · intro j hp; cases hp
    · intro hp; cases hp
    · intro ratio hp
      cases hp
      exact ⟨rfl, Or.inr ⟨hout, hw, not_le.mp hneg⟩⟩

/-- The way down goes on. -/
theorem Descent.step (hio : io.Succeeds) (h : Descent cfg target m) :
    Descent cfg target (m.step cfg io target) := by
  cases hpc : m.pc with
  | phase1 => exact h.phase1 hpc
  | phase2 i =>
      cases i with
      | zero => exact h.phase2_end hpc
      | succ i => exact h.phase2 hio hpc
  | phase3 => exact h.phase3 hpc
  | returned ratio =>
      have hstay := @Swapout.run_returned cfg io m target ratio hpc 1
      rw [Swapout.run_one] at hstay
      rw [hstay]
      exact h

theorem Descent.run (hio : io.Succeeds) (h : Descent cfg target m) (k : Nat) :
    Descent cfg target (m.run cfg io target k) := by
  induction k with
  | zero => exact h
  | succ k ih =>
      rw [Swapout.run_succ]
      exact ih.step hio

/-! ## Starting and starting again -/

/-- A state from which the claims about repeated swapouts speak: a clean ladder, no growth
to fold in. -/
structure Core.Rested (cfg : Config) (c : Core) : Prop where
  ok : CoreOk cfg c
  phase : PhaseOk cfg c.kv
  totals : Totals cfg c
  clean : c.kv.cleanLadder
  pending : c.kv.pendingChunksTotal ≤ c.kv.numChunksPerTensor

/-- Without growth to fold in a swapout starts with the core it is given. -/
theorem swapoutStart_core {c : Core} (hok : CoreOk cfg c)
    (hpend : c.kv.pendingChunksTotal ≤ c.kv.numChunksPerTensor) :
    (swapoutStart cfg target c).core = { c with kv := { c.kv with pendingChunksTotal := 0 } } := by
  unfold swapoutStart
  dsimp only
  have happly : applyPendingGrowth cfg c.kv = { c.kv with pendingChunksTotal := 0 } := by
    unfold applyPendingGrowth
    rw [if_neg (not_lt.mpr hpend)]
  rw [happly]
  exact followKv_of_eq hok.follow

/-- The machine a swapout starts with, growth folded in. -/
theorem swapoutStart_eq (target : ℚ) (c : Core) :
    swapoutStart cfg target c =
      let c' := (swapoutStart cfg target c).core
      { core := c'
        processedChunks := c'.kv.nCurCompChunks + c'.kv.nCurStoreChunks
        initialCompChunks := c'.kv.nCurCompChunks
        initialStoreChunks := c'.kv.nCurStoreChunks
        initialUnloadLayers := c'.nCurUnloadLayers
        pc := if c'.curRatio cfg ≤ target then .returned (c'.curRatio cfg) else .phase1 } := rfl

theorem Core.Rested.unloaded {c : Core} (h : c.Rested cfg) : c.nCurUnloadLayers = 0 := by
  have hclean := h.clean
  simp only [KvState.cleanLadder, Bool.decide_and, Bool.and_eq_true, decide_eq_true_eq] at hclean
  have hnn := h.totals.nonneg
  by_contra hne
  have hpos := (h.totals.unloaded (by omega)).2
  omega

/-- A swapout from a rested state is on its way down. -/
theorem Core.Rested.descent {c : Core} (h : c.Rested cfg) (target : ℚ) :
    Descent cfg target (swapoutStart cfg target c) := by
  have hok := (SwapoutOk.start .ok target h.ok h.phase).1
  have htotals := h.totals.swapoutStart h.ok target
  have hcore := @swapoutStart_core cfg target c h.ok h.pending
  have hun : (swapoutStart cfg target c).core.nCurUnloadLayers = 0 := by
    rw [hcore]
    exact h.unloaded
  have hpend : (swapoutStart cfg target c).core.kv.pendingChunksTotal = 0 := by rw [hcore]
  have hpc : (swapoutStart cfg target c).pc =
      if (swapoutStart cfg target c).core.curRatio cfg ≤ target then
        .returned ((swapoutStart cfg target c).core.curRatio cfg) else .phase1 := rfl
  by_cases hlow : (swapoutStart cfg target c).core.curRatio cfg ≤ target
  · rw [if_pos hlow] at hpc
    refine ⟨hok, htotals, hpend, fun hhead => absurd hpc (hhead _), ?_, ?_, ?_, ?_⟩
    · intro hp; rw [hpc] at hp; cases hp
    · intro i hp; rw [hpc] at hp; cases hp
    · intro hp; rw [hpc] at hp; cases hp
    · intro ratio hp
      rw [hpc] at hp
      cases hp
      exact ⟨rfl, Or.inl hlow⟩
  · rw [if_neg hlow] at hpc
    refine ⟨hok, htotals, hpend, fun _ => not_le.mp hlow, fun _ => hun, ?_, ?_, ?_⟩
    · intro i hp; rw [hpc] at hp; cases hp
    · intro hp; rw [hpc] at hp; cases hp
    · intro ratio hp; rw [hpc] at hp; cases hp

/-- A lower target takes the same step, unless the higher one is just reached: then it goes on
from there. -/
theorem Swapout.step_lower {t1 t2 : ℚ} (hle : t2 ≤ t1) (hhead : m.AtHead) :
    m.step cfg io t2 = m.step cfg io t1 ∨
      (¬ (m.step cfg io t1).AtHead ∧ (m.step cfg io t2).AtHead ∧
        (m.step cfg io t2).core.Alike (m.step cfg io t1).core) := by
  have hgo : ∀ {i : Nat} {m : Swapout}, m.pc = .phase2 i → m.AtHead := by
    intro i m hpc ratio hr
    rw [hpc] at hr
    cases hr
  unfold Swapout.step
  cases hpc : m.pc with
  | phase1 =>
      dsimp only
      unfold phase1Step
      split
      · dsimp only
        set add := allocateChunks cfg m.core (min 20 (m.core.totalChunks cfg - m.processedChunks))
        set c := phase1Evict cfg io m.core add.1 add.2
        by_cases h2 : c.curRatio cfg ≤ t2
        · rw [if_pos h2, if_pos (le_trans h2 hle)]
          exact Or.inl rfl
        · rw [if_neg h2]
          by_cases h1 : c.curRatio cfg ≤ t1
          · rw [if_pos h1]
            refine Or.inr ⟨fun hh => hh _ rfl, ?_⟩
            split
            · exact ⟨hgo rfl, Core.Alike.refl _⟩
            · exact ⟨hhead, _, _, rfl⟩
          · rw [if_neg h1]
            exact Or.inl rfl
      · exact Or.inl rfl
  | phase2 i =>
      cases i with
      | zero => exact Or.inl rfl
      | succ i =>
          dsimp only
          unfold phase2Step
          dsimp only
          set u := mzcacheUnloadLayers io 1 (phase2Compress cfg m)
          split
          · by_cases h2 : u.1.curRatio cfg ≤ t2
            · rw [if_pos h2, if_pos (le_trans h2 hle)]
              exact Or.inl rfl
            · rw [if_neg h2]
              by_cases h1 : u.1.curRatio cfg ≤ t1
              · rw [if_pos h1]
                refine Or.inr ⟨fun hh => hh _ rfl, ?_⟩
                split
                · rename_i hall
                  rw [enterPhase3_out (by dsimp only; omega) hall.1]
                  exact ⟨fun ratio hr => (nomatch hr), Core.Alike.refl _⟩
                · exact ⟨hgo rfl, Core.Alike.refl _⟩
              · rw [if_neg h1]
                exact Or.inl rfl
          · exact Or.inl rfl
  | phase3 =>
      dsimp only
      unfold phase3Step
      split
      · dsimp only
        set c : Core := { m.core with kv := (mzcacheOffloadArenas io m.core.kv).1 }
        by_cases h2 : c.curRatio cfg ≤ t2
        · rw [if_pos h2, if_pos (le_trans h2 hle)]
          exact Or.inl rfl
        · rw [if_neg h2]
          by_cases h1 : c.curRatio cfg ≤ t1
          · rw [if_pos h1]
            exact Or.inr ⟨fun hh => hh _ rfl, hhead, Core.Alike.refl _⟩
          · rw [if_neg h1]
            exact Or.inl rfl
      · exact Or.inl rfl
  | returned ratio => exact absurd hpc (hhead ratio)

/-- A call that starts with the core of a loop head arrives at that head. -/
theorem Descent.reenter (h : Descent cfg target m) (hhead : m.AtHead) {c : Core}
    (hc : m.core.Alike c) (hok : CoreOk cfg c) :
    ∃ j, m.Alike ((swapoutStart cfg target c).run cfg io target j) := by
  have hcounts : SameCounts cfg _ _ := hc.counts
  have hpend : c.kv.pendingChunksTotal = 0 := by
    obtain ⟨fds, tick, rfl⟩ := hc
    exact h.pending
  have hcore : (swapoutStart cfg target c).core = c := by
    rw [swapoutStart_core hok (by omega)]
    obtain ⟨kv, _⟩ := c
    dsimp only at hpend ⊢
    rw [← hpend]
  have hratio : ¬ c.curRatio cfg ≤ target := by
    rw [hc.curRatio]
    exact not_le.mpr (h.above hhead)
  have hstart := @swapoutStart_eq cfg target c
  dsimp only at hstart
  rw [hcore, if_neg hratio] at hstart
  set s := swapoutStart cfg target c
  -- past phase 1 the first step leaves it again
  have hleave : m.core.boundChunks cfg ≤ m.core.kv.nCurCompChunks + m.core.kv.nCurStoreChunks →
      s.step cfg io target = enterPhase2 cfg s := by
    intro hpast
    rw [hstart]
    show phase1Step cfg io target _ = _
    unfold phase1Step
    rw [if_neg]
    unfold Core.boundChunks at hpast ⊢
    dsimp only
    rw [hcounts.total, hcounts.comp, hcounts.store]
    omega
  have hclosed : m.core.Alike { c with kv := mzcacheCloseStoredFiles c.kv } :=
    hc.trans ⟨_, _, rfl⟩
  have hpc := h.ok.pc
  cases hcase : m.pc with
  | phase1 =>
      refine ⟨0, ?_, ?_⟩
      · show m.core.Alike s.core
        rw [hcore]
        exact hc
      · show s.pc = m.pc
        rw [hstart, hcase]
  | phase2 i =>
      rw [hcase] at hpc
      obtain ⟨hproc, hi, -⟩ := hpc
      have hpast := h.totals.past i hcase
      refine ⟨1, ?_⟩
      rw [Swapout.run_one, hleave (by omega), hstart]
      refine ⟨hclosed, ?_⟩
      show SwapoutPc.phase2 _ = m.pc
      rw [hcase, hcounts.unloaded]
      congr 1
      dsimp only
      omega
  | phase3 =>
      rw [hcase] at hpc
      obtain ⟨hcomp, hstore⟩ := hpc
      have htotal := h.ok.core.totalChunks
      have hw := h.weights hcase
      have hbal : (0 : Int) ≤ cfg.perLayerBalance * cfg.numLayers := by positivity
      refine ⟨2, ?_⟩
      have htwo : s.run cfg io target 2 = (s.step cfg io target).step cfg io target := rfl
      rw [htwo, hleave (by unfold Core.boundChunks; omega), hstart]
      have hzero : (enterPhase2 cfg
          { core := c
            processedChunks := c.kv.nCurCompChunks + c.kv.nCurStoreChunks
            initialCompChunks := c.kv.nCurCompChunks
            initialStoreChunks := c.kv.nCurStoreChunks
            initialUnloadLayers := c.nCurUnloadLayers
            pc := .phase1 }).pc = .phase2 0 := by
        show SwapoutPc.phase2 _ = _
        rw [hcounts.unloaded, hw]
        congr 1
        dsimp only
        omega
      unfold Swapout.step
      rw [hzero]
      dsimp only
      rw [enterPhase3_out]
      · exact ⟨hclosed, hcase.symm⟩
      · show c.totalChunks cfg - (c.kv.nCurCompChunks + c.kv.nCurStoreChunks) = 0
        rw [hcounts.total, hcounts.comp, hcounts.store]
        omega
      · show c.nCurUnloadLayers = _
        rw [hcounts.unloaded]
        exact hw
  | returned ratio => exact absurd hcase (hhead ratio)

/-! ## Two calls -/

/-- A machine returns in one state only. -/
theorem Swapout.returned_unique {r1 r2 : ℚ} {j k : Nat}
    (h1 : (m.run cfg io target j).pc = .returned r1)
    (h2 : (m.run cfg io target k).pc = .returned r2) :
    m.run cfg io target j = m.run cfg io target k := by
  have hj : m.run cfg io target (j + k) = m.run cfg io target j := by
    rw [Swapout.run_add, Swapout.run_returned h1]
  have hk : m.run cfg io target (k + j) = m.run cfg io target k := by
    rw [Swapout.run_add, Swapout.run_returned h2]
  rw [← hj, ← hk, Nat.add_comm]

theorem SwapoutReturns.unique {c c1 c2 : Core} {r1 r2 : ℚ}
    (h1 : SwapoutReturns cfg io target c r1 c1) (h2 : SwapoutReturns cfg io target c r2 c2) :
    r1 = r2 ∧ c1 = c2 := by
  obtain ⟨j, hj, rfl⟩ := h1
  obtain ⟨k, hk, rfl⟩ := h2
  have heq := Swapout.returned_unique hj hk
  rw [heq] at hj ⊢
  rw [hj] at hk
  cases hk
  exact ⟨rfl, rfl⟩

/-- With every call succeeding no loop head is stalled. -/
theorem Io.Succeeds.not_stalled (hio : io.Succeeds) : ¬ Stalled cfg io target m := by
  have hok : io = .ok := funext fun call => funext fun t => hio call t
  rintro (hs | hs)
  · have hdead := hs.dead _ le_rfl
    rw [hio.opened] at hdead
    cases hdead
  · have hdead := hs.dead 0
    rw [hok, offloadAttempt_ok] at hdead
    cases hdead

/-- With every call succeeding a swapout returns. -/
theorem Io.Succeeds.returns (hio : io.Succeeds) {c : Core} (hok : CoreOk cfg c)
    (hp : PhaseOk cfg c.kv) (target : ℚ) :
    ∃ ratio c', SwapoutReturns cfg io target c ratio c' := by
  obtain ⟨hstart, -⟩ := SwapoutOk.start io target hok hp
  obtain ⟨k, ratio, hpc⟩ := hstart.returns target fun _ => hio.not_stalled
  exact ⟨ratio, _, k, hpc, rfl⟩

/-- What one machine returns with, an alike one returns with. -/
theorem Swapout.Alike.returns (hio : io.Succeeds) {m' : Swapout} (h : m.Alike m')
    (hm : SwapoutOk cfg m) (hm' : SwapoutOk cfg m') {ratio : ℚ} {k : Nat}
    (hk : (m.run cfg io target k).pc = .returned ratio) :
    (m'.run cfg io target k).pc = .returned ratio ∧
      (m.run cfg io target k).core.Alike (m'.run cfg io target k).core := by
  have hrun := h.run hio target hm hm' k
  exact ⟨hrun.pc.trans hk, hrun.core⟩

/-- An emptied engine is a head of phase 3, from which nothing is done. -/
theorem Descent.emptied {ratio : ℚ} (h : Descent cfg target m) (hpc : m.pc = .returned ratio)
    (hlow : target < ratio) :
    Descent cfg target { m with pc := .phase3 } ∧
      (({ m with pc := .phase3 } : Swapout).run cfg io target 1) = m := by
  obtain ⟨hratio, hdone⟩ := h.done ratio hpc
  have hempty := hdone.resolve_left (not_le.mpr hlow)
  constructor
  · refine ⟨⟨h.ok.core, hempty.chunks⟩, ⟨h.totals.core, ?_⟩, h.pending, fun _ => ?_, ?_, ?_,
      fun _ => hempty.weights, ?_⟩
    · intro i hp; cases hp
    · rw [← hratio]
      exact hlow
    · intro hp; cases hp
    · intro i hp; cases hp
    · intro r hp; cases hp
  · rw [Swapout.run_one]
    show phase3Step cfg io target _ = m
    unfold phase3Step
    rw [if_neg (not_le.mpr hempty.arenas), ← hratio, ← hpc]

/-- Going on from where a swapout for a higher target stopped ends like a swapout for the
lower target alone. -/
theorem Core.Rested.resume (hio : io.Succeeds) {c c1 c2 c12 : Core} (h : c.Rested cfg)
    {t1 t2 r1 r2 r12 : ℚ} (hle : t2 ≤ t1) (h1 : SwapoutReturns cfg io t1 c r1 c1)
    (h12 : SwapoutReturns cfg io t2 c1 r12 c12) (h2 : SwapoutReturns cfg io t2 c r2 c2) :
    c2.Alike c12 ∧ r12 = r2 := by
  obtain ⟨hok1, hp1, -⟩ := h.ok.swapout h.phase h1
  have hstart1 := (SwapoutOk.start io t2 hok1 hp1).1
  -- a head of the lower run that is left with the core of `c1` settles it
  have hhead : ∀ n : Swapout, Descent cfg t2 n → n.AtHead → n.core.Alike c1 →
      (∃ k, (n.run cfg io t2 k).pc = .returned r2 ∧ (n.run cfg io t2 k).core = c2) →
      c2.Alike c12 ∧ r12 = r2 := by
    rintro n hn hnh hcore ⟨k, hk, rfl⟩
    obtain ⟨j, hj⟩ := @Descent.reenter cfg io t2 n hn hnh c1 hcore hok1
    obtain ⟨hret, hsame⟩ := hj.returns hio hn.ok (hstart1.run io t2 j).1 hk
    rw [← Swapout.run_add] at hret hsame
    obtain ⟨hr, hc⟩ := h12.unique ⟨j + k, hret, rfl⟩
    rw [hc]
    exact ⟨hsame, hr⟩
  have hdesc := h.descent t2
  obtain ⟨K1, hK1, hcK1⟩ := h1
  obtain ⟨K2, hK2, hcK2⟩ := h2
  set m1 := swapoutStart cfg t1 c with hm1
  set m2 := swapoutStart cfg t2 c with hm2
  -- the first call returns at its first head that has returned
  have hex : ∃ k, ¬ (m1.run cfg io t1 k).AtHead := ⟨K1, fun hh => hh r1 hK1⟩
  classical
  have hfirst := Nat.find_spec hex
  have hmin : ∀ k, k < Nat.find hex → (m1.run cfg io t1 k).AtHead := fun k hk =>
    not_not.mp (Nat.find_min hex hk)
  set K := Nat.find hex with hK
  have hreturned : m1.run cfg io t1 K = m1.run cfg io t1 K1 := by
    by_contra hne
    exact hfirst fun r hr => hne (Swapout.returned_unique hr hK1)
  cases hcase : K with
  | zero =>
      -- it returned before any step: the second call starts where the lower one does
      rw [hcase] at hreturned
      have hc1 : c1 = m2.core := by
        rw [← hcK1, ← hreturned]
        rfl
      have hcore1 : (swapoutStart cfg t2 c1).core = c1 := by
        rw [swapoutStart_core hok1 (by rw [hc1]; exact le_of_eq_of_le hdesc.pending (Nat.zero_le _)),
          hc1]
        show { m2.core with kv := { m2.core.kv with pendingChunksTotal := 0 } } = m2.core
        rw [← hdesc.pending]
      have hsame : swapoutStart cfg t2 c1 = m2 := by
        rw [hm2, swapoutStart_eq t2 c1, swapoutStart_eq t2 c, hcore1, hc1]
      have hagain : SwapoutReturns cfg io t2 c1 r2 c2 := by
        unfold SwapoutReturns
        rw [hsame]
        exact ⟨K2, hK2, hcK2⟩
      obtain ⟨hr, hc⟩ := h12.unique hagain
      rw [hc]
      exact ⟨Core.Alike.refl _, hr⟩
  | succ k =>
      -- up to that head both runs are one
      have hprefix : ∀ j, j ≤ k → m2.run cfg io t2 j = m1.run cfg io t1 j := by
        intro j
        induction j with
        | zero =>
            intro _
            have hh := hmin 0 (by omega)
            show m2 = m1
            have hratio : ¬ m1.core.curRatio cfg ≤ t1 := fun hlow =>
              hh (m1.core.curRatio cfg) (if_pos hlow)
            have hratio2 : ¬ m2.core.curRatio cfg ≤ t2 := fun hlow => hratio (le_trans hlow hle)
            rw [hm1, hm2, swapoutStart_eq t1 c, swapoutStart_eq t2 c]
            dsimp only
            rw [if_neg hratio2, if_neg hratio]
            rfl
        | succ j ih =>
            intro hj
            have hh := hmin (j + 1) (by omega)
            rw [Swapout.run_succ, Swapout.run_succ, ih (by omega)]
            rw [Swapout.run_succ] at hh
            rcases @Swapout.step_lower cfg io _ _ _ hle (hmin j (by omega)) with heq | hne
            · exact heq
            · exact absurd hh hne.1
      have hnext : m2.run cfg io t2 (k + 1) = (m1.run cfg io t1 k).step cfg io t2 := by
        rw [Swapout.run_succ, hprefix k le_rfl]
      have hlast : (m1.run cfg io t1 k).step cfg io t1 = m1.run cfg io t1 K1 := by
        rw [← Swapout.run_succ, ← hcase, hreturned]
      rcases @Swapout.step_lower cfg io _ _ _ hle (hmin k (by omega)) with heq | ⟨-, hgo, hcore⟩
      · -- both return here
        rw [heq, hlast] at hnext
        have hpc : (m2.run cfg io t2 (k + 1)).pc = .returned r1 := by rw [hnext, hK1]
        have hboth := Swapout.returned_unique hpc hK2
        have hd := hdesc.run hio K2
        rw [hboth] at hnext hpc
        have hc : c2 = c1 := by rw [← hcK2, hnext, hcK1]
        have hr : r2 = r1 := by
          rw [hK2] at hpc
          cases hpc
          rfl
        by_cases hlow : r2 ≤ t2
        · -- the target is reached, so the second call returns at once
          have hratio := (hd.done r2 hK2).1
          have hpend := hd.pending
          rw [hcK2, hc] at hratio hpend
          have hcore1 : (swapoutStart cfg t2 c1).core = c1 := by
            rw [swapoutStart_core hok1 (by omega)]
            show { c1 with kv := { c1.kv with pendingChunksTotal := 0 } } = c1
            rw [← hpend]
          have hagain : SwapoutReturns cfg io t2 c1 r2 c1 := by
            refine ⟨0, ?_, hcore1⟩
            show (swapoutStart cfg t2 c1).pc = _
            rw [swapoutStart_eq]
            dsimp only
            rw [hcore1, ← hratio, if_pos hlow]
          obtain ⟨hr12, hc12⟩ := h12.unique hagain
          rw [hc12, hc]
          exact ⟨Core.Alike.refl _, hr12⟩
        · obtain ⟨hn, hback⟩ := @Descent.emptied cfg io t2 _ r2 hd hK2 (not_le.mp hlow)
          refine hhead _ hn (fun ratio hp => (nomatch hp)) ?_ ⟨1, ?_, ?_⟩
          · show (m2.run cfg io t2 K2).core.Alike c1
            rw [hcK2, hc]
            exact Core.Alike.refl _
          · rw [hback, hK2]
          · rw [hback, hcK2]
      · -- the higher target is reached, the lower one is not
        rw [← hnext] at hgo hcore
        rw [hlast, hcK1] at hcore
        refine hhead _ (hdesc.run hio (k + 1)) hgo hcore ⟨K2, ?_⟩
        have hend : (m2.run cfg io t2 (k + 1)).run cfg io t2 K2 = m2.run cfg io t2 K2 := by
          rw [← Swapout.run_add, Nat.add_comm, Swapout.run_add, Swapout.run_returned hK2]
        rw [hend]
        exact ⟨hK2, hcK2⟩

end

end MzCache
