import MzCache.Core.Planner
import MzCache.Core.Totals

/-!
# What the planner asks for

Both phases of `mzcache_profile_chunks_layers` keep to the chunks the plan has. Phase 2
runs once for each layer of the model, not for each layer still loaded, so it keeps to the
layers only if the target is reached in time.
-/

namespace MzCache

open MzCache.Lib

/-- The counters stay within the plan and above where they started. -/
structure Plan.Within (cfg : Config) (c : Core) (p : Plan) : Prop where
  comp_ge : c.kv.nCurCompChunks ≤ p.compChunks
  comp_le : p.compChunks ≤ c.kv.maxCompChunks
  store_ge : c.kv.nCurStoreChunks ≤ p.storeChunks
  store_le : p.storeChunks ≤ c.kv.maxStoreChunks
  processed : p.processedChunks = p.compChunks + p.storeChunks
  /-- The balance chunks are still raw, or the store regions are exhausted. -/
  phase : p.compChunks ≤ c.kv.maxCompChunks - cfg.perLayerBalance * cfg.numLayers ∨
    p.storeChunks = c.kv.maxStoreChunks

/-- The counters once every layer is unloaded, each with the balance chunks there are. -/
def Plan.allUnloaded (cfg : Config) (c : Core) : Plan :=
  let processed := c.kv.nCurCompChunks + c.kv.nCurStoreChunks
  let balance := min (cfg.perLayerBalance * (cfg.numLayers - c.nCurUnloadLayers))
    (c.totalChunks cfg - processed)
  { compChunks := c.kv.nCurCompChunks + balance
    storeChunks := c.kv.nCurStoreChunks
    unloadLayers := cfg.numLayers
    processedChunks := processed + balance }

section

variable {cfg : Config} {c : Core} {p q : Plan}

/-! ## Freed bytes -/

theorem getFreedBytes_mono (h0 : 0 ≤ p.compChunks) (hc : p.compChunks ≤ q.compChunks)
    (hs : p.storeChunks ≤ q.storeChunks) (hu : p.unloadLayers ≤ q.unloadLayers) :
    getFreedBytes cfg p.compChunks p.storeChunks p.unloadLayers ≤
      getFreedBytes cfg q.compChunks q.storeChunks q.unloadLayers := by
  have hfactor : 0 ≤ cfg.compFreedNum := by
    unfold Config.compFreedNum
    cases cfg.backend <;> decide
  have hcomp : p.compChunks * cfg.chunkBytes * cfg.compFreedNum ≤
      q.compChunks * cfg.chunkBytes * cfg.compFreedNum := by gcongr
  have hp : 0 ≤ p.compChunks * cfg.chunkBytes * cfg.compFreedNum := by positivity
  have hdiv : (p.compChunks * cfg.chunkBytes * cfg.compFreedNum).tdiv compFreedDen ≤
      (q.compChunks * cfg.chunkBytes * cfg.compFreedNum).tdiv compFreedDen := by
    rw [Int.tdiv_eq_ediv_of_nonneg hp, Int.tdiv_eq_ediv_of_nonneg (le_trans hp hcomp)]
    exact Int.ediv_le_ediv (by decide) hcomp
  have hstore : p.storeChunks * cfg.chunkBytes ≤ q.storeChunks * cfg.chunkBytes := by gcongr
  have hlayer : cfg.weightLayerBytes * p.unloadLayers ≤
      cfg.weightLayerBytes * q.unloadLayers := by gcongr
  unfold getFreedBytes
  omega

/-- What lies within the plan frees no more than there is. -/
theorem getFreedBytes_le_full (hfull : c.fullBytes = fullBytesOf cfg c.numChunksPerTensor)
    (h0 : 0 ≤ p.compChunks) (hsum : p.compChunks + p.storeChunks ≤ c.totalChunks cfg)
    (hu : p.unloadLayers ≤ cfg.numLayers) :
    getFreedBytes cfg p.compChunks p.storeChunks p.unloadLayers ≤ c.fullBytes := by
  have hfactor : 0 ≤ cfg.compFreedNum ∧ cfg.compFreedNum ≤ 32 := by
    unfold Config.compFreedNum
    cases cfg.backend <;> decide
  have hbytes : 0 ≤ p.compChunks * cfg.chunkBytes := by positivity
  have hcomp : (p.compChunks * cfg.chunkBytes * cfg.compFreedNum).tdiv compFreedDen ≤
      p.compChunks * cfg.chunkBytes := by
    rw [Int.tdiv_eq_ediv_of_nonneg (mul_nonneg hbytes hfactor.1)]
    have hle : p.compChunks * cfg.chunkBytes * cfg.compFreedNum ≤
        p.compChunks * cfg.chunkBytes * 32 := by
      apply mul_le_mul_of_nonneg_left hfactor.2 hbytes
    unfold compFreedDen
    omega
  have hchunks : p.compChunks * cfg.chunkBytes + p.storeChunks * cfg.chunkBytes ≤
      cfg.chunkBytes * c.numChunksPerTensor * cfg.numLayers := by
    calc p.compChunks * cfg.chunkBytes + p.storeChunks * cfg.chunkBytes
        = (p.compChunks + p.storeChunks) * cfg.chunkBytes := by ring
      _ ≤ c.totalChunks cfg * cfg.chunkBytes := by gcongr
      _ = cfg.chunkBytes * c.numChunksPerTensor * cfg.numLayers := by
          unfold Core.totalChunks
          ring
  have hlayer : cfg.weightLayerBytes * p.unloadLayers ≤
      (cfg.weightLayerBytes : Int) * cfg.numLayers := by gcongr
  rw [hfull]
  unfold getFreedBytes fullBytesOf
  omega

theorem fullBytesOf_nonneg (cfg : Config) (n : Nat) : 0 ≤ fullBytesOf cfg n := by
  unfold fullBytesOf
  positivity

/-- Freeing more lowers the predicted ratio. -/
theorem Plan.ratio_anti (hfull : 0 ≤ c.fullBytes) (h0 : 0 ≤ p.compChunks)
    (hc : p.compChunks ≤ q.compChunks) (hs : p.storeChunks ≤ q.storeChunks)
    (hu : p.unloadLayers ≤ q.unloadLayers) : q.ratio cfg c ≤ p.ratio cfg c := by
  have hfreed := @getFreedBytes_mono cfg p q h0 hc hs hu
  have hcast : (getFreedBytes cfg p.compChunks p.storeChunks p.unloadLayers : ℚ) ≤
      getFreedBytes cfg q.compChunks q.storeChunks q.unloadLayers := by exact_mod_cast hfreed
  have hden : (0 : ℚ) ≤ c.fullBytes := by exact_mod_cast hfull
  unfold Plan.ratio
  apply cfg.f32.mono
  apply cfg.f64.mono
  apply sub_le_sub_left
  apply cfg.f64.mono
  exact div_le_div_of_nonneg_right hcast hden

/-- As long as no more is freed than there is, the predicted ratio is not negative. -/
theorem Plan.ratio_nonneg (hfull : 0 ≤ c.fullBytes)
    (hle : getFreedBytes cfg p.compChunks p.storeChunks p.unloadLayers ≤ c.fullBytes) :
    0 ≤ p.ratio cfg c := by
  have hle' : (getFreedBytes cfg p.compChunks p.storeChunks p.unloadLayers : ℚ) ≤
      c.fullBytes := by exact_mod_cast hle
  have hden : (0 : ℚ) ≤ c.fullBytes := by exact_mod_cast hfull
  have hquot : (getFreedBytes cfg p.compChunks p.storeChunks p.unloadLayers : ℚ) /
      c.fullBytes ≤ ((1 : ℕ) : ℚ) := by
    rw [Nat.cast_one]
    exact div_le_one_of_le₀ hle' hden
  have hfl := cfg.f64.le_nat cfg.one_double hquot
  rw [Nat.cast_one] at hfl
  unfold Plan.ratio
  apply cfg.f32.nonneg
  apply cfg.f64.nonneg
  exact sub_nonneg.mpr hfl

/-! ## Phase 1 -/

theorem Plan.within_start (h : CoreOk cfg c) (hp : PhaseOk cfg c.kv) :
    (Plan.start c).Within cfg c :=
  ⟨le_rfl, h.ladder.nComp_le, le_rfl, h.ladder.nStore_le, rfl, hp⟩

/-- The planner's `allocate_chunks` keeps to the room there is, and uses it. -/
theorem planAllocate_spec {n : Nat} (hn : n ≤ cfg.f32.limit) :
    let room := max 0 (c.kv.maxCompChunks - cfg.perLayerBalance * cfg.numLayers - p.compChunks)
    let storeRoom := max 0 (c.kv.maxStoreChunks - p.storeChunks)
    0 ≤ (planAllocate cfg c p n).1 ∧ (planAllocate cfg c p n).1 ≤ room ∧
      0 ≤ (planAllocate cfg c p n).2 ∧ (planAllocate cfg c p n).2 ≤ storeRoom ∧
      (planAllocate cfg c p n).1 + (planAllocate cfg c p n).2 = min (n : Int) (room + storeRoom) := by
  have heq := planAllocate_eq (c := c) (p := p)
    (x := { c with kv := { c.kv with
      nCurCompChunks := p.compChunks
      nCurStoreChunks := p.storeChunks } }) hn rfl rfl rfl rfl
  rw [heq]
  exact allocateChunks_spec cfg hn

/-- Phase 1 keeps to the plan and unloads nothing; without reaching the target it ends with
the store regions exhausted. -/
theorem planPhase1_within (hok : CoreOk cfg c) (target : ℚ) (fuel : Nat) :
    ∀ p : Plan, p.Within cfg c → c.boundChunks cfg - p.processedChunks ≤ fuel →
      (planPhase1 cfg target c fuel p).2.Within cfg c ∧
        (planPhase1 cfg target c fuel p).2.unloadLayers = p.unloadLayers ∧
        ((planPhase1 cfg target c fuel p).1 = false →
          (planPhase1 cfg target c fuel p).2.storeChunks = c.kv.maxStoreChunks) := by
  have htotal := hok.totalChunks
  have hbal : (0 : Int) ≤ cfg.perLayerBalance * cfg.numLayers := by positivity
  -- past the bound the store regions are exhausted
  have hpast : ∀ p : Plan, p.Within cfg c → ¬ p.processedChunks < c.boundChunks cfg →
      p.storeChunks = c.kv.maxStoreChunks := by
    intro p hp hge
    unfold Core.boundChunks at hge
    have h1 := hp.phase
    have h2 := hp.processed
    have h3 := hp.store_le
    omega
  induction fuel with
  | zero => intro p hp hfuel; exact ⟨hp, rfl, fun _ => hpast p hp (by push_cast at hfuel; omega)⟩
  | succ fuel ih =>
      intro p hp hfuel
      unfold planPhase1
      split
      · rename_i hmore
        split
        · exact ⟨hp, rfl, fun h => by cases h⟩
        · dsimp only
          unfold Core.boundChunks at hmore hfuel
          set n := (min 20 (c.totalChunks cfg - p.processedChunks)).toNat with hn
          have hcast : min 20 (c.totalChunks cfg - p.processedChunks) = (n : Int) := by omega
          have hlim : n ≤ cfg.f32.limit := by
            have := cfg.limit_ge
            unfold maxChunksPerTensor at this
            omega
          rw [hcast]
          obtain ⟨ha0, ha, hb0, hb, hsum⟩ := @planAllocate_spec cfg c p n hlim
          set a := (planAllocate cfg c p n).1
          set b := (planAllocate cfg c p n).2
          obtain ⟨h1, h2, h3, h4, h5, h6⟩ := hp
          split
          · rename_i hzero
            refine ⟨⟨h1, h2, h3, h4, h5, h6⟩, rfl, fun _ => ?_⟩
            dsimp only
            omega
          · have hwithin : (p.add a b).Within cfg c := by
              refine ⟨?_, ?_, ?_, ?_, ?_, ?_⟩
              all_goals simp only [Plan.add]
              all_goals omega
            obtain ⟨g1, g2, g3⟩ := ih (p.add a b) hwithin (by
              unfold Core.boundChunks
              simp only [Plan.add]
              push_cast at hfuel
              omega)
            exact ⟨g1, g2, g3⟩
      · rename_i hge
        exact ⟨hp, rfl, fun _ => hpast p hp hge⟩

/-! ## Phase 2 -/

/-- The counters after `j` iterations of phase 2. -/
theorem iterate_unload (hle : p.processedChunks ≤ c.totalChunks cfg) (j : Nat) :
    (Plan.unload cfg c)^[j] p =
      { compChunks := p.compChunks +
          min (cfg.perLayerBalance * (j : Int)) (c.totalChunks cfg - p.processedChunks)
        storeChunks := p.storeChunks
        unloadLayers := p.unloadLayers + j
        processedChunks := p.processedChunks +
          min (cfg.perLayerBalance * (j : Int)) (c.totalChunks cfg - p.processedChunks) } := by
  induction j with
  | zero =>
      have hmin : min ((cfg.perLayerBalance : Int) * ((0 : Nat) : Int))
          (c.totalChunks cfg - p.processedChunks) = 0 := by
        push_cast
        omega
      rw [hmin]
      simp
  | succ j ih =>
      rw [Function.iterate_succ_apply', ih]
      unfold Plan.unload
      dsimp only
      have hbal : (cfg.perLayerBalance : Int) * ((j + 1 : Nat) : Int) =
          cfg.perLayerBalance * (j : Int) + cfg.perLayerBalance := by
        push_cast
        ring
      rw [hbal]
      have hj : (0 : Int) ≤ cfg.perLayerBalance * (j : Int) := by positivity
      rw [Plan.mk.injEq]
      refine ⟨?_, rfl, ?_, ?_⟩
      · omega
      · push_cast
        ring
      · omega

/-- Phase 2 stops where it has reached the target, if it gets there. -/
theorem planPhase2_stops (target : ℚ) (i : Nat) :
    ∀ (j : Nat) (p : Plan), ((Plan.unload cfg c)^[j] p).ratio cfg c ≤ target →
      (planPhase2 cfg target c i p).unloadLayers ≤ p.unloadLayers + j := by
  induction i with
  | zero => intro j p _; exact le_add_of_nonneg_right (Int.natCast_nonneg j)
  | succ i ih =>
      intro j p hreach
      unfold planPhase2
      split
      · exact le_add_of_nonneg_right (Int.natCast_nonneg j)
      · rename_i habove
        cases j with
        | zero => exact absurd hreach habove
        | succ j =>
            have h := ih j (p.unload cfg c) hreach
            simp only [Plan.unload] at h ⊢
            push_cast
            omega

/-- It goes on as long as the target is ahead. -/
theorem planPhase2_passes (target : ℚ) (i : Nat) :
    ∀ (j : Nat) (p : Plan), j ≤ i →
      (∀ k < j, ¬ ((Plan.unload cfg c)^[k] p).ratio cfg c ≤ target) →
      p.unloadLayers + j ≤ (planPhase2 cfg target c i p).unloadLayers := by
  induction i with
  | zero =>
      intro j p hj _
      have hz : j = 0 := Nat.le_zero.mp hj
      subst hz
      simp [planPhase2]
  | succ i ih =>
      intro j p hj habove
      cases j with
      | zero =>
          unfold planPhase2
          split
          · simp
          · have h := ih 0 (p.unload cfg c) (Nat.zero_le _) (fun k hk => absurd hk (by omega))
            simp only [Plan.unload] at h ⊢
            push_cast at h ⊢
            omega
      | succ j =>
          unfold planPhase2
          rw [if_neg (show ¬ p.ratio cfg c ≤ target from habove 0 (Nat.succ_pos j))]
          have h := ih j (p.unload cfg c) (by omega) fun k hk => by
            rw [← Function.iterate_succ_apply]
            exact habove (k + 1) (by omega)
          simp only [Plan.unload] at h ⊢
          push_cast
          omega

/-- Phase 2 keeps to the chunks of the compress regions, and adds at most a layer for each of
its iterations. -/
theorem planPhase2_within (hok : CoreOk cfg c) (target : ℚ) (i : Nat) :
    ∀ p : Plan, p.Within cfg c → p.storeChunks = c.kv.maxStoreChunks →
      (planPhase2 cfg target c i p).Within cfg c ∧
        p.unloadLayers ≤ (planPhase2 cfg target c i p).unloadLayers ∧
        (planPhase2 cfg target c i p).unloadLayers ≤ p.unloadLayers + i := by
  have htotal := hok.totalChunks
  induction i with
  | zero => intro p hp _; exact ⟨hp, le_rfl, by simp [planPhase2]⟩
  | succ i ih =>
      intro p hp hfull
      unfold planPhase2
      split
      · refine ⟨hp, le_rfl, ?_⟩
        push_cast
        omega
      · have hwithin : (p.unload cfg c).Within cfg c := by
          obtain ⟨h1, h2, h3, h4, h5, -⟩ := hp
          refine ⟨?_, ?_, h3, h4, ?_, Or.inr hfull⟩
          all_goals simp only [Plan.unload]
          all_goals omega
        obtain ⟨g1, g2, g3⟩ := ih (p.unload cfg c) hwithin hfull
        simp only [Plan.unload] at g2 g3
        refine ⟨g1, by simp only [Plan.unload]; omega, ?_⟩
        simp only [Plan.unload]
        push_cast
        omega

/-! ## The whole planner -/

/-- Where the planner ends. -/
def planEnd (cfg : Config) (target : ℚ) (c : Core) : Plan :=
  planPhases cfg target c (c.boundChunks cfg - (Plan.start c).processedChunks).toNat
    (Plan.start c)

/-- The planner keeps to the chunks of the plan in every state of the engine. -/
theorem planEnd_within (hok : CoreOk cfg c) (hp : PhaseOk cfg c.kv) (target : ℚ) :
    (planEnd cfg target c).Within cfg c ∧ c.nCurUnloadLayers ≤ (planEnd cfg target c).unloadLayers ∧
      (planEnd cfg target c).unloadLayers ≤ c.nCurUnloadLayers + cfg.numLayers := by
  obtain ⟨h1, h2, h3⟩ := planPhase1_within hok target
    (c.boundChunks cfg - (Plan.start c).processedChunks).toNat (Plan.start c)
    (Plan.within_start hok hp) (by omega)
  have hstart : (Plan.start c).unloadLayers = c.nCurUnloadLayers := rfl
  rw [hstart] at h2
  unfold planEnd planPhases
  dsimp only
  split
  · exact ⟨h1, by omega, by omega⟩
  · rename_i hr
    obtain ⟨g1, g2, g3⟩ := planPhase2_within hok target cfg.numLayers _ h1
      (h3 (Bool.eq_false_iff.mpr hr))
    exact ⟨g1, by omega, by omega⟩

/-- After an earlier swapout has unloaded layers, the planner keeps to the layers exactly if
unloading the remaining ones reaches the target. -/
theorem planEnd_unload_le (hok : CoreOk cfg c) (ht : Totals cfg c)
    (hpos : 0 < c.nCurUnloadLayers) (target : ℚ) :
    (planEnd cfg target c).unloadLayers ≤ cfg.numLayers ↔
      (Plan.allUnloaded cfg c).ratio cfg c ≤ target := by
  obtain ⟨hbound, -⟩ := ht.unloaded hpos
  have hle : (Plan.start c).processedChunks ≤ c.totalChunks cfg := by
    have h1 := hok.totalChunks
    have h2 := hok.ladder.nComp_le
    have h3 := hok.ladder.nStore_le
    simp only [Plan.start]
    omega
  have hun := hok.unloaded_le
  have hend : planEnd cfg target c = planPhase2 cfg target c cfg.numLayers (Plan.start c) :=
    planPhases_past _ (by simp only [Plan.start]; omega)
  -- the iterations that unload the remaining layers
  obtain ⟨j, hj⟩ : ∃ j : Nat, (j : Int) = cfg.numLayers - c.nCurUnloadLayers :=
    ⟨((cfg.numLayers : Int) - c.nCurUnloadLayers).toNat, by omega⟩
  have hall : (Plan.unload cfg c)^[j] (Plan.start c) = Plan.allUnloaded cfg c := by
    rw [iterate_unload hle]
    unfold Plan.allUnloaded Plan.start
    rw [hj]
    dsimp only
    rw [Plan.mk.injEq]
    exact ⟨rfl, rfl, by omega, rfl⟩
  have hfull : 0 ≤ c.fullBytes := by
    rw [ht.full]
    exact fullBytesOf_nonneg cfg _
  rw [hend]
  constructor
  · intro hunload
    by_contra habove
    have hpass := @planPhase2_passes cfg c target cfg.numLayers (j + 1) (Plan.start c) (by omega) ?_
    · simp only [Plan.start] at hpass hunload
      push_cast at hpass
      omega
    · intro k hk hreach
      refine habove (le_trans ?_ hreach)
      rw [← hall, iterate_unload hle, iterate_unload hle]
      have hkj : (k : Int) ≤ j := by omega
      have hmul : (cfg.perLayerBalance : Int) * k ≤ cfg.perLayerBalance * j := by gcongr
      have hk0 : (0 : Int) ≤ cfg.perLayerBalance * k := by positivity
      have hnn := hok.ladder.nComp_nonneg
      apply Plan.ratio_anti hfull
      · simp only [Plan.start] at hle ⊢
        omega
      · dsimp only
        omega
      · exact le_rfl
      · dsimp only
        omega
  · intro hreach
    have hstop := planPhase2_stops target cfg.numLayers j (Plan.start c) (by rw [hall]; exact hreach)
    simp only [Plan.start] at hstop ⊢
    omega

end

end MzCache
