import MzCache.Core.PlannerBounds
import MzCache.Core.SwapoutProgress
import MzCache.Core.Engine

/-!
# Room distribution

The `allocate_chunks` lambdas of the planner and of `swapout_impl` distribute a request over the
room that is left. A request is multiplied by a `float`: up to the counts a `float` holds, `2 ^ 24`
in single precision, the two lambdas return the same shares, within the room and as large as it
allows. In phase 1 of both that room is exactly what is missing to `bound_chunks`.
-/

namespace MzCache.Theorems

open MzCache MzCache.Lib

section

variable {cfg : Config} {c x : Core} {p : Plan}

/-- `add` takes as much of the two rooms as is requested. -/
structure FillsRoom (requested room storeRoom : ℤ) (add : ℤ × ℤ) : Prop where
  comp_nonneg : 0 ≤ add.1
  comp_le : add.1 ≤ room
  store_nonneg : 0 ≤ add.2
  store_le : add.2 ≤ storeRoom
  sum : add.1 + add.2 = min requested (room + storeRoom)

/-- The rooms left to the working variables of the planner. -/
def planCompRoom (cfg : Config) (c : Core) (p : Plan) : ℤ :=
  max 0 (c.kv.maxCompChunks - cfg.perLayerBalance * cfg.numLayers - p.compChunks)

def planStoreRoom (c : Core) (p : Plan) : ℤ := max 0 (c.kv.maxStoreChunks - p.storeChunks)

theorem allocateChunks_fills (c : Core) {n : ℕ} (hn : n ≤ cfg.f32.limit) :
    FillsRoom n (compRoom cfg c) (storeRoom c) (allocateChunks cfg c n) := by
  obtain ⟨h0, h1, h2, h3, h4⟩ := allocateChunks_spec cfg (c := c) hn
  exact ⟨h0, h1, h2, h3, h4⟩

/-- Both lambdas see the room only. -/
theorem planAllocate_eq_of_rooms {n : ℕ} (hn : n ≤ cfg.f32.limit)
    (hcomp : planCompRoom cfg c p = compRoom cfg x) (hstore : planStoreRoom c p = storeRoom x) :
    planAllocate cfg c p n = allocateChunks cfg x n := by
  obtain ⟨h0, h1⟩ := wantComp_bounds cfg hn
  unfold planCompRoom compRoom at hcomp
  unfold planStoreRoom storeRoom at hstore
  unfold planAllocate allocateChunks
  dsimp only
  rw [hcomp, hstore]
  set w := truncInt (cfg.f32.fl (((n : Int) : ℚ) * cfg.decompLoadRatio))
  set a := x.kv.maxCompChunks - cfg.perLayerBalance * cfg.numLayers
  split
  · split <;> split <;> split <;> (simp only [Prod.mk.injEq]; omega)
  · rfl

/-! ## Phase 1 -/

/-- With the balance chunks raw or the store regions exhausted, the room is what is missing to
`bound_chunks`. -/
theorem room_eq {comp store processed : ℤ}
    (htotal : c.totalChunks cfg = c.kv.maxCompChunks + c.kv.maxStoreChunks)
    (hproc : processed = comp + store) (hstore : store ≤ c.kv.maxStoreChunks)
    (hphase : comp ≤ c.kv.maxCompChunks - cfg.perLayerBalance * cfg.numLayers ∨
      store = c.kv.maxStoreChunks) (hmore : processed < c.boundChunks cfg) :
    max 0 (c.kv.maxCompChunks - cfg.perLayerBalance * cfg.numLayers - comp) +
      max 0 (c.kv.maxStoreChunks - store) = c.boundChunks cfg - processed := by
  unfold Core.boundChunks at *
  omega

/-- What an iteration requests, as a count. -/
theorem request_eq {processed : ℤ} (hmore : processed < c.boundChunks cfg) :
    ∃ n : ℕ, min 20 (c.totalChunks cfg - processed) = n ∧ n ≤ cfg.f32.limit ∧ 0 < n := by
  have hbal : (0 : ℤ) ≤ cfg.perLayerBalance * cfg.numLayers := by positivity
  have hlim := cfg.limit_ge
  unfold maxChunksPerTensor at hlim
  unfold Core.boundChunks at hmore
  refine ⟨(min 20 (c.totalChunks cfg - processed)).toNat, ?_, ?_, ?_⟩ <;> omega

/-- An iteration of phase 1 of the planner. -/
def planNext (cfg : Config) (c : Core) (p : Plan) : Plan :=
  let add := planAllocate cfg c p (min 20 (c.totalChunks cfg - p.processedChunks))
  p.add add.1 add.2

/-- The working variables at the head of the loop of phase 1. -/
inductive PlanHead (cfg : Config) (target : ℚ) (c : Core) : Plan → Prop
  | start : PlanHead cfg target c (.start c)
  | next {p : Plan} (h : PlanHead cfg target c p) (hmore : p.processedChunks < c.boundChunks cfg)
      (habove : ¬ p.ratio cfg c ≤ target) : PlanHead cfg target c (planNext cfg c p)

/-- They are what `planPhase1` goes through. -/
theorem planPhase1_head {target : ℚ} (fuel : ℕ) (h : PlanHead cfg target c p) :
    PlanHead cfg target c (planPhase1 cfg target c fuel p).2 := by
  induction fuel generalizing p with
  | zero => exact h
  | succ fuel ih =>
      unfold planPhase1
      split
      · rename_i hmore
        split
        · exact h
        · rename_i habove
          dsimp only
          split
          · exact h
          · exact ih (h.next hmore habove)
      · exact h

/-- An iteration of the planner adds a chunk, and not more than are missing. -/
theorem planNext_spec (hok : CoreOk cfg c) (hp : p.Within cfg c)
    (hmore : p.processedChunks < c.boundChunks cfg) :
    (planNext cfg c p).Within cfg c ∧ p.processedChunks < (planNext cfg c p).processedChunks ∧
      (planNext cfg c p).processedChunks ≤ c.boundChunks cfg := by
  obtain ⟨n, hn, hlim, hpos⟩ := request_eq hmore
  have hroom := room_eq hok.totalChunks hp.processed hp.store_le hp.phase hmore
  obtain ⟨ha0, ha, hb0, hb, hsum⟩ := @planAllocate_spec cfg c p n hlim
  unfold planNext
  rw [hn]
  dsimp only
  set add := planAllocate cfg c p n
  have hbal : (0 : ℤ) ≤ cfg.perLayerBalance * cfg.numLayers := by positivity
  obtain ⟨h1, h2, h3, h4, h5, h6⟩ := hp
  refine ⟨⟨?_, ?_, ?_, ?_, ?_, ?_⟩, ?_, ?_⟩
  all_goals simp only [Plan.add]
  all_goals omega

theorem planHead_within {target : ℚ} (hok : CoreOk cfg c) (hphase : PhaseOk cfg c.kv)
    (h : PlanHead cfg target c p) : p.Within cfg c := by
  induction h with
  | start => exact Plan.within_start hok hphase
  | next _ hmore _ ih => exact (planNext_spec hok ih hmore).1

/-- The same of `swapout_impl`, whose stores may fail. -/
theorem phase1Step_spec {io : Io} {target : ℚ} {m : Swapout} (h : SwapoutOk cfg m)
    (hpc : m.pc = .phase1) (hmore : m.processedChunks < m.core.boundChunks cfg) :
    0 < (m.toAdd cfg).1 + (m.toAdd cfg).2 ∧
      (m.step cfg io target).processedChunks ≤ m.core.boundChunks cfg ∧
      ((∀ t, (io .storeOpen t).opened) → (m.step cfg io target).processedChunks =
        m.processedChunks + ((m.toAdd cfg).1 + (m.toAdd cfg).2)) := by
  have hok := h.pc
  rw [hpc] at hok
  obtain ⟨hproc, -, hphase⟩ := hok
  obtain ⟨n, hn, hlim, hpos⟩ := request_eq hmore
  have hroom := room_eq h.core.totalChunks hproc h.core.ladder.nStore_le hphase hmore
  have hfills : FillsRoom n (compRoom cfg m.core) (storeRoom m.core)
      (allocateChunks cfg m.core n) := allocateChunks_fills m.core hlim
  have hadd : m.toAdd cfg = allocateChunks cfg m.core n := by
    unfold Swapout.toAdd
    rw [hn]
  rw [← hadd] at hfills
  have hsum := hfills.sum
  unfold compRoom storeRoom at hsum
  rw [hroom] at hsum
  have hsome : 0 < (m.toAdd cfg).1 + (m.toAdd cfg).2 := by omega
  obtain ⟨ha0, ha, hb0, hb⟩ := h.toAdd_spec hmore
  have hev := h.core.phase1Evict io ha0 ha hb0 hb
  have hafter : (m.step cfg io target).processedChunks =
      (phase1Evict cfg io m.core (m.toAdd cfg).1 (m.toAdd cfg).2).kv.nCurCompChunks +
        (phase1Evict cfg io m.core (m.toAdd cfg).1 (m.toAdd cfg).2).kv.nCurStoreChunks := by
    unfold Swapout.step
    rw [hpc]
    dsimp only
    unfold phase1Step
    rw [if_pos hmore]
    dsimp only
    rw [show allocateChunks cfg m.core (min 20 (m.core.totalChunks cfg - m.processedChunks)) =
      m.toAdd cfg from rfl]
    split_ifs with hreach hnone
    · rfl
    · omega
    · rfl
  have hcomp := hev.nComp
  have hstore := hev.nStore_le
  refine ⟨hsome, by omega, fun hio => ?_⟩
  have hall := hev.nStore hio
  omega

end

/-- Up to the counts a `float` holds the two lambdas return the same shares of the same rooms,
within the rooms and filling them as requested. In phase 1 of the planner and of `swapout_impl`,
from any state of the engine, every iteration therefore adds a chunk, and none goes past
`bound_chunks`. -/
theorem room_distribution (cfg : Config) (io : Io) (target : ℚ) :
    (∀ (c x : Core) (p : Plan) (requested : ℕ), requested ≤ cfg.f32.limit →
      planCompRoom cfg c p = compRoom cfg x → planStoreRoom c p = storeRoom x →
        planAllocate cfg c p requested = allocateChunks cfg x requested ∧
        FillsRoom requested (compRoom cfg x) (storeRoom x) (allocateChunks cfg x requested)) ∧
    ∀ c, (engine cfg io).Reachable c →
      (∀ p, PlanHead cfg target c p → p.processedChunks < c.boundChunks cfg →
        p.processedChunks < (planNext cfg c p).processedChunks ∧
          (planNext cfg c p).processedChunks ≤ c.boundChunks cfg) ∧
      ∀ k, let m := (swapoutStart cfg target c).run cfg io target k
        m.pc = .phase1 → m.processedChunks < m.core.boundChunks cfg →
          0 < (m.toAdd cfg).1 + (m.toAdd cfg).2 ∧
          (m.step cfg io target).processedChunks ≤ m.core.boundChunks cfg ∧
          ((∀ t, (io .storeOpen t).opened) → (m.step cfg io target).processedChunks =
            m.processedChunks + ((m.toAdd cfg).1 + (m.toAdd cfg).2)) := by
  refine ⟨fun c x p n hn hcomp hstore => ⟨planAllocate_eq_of_rooms hn hcomp hstore,
    allocateChunks_fills x hn⟩, fun c hc => ?_⟩
  obtain ⟨hok, hphase⟩ := engine_ok c hc
  refine ⟨fun p hp hmore => (planNext_spec hok (planHead_within hok hphase hp) hmore).2,
    fun k => ?_⟩
  obtain ⟨hstart, -⟩ := SwapoutOk.start io target hok hphase
  obtain ⟨hrun, -⟩ := hstart.run io target k
  exact fun hpc hmore => phase1Step_spec hrun hpc hmore

/-- Requests up to 256 in the small engine. -/
theorem room_distribution_small :
    planAllocate .small .small (.start .small) 20 = allocateChunks .small .small 20 :=
  (((room_distribution .small .ok 0).1 .small .small (.start .small) 20 (by decide) rfl rfl)).1

/-! ## Larger requests -/

/-- Rounding to a multiple of two from `2 ^ 24` on, as in single precision up to `2 ^ 25`. -/
def roundEven (x : ℚ) : ℚ := if x < 2 ^ 24 then x else 2 * ⌊x / 2 + 1 / 2⌋

theorem roundEven_ge {x : ℚ} (h : 2 ^ 24 ≤ x) : (2 : ℚ) ^ 24 ≤ 2 * ⌊x / 2 + 1 / 2⌋ := by
  have hfloor : (2 ^ 23 : ℤ) ≤ ⌊x / 2 + 1 / 2⌋ := by
    rw [Int.le_floor]
    push_cast
    linarith
  have hcast : ((2 ^ 23 : ℤ) : ℚ) ≤ ⌊x / 2 + 1 / 2⌋ := Int.cast_le.mpr hfloor
  push_cast at hcast
  linarith

def singlePrecision : Rounding where
  fl := roundEven
  limit := 2 ^ 24
  mono := by
    intro x y hxy
    unfold roundEven
    split_ifs with hx hy hy
    · exact hxy
    · exact hx.le.trans (roundEven_ge (not_lt.mp hy))
    · linarith
    · have hfloor : ⌊x / 2 + 1 / 2⌋ ≤ ⌊y / 2 + 1 / 2⌋ := Int.floor_mono (by linarith)
      have hcast : ((⌊x / 2 + 1 / 2⌋ : ℤ) : ℚ) ≤ ⌊y / 2 + 1 / 2⌋ := Int.cast_le.mpr hfloor
      linarith
  nat := by
    intro n hn
    unfold roundEven
    split_ifs with h
    · rfl
    · have heq : (n : ℚ) = 2 ^ 24 := by
        have hle : (n : ℚ) ≤ 2 ^ 24 := by exact_mod_cast hn
        linarith
      rw [heq]
      norm_num
  below := by
    intro n r hpos hn _ hr
    have hn' : (n : ℚ) ≤ 2 ^ 24 := by exact_mod_cast hn
    have hpos' : (0 : ℚ) < n := by exact_mod_cast hpos
    have hlt : (n : ℚ) * r < n := mul_lt_of_lt_one_right hpos' hr
    unfold roundEven
    rw [if_pos (by linarith)]
    exact hlt

/-- The small engine in single precision, with everything to compress and nothing to store. -/
def Config.allComp : Config :=
  { Config.small with
    decompLoadRatio := 1
    f32 := singlePrecision
    ratio_nonneg := ratio_one_nonneg
    ratio_le_one := ratio_one_le
    ratio_float := by
      show roundEven 1 = 1
      unfold roundEven
      norm_num
    limit_ge := by decide }

/-- Both lambdas round a request of `2 ^ 24 + 3` up, and store `-1` chunks. -/
theorem room_distribution_rounds_up :
    let c : Core := { Core.small with kv := { Core.small.kv with
      maxCompChunks := 2 ^ 25
      maxStoreChunks := 2 ^ 25 } }
    compRoom Config.allComp c = 2 ^ 25 ∧ storeRoom c = 2 ^ 25 ∧
    allocateChunks Config.allComp c (2 ^ 24 + 3) = (2 ^ 24 + 4, -1) ∧
    planAllocate Config.allComp c (.start c) (2 ^ 24 + 3) = (2 ^ 24 + 4, -1) ∧
    ¬ FillsRoom (2 ^ 24 + 3) (2 ^ 25) (2 ^ 25) (allocateChunks Config.allComp c (2 ^ 24 + 3)) := by
  intro c
  have hwant : truncInt (Config.allComp.f32.fl (((2 ^ 24 + 3 : ℤ) : ℚ) *
      Config.allComp.decompLoadRatio)) = 2 ^ 24 + 4 := by
    show truncInt (roundEven (((2 ^ 24 + 3 : ℤ) : ℚ) * 1)) = 2 ^ 24 + 4
    norm_num [roundEven, truncInt]
  have hcomp : c.kv.nCurCompChunks = 0 := rfl
  have hstore : c.kv.nCurStoreChunks = 0 := rfl
  have hmc : c.kv.maxCompChunks = 2 ^ 25 := rfl
  have hms : c.kv.maxStoreChunks = 2 ^ 25 := rfl
  have hbal : Config.allComp.perLayerBalance = 0 := rfl
  have hexec : allocateChunks Config.allComp c (2 ^ 24 + 3) = (2 ^ 24 + 4, -1) := by
    unfold allocateChunks
    rw [hwant, hcomp, hstore, hmc, hms, hbal]
    norm_num
  have hplan : planAllocate Config.allComp c (.start c) (2 ^ 24 + 3) = (2 ^ 24 + 4, -1) := by
    unfold planAllocate Plan.start
    dsimp only
    rw [hwant, hcomp, hstore, hmc, hms, hbal]
    norm_num
  refine ⟨?_, ?_, hexec, hplan, fun h => ?_⟩
  · unfold compRoom
    rw [hmc, hcomp, hbal]
    norm_num
  · unfold storeRoom
    rw [hms, hstore]
    norm_num
  · have hneg := h.store_nonneg
    rw [hexec] at hneg
    norm_num at hneg

end MzCache.Theorems
