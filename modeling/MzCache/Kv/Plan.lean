import MzCache.Kv.State

/-!
# The swapout plan

`derive_swapout_plan` splits each layer's chunks at `chunk_bound`: the chunks
below it are compressed, the others stored to disk. The first layers are
compressed whole until `per_layer_balance * num_layers` chunks are covered, the
layer where that count ends gets its remainder split by the decompress/load
ratio, and all later layers use the ratio alone.

`PlanShape` collects what the cursors need of a plan: an empty compress region
is followed by empty ones only, and a nonempty store region by nonempty ones
only, so that a cursor walking up meets no gap.
-/

namespace MzCache

open MzCache.Lib

/-- `default_chunk_bound`. -/
def defaultChunkBound (cfg : Config) (n : Nat) : Nat :=
  (truncInt (cfg.f32.fl (n * cfg.decompLoadRatio))).toNat

/-- `n_weight_balance_chunks`. -/
def nWeightBalanceChunks (cfg : Config) : Nat := cfg.perLayerBalance * cfg.numLayers

/-- The locals of the planning loop and the `chunk_bound` array it fills. -/
structure PlanAcc where
  curChunks : Nat
  balanceChunks : Bool
  bound : Nat → Nat

/-- Bound of the layer in which the balance chunks run out. -/
def boundaryChunkBound (cfg : Config) (n curChunks : Nat) : Nat :=
  let compOnly := nWeightBalanceChunks cfg - curChunks
  let nRemain := n - compOnly
  (truncInt (cfg.f32.fl (compOnly + cfg.f32.fl (nRemain * cfg.decompLoadRatio)))).toNat

/-- One iteration of the planning loop, for layer `i`. -/
def planStep (cfg : Config) (n : Nat) (acc : PlanAcc) (i : Nat) : PlanAcc :=
  if acc.balanceChunks then
    if acc.curChunks + n > nWeightBalanceChunks cfg then
      { acc with
        bound := Function.update acc.bound i (boundaryChunkBound cfg n acc.curChunks)
        balanceChunks := false }
    else
      { acc with
        bound := Function.update acc.bound i n
        curChunks := acc.curChunks + n }
  else
    { acc with bound := Function.update acc.bound i (defaultChunkBound cfg n) }

/-- The planning loop over the first `m` layers. -/
def planLoop (cfg : Config) (n m : Nat) : PlanAcc :=
  (List.range m).foldl (planStep cfg n) ⟨0, true, fun _ => 0⟩

/-- `chunk_bound` for `n` chunks per tensor. -/
def chunkBounds (cfg : Config) (n : Nat) : Nat → Nat := (planLoop cfg n cfg.numLayers).bound

/-- Sum over the layers, as the counting loops of the source compute it. -/
def layerSum (cfg : Config) (f : Nat → Int) : Int := ((List.range cfg.numLayers).map f).sum

/-- `derive_swapout_plan`. -/
def deriveSwapoutPlan (cfg : Config) (s : KvState) : KvState :=
  let n := s.numChunksPerTensor
  let bound := chunkBounds cfg n
  { s with
    chunkBound := bound
    maxCompChunks := layerSum cfg fun i => bound i
    maxStoreChunks := layerSum cfg fun i => (n : Int) - bound i
    curToCompress := ⟨(cfg.numLayers : Int) - 1, (bound (cfg.numLayers - 1) : Int) - 1⟩
    curToStore := ⟨(cfg.numLayers : Int) - 1, (n : Int) - 1⟩ }

/-- What the cursors rely on in a plan. -/
structure PlanShape (numLayers n : Nat) (bound : Nat → Nat) : Prop where
  le : ∀ i, bound i ≤ n
  emptyComp : ∀ i, i + 1 < numLayers → bound i = 0 → bound (i + 1) = 0
  openStore : ∀ i, i + 1 < numLayers → bound i < n → bound (i + 1) < n

section

variable (cfg : Config) {n : Nat}

section

variable (hmax : n ≤ cfg.f32.limit)
include hmax

theorem defaultChunkBound_le : defaultChunkBound cfg n ≤ n := by
  obtain ⟨h0, h1⟩ := cfg.f32.mul_bounds hmax cfg.ratio_nonneg
    cfg.ratio_le_one
  have := truncInt_bounds (a := 0) (b := n) (by simpa using h0) h1
  unfold defaultChunkBound
  omega

/-- With a ratio below one the default bound leaves something to store. -/
theorem defaultChunkBound_lt (hn : 0 < n) (hr : cfg.decompLoadRatio < 1) :
    defaultChunkBound cfg n < n := by
  have h0 := (cfg.f32.mul_bounds hmax cfg.ratio_nonneg cfg.ratio_le_one).1
  have := truncInt_lt h0 (cfg.f32.below n _ hn hmax cfg.ratio_float hr)
  unfold defaultChunkBound
  omega

section

variable {cur : Nat} (hcur : cur ≤ nWeightBalanceChunks cfg)
  (hover : nWeightBalanceChunks cfg < cur + n)
include hcur hover

theorem boundaryChunkBound_bounds :
    nWeightBalanceChunks cfg - cur ≤ boundaryChunkBound cfg n cur ∧
      boundaryChunkBound cfg n cur ≤ n := by
  unfold boundaryChunkBound
  dsimp only
  set a := nWeightBalanceChunks cfg - cur with ha
  obtain ⟨h0, h1⟩ := cfg.f32.mul_bounds (le_trans (Nat.sub_le n a) hmax) cfg.ratio_nonneg
    cfg.ratio_le_one
  have hsum : ((a : ℚ) + ((n - a : ℕ) : ℚ)) = n := by
    exact_mod_cast (show a + (n - a) = n by omega)
  have hlo : (a : ℚ) ≤ cfg.f32.fl (a + cfg.f32.fl ((n - a : ℕ) * cfg.decompLoadRatio)) :=
    cfg.f32.nat_le (le_trans (by omega) hmax) (by linarith)
  have hhi : cfg.f32.fl (a + cfg.f32.fl ((n - a : ℕ) * cfg.decompLoadRatio)) ≤ n :=
    cfg.f32.le_nat hmax (by linarith)
  have := truncInt_bounds hlo hhi
  omega

/-- Where the boundary layer compresses nothing, neither do the later ones. -/
theorem defaultChunkBound_eq_zero (hzero : boundaryChunkBound cfg n cur = 0) :
    defaultChunkBound cfg n = 0 := by
  have hb := boundaryChunkBound_bounds cfg hmax hcur hover
  have ha : nWeightBalanceChunks cfg - cur = 0 := by omega
  unfold boundaryChunkBound at hzero
  obtain ⟨h0, h1⟩ := cfg.f32.mul_bounds hmax cfg.ratio_nonneg cfg.ratio_le_one
  rw [ha] at hzero
  simp only [Nat.cast_zero, zero_add, Nat.sub_zero] at hzero
  have hmono : cfg.f32.fl (n * cfg.decompLoadRatio) < 1 := by
    by_contra hge
    have hge' : ((1 : ℕ) : ℚ) ≤ cfg.f32.fl (n * cfg.decompLoadRatio) := by
      simpa using not_lt.mp hge
    have := truncInt_bounds (cfg.f32.nat_le (by omega) hge')
      (cfg.f32.le_nat hmax h1)
    omega
  have := truncInt_lt (b := 1) h0 (by simpa using hmono)
  unfold defaultChunkBound
  omega

/-- Where the boundary layer stores something, so do the later ones. -/
theorem defaultChunkBound_lt_of_boundary (hlt : boundaryChunkBound cfg n cur < n) :
    defaultChunkBound cfg n < n := by
  have hn : 0 < n := by omega
  by_cases hr : cfg.decompLoadRatio < 1
  · exact defaultChunkBound_lt cfg hmax hn hr
  · -- at ratio one the boundary layer is compressed whole
    exfalso
    have hone : cfg.decompLoadRatio = 1 := le_antisymm cfg.ratio_le_one (not_lt.mp hr)
    unfold boundaryChunkBound at hlt
    dsimp only at hlt
    set a := nWeightBalanceChunks cfg - cur with ha
    have hsum : ((a : ℚ) + ((n - a : ℕ) : ℚ)) = n := by
      exact_mod_cast (show a + (n - a) = n by omega)
    rw [hone] at hlt
    rw [mul_one, cfg.f32.nat _ (le_trans (Nat.sub_le n a) hmax), hsum,
      cfg.f32.nat _ hmax] at hlt
    have := truncInt_bounds (le_refl (n : ℚ)) (le_refl (n : ℚ))
    omega

end

end

/-- The planning loop after `m` layers. Before the balance chunks run out every
layer is compressed whole; afterwards there is one boundary layer `q`. -/
inductive PlanAcc.At (cfg : Config) (n m : Nat) (acc : PlanAcc) : Prop
  | balancing (hflag : acc.balanceChunks = true) (hcur : acc.curChunks = m * n)
      (hle : m * n ≤ nWeightBalanceChunks cfg)
      (hbound : ∀ i, acc.bound i = if i < m then n else 0)
  | split (q : Nat) (hflag : acc.balanceChunks = false) (hq : q < m)
      (hle : q * n ≤ nWeightBalanceChunks cfg)
      (hover : nWeightBalanceChunks cfg < q * n + n)
      (hbound : ∀ i, acc.bound i =
        if i < q then n
        else if i = q then boundaryChunkBound cfg n (q * n)
        else if i < m then defaultChunkBound cfg n else 0)

theorem planStep_at {m : Nat} {acc : PlanAcc} (h : acc.At cfg n m) :
    (planStep cfg n acc m).At cfg n (m + 1) := by
  rcases h with ⟨hflag, hcur, hle, hbound⟩ | ⟨q, hflag, hq, hle, hover, hbound⟩
  · unfold planStep
    rw [if_pos hflag, hcur]
    split
    · rename_i hgt
      refine .split m rfl (by omega) hle hgt ?_
      intro i
      by_cases him : i = m
      · subst him
        simp
      · simp only [Function.update_of_ne him, hbound]
        split
        · rfl
        · rw [if_neg (show ¬ i < m + 1 by omega)]
    · rename_i hgt
      refine .balancing hflag ?_ ?_ ?_
      · simp only
        ring
      · rw [Nat.add_mul]
        omega
      · intro i
        by_cases him : i = m
        · subst him
          simp
        · simp only [Function.update_of_ne him, hbound]
          split <;> split <;> first | rfl | omega
  · unfold planStep
    rw [if_neg (by simp [hflag])]
    refine .split q hflag (by omega) hle hover ?_
    intro i
    by_cases him : i = m
    · subst him
      simp only [Function.update_self]
      rw [if_neg (by omega), if_neg (by omega), if_pos (by omega)]
    · simp only [Function.update_of_ne him, hbound]
      split
      · rfl
      · split
        · rfl
        · split <;> split <;> first | rfl | omega

theorem planLoop_at (m : Nat) : (planLoop cfg n m).At cfg n m := by
  induction m with
  | zero => exact .balancing rfl (by simp [planLoop]) (by simp) (by simp [planLoop])
  | succ m ih =>
      unfold planLoop
      rw [List.range_succ, List.foldl_append]
      exact planStep_at cfg ih

/-- The derived plan has the shape the cursors rely on. -/
theorem chunkBounds_shape (hmax : n ≤ cfg.f32.limit) : PlanShape cfg.numLayers n (chunkBounds cfg n) := by
  unfold chunkBounds
  rcases planLoop_at cfg (n := n) cfg.numLayers with
    ⟨_, _, _, hbound⟩ | ⟨q, _, hq, hle, hover, hbound⟩
  · refine ⟨?_, ?_, ?_⟩
    · intro i
      rw [hbound]
      split <;> omega
    · intro i hi hz
      rw [hbound, if_pos (by omega)] at hz
      rw [hbound, if_pos hi, hz]
    · intro i hi hlt
      rw [hbound, if_pos (by omega)] at hlt
      omega
  · have hb := boundaryChunkBound_bounds cfg hmax hle hover
    have hd := defaultChunkBound_le cfg hmax
    refine ⟨?_, ?_, ?_⟩
    · intro i
      rw [hbound]
      split
      · exact le_rfl
      · split
        · exact hb.2
        · split <;> omega
    · intro i hi hz
      rw [hbound] at hz ⊢
      by_cases h1 : i < q
      · rw [if_pos h1] at hz
        omega
      · rw [if_neg h1] at hz
        rw [if_neg (by omega), if_neg (by omega), if_pos hi]
        by_cases h2 : i = q
        · rw [if_pos h2] at hz
          exact defaultChunkBound_eq_zero cfg hmax hle hover hz
        · rwa [if_neg h2, if_pos (by omega)] at hz
    · intro i hi hlt
      rw [hbound] at hlt ⊢
      by_cases h1 : i < q
      · rw [if_pos h1] at hlt
        omega
      · rw [if_neg h1] at hlt
        rw [if_neg (by omega), if_neg (by omega), if_pos hi]
        by_cases h2 : i = q
        · rw [if_pos h2] at hlt
          exact defaultChunkBound_lt_of_boundary cfg hmax hle hover hlt
        · rwa [if_neg h2, if_pos (by omega)] at hlt

theorem layerSum_add (f g : Nat → Int) :
    layerSum cfg (fun i => f i + g i) = layerSum cfg f + layerSum cfg g := by
  unfold layerSum
  exact List.sum_map_add

theorem layerSum_const (c : Int) : layerSum cfg (fun _ => c) = c * cfg.numLayers := by
  unfold layerSum
  simp [mul_comm]

theorem layerSum_le {f g : Nat → Int} (h : ∀ i < cfg.numLayers, f i ≤ g i) :
    layerSum cfg f ≤ layerSum cfg g := by
  unfold layerSum
  apply List.sum_le_sum
  intro i hi
  exact h i (List.mem_range.mp hi)

/-- Compress and store regions partition the chunks. -/
theorem chunkBounds_total (n : Nat) :
    layerSum cfg (fun i => (chunkBounds cfg n i : Int)) +
      layerSum cfg (fun i => (n : Int) - chunkBounds cfg n i) = n * cfg.numLayers := by
  rw [← layerSum_add, ← layerSum_const]
  congr 1
  funext i
  omega

/-- The loop's prefix sum covers the balance chunks, or everything. -/
theorem planLoop_sum (hmax : n ≤ cfg.f32.limit) (m : Nat) :
    (min (nWeightBalanceChunks cfg) (n * m) : Nat) ≤
      ((List.range m).map (planLoop cfg n m).bound).sum := by
  have hfull : ∀ (k : Nat) (bound : Nat → Nat), (∀ i < k, bound i = n) →
      ((List.range k).map bound).sum = n * k := by
    intro k bound hk
    have hmap : (List.range k).map bound = (List.range k).map (fun _ => n) :=
      List.map_congr_left fun i hi => hk i (List.mem_range.mp hi)
    rw [hmap]
    simp [mul_comm]
  rcases planLoop_at cfg (n := n) m with ⟨_, _, _, hbound⟩ | ⟨q, _, hq, hle, hover, hbound⟩
  · rw [hfull m _ (fun i hi => by rw [hbound, if_pos hi])]
    exact min_le_right _ _
  · have hb := (boundaryChunkBound_bounds cfg hmax hle hover).1
    have hsplit : ((List.range (q + 1)).map (planLoop cfg n m).bound).sum ≤
        ((List.range m).map (planLoop cfg n m).bound).sum := by
      obtain ⟨k, rfl⟩ : ∃ k, m = q + 1 + k := ⟨m - (q + 1), by omega⟩
      rw [List.range_add (n := q + 1) (m := k), List.map_append, List.sum_append]
      exact Nat.le_add_right _ _
    have hq1 : ((List.range (q + 1)).map (planLoop cfg n m).bound).sum =
        n * q + boundaryChunkBound cfg n (q * n) := by
      rw [List.range_succ, List.map_append, List.sum_append,
        hfull q _ (fun i hi => by rw [hbound, if_pos hi])]
      simp [hbound]
    have hcomm : n * q = q * n := Nat.mul_comm _ _
    have hmin := min_le_left (nWeightBalanceChunks cfg) (n * m)
    omega

/-- `max_comp_chunks` covers the balance chunks, as far as there are chunks. -/
theorem maxComp_ge_balance (hmax : n ≤ cfg.f32.limit) :
    (min (nWeightBalanceChunks cfg) (n * cfg.numLayers) : Nat) ≤
      layerSum cfg (fun i => (chunkBounds cfg n i : Int)) := by
  have h := planLoop_sum cfg hmax cfg.numLayers
  have hcast : layerSum cfg (fun i => (chunkBounds cfg n i : Int)) =
      (((List.range cfg.numLayers).map (chunkBounds cfg n)).sum : Nat) := by
    unfold layerSum
    rw [Nat.cast_list_sum, List.map_map]
    rfl
  rw [hcast]
  exact_mod_cast h

/-! ## Exact arithmetic -/

/-- The same engine with arithmetic that is exact for counts up to `n`. -/
def Config.exactUpTo (cfg : Config) (n : Nat) : Config :=
  { cfg with
    f32 := .exact (max n maxChunksPerTensor)
    ratio_float := rfl
    limit_ge := le_max_right _ _ }

section

variable (hexact : ∀ x, cfg.f32.fl x = x)
include hexact

/-- Without rounding the plan does not depend on where counts stop to be representable. -/
theorem chunkBounds_exactUpTo (m : Nat) : chunkBounds (cfg.exactUpTo m) n = chunkBounds cfg n := by
  have hfl : cfg.f32.fl = id := funext hexact
  have hstep : planStep (cfg.exactUpTo m) n = planStep cfg n := by
    funext acc i
    unfold planStep boundaryChunkBound defaultChunkBound nWeightBalanceChunks
    rw [hfl]
    rfl
  unfold chunkBounds planLoop
  rw [hstep]
  rfl

theorem defaultChunkBound_le_boundary {cur : Nat} (hcur : cur ≤ nWeightBalanceChunks cfg)
    (hover : nWeightBalanceChunks cfg < cur + n) :
    defaultChunkBound cfg n ≤ boundaryChunkBound cfg n cur := by
  unfold defaultChunkBound boundaryChunkBound
  dsimp only
  rw [hexact, hexact, hexact]
  set a := nWeightBalanceChunks cfg - cur with ha
  have hr0 := cfg.ratio_nonneg
  have hr1 := cfg.ratio_le_one
  have ha0 : (0 : ℚ) ≤ a := Nat.cast_nonneg a
  have hsub : ((n - a : ℕ) : ℚ) = n - a := Nat.cast_sub (by omega)
  have hn0 : (0 : ℚ) ≤ (n : ℚ) * cfg.decompLoadRatio := mul_nonneg (Nat.cast_nonneg n) hr0
  -- the part compressed whole is at least its share
  have hle : (n : ℚ) * cfg.decompLoadRatio ≤ a + ((n - a : ℕ) : ℚ) * cfg.decompLoadRatio := by
    rw [hsub]
    have hshare : (a : ℚ) * cfg.decompLoadRatio ≤ a := mul_le_of_le_one_right ha0 hr1
    linarith
  rw [truncInt_of_nonneg hn0, truncInt_of_nonneg (le_trans hn0 hle)]
  exact Int.toNat_le_toNat (Int.floor_le_floor hle)

/-- The bounds do not increase from layer to layer. -/
theorem chunkBounds_antitone : Antitone (chunkBounds cfg n) := by
  rw [← chunkBounds_exactUpTo cfg hexact n]
  set cfg' := cfg.exactUpTo n with hcfg
  have hmax : n ≤ cfg'.f32.limit := le_max_left _ _
  apply antitone_nat_of_succ_le
  intro i
  unfold chunkBounds
  rcases planLoop_at cfg' (n := n) cfg'.numLayers with
    ⟨_, _, _, hbound⟩ | ⟨q, _, hq, hle, hover, hbound⟩
  · rw [hbound, hbound]
    split <;> split <;> omega
  · have hb := (boundaryChunkBound_bounds cfg' hmax hle hover).2
    have hd := defaultChunkBound_le_boundary cfg' (fun _ => rfl) hle hover
    have hnext : cfg'.numLayers ≤ i + 1 ∨ i + 1 < q ∨ i + 1 = q ∨
        (q < i + 1 ∧ i + 1 < cfg'.numLayers) := by
      omega
    rw [hbound, hbound]
    rcases hnext with h | h | h | ⟨h, hlast⟩
    · rw [if_neg (by omega), if_neg (by omega), if_neg (by omega)]
      exact Nat.zero_le _
    · rw [if_pos h, if_pos (by omega)]
    · rw [if_neg (by omega), if_pos h, if_pos (by omega)]
      exact hb
    · rw [if_neg (by omega), if_neg (by omega), if_pos hlast, if_neg (by omega)]
      by_cases hiq : i = q
      · rw [if_pos hiq]
        exact hd
      · rw [if_neg hiq, if_pos (by omega)]

end

end

end MzCache
