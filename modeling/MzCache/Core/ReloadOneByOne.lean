import MzCache.Core.Accounting
import MzCache.Kv.OffloadCycle
import MzCache.Kv.ReloadFailure

/-!
# Reloading one layer at a time

`mzcache_reload_arenas` brings back the layer next to the cursor, and stays where it is when
that layer's snapshot is empty. As long as no snapshot is, its calls do what the loop of
`mzcache_reload_all_arenas` does, layer by layer.
-/

namespace MzCache

open MzCache.Lib

/-- What a reload of a layer reads and writes. -/
structure SwapView where
  arenaBytes : Nat
  arenas : Nat → List Arena
  swapFile : Nat → Bytes
  offloadUsedBytes : Nat → List Nat
  tick : Nat

def KvState.swap (s : KvState) : SwapView :=
  ⟨s.arenaBytes, s.arenas, s.swapFile, s.offloadUsedBytes, s.tick⟩

/-- `k` calls of `mzcache_reload_arenas`. -/
def reloadTimes (cfg : Config) (io : Io) (k : Nat) (s : KvState) : KvState :=
  (mzcacheReloadArenas cfg io)^[k] s

/-- One call of `mzcache_reload_arenas` for each offloaded layer. -/
def reloadOneByOne (cfg : Config) (io : Io) (s : KvState) : KvState :=
  reloadTimes cfg io (cfg.numLayers - s.firstOffloaded) s

/-- The reloads leave the same arenas and the same bookkeeping. -/
structure ReloadsAgree (cfg : Config) (io : Io) (s : KvState) : Prop where
  arenas : (reloadOneByOne cfg io s).arenas = (mzcacheReloadAllArenas cfg io s).arenas
  next : (reloadOneByOne cfg io s).nextLayerToOffload =
    (mzcacheReloadAllArenas cfg io s).nextLayerToOffload
  bytes : (reloadOneByOne cfg io s).nCurArenaOffloadBytes =
    (mzcacheReloadAllArenas cfg io s).nCurArenaOffloadBytes

section

variable {cfg : Config} {io : Io} {s t : KvState}

/-! ## One call -/

theorem reloadLayer_swap (h : s.swap = t.swap) (l : Nat) :
    (reloadLayer cfg io s l).swap = (reloadLayer cfg io t l).swap := by
  simp only [KvState.swap, SwapView.mk.injEq] at h
  obtain ⟨h1, h2, h3, h4, h5⟩ := h
  unfold reloadLayer
  rw [h1, h2, h3, h4, h5]
  split_ifs <;> simp [KvState.swap, h1, h2, h3, h4, h5]

theorem readAttempt_ok (hio : io.Reloads) {n : Nat} (used : List Nat) :
    (∀ u ∈ used, u ≤ n) → ∀ t, (readAttempt io n used t).1 = true := by
  induction used with
  | nil => exact fun _ _ => rfl
  | cons u used ih =>
      intro hle t
      have ih := ih fun v hv => hle v (List.mem_cons_of_mem _ hv)
      rw [readAttempt, if_neg (not_lt.mpr (hle u List.mem_cons_self)), if_pos (hio.reads t)]
      split
      · exact ih t
      · exact ih (t + 1)

/-- A call over a layer with a snapshot is one round of the loop, and one step of the cursor. -/
theorem reloadArenas_step (hio : io.Reloads) (h : Tallied cfg s)
    (hlt : s.nextLayerToOffload + 1 < cfg.numLayers)
    (hne : s.offloadUsedBytes s.firstOffloaded ≠ [])
    (hle : ∀ u ∈ s.offloadUsedBytes s.firstOffloaded, u ≤ s.arenaBytes) :
    (mzcacheReloadArenas cfg io s).swap = (reloadLayer cfg io s s.firstOffloaded).swap ∧
      (mzcacheReloadArenas cfg io s).nextLayerToOffload = s.nextLayerToOffload + 1 ∧
      Tallied cfg (mzcacheReloadArenas cfg io s) := by
  have hlow := h.nextLow
  have hfirst : (s.firstOffloaded : Int) = s.nextLayerToOffload + 1 := by
    unfold KvState.firstOffloaded
    omega
  have hempty : ¬ (s.offloadUsedBytes s.firstOffloaded).isEmpty = true := by
    rwa [List.isEmpty_iff]
  have hok : (readArenas cfg io s.arenaBytes (s.swapFile s.firstOffloaded)
      (s.offloadUsedBytes s.firstOffloaded) ⟨[], 0, s.tick + 1, true⟩).ok = true :=
    (readArenas_attempt cfg io s.arenaBytes _ _ ⟨[], 0, s.tick + 1, true⟩ rfl).1.trans
      (readAttempt_ok hio _ hle _)
  -- the bytes that the cursor passes
  have hbytes := h.bytes
  have hpassed : offloadedBytes cfg s =
      layerSum cfg (fun l => if s.nextLayerToOffload + 1 < (l : Int) then
        paddedBytes (s.offloadUsedBytes l) else 0) +
      paddedBytes (s.offloadUsedBytes s.firstOffloaded) := by
    have hsum := @layerSum_past cfg (fun l => paddedBytes (s.offloadUsedBytes l))
      (fun l => paddedBytes (s.offloadUsedBytes l)) _ (by omega) hlt (fun _ _ => rfl)
    rw [Int.add_sub_cancel] at hsum
    exact hsum
  have hrest : 0 ≤ layerSum cfg (fun l => if s.nextLayerToOffload + 1 < (l : Int) then
      paddedBytes (s.offloadUsedBytes l) else 0) := by
    apply List.sum_nonneg
    intro x hx
    obtain ⟨l, -, rfl⟩ := List.mem_map.mp hx
    split
    · apply List.sum_nonneg
      intro y hy
      obtain ⟨u, -, rfl⟩ := List.mem_map.mp hy
      exact Int.natCast_nonneg _
    · exact le_rfl
  unfold mzcacheReloadArenas reloadLayer
  dsimp only
  rw [if_neg (by omega), if_neg hempty, if_neg hempty, if_pos (hio.opens _), if_pos (hio.opens _),
    if_pos hok, if_neg (by omega)]
  refine ⟨rfl, rfl, by simp only; omega, hlt, ?_⟩
  show max 0 (s.nCurArenaOffloadBytes - paddedBytes (s.offloadUsedBytes s.firstOffloaded)) =
    layerSum cfg fun l => if s.nextLayerToOffload + 1 < (l : Int) then
      paddedBytes (s.offloadUsedBytes l) else 0
  omega

/-- Whatever it finds, a call passes one layer at most, and none with an empty snapshot. -/
theorem reloadArenas_next_le {l : Nat}
    (hlow : -1 ≤ s.nextLayerToOffload) (hl : s.nextLayerToOffload < l)
    (hempty : s.offloadUsedBytes l = []) :
    -1 ≤ (mzcacheReloadArenas cfg io s).nextLayerToOffload ∧
      (mzcacheReloadArenas cfg io s).nextLayerToOffload < l ∧
      (mzcacheReloadArenas cfg io s).offloadUsedBytes = s.offloadUsedBytes := by
  have hfirst : (s.firstOffloaded : Int) = s.nextLayerToOffload + 1 := by
    unfold KvState.firstOffloaded
    omega
  unfold mzcacheReloadArenas
  dsimp only
  split
  · exact ⟨hlow, hl, rfl⟩
  · split
    · exact ⟨hlow, hl, rfl⟩
    · rename_i hstart hsnap
      have hpast : s.firstOffloaded ≠ l := by
        rintro rfl
        exact hsnap (by rw [hempty]; rfl)
      split
      · split
        · refine ⟨?_, ?_, rfl⟩ <;> dsimp only <;> split <;> omega
        · exact ⟨hlow, hl, rfl⟩
      · exact ⟨hlow, hl, rfl⟩

/-! ## One call a layer -/

theorem foldl_reloadLayer_used (ls : List Nat) : ∀ s : KvState,
    (ls.foldl (reloadLayer cfg io) s).arenaBytes = s.arenaBytes ∧
      (ls.foldl (reloadLayer cfg io) s).offloadUsedBytes = s.offloadUsedBytes := by
  induction ls with
  | nil => exact fun _ => ⟨rfl, rfl⟩
  | cons l ls ih =>
      intro s
      obtain ⟨h1, h2⟩ := ih (reloadLayer cfg io s l)
      obtain ⟨-, h3, h4⟩ := @reloadLayer_attempt cfg io s l
      exact ⟨h1.trans h3, h2.trans h4⟩

/-- The calls do what the rounds of the loop do. -/
theorem reloadTimes_spec (hio : io.Reloads) (h : Tallied cfg s)
    (hle : ∀ l < cfg.numLayers, s.nextLayerToOffload < l →
      ∀ u ∈ s.offloadUsedBytes l, u ≤ s.arenaBytes)
    (hne : ∀ l < cfg.numLayers, s.nextLayerToOffload < l → s.offloadUsedBytes l ≠ []) (m : Nat)
    (hm : s.firstOffloaded + m ≤ cfg.numLayers) :
    (reloadTimes cfg io m s).swap =
        ((List.range' s.firstOffloaded m).foldl (reloadLayer cfg io) s).swap ∧
      (reloadTimes cfg io m s).nextLayerToOffload = s.nextLayerToOffload + m ∧
      Tallied cfg (reloadTimes cfg io m s) := by
  have hlow := h.nextLow
  have hfirst : (s.firstOffloaded : Int) = s.nextLayerToOffload + 1 := by
    unfold KvState.firstOffloaded
    omega
  induction m with
  | zero => exact ⟨rfl, (Int.add_zero _).symm, h⟩
  | succ m ih =>
      obtain ⟨hswap, hnext, htally⟩ := ih (by omega)
      have hstep : reloadTimes cfg io (m + 1) s =
          mzcacheReloadArenas cfg io (reloadTimes cfg io m s) :=
        Function.iterate_succ_apply' _ m s
      have hlayer : (reloadTimes cfg io m s).firstOffloaded = s.firstOffloaded + m := by
        unfold KvState.firstOffloaded at hfirst ⊢
        omega
      obtain ⟨hcap, hused⟩ := @foldl_reloadLayer_used cfg io (List.range' s.firstOffloaded m) s
      have hcap' : (reloadTimes cfg io m s).arenaBytes = s.arenaBytes :=
        (congrArg SwapView.arenaBytes hswap).trans hcap
      have hused' : (reloadTimes cfg io m s).offloadUsedBytes = s.offloadUsedBytes :=
        (congrArg SwapView.offloadUsedBytes hswap).trans hused
      have hone := @reloadArenas_step cfg io (reloadTimes cfg io m s) hio htally (by omega)
        (by rw [hlayer, hused']; exact hne _ (by omega) (by omega))
        (by rw [hlayer, hused', hcap']; exact hle _ (by omega) (by omega))
      obtain ⟨hswap', hnext', htally'⟩ := hone
      rw [hstep, List.range'_concat, List.foldl_append, List.foldl_cons, List.foldl_nil, one_mul]
      refine ⟨?_, by rw [hnext', hnext]; push_cast; ring, htally'⟩
      rw [hswap', hlayer]
      exact reloadLayer_swap hswap _

/-- The calls stop before the first empty snapshot. -/
theorem reloadTimes_next_lt {l : Nat} (hlow : -1 ≤ s.nextLayerToOffload)
    (hl : s.nextLayerToOffload < l) (hempty : s.offloadUsedBytes l = []) (m : Nat) :
    -1 ≤ (reloadTimes cfg io m s).nextLayerToOffload ∧
      (reloadTimes cfg io m s).nextLayerToOffload < l ∧
      (reloadTimes cfg io m s).offloadUsedBytes = s.offloadUsedBytes := by
  induction m with
  | zero => exact ⟨hlow, hl, rfl⟩
  | succ m ih =>
      obtain ⟨h1, h2, h3⟩ := ih
      have hstep : reloadTimes cfg io (m + 1) s =
          mzcacheReloadArenas cfg io (reloadTimes cfg io m s) :=
        Function.iterate_succ_apply' _ m s
      rw [hstep]
      obtain ⟨h1', h2', h3'⟩ := @reloadArenas_next_le cfg io (reloadTimes cfg io m s) l h1 h2
        (by rw [h3]; exact hempty)
      exact ⟨h1', h2', h3'.trans h3⟩

theorem Tallied.offloadTimes (h : Tallied cfg s) (k : Nat) :
    Tallied cfg (offloadTimes io k s) := by
  induction k with
  | zero => exact h
  | succ k ih =>
      have hstep : MzCache.offloadTimes io (k + 1) s =
          (mzcacheOffloadArenas io (MzCache.offloadTimes io k s)).1 :=
        Function.iterate_succ_apply' _ k s
      rw [hstep]
      exact ih.offloadArenas

/-- With all layers in memory nothing is counted as offloaded. -/
theorem offloadedBytes_resident (h : s.nextLayerToOffload + 1 = cfg.numLayers) :
    offloadedBytes cfg s = 0 := by
  apply List.sum_eq_zero
  intro x hx
  obtain ⟨l, hl, rfl⟩ := List.mem_map.mp hx
  rw [List.mem_range] at hl
  exact if_neg (by omega)

/-- One call a layer agrees with the whole reload exactly when no offloaded layer has an empty
snapshot. -/
theorem reloadsAgree_iff (hio : io.Reloads) (h : Tallied cfg s)
    (hle : ∀ l < cfg.numLayers, s.nextLayerToOffload < l →
      ∀ u ∈ s.offloadUsedBytes l, u ≤ s.arenaBytes) :
    ReloadsAgree cfg io s ↔
      ∀ l < cfg.numLayers, s.nextLayerToOffload < l → s.offloadUsedBytes l ≠ [] := by
  have hlow := h.nextLow
  have hhigh := h.nextHigh
  have hfirst : (s.firstOffloaded : Int) = s.nextLayerToOffload + 1 := by
    unfold KvState.firstOffloaded
    omega
  obtain ⟨hall, hzero⟩ := @reloadAllArenas_settled cfg io s hhigh fun hres => by
    rw [h.bytes]
    exact offloadedBytes_resident hres
  constructor
  · intro hagree l hlL hl hempty
    have hstuck := (@reloadTimes_next_lt cfg io s l hlow hl hempty
      (cfg.numLayers - s.firstOffloaded)).2.1
    have hnext := hagree.next
    rw [hall] at hnext
    have hone : (reloadOneByOne cfg io s).nextLayerToOffload < l := hstuck
    omega
  · intro hne
    obtain ⟨hswap, hnext, htally⟩ := reloadTimes_spec hio h hle hne
      (cfg.numLayers - s.firstOffloaded) (by omega)
    have hlast : (reloadOneByOne cfg io s).nextLayerToOffload = (cfg.numLayers : Int) - 1 := by
      show (reloadTimes cfg io _ s).nextLayerToOffload = _
      rw [hnext]
      omega
    refine ⟨?_, hlast.trans hall.symm, ?_⟩
    · refine (congrArg SwapView.arenas hswap).trans ?_
      unfold mzcacheReloadAllArenas
      dsimp only
      split
      · rw [show cfg.numLayers - s.firstOffloaded = 0 by omega]
        rfl
      · rfl
    · rw [hzero]
      exact htally.bytes.trans (offloadedBytes_resident (by
        have hlast' : (reloadTimes cfg io _ s).nextLayerToOffload = _ := hlast
        omega))

/-! ## Plans with empty compress regions -/

/-- From a new state on, a layer has arenas exactly when one of its chunks is compressed. -/
theorem compressAll_arenas {n : Nat} {mem : Nat → Nat → Option ChunkMem} (hpos : 0 < n)
    (hle : n ≤ cfg.f32.limit) {l : Nat} (hl : l < cfg.numLayers) :
    (mzcacheCompressChunks cfg (KvState.init cfg n mem).maxCompChunks.toNat
      (.init cfg n mem)).1.arenas l = [] ↔ chunkBounds cfg n l = 0 := by
  obtain ⟨hlad, hnone, -⟩ := @Ladder.derive cfg (.fresh cfg n mem) hpos hle rfl rfl
    (fun _ _ _ _ => rfl)
  change Ladder cfg (.init cfg n mem) at hlad
  change (KvState.init cfg n mem).compBeyond cfg = [] at hnone
  have hcount : (KvState.init cfg n mem).nCurCompChunks = 0 := rfl
  have hmax := hlad.nComp_le
  obtain ⟨harenas, new, hlen, hmoved⟩ := @Ladder.compressChunks_rule cfg
    (fun t => ∀ l, t.arenas l = [] ↔ ∀ e ∈ t.compBeyond cfg, e.1 ≠ l)
    (fun t cur ht hb l => by rw [hb]; exact ht l)
    (fun t e hlt ht he _ hcur l => by
      rw [(hlt.push_comp he hcur (compressAt_view cfg e hcur)).comp, List.forall_mem_cons]
      by_cases hle : l = e.1
      · subst hle
        have hnil : (compressAt cfg e.1 e.2 t).arenas e.1 ≠ [] := by simp [compressAt]
        exact ⟨fun h => absurd h hnil, fun h => absurd rfl h.1⟩
      · have hkeep : (compressAt cfg e.1 e.2 t).arenas l = t.arenas l :=
          Function.update_of_ne hle _ _
        rw [hkeep, ht l]
        exact ⟨fun h => ⟨Ne.symm hle, h⟩, And.right⟩)
    (KvState.init cfg n mem).maxCompChunks.toNat (.init cfg n mem) hlad
    (fun l => by
      rw [hnone]
      exact ⟨fun _ e he => absurd he List.not_mem_nil, fun _ => rfl⟩)
    (by omega)
  -- every chunk of the compress regions is compressed
  have hcells := hmoved.ladder.compBeyond_of_full (by
    rw [hmoved.ladder.nComp, hmoved.comp, hnone, List.append_nil, hlen, hmoved.maxComp hlad]
    omega)
  rw [harenas l, hcells]
  have hmem : ∀ e, e ∈ (mzcacheCompressChunks cfg (KvState.init cfg n mem).maxCompChunks.toNat
      (.init cfg n mem)).1.compCells cfg ↔ e.1 < cfg.numLayers ∧ e.2 < chunkBounds cfg n e.1 := by
    intro e
    unfold KvState.compCells
    rw [mem_cells, hmoved.bound hlad]
    exact ⟨fun h => ⟨h.1, h.2.2⟩, fun h => ⟨h.1, Nat.zero_le _, h.2⟩⟩
  constructor
  · intro hno
    by_contra hne
    exact hno (l, 0) ((hmem _).mpr ⟨hl, Nat.pos_of_ne_zero hne⟩) rfl
  · rintro hzero e he rfl
    have := ((hmem e).mp he).2
    omega

end

end MzCache
