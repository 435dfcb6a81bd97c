import MzCache.Kv.Offload

/-!
# Reloads that fail

Which calls a reload makes, and what a failed one leaves. `mzcache_reload_arenas` returns
and keeps its file and its bookkeeping; `mzcache_reload_all_arenas` only leaves its inner
loop, so that the epilogue of the good path follows.
-/

namespace MzCache

open MzCache.Lib

/-! ## The calls of a reload -/

/-- The reads of one snapshot from call `t` on: whether all succeed, and the call behind. -/
def readAttempt (io : Io) (arenaBytes : Nat) : List Nat → Nat → Bool × Nat
  | [], t => (true, t)
  | used :: rest, t =>
      if used > arenaBytes then (false, t)
      else if used = 0 then readAttempt io arenaBytes rest t
      else if (io .reloadRead t).complete then readAttempt io arenaBytes rest (t + 1)
      else (false, t + 1)

/-- One layer's open and reads. A layer with an empty snapshot is skipped. -/
def reloadAttempt (io : Io) (arenaBytes : Nat) (snapshot : List Nat) (t : Nat) : Bool × Nat :=
  if snapshot.isEmpty then (true, t)
  else if (io .reloadOpen t).opened then readAttempt io arenaBytes snapshot (t + 1)
  else (false, t + 1)

/-- Whether all calls of a reload of these snapshots succeed. -/
def reloadsSucceed (io : Io) (arenaBytes : Nat) : List (List Nat) → Nat → Bool
  | [], _ => true
  | snapshot :: rest, t =>
      (reloadAttempt io arenaBytes snapshot t).1 &&
        reloadsSucceed io arenaBytes rest (reloadAttempt io arenaBytes snapshot t).2

/-- The layers that `mzcache_reload_all_arenas` looks at. -/
def KvState.offloadedLayers (cfg : Config) (s : KvState) : List Nat :=
  List.range' s.firstOffloaded (cfg.numLayers - s.firstOffloaded)

/-! ## The loop of `mzcache_reload_all_arenas` -/

/-- The state in which its loop comes to a layer. -/
def KvState.reloadedUpTo (cfg : Config) (io : Io) (s : KvState) (layer : Nat) : KvState :=
  (List.range' s.firstOffloaded (layer - s.firstOffloaded)).foldl (reloadLayer cfg io) s

/-- How an iteration reads its layer; `none` when it does not get a descriptor. -/
def reloadRead? (cfg : Config) (io : Io) (s : KvState) (layer : Nat) : Option SwapRead :=
  if (s.offloadUsedBytes layer).isEmpty then none
  else if (io .reloadOpen s.tick).opened then
    some (readArenas cfg io s.arenaBytes (s.swapFile layer) (s.offloadUsedBytes layer)
      ⟨[], 0, s.tick + 1, true⟩)
  else none

/-- How often an iteration closes its descriptor: behind the inner loop, and before that in
the branch that gives up. -/
def reloadCloses (cfg : Config) (io : Io) (s : KvState) (layer : Nat) : Nat :=
  match reloadRead? cfg io s layer with
  | none => 0
  | some r => if r.ok then 1 else 2

/-- The layer's arenas were read back in full. -/
def LayerReadBack (cfg : Config) (io : Io) (s : KvState) (layer : Nat) : Prop :=
  s.offloadUsedBytes layer = [] ∨ ∃ r, reloadRead? cfg io s layer = some r ∧ r.ok = true

section

variable {cfg : Config} {io : Io}

theorem readArenas_attempt (cfg : Config) (io : Io) (n : Nat) (file : Bytes) (used : List Nat) :
    ∀ r : SwapRead, r.ok = true →
      (readArenas cfg io n file used r).ok = (readAttempt io n used r.tick).1 ∧
        (readArenas cfg io n file used r).tick = (readAttempt io n used r.tick).2 := by
  induction used with
  | nil => intro r hr; exact ⟨hr, rfl⟩
  | cons u used ih =>
      intro r hr
      rw [readArenas, readAttempt]
      by_cases hbig : u > n
      · rw [if_pos hbig, if_pos hbig]
        exact ⟨rfl, rfl⟩
      · rw [if_neg hbig, if_neg hbig]
        by_cases hz : u = 0
        · rw [if_pos hz, if_pos hz]
          exact ih _ hr
        · rw [if_neg hz, if_neg hz]
          dsimp only
          by_cases hc : (io .reloadRead r.tick).complete
          · rw [if_pos hc, if_pos hc]
            exact ih ⟨_, _, r.tick + 1, r.ok⟩ hr
          · rw [if_neg hc, if_neg hc]
            exact ⟨rfl, rfl⟩

/-- An iteration reads its layer back exactly when its calls succeed. -/
theorem readBack_iff (s : KvState) (layer : Nat) :
    LayerReadBack cfg io s layer ↔
      (reloadAttempt io s.arenaBytes (s.offloadUsedBytes layer) s.tick).1 = true := by
  unfold LayerReadBack reloadRead? reloadAttempt
  cases hsnap : s.offloadUsedBytes layer with
  | nil => simp
  | cons u rest =>
      rw [← hsnap]
      have hne : ¬ (s.offloadUsedBytes layer).isEmpty := by rw [hsnap]; simp
      have hne' : s.offloadUsedBytes layer ≠ [] := by rw [hsnap]; simp
      rw [if_neg hne, if_neg hne]
      by_cases hopen : (io .reloadOpen s.tick).opened
      · rw [if_pos hopen, if_pos hopen]
        obtain ⟨hok, -⟩ := readArenas_attempt cfg io s.arenaBytes (s.swapFile layer)
          (s.offloadUsedBytes layer) ⟨[], 0, s.tick + 1, true⟩ rfl
        constructor
        · rintro (h | ⟨r, hr, h⟩)
          · exact absurd h hne'
          · rw [Option.some.injEq] at hr
            rw [← hok, hr]
            exact h
        · intro h
          exact Or.inr ⟨_, rfl, hok.trans h⟩
      · rw [if_neg hopen, if_neg hopen]
        constructor
        · rintro (h | ⟨r, hr, -⟩)
          · exact absurd h hne'
          · cases hr
        · intro h
          cases h

theorem reloadLayer_attempt (s : KvState) (layer : Nat) :
    (reloadLayer cfg io s layer).tick =
        (reloadAttempt io s.arenaBytes (s.offloadUsedBytes layer) s.tick).2 ∧
      (reloadLayer cfg io s layer).arenaBytes = s.arenaBytes ∧
      (reloadLayer cfg io s layer).offloadUsedBytes = s.offloadUsedBytes := by
  unfold reloadLayer reloadAttempt
  by_cases hempty : (s.offloadUsedBytes layer).isEmpty
  · rw [if_pos hempty, if_pos hempty]
    exact ⟨rfl, rfl, rfl⟩
  · rw [if_neg hempty, if_neg hempty]
    by_cases hopen : (io .reloadOpen s.tick).opened
    · rw [if_pos hopen, if_pos hopen]
      exact ⟨(readArenas_attempt cfg io s.arenaBytes (s.swapFile layer)
        (s.offloadUsedBytes layer) ⟨[], 0, s.tick + 1, true⟩ rfl).2, rfl, rfl⟩
    · rw [if_neg hopen, if_neg hopen]
      exact ⟨rfl, rfl, rfl⟩

/-- All calls succeed exactly when every iteration reads its layer back. Induction on the
number of layers; the first iteration leaves the state for the others. -/
theorem reloadsSucceed_iff (n : Nat) : ∀ (first : Nat) (s : KvState),
    reloadsSucceed io s.arenaBytes ((List.range' first n).map s.offloadUsedBytes) s.tick = true ↔
      ∀ i < n, LayerReadBack cfg io ((List.range' first i).foldl (reloadLayer cfg io) s) (first + i) := by
  induction n with
  | zero => intro first s; exact ⟨fun _ i hi => absurd hi (Nat.not_lt_zero i), fun _ => rfl⟩
  | succ n ih =>
      intro first s
      obtain ⟨h1, h2, h3⟩ := @reloadLayer_attempt cfg io s first
      have hrest := ih (first + 1) (reloadLayer cfg io s first)
      rw [h1, h2, h3] at hrest
      rw [List.range'_succ, List.map_cons, reloadsSucceed, Bool.and_eq_true, hrest,
        ← @readBack_iff cfg]
      constructor
      · rintro ⟨hfirst, hall⟩ i hi
        cases i with
        | zero => exact hfirst
        | succ i =>
            have h := hall i (by omega)
            rw [List.range'_succ, List.foldl_cons, show first + (i + 1) = first + 1 + i by omega]
            exact h
      · intro hall
        refine ⟨hall 0 (Nat.succ_pos n), ?_⟩
        intro i hi
        have h := hall (i + 1) (by omega)
        rw [List.range'_succ, List.foldl_cons, show first + (i + 1) = first + 1 + i by omega] at h
        exact h

/-- All calls of a whole reload succeed exactly when every offloaded layer is read back. -/
theorem reloadsSucceed_layers (s : KvState) :
    reloadsSucceed io s.arenaBytes ((s.offloadedLayers cfg).map s.offloadUsedBytes) s.tick = true ↔
      ∀ layer, s.firstOffloaded ≤ layer → layer < cfg.numLayers →
        LayerReadBack cfg io (s.reloadedUpTo cfg io layer) layer := by
  unfold KvState.offloadedLayers KvState.reloadedUpTo
  rw [@reloadsSucceed_iff cfg]
  constructor
  · intro h layer hfirst hlast
    have hi := h (layer - s.firstOffloaded) (by omega)
    rw [show s.firstOffloaded + (layer - s.firstOffloaded) = layer by omega] at hi
    exact hi
  · intro h i hi
    have hl := h (s.firstOffloaded + i) (by omega) (by omega)
    rw [show s.firstOffloaded + i - s.firstOffloaded = i by omega] at hl
    exact hl

/-- A layer read back, or skipped, has its descriptor closed once at most. -/
theorem LayerReadBack.closes {s : KvState} {layer : Nat} (h : LayerReadBack cfg io s layer) :
    reloadCloses cfg io s layer ≤ 1 := by
  unfold reloadCloses
  rcases h with h | ⟨r, hr, hok⟩
  · have hnone : reloadRead? cfg io s layer = none := by
      unfold reloadRead?
      rw [h]
      rfl
    rw [hnone]
    exact Nat.zero_le 1
  · rw [hr]
    dsimp only
    rw [if_pos hok]

/-- `mzcache_reload_arenas` keeps the file and the bookkeeping of a layer that it fails to read
back. -/
theorem reloadArenas_failed (s : KvState) (hlayer : s.firstOffloaded < cfg.numLayers)
    (hfail : ¬ LayerReadBack cfg io s s.firstOffloaded) :
    (mzcacheReloadArenas cfg io s).swapFile = s.swapFile ∧
      (mzcacheReloadArenas cfg io s).offloadUsedBytes = s.offloadUsedBytes ∧
      (mzcacheReloadArenas cfg io s).nCurArenaOffloadBytes = s.nCurArenaOffloadBytes ∧
      (mzcacheReloadArenas cfg io s).nextLayerToOffload = s.nextLayerToOffload := by
  unfold LayerReadBack reloadRead? at hfail
  obtain ⟨hne, hread⟩ := not_or.mp hfail
  have hempty : ¬ (s.offloadUsedBytes s.firstOffloaded).isEmpty := by
    rw [List.isEmpty_iff]
    exact hne
  unfold mzcacheReloadArenas
  dsimp only
  rw [if_neg (by omega), if_neg hempty]
  rw [if_neg hempty] at hread
  by_cases hopen : (io .reloadOpen s.tick).opened
  · rw [if_pos hopen]
    rw [if_pos hopen] at hread
    rw [if_neg fun hok => hread ⟨_, rfl, hok⟩]
    exact ⟨rfl, rfl, rfl, rfl⟩
  · rw [if_neg hopen]
    exact ⟨rfl, rfl, rfl, rfl⟩

end

end MzCache
