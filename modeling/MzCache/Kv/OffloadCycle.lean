import MzCache.Kv.LayoutOffload

/-!
# Offload and reload cycles

A cycle starts with every layer in memory, fills the arenas, offloads some layers and
reloads all of them. The snapshots and swap files of earlier cycles are still there, but
each offload replaces its layer's, and a reload only looks at the layers that the cursor
says are offloaded.
-/

namespace MzCache

open MzCache.Lib

/-- Every offload opens its file and writes what it asks for. -/
structure Io.Offloads (io : Io) : Prop where
  opens : ∀ t, (io .swapOpen t).opened
  writes : ∀ t, (io .swapWrite t).complete

/-- One cycle: what the arenas are filled with, and the calls of `mzcache_offload_arenas`. -/
structure OffloadCycle where
  arenas : Nat → List Arena
  offloads : Nat

/-- Arenas with a pool of `arena_bytes` and a top inside it. -/
def OffloadCycle.Fits (cfg : Config) (arenaBytes : Nat) (y : OffloadCycle) : Prop :=
  ∀ l < cfg.numLayers, ∀ a ∈ y.arenas l, a.cap = arenaBytes ∧ a.top ≤ arenaBytes

/-- A number of `mzcache_offload_arenas` calls. -/
def offloadTimes (io : Io) (k : Nat) (s : KvState) : KvState :=
  (fun t => (mzcacheOffloadArenas io t).1)^[k] s

/-- The cycle up to its reload. -/
def OffloadCycle.offloaded (io : Io) (y : OffloadCycle) (s : KvState) : KvState :=
  offloadTimes io y.offloads { s with arenas := y.arenas }

/-- The whole cycle. -/
def OffloadCycle.run (cfg : Config) (io : Io) (y : OffloadCycle) (s : KvState) : KvState :=
  mzcacheReloadAllArenas cfg io (y.offloaded io s)

section

variable {cfg : Config} {io : Io} {s t u : KvState}

theorem forall₂_same_trans {as bs cs : List Arena} (h1 : List.Forall₂ Arena.Same as bs)
    (h2 : List.Forall₂ Arena.Same bs cs) : List.Forall₂ Arena.Same as cs := by
  induction h1 generalizing cs with
  | nil => cases h2; exact .nil
  | cons hab _ ih =>
      cases h2 with
      | cons hbc hrest => exact .cons (hab.trans hbc) (ih hrest)

theorem ArenasMoved.refl (h : Shelved cfg s) : ArenasMoved cfg s s :=
  ⟨rfl, rfl, rfl, h.nextLow, h.nextHigh, h.gone, fun _ _ => forall₂_same_refl _⟩

theorem ArenasMoved.trans (h1 : ArenasMoved cfg s t) (h2 : ArenasMoved cfg t u) :
    ArenasMoved cfg s u :=
  ⟨h2.arenaBytes.trans h1.arenaBytes, h2.kComp.trans h1.kComp, h2.vComp.trans h1.vComp,
    h2.nextLow, h2.nextHigh, h2.gone, fun l hl => forall₂_same_trans (h2.same l hl) (h1.same l hl)⟩

/-! ## Offloading -/

/-- A write loop whose writes are all complete succeeds. -/
theorem writeArenas_ok (hio : io.Offloads) (as : List Arena) :
    ∀ w : SwapWrite, w.ok = true → (writeArenas io as w).ok = true := by
  induction as with
  | nil => intro w hw; exact hw
  | cons a as ih =>
      intro w hw
      rw [writeArenas]
      split
      · exact ih _ hw
      · dsimp only
        rw [if_pos (hio.writes w.tick)]
        exact ih _ rfl

/-- A call that succeeds offloads the next layer and no other. -/
theorem offloadArenas_next (hio : io.Offloads) (s : KvState) :
    (mzcacheOffloadArenas io s).1.nextLayerToOffload = max (min s.nextLayerToOffload (-1))
        (s.nextLayerToOffload - 1) ∧
      ∀ l : Nat, (l : Int) ≤ (mzcacheOffloadArenas io s).1.nextLayerToOffload →
        (mzcacheOffloadArenas io s).1.arenas l = s.arenas l := by
  unfold mzcacheOffloadArenas
  split
  · refine ⟨?_, fun _ _ => rfl⟩
    show s.nextLayerToOffload = _
    omega
  · rename_i hneg
    dsimp only
    rw [if_pos (hio.opens s.tick), if_pos (writeArenas_ok hio _ _ rfl)]
    dsimp only
    refine ⟨by omega, ?_⟩
    intro l hl
    exact Function.update_of_ne (by omega) _ _

/-- After `k` calls the last `k` layers are offloaded, the others are as they were. -/
theorem offloadTimes_spec (hio : io.Offloads) (h : Shelved cfg s) (k : Nat) :
    ArenasMoved cfg s (offloadTimes io k s) ∧
      (offloadTimes io k s).nextLayerToOffload = max (-1) (s.nextLayerToOffload - k) ∧
      ∀ l : Nat, (l : Int) ≤ (offloadTimes io k s).nextLayerToOffload →
        (offloadTimes io k s).arenas l = s.arenas l := by
  have hlow := h.nextLow
  induction k with
  | zero =>
      refine ⟨ArenasMoved.refl h, ?_, fun _ _ => rfl⟩
      show s.nextLayerToOffload = _
      push_cast
      omega
  | succ k ih =>
      obtain ⟨hmoved, hnext, hkeep⟩ := ih
      have hstep : offloadTimes io (k + 1) s =
          (mzcacheOffloadArenas io (offloadTimes io k s)).1 :=
        Function.iterate_succ_apply' _ k s
      obtain ⟨h1, h2⟩ := offloadArenas_next hio (offloadTimes io k s)
      rw [hstep]
      refine ⟨hmoved.trans ((hmoved.shelved h).offloaded io), ?_, ?_⟩
      · rw [h1, hnext]
        push_cast
        omega
      · intro l hl
        rw [h2 l hl]
        exact hkeep l (by omega)

/-! ## Reloading -/

/-- A reload leaves the layers alone that are in memory, whatever its calls return. -/
theorem foldl_reloadLayer_other (cfg : Config) (io : Io) {l : Nat} (ls : List Nat) :
    ∀ s : KvState, l ∉ ls → (ls.foldl (reloadLayer cfg io) s).arenas l = s.arenas l := by
  induction ls with
  | nil => intro s _; rfl
  | cons k ls ih =>
      intro s hl
      obtain ⟨hne, hls⟩ := not_or.mp fun h => hl (List.mem_cons.mpr h)
      rw [List.foldl_cons, ih _ hls]
      unfold reloadLayer
      split
      · rfl
      · split
        · exact Function.update_of_ne hne _ _
        · exact Function.update_of_ne hne _ _

theorem reloadAllArenas_other (s : KvState) {l : Nat} (hl : (l : Int) ≤ s.nextLayerToOffload) :
    (mzcacheReloadAllArenas cfg io s).arenas l = s.arenas l := by
  unfold mzcacheReloadAllArenas
  dsimp only
  split
  · rfl
  · apply foldl_reloadLayer_other
    rw [List.mem_range'_1]
    unfold KvState.firstOffloaded
    omega

/-- A reload settles the bookkeeping whenever it has a layer to look at. -/
theorem reloadAllArenas_settled (s : KvState) (hnext : s.nextLayerToOffload < cfg.numLayers)
    (hbytes : s.nextLayerToOffload + 1 = cfg.numLayers → s.nCurArenaOffloadBytes = 0) :
    (mzcacheReloadAllArenas cfg io s).nextLayerToOffload = (cfg.numLayers : Int) - 1 ∧
      (mzcacheReloadAllArenas cfg io s).nCurArenaOffloadBytes = 0 := by
  have hpos := cfg.numLayers_pos
  unfold mzcacheReloadAllArenas
  dsimp only
  split
  · rename_i hstart
    unfold KvState.firstOffloaded at hstart
    exact ⟨by omega, hbytes (by omega)⟩
  · exact ⟨rfl, rfl⟩

end

end MzCache
