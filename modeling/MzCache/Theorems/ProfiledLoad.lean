import MzCache.Core.Engine
import MzCache.Kv.ProfiledLoad

/-!
# When a profiled load is a plain load

`mzcache_load_chunks_profile` allocates by a first walk that enters a layer at the bound of
the layer it leaves, and reads by the walk of `mzcache_load_chunks`. It is a plain load
exactly when every layer that the load passes into has the bound of the layer before it.
-/

namespace MzCache.Theorems

open MzCache MzCache.Lib

/-- What a profiled load `p` of `k` chunks shares with `mzcache_load_chunks`: it allocates what
it reads, and reads what the plain load restores, up to the same cursor. -/
structure AsPlainLoad (cfg : Config) (io : Io) (k : Nat) (s : KvState) (p : ProfiledLoad) :
    Prop where
  alloc : ∀ e, e ∈ p.alloc ↔ e ∈ p.read
  plain : ∃ w, (openFirstToRead io s).bind (loadWalk cfg io k) = some w ∧
    (∀ e, e ∈ p.read ↔ e ∈ w.cells) ∧
    ∃ t, mzcacheLoadChunks cfg io k s = some t ∧
      t = cleanAfterRead k (runReads cfg io w.cells w.state) ∧
      p.state.curToStore = t.curToStore

/-- The profiled load of `k` stored chunks is a plain load, whatever the file operations do,
if and only if the layers it passes into have the bounds of the layers before them. -/
theorem profiled_load_iff (cfg : Config) (s : KvState) (k : Nat)
    (hle : ∀ i, s.chunkBound i ≤ s.numChunksPerTensor)
    (hwf : s.curToStore.Wf s.chunkBound (fun _ => s.numChunksPerTensor) cfg.numLayers)
    (hk : k ≤ (s.storeBeyond cfg).length) :
    (∀ io p, mzcacheLoadChunksProfile cfg io k s = some p → AsPlainLoad cfg io k s p) ↔
      ∀ layer : Nat, s.curToStore.row ≤ layer → layer + 1 < cfg.numLayers →
        Crosses s.chunkBound s.numChunksPerTensor k s.curToStore layer →
        s.chunkBound (layer + 1) = s.chunkBound layer := by
  have hload : ∀ {io : Io} {t : KvState} {w : Walk}, openFirstToRead io s = some t →
      loadWalk cfg io k t = some w → w.cells = (s.storeWalk cfg k).cells := by
    intro io t w hopen hw
    obtain ⟨fds, tick, rfl⟩ := openFirstToRead_eq io s hopen
    exact (loadWalk_eq k _ hw).1
  constructor
  · intro hall layer hlayer hlast hcross
    refine (@storeWalk_enter s.chunkBound (fun l => s.chunkBound (l - 1)) _ _ k s.curToStore hwf
      ?_ layer hlayer hlast hcross).symm
    -- run both loads with file operations that succeed
    obtain ⟨t, ht⟩ := Option.isSome_iff_exists.mp (openFirstToRead_isSome .ok (fun _ => rfl) s)
    obtain ⟨w, hw⟩ := Option.isSome_iff_exists.mp
      (@loadWalk_isSome cfg .ok (fun _ => rfl) k t)
    have hcells := hload ht hw
    obtain ⟨p, hp, halloc⟩ : ∃ p, mzcacheLoadChunksProfile cfg .ok k s = some p ∧
        p.alloc = (s.profileWalk cfg k).cells := by
      unfold mzcacheLoadChunksProfile
      dsimp only
      split
      · exact ⟨_, rfl, rfl⟩
      · rw [ht, Option.bind_some, hw]
        exact ⟨_, rfl, rfl⟩
    obtain ⟨hread, w', hw', hplain, -⟩ := hall .ok p hp
    rw [ht, Option.bind_some, hw, Option.some.injEq] at hw'
    subst hw'
    intro e
    have h := (hread e).trans (hplain e)
    rw [halloc, hcells] at h
    exact h
  · intro hbound io p hp
    have hwalk : s.profileWalk cfg k = s.storeWalk cfg k :=
      storeWalk_congr hle k s.curToStore hwf fun layer h1 h2 h3 => (hbound layer h1 h2 h3).symm
    have hover : (s.storeWalk cfg k).overrun = false := storeWalk_within hle k s.curToStore hwf hk
    unfold mzcacheLoadChunksProfile at hp
    dsimp only at hp
    rw [hwalk, if_neg (by rw [hover]; simp), Option.bind_eq_some_iff] at hp
    obtain ⟨t, ht, hp⟩ := hp
    rw [Option.map_eq_some_iff] at hp
    obtain ⟨w, hw, rfl⟩ := hp
    have hcells := hload ht hw
    refine ⟨fun e => by rw [hcells], w, ?_, fun e => Iff.rfl, _, ?_, rfl, ?_⟩
    · rw [ht]
      exact hw
    · unfold mzcacheLoadChunks
      rw [ht, Option.bind_some, hw]
      rfl
    · exact (congrArg LadderView.curToStore (runReads_view cfg io w.cells w.state)).symm

/-- Two layers of which the first is compressed up to chunk 3 and the second up to chunk 2. -/
def unevenConfig : Config := { Config.small with perLayerBalance := 1 }

/-- The three chunks of its store regions, stored. -/
def unevenStored : KvState :=
  mzcacheStoreChunks unevenConfig .ok 3
    (Core.init unevenConfig 4 4 fun _ _ => some ⟨fun _ => 0, fun _ => 0, true⟩).kv

/-- Here the profiled load of two chunks allocates chunk 3 of layer 1 and reads its chunk 2. -/
theorem profiled_load_uneven :
    (mzcacheLoadChunksProfile unevenConfig .ok 2 unevenStored).map
        (fun p => (p.alloc, p.read)) = some ([(0, 3), (1, 3)], [(0, 3), (1, 2)]) ∧
      2 ≤ (unevenStored.storeBeyond unevenConfig).length ∧
      ¬ ∀ io p, mzcacheLoadChunksProfile unevenConfig io 2 unevenStored = some p →
        AsPlainLoad unevenConfig io 2 unevenStored p := by
  have hrun : (mzcacheLoadChunksProfile unevenConfig .ok 2 unevenStored).map
      (fun p => (p.alloc, p.read)) = some ([(0, 3), (1, 3)], [(0, 3), (1, 2)]) := by
    with_unfolding_all decide
  refine ⟨hrun, by with_unfolding_all decide, ?_⟩
  intro hall
  obtain ⟨p, hp, hcells⟩ := Option.map_eq_some_iff.mp hrun
  have h := (hall .ok p hp).alloc (1, 3)
  rw [Prod.mk.injEq] at hcells
  rw [hcells.1, hcells.2] at h
  exact absurd (h.mp (by decide)) (by decide)

/-- With one bound for all layers, as on the small engine, the profiled load is a plain one. -/
theorem profiled_load_small :
    ∃ p, mzcacheLoadChunksProfile .small .ok 2 Core.smallOut.kv = some p ∧
      AsPlainLoad .small .ok 2 Core.smallOut.kv p := by
  have hlad := (engine_ok Core.smallOut Core.smallOut_reachable).1.ladder
  have hload : (mzcacheLoadChunksProfile .small .ok 2 Core.smallOut.kv).isSome := by
    with_unfolding_all decide
  obtain ⟨p, hp⟩ := Option.isSome_iff_exists.mp hload
  refine ⟨p, hp, (profiled_load_iff .small Core.smallOut.kv 2 hlad.shape.le hlad.storeWf
    (by with_unfolding_all decide)).mpr ?_ .ok p hp⟩
  intro layer _ hlast _
  have h0 : layer = 0 := by
    have : layer + 1 < 2 := hlast
    omega
  subst h0
  with_unfolding_all decide

end MzCache.Theorems
