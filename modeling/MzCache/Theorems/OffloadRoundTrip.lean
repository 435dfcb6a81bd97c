import MzCache.Core.Engine
import MzCache.Kv.OffloadCycle

/-!
# Offloaded arenas come back

Over any number of offload and reload cycles, with new arena contents in each, a reload
brings back what its own cycle offloaded. The snapshots and swap files that earlier cycles
left behind never show.
-/

namespace MzCache.Theorems

open MzCache MzCache.Lib

/-- What the reload of cycle `y` makes of the state `mid` in which it starts. -/
structure CameBack (cfg : Config) (y : OffloadCycle) (mid t : KvState) : Prop where
  /-- The last layers are offloaded, one for each call as long as there are layers. -/
  offloaded : mid.nextLayerToOffload = max (-1) ((cfg.numLayers : Int) - 1 - y.offloads)
  gone : ∀ l < cfg.numLayers, mid.nextLayerToOffload < l → mid.arenas l = []
  /-- Number, order, tops and bytes in use of a layer's arenas. -/
  restored : ∀ l < cfg.numLayers, mid.nextLayerToOffload < l →
    List.Forall₂ Arena.Same (t.arenas l) (y.arenas l)
  untouched : ∀ l : Nat, (l : Int) ≤ mid.nextLayerToOffload → t.arenas l = y.arenas l
  bytes : t.nCurArenaOffloadBytes = 0
  next : t.nextLayerToOffload = (cfg.numLayers : Int) - 1
  /-- No snapshot entry is larger than a pool. -/
  noBranch : ∀ l < cfg.numLayers, mid.nextLayerToOffload < l →
    ∀ used ∈ mid.offloadUsedBytes l, used ≤ mid.arenaBytes
  /-- The padding that is cleared and written lies inside the pools. -/
  padding : ∀ l < cfg.numLayers, ∀ a ∈ y.arenas l, roundUp4k a.top ≤ a.cap

/-- Every cycle brings back its own arenas, from a state in which nothing is offloaded. -/
theorem offload_round_trip (cfg : Config) (io : Io) (hout : io.Offloads) (hback : io.Reloads)
    (s : KvState) (hnext : s.nextLayerToOffload = (cfg.numLayers : Int) - 1)
    (hbytes : s.nCurArenaOffloadBytes = 0) (hpage : s.arenaBytes % 4096 = 0)
    (cycles : List OffloadCycle) (y : OffloadCycle)
    (hfits : ∀ z ∈ y :: cycles, z.Fits cfg s.arenaBytes) :
    let s' := cycles.foldl (fun t z => z.run cfg io t) s
    CameBack cfg y (y.offloaded io s') (y.run cfg io s') := by
  have hpos := cfg.numLayers_pos
  -- one cycle, with whatever snapshots and files it finds
  have hone : ∀ (t : KvState) (z : OffloadCycle), z.Fits cfg s.arenaBytes →
      t.nextLayerToOffload = (cfg.numLayers : Int) - 1 → t.nCurArenaOffloadBytes = 0 →
      t.arenaBytes = s.arenaBytes →
      CameBack cfg z (z.offloaded io t) (z.run cfg io t) ∧
        (z.run cfg io t).arenaBytes = s.arenaBytes := by
    intro t z hz htnext htbytes htarena
    have hpools : ∀ l < cfg.numLayers, ({ t with arenas := z.arenas } : KvState).pools l =
        z.arenas l := fun l hl => if_pos (by show (l : Int) ≤ t.nextLayerToOffload; omega)
    have hshelved : Shelved cfg { t with arenas := z.arenas } := by
      refine ⟨?_, ?_, ?_, ?_⟩
      · show -1 ≤ t.nextLayerToOffload
        omega
      · show t.nextLayerToOffload < cfg.numLayers
        omega
      · intro l hl hlt
        have hlt' : t.nextLayerToOffload < l := hlt
        omega
      · intro l hl a ha
        rw [hpools l hl] at ha
        show a.cap = t.arenaBytes ∧ a.top ≤ t.arenaBytes
        rw [htarena]
        exact hz l hl a ha
    obtain ⟨hmoved, hmid, hkeep⟩ := offloadTimes_spec hout hshelved z.offloads
    have hmid' : (z.offloaded io t).nextLayerToOffload =
        max (-1) ((cfg.numLayers : Int) - 1 - z.offloads) := by
      show (offloadTimes io z.offloads _).nextLayerToOffload = _
      rw [hmid, htnext]
    have hsh : Shelved cfg (z.offloaded io t) := hmoved.shelved hshelved
    obtain ⟨hre, hres, -⟩ := hsh.reloaded hback
    have hsettled := @reloadAllArenas_settled cfg io (z.offloaded io t)
      hsh.nextHigh (by
        intro hnone
        have hzero : z.offloads = 0 := by omega
        show (offloadTimes io z.offloads _).nCurArenaOffloadBytes = 0
        rw [hzero]
        exact htbytes)
    refine ⟨?_, hre.arenaBytes.trans (hmoved.arenaBytes.trans htarena)⟩
    refine ⟨hmid', hsh.gone, ?_, ?_, hsettled.2, hsettled.1, ?_, ?_⟩
    · intro l hl hlt
      have hback1 := hre.same l hl
      rw [hres.pools hl] at hback1
      have hback2 := hmoved.same l hl
      rw [hpools l hl] at hback2
      exact forall₂_same_trans hback1 hback2
    · intro l hl
      exact (reloadAllArenas_other (z.offloaded io t) hl).trans (hkeep l hl)
    · intro l hl hlt
      exact hsh.snapshot_le hl hlt
    · intro l hl a ha
      obtain ⟨hcap, htop⟩ := hz l hl a ha
      rw [hcap]
      exact roundUp4k_le htop hpage
  -- the cycles before leave nothing offloaded
  have hruns : ∀ (zs : List OffloadCycle) (t : KvState),
      (∀ z ∈ zs, z.Fits cfg s.arenaBytes) →
      t.nextLayerToOffload = (cfg.numLayers : Int) - 1 → t.nCurArenaOffloadBytes = 0 →
      t.arenaBytes = s.arenaBytes →
      let t' := zs.foldl (fun t z => z.run cfg io t) t
      t'.nextLayerToOffload = (cfg.numLayers : Int) - 1 ∧ t'.nCurArenaOffloadBytes = 0 ∧
        t'.arenaBytes = s.arenaBytes := by
    intro zs
    induction zs with
    | nil => intro t _ h1 h2 h3; exact ⟨h1, h2, h3⟩
    | cons z zs ih =>
        intro t hzs h1 h2 h3
        obtain ⟨hz, h3'⟩ := hone t z (hzs z List.mem_cons_self) h1 h2 h3
        exact ih _ (fun x hx => hzs x (List.mem_cons_of_mem _ hx)) hz.next hz.bytes h3'
  obtain ⟨h1, h2, h3⟩ := hruns cycles s (fun z hz => hfits z (List.mem_cons_of_mem _ hz))
    hnext hbytes rfl
  exact (hone _ y (hfits y List.mem_cons_self) h1 h2 h3).1

/-- In layer 1 of two a full arena, an empty one, and one of a page and a byte. -/
def mixedArenas : OffloadCycle where
  arenas := fun l =>
    if l = 1 then
      [⟨fun _ => 7, 8192, 8192⟩, ⟨fun _ => 0, 0, 8192⟩, ⟨fun i => i.toUInt8, 4097, 8192⟩]
    else []
  offloads := 1

/-- They come back after a cycle that offloaded both layers with other contents. -/
theorem offload_round_trip_mixed :
    let s : KvState := { KvState.init .small 2 (fun _ _ => none) with arenaBytes := 8192 }
    let first : OffloadCycle := ⟨fun _ => [⟨fun _ => 1, 100, 8192⟩], 2⟩
    let t := mixedArenas.run .small .ok (first.run .small .ok s)
    (t.arenas 1).map Arena.top = [8192, 0, 4097] ∧ t.arenas 0 = [] ∧
      List.Forall₂ Arena.Same (t.arenas 1) (mixedArenas.arenas 1) := by
  intro s first t
  have hfits : ∀ z ∈ mixedArenas :: [first], z.Fits .small s.arenaBytes := by
    intro z hz l hl a ha
    have hl' : l < 2 := hl
    rcases List.mem_cons.mp hz with rfl | hz
    · have hl2 : l = 0 ∨ l = 1 := by omega
      rcases hl2 with rfl | rfl
      · cases ha
      · simp only [mixedArenas, if_true, List.mem_cons, List.not_mem_nil, or_false] at ha
        rcases ha with rfl | rfl | rfl <;> exact ⟨rfl, by decide⟩
    · rw [List.mem_singleton.mp hz] at ha
      rw [List.mem_singleton.mp ha]
      exact ⟨rfl, by decide⟩
  have h := offload_round_trip .small .ok ⟨fun _ => rfl, fun _ => rfl⟩ ⟨fun _ => rfl, fun _ => rfl⟩
    s rfl rfl (by decide) [first] mixedArenas hfits
  rw [List.foldl_cons, List.foldl_nil] at h
  have hnext := h.offloaded
  have hsame := h.restored 1 (by decide) (by rw [hnext]; decide)
  have htops : (mixedArenas.arenas 1).map Arena.top = [8192, 0, 4097] := rfl
  have hzero := h.untouched 0 (by rw [hnext]; decide)
  have hnil : mixedArenas.arenas 0 = [] := rfl
  exact ⟨(map_top_of_same hsame).trans htops, hzero.trans hnil, hsame⟩

end MzCache.Theorems
