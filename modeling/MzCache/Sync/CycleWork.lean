import MzCache.Core.Engine
import MzCache.Sync.Program

/-!
# The work of a cycle

On a ladder, whatever the variant, a cycle restores the chunks the cursors stand for and the
weight layers above the unload cursor, and the counter that `initialize_layer_sync` computes
for a layer is the number of its items.
-/

namespace MzCache.Sync

open MzCache MzCache.Lib

section

variable {cfg : Config} {io : Io} {early : List ℕ} {c : Core} {v : Variant} {w : Work}

theorem enqueueReadOnly_cells {s : KvState} (h : Ladder cfg s) {d k : ℕ}
    (hd : d ≤ (s.compBeyond cfg).length) (hk : k ≤ (s.storeBeyond cfg).length) {e : Enqueued}
    (he : mzcacheEnqueueKvDecompReadOnly cfg io d k s = some e) :
    e.read = (s.storeBeyond cfg).take k ∧ e.decomp = (s.compBeyond cfg).take d := by
  obtain ⟨comp, hcomp, -, -⟩ := decompWalk_spec (s := s) h.shape d s.curToCompress h.compWf hd
  have hcomp' : decompWalk cfg d s =
      ⟨{ s with curToCompress := comp }, (s.compBeyond cfg).take d, false⟩ := hcomp
  unfold mzcacheEnqueueKvDecompReadOnly at he
  dsimp only at he
  rw [hcomp', Option.bind_eq_some_iff] at he
  obtain ⟨t, hopen, he⟩ := he
  obtain ⟨fds, tick, rfl⟩ := openFirstToRead_eq io _ hopen
  rw [Option.map_eq_some_iff] at he
  obtain ⟨walk, hwalk, rfl⟩ := he
  obtain ⟨_, _, _, rfl, -⟩ := loadWalk_spec io (s := { s with curToCompress := comp }) h.shape k
    s.curToStore fds tick walk h.storeWf h.storeRow hk hwalk
  exact ⟨rfl, rfl⟩

theorem localStoreCells_eq {s : KvState} (h : Ladder cfg s) {k : ℕ}
    (hk : k ≤ (s.storeBeyond cfg).length) :
    localStoreCells cfg k s = (s.storeBeyond cfg).take k := by
  obtain ⟨walk, hwalk⟩ := Option.isSome_iff_exists.mp
    (loadWalk_isSome .ok (fun _ => rfl) k s)
  obtain ⟨_, _, _, heq, -⟩ := loadWalk_spec .ok h.shape k s.curToStore s.layerFds s.tick walk
    h.storeWf h.storeRow hk hwalk
  rw [localStoreCells, hwalk, heq]
  rfl

/-- The lists a cycle works on, from the state it starts in. -/
structure WorkOf (cfg : Config) (c : Core) (w : Work) : Prop where
  read : w.read = c.kv.storeBeyond cfg
  decomp : w.decomp = c.kv.compBeyond cfg
  allocDecomp : w.allocDecomp = c.kv.compBeyond cfg
  allocRead : w.allocRead = c.kv.storeBeyond cfg
  weights : w.weights =
    (List.range cfg.numLayers).filter fun l : ℕ => c.curLayerIdxToUnload < (l : ℤ)
  totals : w.totals = (List.range cfg.numLayers).map (totalInit c)

theorem workOf_of_cycleWork (h : CoreOk cfg c) (hw : cycleWork v cfg io early c = some w) :
    WorkOf cfg c w := by
  have hp := h.prepared io early
  have hlad := hp.ok.ladder
  set kv := (swapinPrepare cfg io early c).kv
  unfold cycleWork at hw
  dsimp only at hw
  rw [hp.decompNumChunks, hp.loadNumChunks] at hw
  rw [Option.map_eq_some_iff] at hw
  obtain ⟨e, he, rfl⟩ := hw
  have hcells : e.read = kv.storeBeyond cfg ∧ e.decomp = kv.compBeyond cfg := by
    cases v with
    | generate | noPrefillOverlap =>
        have hq := hlad.enqueue io le_rfl le_rfl he
        rw [hq.read, hq.decomp]
        exact ⟨List.take_length, List.take_length⟩
    | noAllocOverlap | noOverlap =>
        obtain ⟨hr, hd⟩ := enqueueReadOnly_cells hlad le_rfl le_rfl he
        rw [hr, hd]
        exact ⟨List.take_length, List.take_length⟩
  obtain ⟨cur, hdecomp, -, -⟩ := decompWalk_spec (s := kv) hlad.shape (kv.compBeyond cfg).length
    kv.curToCompress hlad.compWf le_rfl
  constructor
  case read => exact hcells.1.trans hp.store
  case decomp => exact hcells.2.trans hp.comp
  case allocDecomp =>
    have : (decompWalk cfg (kv.compBeyond cfg).length kv).cells = kv.compBeyond cfg :=
      (congrArg Walk.cells hdecomp).trans List.take_length
    exact this.trans hp.comp
  case allocRead =>
    have : localStoreCells cfg (kv.storeBeyond cfg).length kv = kv.storeBeyond cfg :=
      (localStoreCells_eq hlad le_rfl).trans List.take_length
    exact this.trans hp.store
  case weights => rfl
  case totals => rfl

theorem WorkOf.length_totals (hw : WorkOf cfg c w) : w.totals.length = cfg.numLayers := by
  rw [hw.totals, List.length_map, List.length_range]

theorem count_weights (b : ℤ) (n i : ℕ) :
    ((((List.range n).filter fun l : ℕ => b < (l : ℤ)).countP fun l => l = i : ℕ) : ℤ) =
      if i < n then (if (i : ℤ) > b then 1 else 0) else 0 := by
  rw [List.countP_eq_length_filter, List.filter_filter, ← List.countP_eq_length_filter]
  have hnd := List.nodup_range (n := n)
  induction n with
  | zero => rfl
  | succ n ih =>
      rw [List.range_succ, List.countP_append, Nat.cast_add, ih List.nodup_range]
      simp only [List.countP_singleton, Bool.and_eq_true, decide_eq_true_eq]
      split_ifs <;> omega

/-- The counters count the items, and no item is restored twice. -/
theorem WorkOf.ok (hw : WorkOf cfg c w) (h : CoreOk cfg c) : w.Ok := by
  constructor
  case nodup =>
    have hkeys : w.items.map Restore.key =
        (c.kv.storeBeyond cfg ++ c.kv.compBeyond cfg).map Key.kv ++ w.weights.map Key.weight := by
      simp [Work.items, hw.read, hw.decomp, Restore.key, Function.comp_def]
    rw [hkeys, hw.weights]
    refine List.nodup_append'.mpr ⟨?_, ?_, ?_⟩
    · refine List.Nodup.map (fun a b hab => Key.kv.inj hab) (List.nodup_append'.mpr
        ⟨c.kv.storeBeyond_nodup, c.kv.compBeyond_nodup, fun e he => ?_⟩)
      exact not_mem_compBeyond (mem_beyond.mp he).1
    · exact List.Nodup.map (fun a b hab => Key.weight.inj hab) (List.nodup_range.filter _)
    · intro k hk hk'
      obtain ⟨a, -, rfl⟩ := List.mem_map.mp hk
      obtain ⟨b, -, hb⟩ := List.mem_map.mp hk'
      cases hb
  case count =>
    intro i
    have hitems : (w.items.countP fun r => r.layer = i) =
        (c.kv.storeBeyond cfg).countP (fun e => e.1 = i) +
          (c.kv.compBeyond cfg).countP (fun e => e.1 = i) +
          w.weights.countP (fun l => l = i) := by
      simp only [Work.items, List.countP_append, List.countP_map, hw.read, hw.decomp]
      rfl
    have hstore := count_beyond_row (n := cfg.numLayers) h.ladder.shape.le
      h.ladder.storeWf.onRow i
    have hcomp := count_beyond_row (n := cfg.numLayers) (fun _ => Nat.zero_le _)
      h.ladder.compWf.onRow i
    rw [hitems, hw.totals, hw.weights, Nat.cast_add, Nat.cast_add, count_weights,
      KvState.storeBeyond, KvState.compBeyond, hstore, hcomp, ← storeInit_eq, ← compressInit_eq]
    by_cases hi : i < cfg.numLayers
    · rw [if_pos hi, if_pos hi, if_pos hi, List.getD_eq_getElem _ _ (by simpa using hi),
        List.getElem_map, List.getElem_range, totalInit, weightInit]
      ring
    · rw [if_neg hi, if_neg hi, if_neg hi, List.getD_eq_default _ _ (by simpa using hi)]
      rfl
  case kvKeys =>
    intro k
    simp only [Work.kvKeys, hw.allocDecomp, hw.allocRead, hw.read, hw.decomp, List.map_append,
      List.mem_append]
    exact or_comm

/-- With files that open, there is always a cycle to run. -/
theorem cycleWork_isSome (v : Variant) (cfg : Config) (io : Io)
    (hio : ∀ t, (io .chunkOpen t).opened) (early : List ℕ) (c : Core) :
    (cycleWork v cfg io early c).isSome := by
  unfold cycleWork
  dsimp only
  rw [Option.isSome_map]
  cases v with
  | generate | noPrefillOverlap => exact enqueue_isSome io hio _ _ _
  | noAllocOverlap | noOverlap =>
      simp only [mzcacheEnqueueKvDecompReadOnly]
      obtain ⟨t, ht⟩ := Option.isSome_iff_exists.mp (openFirstToRead_isSome io hio _)
      rw [ht, Option.bind_some, Option.isSome_map]
      exact loadWalk_isSome io hio _ t

end

end MzCache.Sync
