import MzCache.Lib.ArenaStack
import MzCache.Kv.LadderRestore

/-!
# Where compressed chunks lie

A layer's compressed chunks form a stack over its arenas: chunks are compressed from the
highest index down and restored from the lowest one up, so the chunk compressed last is
the first to go. `Layout` says that the records of the compressed chunks are such a stack,
for the arenas in memory and for those that stand in a swap file, and each arena operation
keeps it.

The offset of a record is an `int`, so all of this needs pools smaller than `2 ^ 31` bytes.
-/

namespace MzCache

open MzCache.Lib

/-! ## Arenas, in memory or not -/

/-- The arenas a swap file stands for: the recorded tops, each rounded up in the file. -/
def swapImage (arenaBytes : Nat) (file : Bytes) : Nat → List Nat → List Arena
  | _, [] => []
  | off, used :: rest =>
      ⟨fun i => file (off + i), used, arenaBytes⟩ ::
        swapImage arenaBytes file (off + roundUp4k used) rest

/-- A layer's arenas, read through its swap file once they were offloaded. -/
def KvState.pools (s : KvState) (l : Nat) : List Arena :=
  if (l : Int) ≤ s.nextLayerToOffload then s.arenas l
  else swapImage s.arenaBytes (s.swapFile l) 0 (s.offloadUsedBytes l)

def KvState.tops (s : KvState) (l : Nat) : List Nat := (s.pools l).map Arena.top

/-- Two arenas that agree on the bytes in use. -/
structure Arena.Same (a b : Arena) : Prop where
  top : a.top = b.top
  cap : a.cap = b.cap
  used : ∀ i < a.top, a.pool i = b.pool i

theorem Arena.Same.refl (a : Arena) : a.Same a := ⟨rfl, rfl, fun _ _ => rfl⟩

theorem Arena.Same.trans {a b c : Arena} (h1 : a.Same b) (h2 : b.Same c) : a.Same c :=
  ⟨h1.top.trans h2.top, h1.cap.trans h2.cap,
    fun i hi => (h1.used i hi).trans (h2.used i (h1.top ▸ hi))⟩

theorem Arena.Same.symm {a b : Arena} (h : a.Same b) : b.Same a :=
  ⟨h.top.symm, h.cap.symm, fun i hi => (h.used i (h.top ▸ hi)).symm⟩

/-! ## Records -/

/-- The bytes a chunk's record claims: K and V side by side. -/
def KvState.span (s : KvState) (e : Cell) : Span :=
  ⟨(s.kComp e.1 e.2).stackId, (s.kComp e.1 e.2).offset.toNat,
    ((s.vComp e.1 e.2).offset + (s.vComp e.1 e.2).compSize).toNat⟩

/-- V follows K in the same arena. -/
structure Adjacent (s : KvState) (e : Cell) : Prop where
  stack : (s.vComp e.1 e.2).stackId = (s.kComp e.1 e.2).stackId
  nonneg : 0 ≤ (s.kComp e.1 e.2).offset
  next : (s.vComp e.1 e.2).offset = (s.kComp e.1 e.2).offset + (s.kComp e.1 e.2).compSize

/-- The compressed chunks of a layer, by index. -/
def KvState.layerComp (cfg : Config) (s : KvState) (l : Nat) : List Cell :=
  (s.compBeyond cfg).filter fun e => decide (e.1 = l)

/-- The compressed chunks of every layer are stacked in its arenas. -/
structure Layout (cfg : Config) (s : KvState) : Prop where
  bound : cfg.compBound ≤ s.arenaBytes
  page : s.arenaBytes % 4096 = 0
  addressable : s.arenaBytes < 2 ^ 31
  nextLow : -1 ≤ s.nextLayerToOffload
  nextHigh : s.nextLayerToOffload < cfg.numLayers
  gone : ∀ l < cfg.numLayers, s.nextLayerToOffload < l → s.arenas l = []
  caps : ∀ l < cfg.numLayers, ∀ a ∈ s.pools l, a.cap = s.arenaBytes ∧ a.top ≤ s.arenaBytes
  adjacent : ∀ e ∈ s.compBeyond cfg, Adjacent s e
  stacked : ∀ l < cfg.numLayers, Stacked (s.tops l) ((s.layerComp cfg l).map s.span)

/-- What `Layout` reads of a state, besides the chunks the compress cursor stands for. -/
structure LayoutView where
  arenaBytes : Nat
  nextLayerToOffload : Int
  arenas : Nat → List Arena
  swapFile : Nat → Bytes
  offloadUsedBytes : Nat → List Nat
  kComp : Nat → Nat → CompressedChunk
  vComp : Nat → Nat → CompressedChunk

def KvState.layout (s : KvState) : LayoutView :=
  ⟨s.arenaBytes, s.nextLayerToOffload, s.arenas, s.swapFile, s.offloadUsedBytes, s.kComp,
    s.vComp⟩

section

variable {cfg : Config} {s s' : KvState}

theorem KvState.pools_of_layout (h : s'.layout = s.layout) (l : Nat) : s'.pools l = s.pools l := by
  simp only [KvState.layout, LayoutView.mk.injEq] at h
  obtain ⟨h1, h2, h3, h4, h5, _, _⟩ := h
  unfold KvState.pools
  rw [h1, h2, h3, h4, h5]

theorem KvState.span_of_layout (h : s'.layout = s.layout) : s'.span = s.span := by
  simp only [KvState.layout, LayoutView.mk.injEq] at h
  obtain ⟨_, _, _, _, _, h6, h7⟩ := h
  funext e
  unfold KvState.span
  rw [h6, h7]

theorem Adjacent.of_layout {e : Cell} (ha : Adjacent s e) (h : s'.layout = s.layout) :
    Adjacent s' e := by
  simp only [KvState.layout, LayoutView.mk.injEq] at h
  obtain ⟨_, _, _, _, _, h6, h7⟩ := h
  exact ⟨by rw [h6, h7]; exact ha.stack, by rw [h6]; exact ha.nonneg,
    by rw [h6, h7]; exact ha.next⟩

/-- An operation that leaves the arenas alone, and compresses nothing, keeps the layout. -/
theorem Layout.of_sublist (h : Layout cfg s) (hv : s'.layout = s.layout)
    (hb : (s'.compBeyond cfg).Sublist (s.compBeyond cfg)) : Layout cfg s' := by
  have hpools := KvState.pools_of_layout hv
  have hspan := KvState.span_of_layout hv
  have hadj : ∀ e ∈ s'.compBeyond cfg, Adjacent s' e := fun e he =>
    (h.adjacent e (hb.subset he)).of_layout hv
  simp only [KvState.layout, LayoutView.mk.injEq] at hv
  obtain ⟨h1, h2, h3, _, _, _, _⟩ := hv
  refine ⟨h1 ▸ h.bound, h1 ▸ h.page, h1 ▸ h.addressable, h2 ▸ h.nextLow, h2 ▸ h.nextHigh,
    ?_, ?_, hadj, ?_⟩
  · rw [h2, h3]
    exact h.gone
  · intro l hl a ha
    rw [hpools] at ha
    rw [h1]
    exact h.caps l hl a ha
  · intro l hl
    unfold KvState.tops
    rw [hpools, hspan]
    exact (h.stacked l hl).sublist ((hb.filter _).map _)

theorem Layout.of_layout (h : Layout cfg s) (hv : s'.layout = s.layout)
    (hb : s'.compBeyond cfg = s.compBeyond cfg) : Layout cfg s' :=
  h.of_sublist hv (by rw [hb])

/-! ## Compressing -/

/-- The compressed halves of a chunk fit the worst case the pools are sized by. -/
def Config.Fits (cfg : Config) : Prop :=
  ∀ (l : Nat) (mem : ChunkMem),
    cfg.compSize l true mem.k + cfg.compSize l false mem.v ≤ cfg.compBound

theorem toInt32_of_lt {n : Nat} (h : n < 2 ^ 31) : toInt32 n = n := by
  unfold toInt32
  rw [Int.bmod_eq_of_le] <;> omega

theorem Config.compBound_le (cfg : Config) : cfg.compBound ≤ cfg.chunkBytes := by
  unfold Config.compBound
  split <;> omega

/-- What the last arena is when a chunk is about to be appended. -/
theorem arenasToFill_spec {as : List Arena} {n : Nat} (hb : cfg.compBound ≤ n)
    (hcap : ∀ a ∈ as, a.cap = n ∧ a.top ≤ n) :
    ∃ k cur, arenasToFill cfg n as = as ++ List.replicate k (Arena.new cfg n) ∧
      (arenasToFill cfg n as).getLast? = some cur ∧ cur.top + cfg.compBound ≤ n := by
  have hle := cfg.compBound_le
  have hnew : (Arena.new cfg n).top + cfg.compBound ≤ n := by
    show 0 + cfg.compBound ≤ n
    omega
  cases as with
  | nil =>
      -- no arena yet: one is made, and a second one when a raw chunk does not fit it
      simp only [arenasToFill, List.isEmpty_nil, if_true]
      split
      · exact ⟨2, _, rfl, rfl, hnew⟩
      · exact ⟨1, _, rfl, rfl, hnew⟩
  | cons a rest =>
      have hlast := List.getLast?_eq_some_getLast (List.cons_ne_nil a rest)
      simp only [arenasToFill, List.isEmpty_cons, Bool.false_eq_true, if_false,
        List.getLast!_of_getLast? hlast]
      split
      · exact ⟨1, _, rfl, by rw [List.getLast?_concat], hnew⟩
      · rename_i hfit
        refine ⟨0, _, by simp, hlast, ?_⟩
        have hc := (hcap _ (List.getLast_mem (List.cons_ne_nil a rest))).1
        omega

/-- No layer's arenas stand in a swap file. -/
def KvState.Resident (cfg : Config) (s : KvState) : Prop :=
  s.nextLayerToOffload + 1 = cfg.numLayers

theorem KvState.Resident.pools (h : s.Resident cfg) {l : Nat} (hl : l < cfg.numLayers) :
    s.pools l = s.arenas l := by
  unfold KvState.Resident at h
  unfold KvState.pools
  rw [if_pos (by omega)]

/-- Records of other chunks survive a compression. -/
theorem compressAt_span_ne (cfg : Config) (s : KvState) {e b : Cell} (hb : b ≠ e) :
    (compressAt cfg e.1 e.2 s).span b = s.span b ∧
      (Adjacent s b → Adjacent (compressAt cfg e.1 e.2 s) b) := by
  have hne : ¬ (b.1 = e.1 ∧ b.2 = e.2) := fun h => hb (Prod.ext h.1 h.2)
  have hk : (compressAt cfg e.1 e.2 s).kComp b.1 b.2 = s.kComp b.1 b.2 := Table.set_ne _ _ hne
  have hv : (compressAt cfg e.1 e.2 s).vComp b.1 b.2 = s.vComp b.1 b.2 := Table.set_ne _ _ hne
  refine ⟨by unfold KvState.span; rw [hk, hv], fun ha => ?_⟩
  exact ⟨by rw [hk, hv]; exact ha.stack, by rw [hk]; exact ha.nonneg,
    by rw [hk, hv]; exact ha.next⟩

/-- What compressing the chunk `e` does to its layer: `as` are the arenas it may write to, `cur`
the last of them. -/
structure Appended (cfg : Config) (s : KvState) (e : Cell) (as : List Arena) (cur : Arena) :
    Prop where
  more : ∃ k, as = s.arenas e.1 ++ List.replicate k (Arena.new cfg s.arenaBytes)
  last : as.getLast? = some cur
  caps : ∀ a ∈ as, a.cap = s.arenaBytes ∧ a.top ≤ s.arenaBytes
  room : cur.top + (cfg.compSize e.1 true (s.rawMem cfg e.1 e.2).k +
    cfg.compSize e.1 false (s.rawMem cfg e.1 e.2).v) ≤ s.arenaBytes
  kComp : (compressAt cfg e.1 e.2 s).kComp e.1 e.2 =
    ⟨as.length - 1, cur.top, cfg.compSize e.1 true (s.rawMem cfg e.1 e.2).k,
      cfg.kernel.side e.1 true (s.rawMem cfg e.1 e.2).k⟩
  vComp : (compressAt cfg e.1 e.2 s).vComp e.1 e.2 =
    ⟨as.length - 1, cur.top + cfg.compSize e.1 true (s.rawMem cfg e.1 e.2).k,
      cfg.compSize e.1 false (s.rawMem cfg e.1 e.2).v,
      cfg.kernel.side e.1 false (s.rawMem cfg e.1 e.2).v⟩
  arenas : (compressAt cfg e.1 e.2 s).arenas = Function.update s.arenas e.1
    (as.dropLast ++ [cur.append cfg e.1 (s.rawMem cfg e.1 e.2)])

theorem Layout.appended (hf : cfg.Fits) (h : Layout cfg s) (hres : s.Resident cfg) {e : Cell}
    (heL : e.1 < cfg.numLayers) : ∃ as cur, Appended cfg s e as cur := by
  have hcaps := h.caps e.1 heL
  rw [hres.pools heL] at hcaps
  obtain ⟨k, cur, has, hlast, hroom⟩ := arenasToFill_spec h.bound hcaps
  have hget := List.getLast!_of_getLast? hlast
  have hfit := hf e.1 (s.rawMem cfg e.1 e.2)
  have hsmall := h.addressable
  refine ⟨arenasToFill cfg s.arenaBytes (s.arenas e.1), cur, ⟨k, has⟩, hlast, ?_, by omega, ?_, ?_,
    by simp only [MzCache.compressAt, hget]⟩
  · intro a ha
    rw [has, List.mem_append] at ha
    rcases ha with ha | ha
    · exact hcaps a ha
    · rw [List.eq_of_mem_replicate ha]
      exact ⟨rfl, Nat.zero_le _⟩
  · simp only [MzCache.compressAt, Table.set_same, hget]
    rw [toInt32_of_lt (by omega)]
  · simp only [MzCache.compressAt, Table.set_same, hget]
    rw [toInt32_of_lt (by omega), Nat.cast_add]

/-- One chunk more on its layer's stack. -/
theorem Layout.compressAt (hf : cfg.Fits) (hl : Ladder cfg s) (h : Layout cfg s)
    (hres : s.Resident cfg) {e : Cell} (he : e ∈ s.compCells cfg) (hnew : e ∉ s.compBeyond cfg)
    (hcur : s.curToCompress = .at e) : Layout cfg (compressAt cfg e.1 e.2 s) := by
  have heL : e.1 < cfg.numLayers := (mem_cells.mp he).1
  obtain ⟨as, cur, ⟨k, has⟩, hlast, hasCaps, hroom, hk, hv, harenas⟩ := h.appended hf hres heL
  set mem := s.rawMem cfg e.1 e.2 with hmem
  have hne : as ≠ [] := by
    intro hnil
    rw [hnil] at hlast
    cases hlast
  have hres' : (MzCache.compressAt cfg e.1 e.2 s).Resident cfg := hres
  have hbeyond : (MzCache.compressAt cfg e.1 e.2 s).compBeyond cfg = e :: s.compBeyond cfg :=
    (hl.push_comp he hcur (compressAt_view cfg e hcur)).comp
  have hother : ∀ b ∈ s.compBeyond cfg, b ≠ e := fun b hb heq => hnew (heq ▸ hb)
  have hspans : ∀ l, (s.layerComp cfg l).map (MzCache.compressAt cfg e.1 e.2 s).span =
      (s.layerComp cfg l).map s.span := by
    intro l
    apply List.map_congr_left
    intro b hb
    exact (compressAt_span_ne cfg s (hother b (List.mem_filter.mp hb).1)).1
  refine ⟨h.bound, h.page, h.addressable, h.nextLow, h.nextHigh, ?_, ?_, ?_, ?_⟩
  · intro l hlL hlt
    have : s.nextLayerToOffload < l := hlt
    unfold KvState.Resident at hres
    omega
  · intro l hlL a ha
    rw [hres'.pools hlL, harenas] at ha
    by_cases hle : l = e.1
    · subst hle
      rw [Function.update_self, List.mem_append, List.mem_singleton] at ha
      rcases ha with ha | rfl
      · exact hasCaps a (List.mem_of_mem_dropLast ha)
      · have hc := hasCaps cur (List.mem_of_getLast? hlast)
        refine ⟨hc.1, ?_⟩
        show cur.top + (cfg.compSize e.1 true mem.k + cfg.compSize e.1 false mem.v) ≤ s.arenaBytes
        omega
    · rw [Function.update_of_ne hle] at ha
      exact h.caps l hlL a (by rw [hres.pools hlL]; exact ha)
  · intro b hb
    rw [hbeyond, List.mem_cons] at hb
    rcases hb with rfl | hb
    · exact ⟨by rw [hk, hv], by rw [hk]; exact Int.natCast_nonneg _, by rw [hk, hv]⟩
    · exact (compressAt_span_ne cfg s (hother b hb)).2 (h.adjacent b hb)
  · intro l hlL
    unfold KvState.tops KvState.layerComp
    rw [hres'.pools hlL, harenas, hbeyond, List.filter_cons]
    have hst := h.stacked l hlL
    unfold KvState.tops at hst
    rw [hres.pools hlL] at hst
    by_cases hle : e.1 = l
    · subst hle
      rw [if_pos (by simp), Function.update_self, List.map_cons]
      have hmore : (s.arenas e.1).map Arena.top <+: as.map Arena.top := by
        rw [has, List.map_append]
        exact List.prefix_append _ _
      have hap := hst.append hmore (by simpa using hne)
        (cfg.compSize e.1 true mem.k + cfg.compSize e.1 false mem.v)
      have hlastTop : (as.map Arena.top).getLast (by simpa using hne) = cur.top := by
        rw [List.getLast_map]
        rw [List.getLast?_eq_some_getLast hne, Option.some.injEq] at hlast
        rw [hlast]
      rw [hlastTop, List.length_map, ← List.map_dropLast] at hap
      have hspan : (MzCache.compressAt cfg e.1 e.2 s).span e = ⟨as.length - 1, cur.top,
          cur.top + (cfg.compSize e.1 true mem.k + cfg.compSize e.1 false mem.v)⟩ := by
        unfold KvState.span
        rw [hk, hv]
        simp only [Int.toNat_natCast, Span.mk.injEq, true_and]
        omega
      rw [hspan, List.map_append]
      rw [show List.map (MzCache.compressAt cfg e.1 e.2 s).span
        ((s.compBeyond cfg).filter fun b => decide (b.1 = e.1)) = (s.layerComp cfg e.1).map s.span
        from hspans e.1]
      exact hap
    · rw [if_neg (by simpa using hle), Function.update_of_ne (Ne.symm hle)]
      rw [show List.map (MzCache.compressAt cfg e.1 e.2 s).span
        ((s.compBeyond cfg).filter fun b => decide (b.1 = l)) = (s.layerComp cfg l).map s.span
        from hspans l]
      exact hst

/-- `mzcache_compress_chunks` keeps the layout. -/
theorem Layout.compressChunks (hf : cfg.Fits) (hl : Ladder cfg s) (h : Layout cfg s)
    (hres : s.Resident cfg) (n : Nat) (hn : (n : Int) ≤ s.maxCompChunks - s.nCurCompChunks) :
    Layout cfg (mzcacheCompressChunks cfg n s).1 := by
  have hrule := @Ladder.compressChunks_rule cfg (fun t => Layout cfg t ∧ t.Resident cfg)
    (fun t cur ht hb => ⟨ht.1.of_layout rfl hb, ht.2⟩)
    (fun t e hlt ht he hnew hcur => ⟨ht.1.compressAt hf hlt ht.2 he hnew hcur, ht.2⟩)
  exact (hrule n s hl ⟨h, hres⟩ hn).1.1

end

end MzCache
