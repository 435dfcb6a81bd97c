import MzCache.Kv.LayoutOffload

/-!
# Where a chunk's contents are

A chunk's K and V bytes are in memory, encoded in an arena, or in its layer's KV store
file, and its state says which. `Held` says that they are there in full: the contents are
those the chunk had when it was evicted, kept here as a ghost. Evicting keeps this as long
as the transfers are complete; what the code does about one that is not, is nothing.
-/

namespace MzCache

open MzCache.Lib

/-- Agreement on all bytes of both halves. -/
def ChunkMem.Same (cfg : Config) (a b : ChunkMem) : Prop :=
  (∀ i < cfg.rawChunkBytes, a.k i = b.k i) ∧ ∀ i < cfg.rawChunkBytes, a.v i = b.v i

theorem ChunkMem.Same.refl (cfg : Config) (a : ChunkMem) : a.Same cfg a :=
  ⟨fun _ _ => rfl, fun _ _ => rfl⟩

/-- The contents of every chunk. -/
abbrev Contents := Nat → Nat → ChunkMem

/-- The encoded halves of `g` stand in an arena of layer `l`. -/
structure InArena (cfg : Config) (s : KvState) (l j : Nat) (g : ChunkMem) : Prop where
  encoded : ∃ (mem : ChunkMem) (a : Arena), mem.Same cfg g ∧
    (s.pools l)[(s.kComp l j).stackId]? = some a ∧
    (s.kComp l j).compSize = cfg.compSize l true mem.k ∧
    (s.vComp l j).compSize = cfg.compSize l false mem.v ∧
    Holds a.pool (s.kComp l j).offset.toNat (cfg.kernel.encode l true mem.k)
      (s.kComp l j).compSize ∧
    Holds a.pool (s.vComp l j).offset.toNat (cfg.kernel.encode l false mem.v)
      (s.vComp l j).compSize ∧
    (s.kComp l j).side = cfg.kernel.side l true mem.k ∧
    (s.vComp l j).side = cfg.kernel.side l false mem.v

/-- Both halves of `g` stand in the layer's file, at the offsets of the chunk. -/
structure InFile (cfg : Config) (s : KvState) (l j : Nat) (g : ChunkMem) : Prop where
  offK : (s.kStored l j).fileOffset = (j - s.chunkBound l) * (cfg.rawChunkBytes * 2)
  offV : (s.vStored l j).fileOffset =
    (j - s.chunkBound l) * (cfg.rawChunkBytes * 2) + cfg.rawChunkBytes
  k : Holds (s.kvFile l) (s.kStored l j).fileOffset g.k cfg.rawChunkBytes
  v : Holds (s.kvFile l) (s.vStored l j).fileOffset g.v cfg.rawChunkBytes

/-- Chunk `(l, j)` holds `g` in the one place its state names. A chunk outside the plan is in
memory, if it exists. -/
def Held (cfg : Config) (s : KvState) (l j : Nat) (g : ChunkMem) : Prop :=
  if j < s.numChunksPerTensor then
    match s.states l j with
    | .raw => ∃ mem, s.svm l j = some mem ∧ mem.Same cfg g
    | .compressed => s.svm l j = none ∧ InArena cfg s l j g
    | .stored => s.svm l j = none ∧ InFile cfg s l j g
  else ∀ mem, s.svm l j = some mem → mem.Same cfg g

/-- Every chunk is held. -/
def HeldAll (cfg : Config) (s : KvState) (g : Contents) : Prop :=
  ∀ l < cfg.numLayers, ∀ j, Held cfg s l j (g l j)

/-- Arenas may be added and appended to, but the bytes in use stay. -/
def PoolsLe (as as' : List Arena) : Prop :=
  ∀ (i : Nat) (a : Arena), as[i]? = some a →
    ∃ a', as'[i]? = some a' ∧ ∀ o < a.top, a'.pool o = a.pool o

theorem PoolsLe.refl (as : List Arena) : PoolsLe as as := fun _ a h => ⟨a, h, fun _ _ => rfl⟩

theorem poolsLe_of_same {as bs : List Arena} (h : List.Forall₂ Arena.Same bs as) :
    PoolsLe as bs := by
  induction h with
  | nil => exact PoolsLe.refl []
  | @cons b a bs as hab _ ih =>
      intro i x hx
      cases i with
      | zero =>
          rw [List.getElem?_cons_zero, Option.some.injEq] at hx
          subst hx
          exact ⟨b, rfl, fun o ho => hab.used o (hab.top ▸ ho)⟩
      | succ i => exact ih i x hx

section

variable {cfg : Config} {io : Io} {s t : KvState} {g : Contents}

/-- A raw chunk is held in memory. -/
theorem held_of_raw {l j : Nat} {c : ChunkMem} (hj : j < s.numChunksPerTensor)
    (hraw : s.states l j = .raw) (hmem : ∃ mem, s.svm l j = some mem ∧ mem.Same cfg c) :
    Held cfg s l j c := by
  rw [Held, if_pos hj, hraw]
  exact hmem

/-- The bytes of a compressed chunk end below the top of its arena. -/
theorem Layout.below_top (h : Layout cfg s) {e : Cell} (he : e ∈ s.compBeyond cfg) {a : Arena}
    (ha : (s.pools e.1)[(s.kComp e.1 e.2).stackId]? = some a) :
    (s.kComp e.1 e.2).offset.toNat + (s.kComp e.1 e.2).compSize ≤ a.top ∧
      (s.vComp e.1 e.2).offset.toNat + (s.vComp e.1 e.2).compSize ≤ a.top := by
  have heL : e.1 < cfg.numLayers := (mem_cells.mp (mem_beyond.mp he).1).1
  obtain ⟨hstack, hnn, hnext⟩ := h.adjacent e he
  obtain ⟨top, hget, hstop⟩ := ((h.stacked e.1 heL).inside (s.span e) (List.mem_map_of_mem
    (List.mem_filter.mpr ⟨he, by simp⟩))).below
  unfold KvState.tops KvState.span at hget
  rw [List.getElem?_map, ha] at hget
  simp only [Option.map_some, Option.some.injEq] at hget
  subst hget
  simp only [KvState.span] at hstop
  omega

/-- A compressed chunk stays held while its records stay and the bytes in use do. -/
theorem InArena.mono {e : Cell} {c : ChunkMem} (hlay : Layout cfg s) (he : e ∈ s.compBeyond cfg)
    (h : InArena cfg s e.1 e.2 c) (hk : t.kComp e.1 e.2 = s.kComp e.1 e.2)
    (hv : t.vComp e.1 e.2 = s.vComp e.1 e.2) (hp : PoolsLe (s.pools e.1) (t.pools e.1)) :
    InArena cfg t e.1 e.2 c := by
  obtain ⟨mem, a, hsame, hget, hks, hvs, hkb, hvb, hkside, hvside⟩ := h.encoded
  obtain ⟨a', hget', hle⟩ := hp _ a hget
  obtain ⟨htk, htv⟩ := hlay.below_top he hget
  refine ⟨mem, a', hsame, by rw [hk]; exact hget', by rw [hk]; exact hks, by rw [hv]; exact hvs,
    ?_, ?_, by rw [hk]; exact hkside, by rw [hv]; exact hvside⟩
  · rw [hk]
    intro i hi
    rw [hle _ (by omega)]
    exact hkb i hi
  · rw [hv]
    intro i hi
    rw [hle _ (by omega)]
    exact hvb i hi

/-- What `Held` reads of a chunk, besides the arenas. -/
structure SameChunk (s t : KvState) (l j : Nat) : Prop where
  chunks : t.numChunksPerTensor = s.numChunksPerTensor
  bound : t.chunkBound = s.chunkBound
  state : t.states l j = s.states l j
  svm : t.svm l j = s.svm l j
  kComp : t.kComp l j = s.kComp l j
  vComp : t.vComp l j = s.vComp l j
  kStored : t.kStored l j = s.kStored l j
  vStored : t.vStored l j = s.vStored l j

/-- A chunk that a step does not touch stays held. -/
theorem Held.frame {l j : Nat} {c : ChunkMem} (hl : Ladder cfg s) (hlay : Layout cfg s)
    (hlL : l < cfg.numLayers) (h : Held cfg s l j c) (hs : SameChunk s t l j)
    (hp : PoolsLe (s.pools l) (t.pools l))
    (hf : InFile cfg s l j c → s.states l j = .stored → j < s.numChunksPerTensor →
      InFile cfg t l j c) : Held cfg t l j c := by
  unfold Held at h ⊢
  rw [hs.chunks, hs.state, hs.svm]
  split at h
  · rename_i hj
    rw [if_pos hj]
    cases hst : s.states l j with
    | raw =>
        rw [hst] at h
        exact h
    | compressed =>
        rw [hst] at h
        have he : (l, j) ∈ s.compBeyond cfg := (hl.compressed_iff (l, j)).mpr ⟨hlL, hj, hst⟩
        exact ⟨h.1, h.2.mono (e := (l, j)) hlay he hs.kComp hs.vComp hp⟩
    | stored =>
        rw [hst] at h
        exact ⟨h.1, hf h.2 hst hj⟩
  · rename_i hj
    rw [if_neg hj]
    exact h

/-- A file that a step does not touch. -/
theorem InFile.frame {l j : Nat} {c : ChunkMem} (h : InFile cfg s l j c) (hs : SameChunk s t l j)
    (hf : t.kvFile l = s.kvFile l) : InFile cfg t l j c :=
  ⟨by rw [hs.kStored, hs.bound]; exact h.offK, by rw [hs.vStored, hs.bound]; exact h.offV,
    by rw [hs.kStored, hf]; exact h.k, by rw [hs.vStored, hf]; exact h.v⟩

/-- What `Held` reads of a state. -/
structure HeldView where
  numChunksPerTensor : Nat
  chunkBound : Nat → Nat
  states : Nat → Nat → KVstate
  svm : Nat → Nat → Option ChunkMem
  kStored : Nat → Nat → StoredChunk
  vStored : Nat → Nat → StoredChunk
  kvFile : Nat → Bytes
  layout : LayoutView

def KvState.held (s : KvState) : HeldView :=
  ⟨s.numChunksPerTensor, s.chunkBound, s.states, s.svm, s.kStored, s.vStored, s.kvFile, s.layout⟩

/-- An operation that leaves all of this alone, but for states outside the plan. -/
theorem HeldAll.of_states (h : HeldAll cfg s g) (hv : t.held = { s.held with states := t.states })
    (hst : ∀ l j, j < s.numChunksPerTensor → t.states l j = s.states l j) : HeldAll cfg t g := by
  simp only [KvState.held, HeldView.mk.injEq] at hv
  obtain ⟨h1, h2, _, h4, h5, h6, h7, h8⟩ := hv
  have hpools := KvState.pools_of_layout h8
  simp only [KvState.layout, LayoutView.mk.injEq] at h8
  obtain ⟨_, _, _, _, _, hk, hvc⟩ := h8
  intro l hlL j
  have hj := h l hlL j
  unfold Held at hj ⊢
  rw [h1, h4]
  split at hj
  · rename_i hlt
    rw [if_pos hlt, hst l j hlt]
    cases hsj : s.states l j with
    | raw =>
        rw [hsj] at hj
        exact hj
    | compressed =>
        rw [hsj] at hj
        refine ⟨hj.1, ⟨?_⟩⟩
        rw [hk, hvc, hpools]
        exact hj.2.encoded
    | stored =>
        rw [hsj] at hj
        refine ⟨hj.1, ?_, ?_, ?_, ?_⟩
        · rw [h5, h2]
          exact hj.2.offK
        · rw [h6, h2]
          exact hj.2.offV
        · rw [h5, h7]
          exact hj.2.k
        · rw [h6, h7]
          exact hj.2.v
  · rename_i hlt
    rw [if_neg hlt]
    exact hj

theorem HeldAll.of_held (h : HeldAll cfg s g) (hv : t.held = s.held) : HeldAll cfg t g := by
  have hst : t.states = s.states := congrArg HeldView.states hv
  refine h.of_states ?_ (fun l j _ => by rw [hst])
  rw [hv, hst]
  rfl

/-! ## Compressing -/

/-- A chunk that no cursor stands for is raw, and held in memory. -/
theorem Held.raw_of_cell {e : Cell} {c : ChunkMem} (hl : Ladder cfg s) (heL : e.1 < cfg.numLayers)
    (hej : e.2 < s.numChunksPerTensor) (hc : e ∉ s.compBeyond cfg) (hs : e ∉ s.storeBeyond cfg)
    (h : Held cfg s e.1 e.2 c) : ∃ mem, s.svm e.1 e.2 = some mem ∧ mem.Same cfg c := by
  have hraw : s.states e.1 e.2 = .raw := by
    rw [hl.states _ _ heL hej, stateOf, if_neg hc, if_neg hs]
  unfold Held at h
  rw [if_pos hej, hraw] at h
  exact h

/-- The arenas of a layer after one chunk was appended. -/
theorem Appended.poolsLe {e : Cell} {as : List Arena} {cur : Arena} (h : Appended cfg s e as cur) :
    PoolsLe (s.arenas e.1) (as.dropLast ++ [cur.append cfg e.1 (s.rawMem cfg e.1 e.2)]) := by
  obtain ⟨k, has⟩ := h.more
  have hne : as ≠ [] := by
    intro hnil
    have := h.last
    rw [hnil] at this
    cases this
  have hpos : 0 < as.length := List.length_pos_iff.mpr hne
  intro i a ha
  have hlt : i < (s.arenas e.1).length := (List.getElem?_eq_some_iff.mp ha).1
  have has' : as[i]? = some a := by rw [has, List.getElem?_append_left hlt, ha]
  have hi : i < as.length := (List.getElem?_eq_some_iff.mp has').1
  by_cases hilast : i = as.length - 1
  · -- the last arena is written behind its top
    have hcur : a = cur := by
      have hlast := h.last
      rw [List.getLast?_eq_getElem?, ← hilast, has', Option.some.injEq] at hlast
      exact hlast
    refine ⟨cur.append cfg e.1 (s.rawMem cfg e.1 e.2), ?_, ?_⟩
    · rw [hilast, List.getElem?_append_right (by rw [List.length_dropLast]), List.length_dropLast,
        Nat.sub_self]
      rfl
    · intro o ho
      rw [hcur] at ho ⊢
      simp only [Arena.append, blit]
      rw [if_neg (by omega), if_neg (by omega)]
  · refine ⟨a, ?_, fun _ _ => rfl⟩
    rw [List.getElem?_append_left (by rw [List.length_dropLast]; omega), List.getElem?_dropLast,
      if_pos (by omega), has']

/-- Compressing a chunk keeps it and every other one. -/
theorem HeldAll.compressAt (hf : cfg.Fits) (hl : Ladder cfg s) (hlay : Layout cfg s)
    (hres : s.Resident cfg) {e : Cell} (he : e ∈ s.compCells cfg) (hnew : e ∉ s.compBeyond cfg)
    (h : HeldAll cfg s g) : HeldAll cfg (compressAt cfg e.1 e.2 s) g := by
  obtain ⟨heL, _, hbound⟩ := mem_cells.mp he
  have hej : e.2 < s.numChunksPerTensor := lt_of_lt_of_le hbound (hl.shape.le e.1)
  obtain ⟨as, cur, happ⟩ := hlay.appended hf hres heL
  have hpool : ∀ l < cfg.numLayers, (MzCache.compressAt cfg e.1 e.2 s).pools l =
      Function.update s.arenas e.1
        (as.dropLast ++ [cur.append cfg e.1 (s.rawMem cfg e.1 e.2)]) l := by
    intro l hlL
    have hres' : (MzCache.compressAt cfg e.1 e.2 s).Resident cfg := hres
    rw [hres'.pools hlL, happ.arenas]
  have hle : ∀ l < cfg.numLayers,
      PoolsLe (s.pools l) ((MzCache.compressAt cfg e.1 e.2 s).pools l) := by
    intro l hlL
    rw [hpool l hlL, hres.pools hlL]
    by_cases hl' : l = e.1
    · subst hl'
      rw [Function.update_self]
      exact happ.poolsLe
    · rw [Function.update_of_ne hl']
      exact PoolsLe.refl _
  intro l hlL j
  by_cases hlj : l = e.1 ∧ j = e.2
  · -- the chunk itself: its encoded halves were just appended
    obtain ⟨rfl, rfl⟩ := hlj
    obtain ⟨mem, hmem, hsame⟩ := (h e.1 heL e.2).raw_of_cell hl heL hej hnew
      (not_mem_storeBeyond he)
    have hrawMem : s.rawMem cfg e.1 e.2 = mem := by
      unfold KvState.rawMem
      rw [hmem]
      rfl
    have hst : (MzCache.compressAt cfg e.1 e.2 s).states e.1 e.2 = .compressed :=
      Table.set_same _ _ _ _
    unfold Held
    rw [if_pos (show e.2 < (MzCache.compressAt cfg e.1 e.2 s).numChunksPerTensor from hej), hst]
    refine ⟨Table.set_same _ _ _ _, ⟨mem, cur.append cfg e.1 mem, hsame, ?_, ?_⟩⟩
    · rw [happ.kComp, hpool e.1 heL, Function.update_self, hrawMem]
      have hpos : as ≠ [] := by
        intro hnil
        have := happ.last
        rw [hnil] at this
        cases this
      rw [List.getElem?_append_right (by rw [List.length_dropLast]), List.length_dropLast,
        Nat.sub_self]
      rfl
    · rw [happ.kComp, happ.vComp, hrawMem]
      refine ⟨rfl, rfl, ?_, ?_, rfl, rfl⟩
      · simp only [Int.toNat_natCast, Arena.append]
        exact (blit_holds _ _ _ _).blit (Or.inl le_rfl)
      · rw [show ((cur.top : Int) + (cfg.compSize e.1 true mem.k : Int)).toNat =
          cur.top + cfg.compSize e.1 true mem.k by omega]
        exact blit_holds _ _ _ _
  · have hsc : SameChunk s (MzCache.compressAt cfg e.1 e.2 s) l j :=
      ⟨rfl, rfl, Table.set_ne _ _ hlj, Table.set_ne _ _ hlj, Table.set_ne _ _ hlj,
        Table.set_ne _ _ hlj, rfl, rfl⟩
    exact (h l hlL j).frame hl hlay hlL hsc (hle l hlL) fun hin _ _ => hin.frame hsc rfl

/-! ## Storing -/

/-- Every `pwrite` of a chunk and every `pread` of one moves all it is asked to. -/
structure Io.Transfers (io : Io) : Prop where
  writes : ∀ t, (io .storeWrite t).complete
  reads : ∀ t, (io .chunkRead t).complete

theorem IoResult.moved_of_complete {r : IoResult} (h : r.complete) (n : Nat) : r.moved n = n := by
  cases r with
  | full => rfl
  | error => cases h
  | short k => cases h

/-- The places of two chunks in a layer's file do not meet. -/
theorem file_places {raw a b : Nat} (h : a ≠ b) :
    a * (raw * 2) + raw * 2 ≤ b * (raw * 2) ∨ b * (raw * 2) + raw * 2 ≤ a * (raw * 2) := by
  rcases Nat.lt_or_gt_of_ne h with hlt | hlt
  · exact Or.inl (by rw [← Nat.succ_mul]; exact Nat.mul_le_mul_right _ hlt)
  · exact Or.inr (by rw [← Nat.succ_mul]; exact Nat.mul_le_mul_right _ hlt)

/-- Storing a chunk keeps it and every other one, when both writes are complete. -/
theorem HeldAll.storeAt (hio : io.Transfers) (hl : Ladder cfg s) (hlay : Layout cfg s) {e : Cell}
    (he : e ∈ s.storeCells cfg) (hnew : e ∉ s.storeBeyond cfg) (h : HeldAll cfg s g) :
    HeldAll cfg (storeAt cfg io e.1 e.2 s) g := by
  obtain ⟨heL, hbound, hej⟩ := mem_cells.mp he
  have hw : ∀ t, (io .storeWrite t).moved cfg.rawChunkBytes = cfg.rawChunkBytes := fun t =>
    IoResult.moved_of_complete (hio.writes t) _
  have hpools : ∀ l, (MzCache.storeAt cfg io e.1 e.2 s).pools l = s.pools l := fun _ => rfl
  intro l hlL j
  by_cases hlj : l = e.1 ∧ j = e.2
  · obtain ⟨rfl, rfl⟩ := hlj
    obtain ⟨mem, hmem, hsame⟩ := (h e.1 heL e.2).raw_of_cell hl heL hej
      (not_mem_compBeyond he) hnew
    have hrawMem : s.rawMem cfg e.1 e.2 = mem := by
      unfold KvState.rawMem
      rw [hmem]
      rfl
    have hst : (MzCache.storeAt cfg io e.1 e.2 s).states e.1 e.2 = .stored :=
      Table.set_same _ _ _ _
    unfold Held
    rw [if_pos (show e.2 < (MzCache.storeAt cfg io e.1 e.2 s).numChunksPerTensor from hej), hst]
    refine ⟨Table.set_same _ _ _ _, ⟨?_, ?_, ?_, ?_⟩⟩
    · simp only [MzCache.storeAt, Table.set_same]
    · simp only [MzCache.storeAt, Table.set_same]
    · intro i hi
      simp only [MzCache.storeAt, Table.set_same, Function.update_self, hw, hrawMem]
      rw [← hsame.1 i hi]
      exact (blit_holds _ _ _ _).blit (Or.inl le_rfl) i hi
    · intro i hi
      simp only [MzCache.storeAt, Table.set_same, Function.update_self, hw, hrawMem]
      rw [← hsame.2 i hi]
      exact blit_holds _ _ _ _ i hi
  · have hsc : SameChunk s (MzCache.storeAt cfg io e.1 e.2 s) l j :=
      ⟨rfl, rfl, Table.set_ne _ _ hlj, Table.set_ne _ _ hlj, rfl, rfl, Table.set_ne _ _ hlj,
        Table.set_ne _ _ hlj⟩
    refine (h l hlL j).frame hl hlay hlL hsc (by rw [hpools]; exact PoolsLe.refl _) ?_
    intro hin hstored hj
    by_cases hll : l = e.1
    · -- another chunk of the same file, at a place of its own
      subst hll
      have hjb : s.chunkBound e.1 ≤ j := by
        have hmem := (hl.stored_iff (e.1, j)).mpr ⟨heL, hj, hstored⟩
        exact (mem_cells.mp (mem_beyond.mp hmem).1).2.1
      have hplace := @file_places cfg.rawChunkBytes _ _
        (show j - s.chunkBound e.1 ≠ e.2 - s.chunkBound e.1 by
          have hne : j ≠ e.2 := fun heq => hlj ⟨rfl, heq⟩
          omega)
      have hkv : (MzCache.storeAt cfg io e.1 e.2 s).kvFile e.1 =
          blit (blit (s.kvFile e.1) ((e.2 - s.chunkBound e.1) * (cfg.rawChunkBytes * 2))
            (s.rawMem cfg e.1 e.2).k cfg.rawChunkBytes)
            ((e.2 - s.chunkBound e.1) * (cfg.rawChunkBytes * 2) + cfg.rawChunkBytes)
            (s.rawMem cfg e.1 e.2).v cfg.rawChunkBytes := by
        simp only [MzCache.storeAt, Function.update_self, hw]
      have hoffK := hin.offK
      have hoffV := hin.offV
      refine ⟨by rw [hsc.kStored, hsc.bound]; exact hoffK, by rw [hsc.vStored, hsc.bound]; exact hoffV,
        ?_, ?_⟩
      · rw [hsc.kStored, hkv]
        exact (hin.k.blit (by omega)).blit (by omega)
      · rw [hsc.vStored, hkv]
        exact (hin.v.blit (by omega)).blit (by omega)
    · exact hin.frame hsc (Function.update_of_ne hll _ _)

/-! ## Whole calls -/

/-- An operation that touches no chunk, no file and no byte in use. -/
theorem HeldAll.of_same (hl : Ladder cfg s) (hlay : Layout cfg s) (h : HeldAll cfg s g)
    (hsc : ∀ l j, SameChunk s t l j) (hp : ∀ l < cfg.numLayers, PoolsLe (s.pools l) (t.pools l))
    (hf : t.kvFile = s.kvFile) : HeldAll cfg t g := by
  intro l hlL j
  refine (h l hlL j).frame hl hlay hlL (hsc l j) (hp l hlL) ?_
  intro hin _ _
  exact hin.frame (hsc l j) (congrFun hf l)

theorem HeldAll.compressChunks (hf : cfg.Fits) (hl : Ladder cfg s) (hlay : Layout cfg s)
    (hres : s.Resident cfg) (h : HeldAll cfg s g) (n : Nat)
    (hn : (n : Int) ≤ s.maxCompChunks - s.nCurCompChunks) :
    HeldAll cfg (mzcacheCompressChunks cfg n s).1 g := by
  have hrule := @Ladder.compressChunks_rule cfg
    (fun t => (Layout cfg t ∧ t.Resident cfg) ∧ HeldAll cfg t g)
    (fun t cur ht hb => ⟨⟨ht.1.1.of_layout rfl hb, ht.1.2⟩, ht.2.of_held rfl⟩)
    (fun t e hlt ht he hnew hcur => ⟨⟨ht.1.1.compressAt hf hlt ht.1.2 he hnew hcur, ht.1.2⟩,
      ht.2.compressAt hf hlt ht.1.1 ht.1.2 he hnew⟩)
  exact (hrule n s hl ⟨⟨hlay, hres⟩, h⟩ hn).1.2

theorem HeldAll.storeChunks (hio : io.Transfers) (hl : Ladder cfg s) (hlay : Layout cfg s)
    (h : HeldAll cfg s g) (n : Nat) (hn : (n : Int) ≤ s.maxStoreChunks - s.nCurStoreChunks) :
    HeldAll cfg (mzcacheStoreChunks cfg io n s) g := by
  have hrule := @Ladder.storeChunks_rule cfg (fun t => Layout cfg t ∧ HeldAll cfg t g) io
    (fun t cur fds tick ht _ => ⟨ht.1.of_layout rfl rfl, ht.2.of_held rfl⟩)
    (fun t e hlt ht he hnew hcur => ⟨ht.1.of_layout rfl
        (hlt.push_store he hcur (storeAt_view cfg io e hcur)).comp,
      ht.2.storeAt hio hlt ht.1 he hnew⟩)
  exact (hrule n s hl ⟨hlay, h⟩ hn).1.2

/-- Offloading moves arenas, and nothing else. -/
theorem mzcacheOffloadArenas_same (io : Io) (s : KvState) :
    (∀ l j, SameChunk s (mzcacheOffloadArenas io s).1 l j) ∧
      (mzcacheOffloadArenas io s).1.kvFile = s.kvFile ∧
      (mzcacheOffloadArenas io s).1.layerFds = s.layerFds := by
  unfold mzcacheOffloadArenas
  split
  · exact ⟨fun _ _ => ⟨rfl, rfl, rfl, rfl, rfl, rfl, rfl, rfl⟩, rfl, rfl⟩
  · dsimp only
    split
    · split <;> exact ⟨fun _ _ => ⟨rfl, rfl, rfl, rfl, rfl, rfl, rfl, rfl⟩, rfl, rfl⟩
    · exact ⟨fun _ _ => ⟨rfl, rfl, rfl, rfl, rfl, rfl, rfl, rfl⟩, rfl, rfl⟩

theorem HeldAll.offloadArenas (hl : Ladder cfg s) (hlay : Layout cfg s) (h : HeldAll cfg s g) :
    HeldAll cfg (mzcacheOffloadArenas io s).1 g := by
  obtain ⟨hsc, hfile, _⟩ := mzcacheOffloadArenas_same io s
  exact h.of_same hl hlay hsc (fun l hlL => poolsLe_of_same ((hlay.shelved.offloaded io).same l hlL)) hfile

end

end MzCache
