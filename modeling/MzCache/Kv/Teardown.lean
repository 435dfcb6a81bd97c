import MzCache.Kv.State

/-!
# The release of the chunks

`~mzcache_kv_state` walks the chunk tables that the kernels read. The table of a layer's K (slot
`2 * il`) and the one of its V (slot `2 * il + 1`) hold `MAX_CHUNKS_PER_TENSOR` pointers each. The
pair of a grown or restored chunk is one allocation that the V table points into the middle of;
the pair of chunk 0 is two.
-/

namespace MzCache

open MzCache.Lib

/-- An allocation of `clSVMAlloc`: a contiguous pair, or one half of a chunk. -/
inductive SvmAlloc where
  | pair (layer chunk : Nat)
  | half (layer chunk : Nat) (v : Bool)
deriving DecidableEq, Repr

/-- A pointer into an allocation. -/
structure SvmPtr where
  alloc : SvmAlloc
  offset : Nat
deriving DecidableEq, Repr

section

variable (cfg : Config) (s : KvState)

/-- The pointer of a half of a chunk: V follows K in a contiguous pair. -/
def halfPtr (l j : Nat) (v : Bool) (mem : ChunkMem) : SvmPtr :=
  if mem.contiguous then ⟨.pair l j, if v then cfg.rawChunkBytes else 0⟩ else ⟨.half l j v, 0⟩

/-- Entry `i` of table `t` of `g_svm_chunk_ptrs`, null for an evicted or missing chunk. -/
def KvState.svmTable (t i : Nat) : Option SvmPtr :=
  (s.svm (t / 2) i).map (halfPtr cfg (t / 2) i (t % 2 = 1))

/-- What the loop reads: `outside` is the memory behind a table. -/
def readTable (outside : Nat → Nat → Option SvmPtr) (a : Nat × Nat) : Option SvmPtr :=
  if a.2 < maxChunksPerTensor then s.svmTable cfg a.1 a.2 else outside a.1 a.2

/-- The accesses of the release loop, `i` from 0 to `MAX_CHUNKS_PER_TENSOR * 2` in steps of two in
every table. -/
def teardownAccesses : List (Nat × Nat) :=
  (List.range (2 * cfg.numLayers)).flatMap fun t =>
    (List.range maxChunksPerTensor).map fun k => (t, 2 * k)

/-- The pointers that are passed to `clSVMFree`. -/
def teardownFreed (outside : Nat → Nat → Option SvmPtr) : List SvmPtr :=
  (teardownAccesses cfg).filterMap (readTable cfg s outside)

/-- The allocations that back the chunks. -/
def KvState.Live (a : SvmAlloc) : Prop :=
  ∃ l < cfg.numLayers, ∃ j < maxChunksPerTensor, ∃ mem, s.svm l j = some mem ∧
    ∃ v, (halfPtr cfg l j v mem).alloc = a

/-- Each live allocation is freed once, by its base pointer, and nothing else is. -/
structure FreesEachOnce (freed : List SvmPtr) : Prop where
  once : ∀ a, s.Live cfg a → freed.count ⟨a, 0⟩ = 1
  bases : ∀ p ∈ freed, p.offset = 0 ∧ s.Live cfg p.alloc

end

section

variable {cfg : Config} {s : KvState}

theorem mem_teardownAccesses {t i : Nat} : (t, i) ∈ teardownAccesses cfg ↔
    t < 2 * cfg.numLayers ∧ ∃ k < maxChunksPerTensor, i = 2 * k := by
  unfold teardownAccesses
  simp only [List.mem_flatMap, List.mem_map, List.mem_range, Prod.mk.injEq]
  constructor
  · rintro ⟨t', ht, k, hk, rfl, rfl⟩
    exact ⟨ht, k, hk, rfl⟩
  · rintro ⟨ht, k, hk, rfl⟩
    exact ⟨t, ht, k, hk, rfl, rfl⟩

theorem teardownAccesses_nodup : (teardownAccesses cfg).Nodup := by
  unfold teardownAccesses
  rw [List.nodup_flatMap]
  constructor
  · intro t _
    refine List.nodup_range.map fun a b hab => ?_
    have := congrArg Prod.snd hab
    dsimp only at this
    omega
  · refine List.nodup_range.imp fun {t t'} hne => ?_
    intro x hx hx'
    obtain ⟨k, -, rfl⟩ := List.mem_map.mp hx
    obtain ⟨k', -, heq⟩ := List.mem_map.mp hx'
    exact hne (congrArg Prod.fst heq).symm

/-- The loop leaves every table: its last index in it would be 255. -/
theorem teardown_outside : (0, maxChunksPerTensor) ∈ teardownAccesses cfg :=
  mem_teardownAccesses.mpr ⟨by have := cfg.numLayers_pos; omega, 128, by decide, rfl⟩

/-- The accesses that stay in the tables. -/
def teardownInside (cfg : Config) : List (Nat × Nat) :=
  (teardownAccesses cfg).filter fun a => a.2 < maxChunksPerTensor

theorem mem_teardownInside {t i : Nat} : (t, i) ∈ teardownInside cfg ↔
    t < 2 * cfg.numLayers ∧ i < maxChunksPerTensor ∧ i % 2 = 0 := by
  rw [teardownInside, List.mem_filter, mem_teardownAccesses, decide_eq_true_eq]
  constructor
  · rintro ⟨⟨ht, k, -, rfl⟩, hi⟩
    exact ⟨ht, hi, Nat.mul_mod_right 2 k⟩
  · rintro ⟨ht, hi, heven⟩
    exact ⟨⟨ht, i / 2, by omega, by omega⟩, hi⟩

/-- The pointers freed inside the tables. -/
def freedInside (cfg : Config) (s : KvState) : List SvmPtr :=
  (teardownInside cfg).filterMap fun a => s.svmTable cfg a.1 a.2

/-- The tables of a layer's K and V come one after the other. -/
theorem KvState.svmTable_half (l j : Nat) (v : Bool) :
    s.svmTable cfg (2 * l + v.toNat) j = (s.svm l j).map (halfPtr cfg l j v) := by
  have hlt := v.toNat_lt
  have hdiv : (2 * l + v.toNat) / 2 = l := by omega
  have hmod : decide ((2 * l + v.toNat) % 2 = 1) = v := by cases v <;> simp
  rw [KvState.svmTable, hdiv, hmod]

theorem mem_freedInside {p : SvmPtr} : p ∈ freedInside cfg s ↔
    ∃ l < cfg.numLayers, ∃ j < maxChunksPerTensor, j % 2 = 0 ∧ ∃ v mem, s.svm l j = some mem ∧
      halfPtr cfg l j v mem = p := by
  unfold freedInside
  rw [List.mem_filterMap]
  constructor
  · rintro ⟨⟨t, i⟩, ha, hp⟩
    obtain ⟨ht, hi, heven⟩ := mem_teardownInside.mp ha
    obtain ⟨mem, hmem, hp⟩ := Option.map_eq_some_iff.mp hp
    exact ⟨t / 2, by omega, i, hi, heven, _, mem, hmem, hp⟩
  · rintro ⟨l, hl, j, hj, heven, v, mem, hmem, hp⟩
    have hlt := v.toNat_lt
    refine ⟨(2 * l + v.toNat, j), mem_teardownInside.mpr ⟨by omega, hj, heven⟩, ?_⟩
    rw [KvState.svmTable_half, hmem, Option.map_some, hp]

@[simp] theorem halfPtr_pair {l j : Nat} {v : Bool} {mem : ChunkMem} (h : mem.contiguous = true) :
    halfPtr cfg l j v mem = ⟨.pair l j, if v then cfg.rawChunkBytes else 0⟩ := if_pos h

@[simp] theorem halfPtr_half {l j : Nat} {v : Bool} {mem : ChunkMem} (h : mem.contiguous = false) :
    halfPtr cfg l j v mem = ⟨.half l j v, 0⟩ := if_neg (by simp [h])

/-- Only the pointers of one chunk lead into its allocations. -/
theorem halfPtr_alloc {l l' j j' : Nat} {v v' : Bool} {mem mem' : ChunkMem}
    (h : (halfPtr cfg l j v mem).alloc = (halfPtr cfg l' j' v' mem').alloc) : l = l' ∧ j = j' := by
  cases hm : mem.contiguous <;> cases hm' : mem'.contiguous <;> simp_all

/-- Two halves at one pointer are the same half, unless they are a pair of no bytes. -/
theorem halfPtr_inj {l l' j j' : Nat} {v v' : Bool} {mem mem' : ChunkMem}
    (hsep : mem.contiguous = false)
    (h : halfPtr cfg l j v mem = halfPtr cfg l' j' v' mem') : l = l' ∧ j = j' ∧ v = v' := by
  cases hm' : mem'.contiguous <;> simp_all

theorem two_le_count_freedInside {l j : Nat} {mem : ChunkMem} {p : SvmPtr} (hl : l < cfg.numLayers)
    (hj : j < maxChunksPerTensor) (heven : j % 2 = 0) (hmem : s.svm l j = some mem)
    (hk : halfPtr cfg l j false mem = p) (hv : halfPtr cfg l j true mem = p) :
    2 ≤ (freedInside cfg s).count p := by
  rw [freedInside, List.count_filterMap, List.countP_eq_length_filter]
  have hsub : [(2 * l + false.toNat, j), (2 * l + true.toNat, j)] ⊆
      (teardownInside cfg).filter fun a => s.svmTable cfg a.1 a.2 == some p := by
    rintro ⟨t, i⟩ ha
    obtain ⟨v, rfl, rfl, hv⟩ : ∃ v : Bool, t = 2 * l + v.toNat ∧ i = j ∧
        halfPtr cfg l j v mem = p := by
      rcases List.mem_pair.mp ha with ha | ha <;> cases ha
      exacts [⟨false, rfl, rfl, hk⟩, ⟨true, rfl, rfl, hv⟩]
    have hlt := v.toNat_lt
    refine List.mem_filter.mpr ⟨mem_teardownInside.mpr ⟨by omega, hj, heven⟩, ?_⟩
    simp [KvState.svmTable_half, hmem, hv]
  exact (List.subperm_of_subset (by simp) hsub).length_le

theorem freedInside_nodup
    (h : ∀ l < cfg.numLayers, ∀ j < maxChunksPerTensor, ∀ mem, s.svm l j = some mem →
      mem.contiguous = false ∧ j % 2 = 0) : (freedInside cfg s).Nodup := by
  rw [List.Nodup, freedInside, List.pairwise_filterMap]
  refine List.Pairwise.imp_of_mem ?_ (teardownAccesses_nodup.filter _)
  rintro ⟨t, i⟩ ⟨t', i'⟩ ha - hne p hp p' hp' rfl
  obtain ⟨ht, hi, -⟩ := mem_teardownInside.mp ha
  obtain ⟨mem, hmem, rfl⟩ := Option.map_eq_some_iff.mp hp
  obtain ⟨mem', -, hp'⟩ := Option.map_eq_some_iff.mp hp'
  have hsep := (h (t / 2) (by omega) i hi mem hmem).1
  obtain ⟨hl, hj, hv⟩ := halfPtr_inj hsep hp'.symm
  have hparity : t % 2 = 1 ↔ t' % 2 = 1 := by simpa using hv
  exact hne (Prod.ext (by omega) hj)

/-- A chunk that the loop skips, or a pair, keeps its release from being right. -/
theorem FreesEachOnce.separate {l j : Nat} {mem : ChunkMem}
    (h : FreesEachOnce cfg s (freedInside cfg s)) (hl : l < cfg.numLayers)
    (hj : j < maxChunksPerTensor) (hmem : s.svm l j = some mem) :
    mem.contiguous = false ∧ j % 2 = 0 := by
  have heven : j % 2 = 0 := by
    have hc := h.once _ ⟨l, hl, j, hj, mem, hmem, false, rfl⟩
    have hin := List.count_pos_iff.mp (hc ▸ Nat.one_pos)
    obtain ⟨l', -, j', -, heven, v', mem', -, hp⟩ := mem_freedInside.mp hin
    have halloc := congrArg SvmPtr.alloc hp
    obtain ⟨-, rfl⟩ := halfPtr_alloc halloc
    exact heven
  refine ⟨Bool.eq_false_iff.mpr fun hpair => ?_, heven⟩
  -- the V pointer of a pair is its base only when a half has no bytes, and then it is freed twice
  have hin : ∀ v, halfPtr cfg l j v mem ∈ freedInside cfg s := fun v =>
    mem_freedInside.mpr ⟨l, hl, j, hj, heven, v, mem, hmem, rfl⟩
  have hzero : cfg.rawChunkBytes = 0 := by simpa [hpair] using (h.bases _ (hin true)).1
  have hbase : ∀ v, halfPtr cfg l j v mem = ⟨.pair l j, 0⟩ := fun v => by simp [hpair, hzero]
  have hc := h.once (.pair l j) ⟨l, hl, j, hj, mem, hmem, false, by simp [hpair]⟩
  have htwo := two_le_count_freedInside hl hj heven hmem (hbase false) (hbase true)
  omega

/-- With the chunks of even index alone, each half its own allocation, the accesses inside the
tables free what they should. -/
theorem freesEachOnce_inside
    (h : ∀ l < cfg.numLayers, ∀ j < maxChunksPerTensor, ∀ mem, s.svm l j = some mem →
      mem.contiguous = false ∧ j % 2 = 0) :
    FreesEachOnce cfg s (freedInside cfg s) := by
  constructor
  · rintro a ⟨l, hl, j, hj, mem, hmem, v, rfl⟩
    obtain ⟨hsep, heven⟩ := h l hl j hj mem hmem
    have hp : halfPtr cfg l j v mem = ⟨(halfPtr cfg l j v mem).alloc, 0⟩ := by simp [hsep]
    exact List.count_eq_one_of_mem (freedInside_nodup h)
      (mem_freedInside.mpr ⟨l, hl, j, hj, heven, v, mem, hmem, hp⟩)
  · intro p hp
    obtain ⟨l, hl, j, hj, -, v, mem, hmem, rfl⟩ := mem_freedInside.mp hp
    exact ⟨by simp [(h l hl j hj mem hmem).1], l, hl, j, hj, mem, hmem, v, rfl⟩

/-- Inside the tables the loop frees each allocation once exactly when no chunk has an odd index
or shares its allocation between K and V. -/
theorem freesEachOnce_inside_iff : FreesEachOnce cfg s (freedInside cfg s) ↔
    ∀ l < cfg.numLayers, ∀ j < maxChunksPerTensor, ∀ mem, s.svm l j = some mem →
      mem.contiguous = false ∧ j % 2 = 0 :=
  ⟨fun h _ hl _ hj _ hmem => h.separate hl hj hmem, freesEachOnce_inside⟩

end

end MzCache
