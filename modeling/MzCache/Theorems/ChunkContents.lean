import MzCache.Core.HeldEngine
import MzCache.Theorems.ArenaLayout

/-!
# No chunk is lost

Over any sequence of swapouts, swapins, growth and writes every chunk's K and V bytes are in
full in the one place its state names. This rests on every `pwrite` of a chunk and every
`pread` of one moving all its bytes: a transfer that does not is reported and then ignored.
-/

namespace MzCache.Theorems

open MzCache MzCache.Lib

section

variable {cfg : Config}

theorem keptIdle_init {n alloc : Nat} {mem : Nat → Nat → Option ChunkMem} {g : Contents}
    (hpos : 0 < n) (hle : n ≤ cfg.f32.limit) (halloc : n ≤ alloc)
    (hmem : Materialized cfg alloc mem) (hg : ∀ l j m, mem l j = some m → g l j = m)
    (hsmall : arenaBytesOf cfg n < 2 ^ 31) : KeptIdle cfg (Core.init cfg n alloc mem, g) := by
  have hok := @CoreOk.init cfg n alloc mem hpos hle
  have hres : (Core.init cfg n alloc mem).kv.Resident cfg := by
    show (cfg.numLayers : Int) - 1 + 1 = cfg.numLayers
    omega
  refine ⟨⟨hok, (arranged_init n alloc mem hpos hle hsmall).layout, Or.inl hres, halloc, ?_, ?_⟩,
    hok.ladder.phaseOk_of_clean rfl rfl, fun _ => rfl⟩
  · intro l hl j hj
    show mem l j = none
    rw [← Option.not_isSome_iff_eq_none, hmem l hl j]
    exact not_lt.mpr hj
  · intro l hl j
    unfold Held
    split
    · rename_i hj
      obtain ⟨m, hm⟩ := Option.isSome_iff_exists.mp
        ((hmem l hl j).mpr (lt_of_lt_of_le hj halloc))
      refine ⟨m, hm, ?_⟩
      show m.Same cfg (g l j)
      rw [hg l j m hm]
      exact ChunkMem.Same.refl cfg m
    · intro m hm
      show m.Same cfg (g l j)
      rw [hg l j m hm]
      exact ChunkMem.Same.refl cfg m

end

/-- While every transfer of a chunk is complete and every arena can be read back, each chunk
is held in full in memory, in an arena or in its file, after any run. -/
theorem chunk_contents_held (cfg : Config) (hf : cfg.Fits) (io : Io) (hio : io.Transfers)
    (hre : io.Reloads) (n alloc : Nat) (mem : Nat → Nat → Option ChunkMem) (g : Contents)
    (hpos : 0 < n) (hle : n ≤ cfg.f32.limit) (halloc : n ≤ alloc)
    (hmem : Materialized cfg alloc mem) (hg : ∀ l j m, mem l j = some m → g l j = m)
    (hsmall : arenaBytesOf cfg n < 2 ^ 31) (p : Core × Contents)
    (hrun : ContentRun cfg io (Core.init cfg n alloc mem, g) p) : HeldAll cfg p.1.kv p.2 := by
  have hinv : KeptIdle cfg p := by
    refine run_preserves (P := KeptIdle cfg) ?_ ?_ hrun
    · intro p q hp hs
      exact hp.step hf hre hio hs
    · exact keptIdle_init hpos hle halloc hmem hg hsmall
  exact hinv.kept.held

/-- Two chunks a layer, every byte a one. -/
def onesMem : Nat → Nat → Option ChunkMem := fun _ j =>
  if j < 2 then some ⟨fun _ => 1, fun _ => 1, true⟩ else none

def ones : Contents := fun _ _ => ⟨fun _ => 1, fun _ => 1, true⟩

theorem onesMem_materialized : Materialized .small 2 onesMem := by
  intro l _ j
  unfold onesMem
  split
  · simp [*]
  · simp [*]

theorem onesMem_ones (l j : Nat) (m : ChunkMem) (h : onesMem l j = some m) : ones l j = m := by
  unfold onesMem at h
  split at h
  · exact Option.some.inj h
  · cases h

/-- The engine over these chunks after `swapout(0)`. -/
def onesOut (io : Io) : Core :=
  ((swapoutStart .small 0 (.init .small 2 2 onesMem)).run .small io 0 7).core

theorem onesOut_returned : SwapoutReturns .small .ok 0 (.init .small 2 2 onesMem) (256 / 16509)
    (onesOut .ok) :=
  ⟨7, by with_unfolding_all decide, rfl⟩

/-- All chunks are out, one of them in its file. -/
theorem chunk_contents_held_small :
    (onesOut .ok).kv.states 1 1 = .stored ∧ HeldAll .small (onesOut .ok).kv ones := by
  refine ⟨by with_unfolding_all decide, ?_⟩
  exact chunk_contents_held .small (fits_of_fixedRate (Or.inl rfl)) .ok
    ⟨fun _ => rfl, fun _ => rfl⟩ ⟨fun _ => rfl, fun _ => rfl⟩ 2 2 onesMem ones (by decide)
    (by decide) le_rfl onesMem_materialized onesMem_ones
    (by with_unfolding_all decide) (onesOut .ok, ones)
    (.single (.swapout _ _ _ 0 _ onesOut_returned))

/-- Every `pwrite` stops after five bytes; everything else succeeds. -/
def shortWrites : Io := fun call _ => if call = .storeWrite then .short 5 else .full

/-- With short writes the memory of a chunk is released although its file does not hold it. -/
theorem chunk_contents_lost :
    ¬ ∀ (cfg : Config), cfg.Fits → ∀ io : Io, io.Reloads →
      ∀ (n alloc : Nat) (mem : Nat → Nat → Option ChunkMem) (g : Contents), 0 < n →
      n ≤ cfg.f32.limit → n ≤ alloc → Materialized cfg alloc mem →
      (∀ l j m, mem l j = some m → g l j = m) → arenaBytesOf cfg n < 2 ^ 31 →
      ∀ p, ContentRun cfg io (Core.init cfg n alloc mem, g) p → HeldAll cfg p.1.kv p.2 := by
  intro h
  have hret : SwapoutReturns .small shortWrites 0 (.init .small 2 2 onesMem) (256 / 16509)
      (onesOut shortWrites) := ⟨7, by with_unfolding_all decide, rfl⟩
  have hheld := h .small (fits_of_fixedRate (Or.inl rfl)) shortWrites
    ⟨fun _ => rfl, fun _ => rfl⟩ 2 2 onesMem ones (by decide) (by decide) le_rfl
    onesMem_materialized onesMem_ones (by with_unfolding_all decide) (onesOut shortWrites, ones)
    (.single (.swapout _ _ _ 0 _ hret)) 1 (by decide) 1
  have hst : (onesOut shortWrites).kv.states 1 1 = .stored := by with_unfolding_all decide
  unfold Held at hheld
  rw [if_pos (by with_unfolding_all decide), hst] at hheld
  -- byte 5 of the K half was never written
  have hbyte := hheld.2.k 5 (by with_unfolding_all decide)
  have hzero : (onesOut shortWrites).kv.kvFile 1
      (((onesOut shortWrites).kv.kStored 1 1).fileOffset + 5) = 0 := by with_unfolding_all decide
  rw [hzero] at hbyte
  exact absurd hbyte (by decide)

end MzCache.Theorems
