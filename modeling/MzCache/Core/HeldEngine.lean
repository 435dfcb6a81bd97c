import MzCache.Core.Engine
import MzCache.Core.HeldSwapin

/-!
# Chunk contents over whole runs

The engine with the contents of every chunk beside it. A swapout changes no contents, a
decode writes them, and a chunk whose memory is new holds what that memory holds: zeros after
growth, the decoder's output after a decompression. A chunk that comes back from its file has
to hold what it held before.
-/

namespace MzCache

open MzCache.Lib

/-- The contents after a step that may give chunks memory. What was stored is to come back
unchanged. -/
def contentsAfter (c c' : Core) (g : Contents) : Contents := fun l j =>
  match c.kv.svm l j, c'.kv.svm l j with
  | none, some mem =>
      if j < c.kv.numChunksPerTensor ∧ c.kv.states l j = .stored then g l j else mem
  | _, _ => g l j

/-- The engine's steps, with the contents. -/
inductive ContentStep (cfg : Config) (io : Io) : Core × Contents → Core × Contents → Prop
  | swapout (c c' : Core) (g : Contents) (target ratio : ℚ)
      (h : SwapoutReturns cfg io target c ratio c') : ContentStep cfg io (c, g) (c', g)
  | swapin (c : Core) (g : Contents) (early late : List Nat) (r : Swapin)
      (h : swapinGenerate cfg io early late c = some r) :
      ContentStep cfg io (c, g) (r.core, contentsAfter c r.core g)
  | grow (c : Core) (g : Contents) (need : Nat) :
      ContentStep cfg io (c, g)
        (mzGrowChunks cfg need c, contentsAfter c (mzGrowChunks cfg need c) g)
  | grown (c : Core) (g : Contents) (n : Nat) :
      ContentStep cfg io (c, g) (onKvChunksGrown cfg n c, g)
  | write (c : Core) (g : Contents) (l j : Nat) (mem : ChunkMem) (h : (c.kv.svm l j).isSome) :
      ContentStep cfg io (c, g)
        ({ c with kv := { c.kv with svm := Table.set c.kv.svm l j (some mem) } },
          Table.set g l j mem)

/-- The chunks a cache with `alloc` materialized chunks has memory for. -/
def Materialized (cfg : Config) (alloc : Nat) (mem : Nat → Nat → Option ChunkMem) : Prop :=
  ∀ l < cfg.numLayers, ∀ j, (mem l j).isSome ↔ j < alloc

/-- Any number of calls. -/
abbrev ContentRun (cfg : Config) (io : Io) : Core × Contents → Core × Contents → Prop :=
  Relation.ReflTransGen (ContentStep cfg io)

/-- Each of these is a step of the engine. -/
theorem ContentStep.engineStep {cfg : Config} {io : Io} {p q : Core × Contents}
    (h : ContentStep cfg io p q) : EngineStep cfg io p.1 q.1 := by
  cases h with
  | swapout c c' g target ratio h => exact .swapout target ratio c' h
  | swapin c g early late r h => exact .swapin early late r h
  | grow c g need => exact .grow need
  | grown c g n => exact .grown n
  | write c g l j mem h => exact .write l j mem h

section

variable {cfg : Config} {io : Io} {c c' : Core} {g : Contents}

theorem contentsAfter_of_some {l j : Nat} (h : (c.kv.svm l j).isSome) :
    contentsAfter c c' g l j = g l j := by
  obtain ⟨mem, hmem⟩ := Option.isSome_iff_exists.mp h
  unfold contentsAfter
  rw [hmem]

theorem contentsAfter_of_none {l j : Nat} (h : c'.kv.svm l j = none) :
    contentsAfter c c' g l j = g l j := by
  unfold contentsAfter
  rw [h]
  cases c.kv.svm l j <;> rfl

theorem contentsAfter_stored {l j : Nat} (hj : j < c.kv.numChunksPerTensor)
    (h : c.kv.states l j = .stored) : contentsAfter c c' g l j = g l j := by
  unfold contentsAfter
  split
  · exact if_pos ⟨hj, h⟩
  · rfl

theorem contentsAfter_new {l j : Nat} {mem : ChunkMem} (h : c.kv.svm l j = none)
    (h' : c'.kv.svm l j = some mem)
    (hst : ¬ (j < c.kv.numChunksPerTensor ∧ c.kv.states l j = .stored)) :
    contentsAfter c c' g l j = mem := by
  unfold contentsAfter
  rw [h, h']
  exact if_neg hst

/-- An evicted chunk has no memory. -/
theorem Kept.evicted_svm (h : Kept cfg c g) {e : Cell}
    (he : e ∈ c.kv.compBeyond cfg ∨ e ∈ c.kv.storeBeyond cfg) : c.kv.svm e.1 e.2 = none := by
  rcases he with he | he
  · obtain ⟨heL, hej, hst⟩ := (h.ok.ladder.compressed_iff e).mp he
    have hheld := h.held e.1 heL e.2
    unfold Held at hheld
    rw [if_pos hej, hst] at hheld
    exact hheld.1
  · obtain ⟨heL, hej, hst⟩ := (h.ok.ladder.stored_iff e).mp he
    have hheld := h.held e.1 heL e.2
    unfold Held at hheld
    rw [if_pos hej, hst] at hheld
    exact hheld.1

theorem Kept.inFile (h : Kept cfg c g) {e : Cell} (he : e ∈ c.kv.storeBeyond cfg) :
    InFile cfg c.kv e.1 e.2 (g e.1 e.2) := by
  obtain ⟨heL, hej, hst⟩ := (h.ok.ladder.stored_iff e).mp he
  have hheld := h.held e.1 heL e.2
  unfold Held at hheld
  rw [if_pos hej, hst] at hheld
  exact hheld.2

/-! ## Swapin -/

/-- The chunk memory a swapin cycle leaves. -/
structure BroughtBack (cfg : Config) (c c' : Core) (g : Contents) : Prop where
  kept : ∀ l j mem, c.kv.svm l j = some mem → c'.kv.svm l j = some mem
  stored : ∀ e ∈ c.kv.storeBeyond cfg, ∃ mem, c'.kv.svm e.1 e.2 = some mem ∧
    mem.Same cfg (g e.1 e.2)
  memory : InMemory cfg c'

/-- The tasks of a cycle, run in the state it enqueued them in. -/
theorem Kept.tasks (hio : io.Transfers) (h : Kept cfg c g) (hclosed : ∀ l, c.kv.layerFds l = none)
    {e : Enqueued} (hcall : mzcacheEnqueueDecompLoadChunks cfg io (c.kv.compBeyond cfg).length
      (c.kv.storeBeyond cfg).length c.kv = some e) :
    BroughtBack cfg c (swapinRestore cfg io e c) g := by
  have hl := h.ok.ladder
  obtain ⟨hread, hdecomp, _, _, comp, store, fds, tick, hstate, -⟩ := hl.enqueue io le_rfl le_rfl
    hcall
  rw [List.take_length] at hread hdecomp
  have hfds := enqueue_readable hl hclosed hcall
  have hsvm : e.state.svm = c.kv.svm := by rw [hstate]; rfl
  have hkvFile : e.state.kvFile = c.kv.kvFile := by rw [hstate]; rfl
  have hkst : e.state.kStored = c.kv.kStored := by rw [hstate]; rfl
  have hvst : e.state.vStored = c.kv.vStored := by rw [hstate]; rfl
  have hN : (swapinRestore cfg io e c).kv.numChunksPerTensor = c.kv.numChunksPerTensor := by
    have h1 := congrArg LadderView.numChunksPerTensor
      (runDecomps_view cfg e.decomp (runReads cfg io e.read e.state))
    have h2 := congrArg LadderView.numChunksPerTensor (runReads_view cfg io e.read e.state)
    exact (h1.trans h2).trans (by rw [hstate]; rfl)
  have hback := @runReads_readBack cfg io hio e.read e.state
    (by rw [hread]; exact KvState.storeBeyond_nodup) hfds (by
      intro x hx
      rw [hread] at hx
      rw [hkst, hvst, (h.inFile hx).offK, (h.inFile hx).offV])
  obtain ⟨hother, hsome⟩ := runDecomps_svm cfg e.decomp (runReads cfg io e.read e.state)
  rw [hdecomp] at hother hsome
  rw [hread] at hback
  have hfinal : (swapinRestore cfg io e c).kv.svm =
      (runDecomps cfg (c.kv.compBeyond cfg) (runReads cfg io (c.kv.storeBeyond cfg) e.state)).svm := by
    rw [← hread, ← hdecomp]
    rfl
  rw [hread] at hother hsome
  -- a chunk of neither list is not touched
  have huntouched : ∀ l j, (l, j) ∉ c.kv.compBeyond cfg → (l, j) ∉ c.kv.storeBeyond cfg →
      (swapinRestore cfg io e c).kv.svm l j = c.kv.svm l j := by
    intro l j hc hs
    rw [hfinal, hother l j hc, hback.other l j hs, hsvm]
  have hstored : ∀ x ∈ c.kv.storeBeyond cfg, ∃ mem,
      (swapinRestore cfg io e c).kv.svm x.1 x.2 = some mem ∧ mem.Same cfg (g x.1 x.2) := by
    intro x hx
    obtain ⟨mem, hmem, hk, hv⟩ := hback.back x hx
    have hin := h.inFile hx
    have hnot : x ∉ c.kv.compBeyond cfg := not_mem_compBeyond (mem_beyond.mp hx).1
    rw [hkvFile, hkst] at hk
    rw [hkvFile, hvst] at hv
    refine ⟨mem, by rw [hfinal, hother x.1 x.2 hnot, hmem], ?_, ?_⟩
    · intro i hi
      rw [← hk i hi, hin.k i hi]
    · intro i hi
      rw [← hv i hi, hin.v i hi]
  refine ⟨?_, hstored, ?_, ?_, ?_⟩
  · intro l j mem hmem
    rw [huntouched l j, hmem]
    · intro hc
      rw [h.evicted_svm (Or.inl hc)] at hmem
      cases hmem
    · intro hs
      rw [h.evicted_svm (Or.inr hs)] at hmem
      cases hmem
  · rw [hN]
    exact h.alloc
  · intro l hlL j hj
    have hj' : c.nChunksAlloc ≤ j := hj
    have hNle := h.alloc
    rw [huntouched l j, h.absent l hlL j hj]
    · intro hc
      have := ((hl.compressed_iff (l, j)).mp hc).2.1
      dsimp only at this
      omega
    · intro hs
      have := ((hl.stored_iff (l, j)).mp hs).2.1
      dsimp only at this
      omega
  · intro l hlL j hj
    rw [hN] at hj
    by_cases hc : (l, j) ∈ c.kv.compBeyond cfg
    · rw [hfinal]
      exact hsome _ hc
    · by_cases hs : (l, j) ∈ c.kv.storeBeyond cfg
      · obtain ⟨mem, hmem, _⟩ := hstored _ hs
        exact Option.isSome_iff_exists.mpr ⟨mem, hmem⟩
      · obtain ⟨mem, hmem, _⟩ := (h.held l hlL j).raw_of_cell (e := (l, j)) hl hlL hj hc hs
        rw [huntouched l j hc hs]
        exact Option.isSome_iff_exists.mpr ⟨mem, hmem⟩

/-- A whole cycle, with the decode thread's growth before and after the enqueue. -/
theorem Kept.broughtBack (hre : io.Reloads) (hio : io.Transfers) (h : Kept cfg c g)
    (hclosed : ∀ l, c.kv.layerFds l = none) {early late : List Nat} {r : Swapin}
    (hs : swapinGenerate cfg io early late c = some r) : BroughtBack cfg c r.core g := by
  obtain ⟨hprep, hcall, _, hcore⟩ := h.ok.swapinParts hs
  obtain ⟨hsc, _, hfds⟩ := swapinReload_same cfg io c
  -- growth before the enqueue
  have hgrew : Grew (MzCache.swapinReload cfg io c) (swapinPrepare cfg io early c) :=
    grew_growAll cfg early _
  obtain ⟨g3, h3, hg3⟩ := Kept.growAll early (h.swapinReload hre)
  have h3' : Kept cfg (swapinPrepare cfg io early c) g3 := h3
  have hb := h3'.tasks hio (fun l => by rw [hgrew.fds, hfds]; exact hclosed l) hcall
  -- and after it
  have hlate := grew_growAll cfg late (swapinRestore cfg io r.tasks (swapinPrepare cfg io early c))
  have hmem6 := InMemory.growAll late hb.memory
  set c6 := MzCache.growAll cfg late
    (swapinRestore cfg io r.tasks (swapinPrepare cfg io early c)) with hc6
  have hsvm : r.core.kv.svm = c6.kv.svm ∧
      r.core.kv.numChunksPerTensor = c6.kv.numChunksPerTensor ∧
      r.core.nChunksAlloc = c6.nChunksAlloc := by
    rw [hcore]
    unfold finishSwapinCycle cleanAfterRead cleanAfterDecompress
    dsimp only
    split
    · exact ⟨rfl, rfl, rfl⟩
    · split <;> split <;> exact ⟨rfl, rfl, rfl⟩
  refine ⟨?_, ?_, ?_, ?_, ?_⟩
  · intro l j mem hmem
    rw [hsvm.1]
    refine hlate.some l j mem (hb.kept l j mem (hgrew.some l j mem ?_))
    rw [(hsc l j).svm]
    exact hmem
  · intro e he
    obtain ⟨mem, hmem, hsame⟩ := hb.stored e (by rw [hprep.store]; exact he)
    have hej : e.2 < c.nChunksAlloc :=
      lt_of_lt_of_le ((h.ok.ladder.stored_iff e).mp he).2.1 h.alloc
    refine ⟨mem, by rw [hsvm.1]; exact hlate.some _ _ _ hmem, ?_⟩
    rw [← hg3 e.1 e.2 hej]
    exact hsame
  · rw [hsvm.2.1, hsvm.2.2]
    exact hmem6.alloc
  · intro l hl j hj
    rw [hsvm.2.2] at hj
    rw [hsvm.1]
    exact hmem6.absent l hl j hj
  · intro l hl j hj
    rw [hsvm.2.1] at hj
    rw [hsvm.1]
    exact hmem6.present l hl j hj

/-- A swapin keeps every chunk: what was stored comes back as it was. -/
theorem Kept.swapin (hre : io.Reloads) (hio : io.Transfers) (h : Kept cfg c g)
    (hclosed : ∀ l, c.kv.layerFds l = none) {early late : List Nat} {r : Swapin}
    (hs : swapinGenerate cfg io early late c = some r) :
    Kept cfg r.core (contentsAfter c r.core g) := by
  have hfin := h.ok.swapinGenerate hs
  obtain ⟨harr, hres⟩ := h.layout.swapinGenerate hre h.ok hs
  have hb := h.broughtBack hre hio hclosed hs
  have hsame : ∀ l < cfg.numLayers, ∀ j mem, r.core.kv.svm l j = some mem →
      mem.Same cfg (contentsAfter c r.core g l j) := by
    intro l hl j mem hmem
    cases hsvm : c.kv.svm l j with
    | some m0 =>
        -- it was in memory all the time
        rw [contentsAfter_of_some (by rw [hsvm]; rfl)]
        have heq := hb.kept l j m0 hsvm
        rw [hmem, Option.some.injEq] at heq
        subst heq
        have hheld := h.held l hl j
        unfold Held at hheld
        split at hheld
        · cases hst : c.kv.states l j with
          | raw =>
              rw [hst] at hheld
              obtain ⟨m1, hm1, hs1⟩ := hheld
              rw [hsvm, Option.some.injEq] at hm1
              exact hm1 ▸ hs1
          | compressed =>
              rw [hst, hsvm] at hheld
              cases hheld.1
          | stored =>
              rw [hst, hsvm] at hheld
              cases hheld.1
        · exact hheld mem hsvm
    | none =>
        by_cases hst : j < c.kv.numChunksPerTensor ∧ c.kv.states l j = .stored
        · rw [contentsAfter_stored hst.1 hst.2]
          obtain ⟨m1, hm1, hs1⟩ := hb.stored (l, j)
            ((h.ok.ladder.stored_iff (l, j)).mpr ⟨hl, hst.1, hst.2⟩)
          dsimp only at hm1 hs1
          rw [hmem, Option.some.injEq] at hm1
          exact hm1 ▸ hs1
        · rw [contentsAfter_new hsvm hmem hst]
          exact ChunkMem.Same.refl cfg mem
  refine ⟨hfin.ok, harr.layout, Or.inl hres, hb.memory.alloc, hb.memory.absent, ?_⟩
  intro l hl j
  unfold Held
  split
  · rename_i hj
    have hraw : r.core.kv.states l j = .raw := by
      rw [hfin.ok.ladder.states l j hl hj, hfin.noComp, hfin.noStore]
      rfl
    rw [hraw]
    obtain ⟨mem, hmem⟩ := Option.isSome_iff_exists.mp (hb.memory.present l hl j hj)
    exact ⟨mem, hmem, hsame l hl j mem hmem⟩
  · intro mem hmem
    exact hsame l hl j mem hmem

theorem swapin_closed {early late : List Nat} {r : Swapin}
    (hs : swapinGenerate cfg io early late c = some r) (l : Nat) : r.core.kv.layerFds l = none := by
  unfold swapinGenerate at hs
  dsimp only at hs
  rw [Option.map_eq_some_iff] at hs
  obtain ⟨e, _, rfl⟩ := hs
  rfl

/-! ## Swapout -/

theorem mzcacheCompressChunks_fds (cfg : Config) (n : Nat) :
    ∀ s : KvState, (mzcacheCompressChunks cfg n s).1.layerFds = s.layerFds := by
  induction n with
  | zero => intro s; rfl
  | succ n ih =>
      intro s
      rw [mzcacheCompressChunks]
      dsimp only
      split
      · rfl
      · rw [ih]
        rfl

/-- Outside phase 1 no file is open. -/
def FilesClosed (m : Swapout) : Prop := m.pc = .phase1 ∨ ∀ l, m.core.kv.layerFds l = none

theorem FilesClosed.enterPhase3 {m : Swapout} (h : ∀ l, m.core.kv.layerFds l = none) :
    FilesClosed (enterPhase3 cfg m) := by
  unfold MzCache.enterPhase3
  dsimp only
  split <;> exact Or.inr h

theorem FilesClosed.phase1Step (target : ℚ) (m : Swapout) (hpc : m.pc = .phase1) :
    FilesClosed (phase1Step cfg io target m) := by
  unfold MzCache.phase1Step
  split
  · dsimp only
    split
    · exact Or.inr fun _ => rfl
    · split
      · exact Or.inr fun _ => rfl
      · exact Or.inl hpc
  · exact Or.inr fun _ => rfl

theorem FilesClosed.phase2Step (target : ℚ) (i : Nat) {m : Swapout}
    (h : ∀ l, m.core.kv.layerFds l = none) : FilesClosed (phase2Step cfg io target i m) := by
  have hcomp : ∀ l, (phase2Compress cfg m).kv.layerFds l = none := by
    intro l
    unfold phase2Compress
    dsimp only
    split
    · rw [mzcacheCompressChunks_fds]
      exact h l
    · exact h l
  have hun : ∀ l, (mzcacheUnloadLayers io 1 (phase2Compress cfg m)).1.kv.layerFds l = none := by
    obtain ⟨tick, ht⟩ := unloadLayers_kv io 1 (phase2Compress cfg m)
    rw [ht]
    exact hcomp
  unfold MzCache.phase2Step
  dsimp only
  split
  · split
    · exact Or.inr hun
    · split
      · exact FilesClosed.enterPhase3 hun
      · exact Or.inr hun
  · exact FilesClosed.enterPhase3 hun

theorem FilesClosed.phase3Step (target : ℚ) {m : Swapout}
    (h : ∀ l, m.core.kv.layerFds l = none) : FilesClosed (phase3Step cfg io target m) := by
  obtain ⟨_, _, hfds⟩ := mzcacheOffloadArenas_same io m.core.kv
  have hoff : ∀ l, (mzcacheOffloadArenas io m.core.kv).1.layerFds l = none := by
    rw [hfds]
    exact h
  unfold MzCache.phase3Step
  split
  · dsimp only
    split
    · exact Or.inr hoff
    · exact Or.inr hoff
  · exact Or.inr h

theorem FilesClosed.step (target : ℚ) {m : Swapout} (h : FilesClosed m) :
    FilesClosed (m.step cfg io target) := by
  unfold Swapout.step
  split
  · exact FilesClosed.phase1Step target m ‹_›
  · rename_i hpc
    rcases h with h | h
    · rw [hpc] at h
      cases h
    · exact FilesClosed.enterPhase3 h
  · rename_i i hpc
    rcases h with h | h
    · rw [hpc] at h
      cases h
    · exact FilesClosed.phase2Step target i h
  · rename_i hpc
    rcases h with h | h
    · rw [hpc] at h
      cases h
    · exact FilesClosed.phase3Step target h
  · exact h

/-- `swapout` leaves no file open. -/
theorem swapout_closed {target ratio : ℚ} (hclosed : ∀ l, c.kv.layerFds l = none)
    (hs : SwapoutReturns cfg io target c ratio c') (l : Nat) : c'.kv.layerFds l = none := by
  obtain ⟨k, hpc, rfl⟩ := hs
  have hrun : ∀ k, FilesClosed ((swapoutStart cfg target c).run cfg io target k) := by
    intro k
    induction k with
    | zero =>
        refine Or.inr fun l => ?_
        show ((({ c with kv := applyPendingGrowth cfg c.kv } : Core).followKv cfg)).kv.layerFds l =
          none
        rw [followKv_kv, (applyPendingGrowth_enrolled cfg c.kv).fds]
        exact hclosed l
    | succ k ih =>
        rw [Swapout.run_succ]
        exact ih.step target
  rcases hrun k with h | h
  · rw [hpc] at h
    cases h
  · exact h l

theorem Kept.evictRun (hf : cfg.Fits) (hio : io.Transfers) (h : Kept cfg c g)
    (hr : EvictRun cfg io c c') : Kept cfg c' g :=
  run_preserves (P := fun c => Kept cfg c g) (fun _ _ hc hs => hc.evictStep hf hio hs) h hr

/-! ## Growth and writes -/

theorem Kept.grow (h : Kept cfg c g) (need : Nat) :
    Kept cfg (MzCache.mzGrowChunks cfg need c) (contentsAfter c (MzCache.mzGrowChunks cfg need c) g) := by
  have hgrew := grew_mzGrowChunks cfg need c
  rcases mzGrowChunks_eq cfg need c with heq | ⟨hlt, heq⟩
  · rw [heq]
    have hg : contentsAfter c c g = g := by
      funext l j
      unfold contentsAfter
      cases c.kv.svm l j <;> rfl
    rw [hg]
    exact h
  · have hsvm : (MzCache.mzGrowChunks cfg need c).kv.svm = (MzCache.grownMemory cfg need c).kv.svm := by
      rw [heq]
      show (onKvChunksGrown cfg need (MzCache.grownMemory cfg need c)).kv.svm = _
      unfold onKvChunksGrown
      rw [followKv_kv]
      exact (registerGrownChunks_enrolled cfg need _).svm
    rw [heq] at hgrew hsvm ⊢
    refine (h.grownMemory hlt ?_ ?_).grown need
    · intro l j hj
      cases hcs : c.kv.svm l j with
      | some mem => exact contentsAfter_of_some (by rw [hcs]; rfl)
      | none => exact contentsAfter_of_none ((hgrew.svm l j hj).trans hcs)
    · intro l hl j mem hj hmem
      rw [contentsAfter_new (h.absent l hl j hj) (by rw [hsvm]; exact hmem)]
      · exact ChunkMem.Same.refl cfg mem
      · have := h.alloc
        omega

theorem Kept.write (h : Kept cfg c g) {l j : Nat} {mem : ChunkMem} (hmem : (c.kv.svm l j).isSome) :
    Kept cfg { c with kv := { c.kv with svm := Table.set c.kv.svm l j (some mem) } }
      (Table.set g l j mem) := by
  refine ⟨h.ok.moved (h.ok.ladder.stay rfl), h.layout.of_layout rfl rfl, h.out, h.alloc, ?_, ?_⟩
  · intro a ha b hb
    show Table.set c.kv.svm l j (some mem) a b = none
    by_cases hab : a = l ∧ b = j
    · obtain ⟨rfl, rfl⟩ := hab
      rw [h.absent a ha b hb] at hmem
      cases hmem
    · rw [Table.set_ne _ _ hab]
      exact h.absent a ha b hb
  · intro a ha b
    by_cases hab : a = l ∧ b = j
    · obtain ⟨rfl, rfl⟩ := hab
      have hheld := h.held a ha b
      unfold Held at hheld ⊢
      dsimp only
      simp only [Table.set_same]
      split at hheld
      · rename_i hj
        rw [if_pos hj]
        cases hst : c.kv.states a b with
        | raw => exact ⟨mem, rfl, ChunkMem.Same.refl cfg mem⟩
        | compressed =>
            rw [hst] at hheld
            rw [hheld.1] at hmem
            cases hmem
        | stored =>
            rw [hst] at hheld
            rw [hheld.1] at hmem
            cases hmem
      · rename_i hj
        rw [if_neg hj]
        intro m hm
        rw [Option.some.injEq] at hm
        exact hm ▸ ChunkMem.Same.refl cfg mem
    · rw [Table.set_ne _ _ hab]
      have hsc : SameChunk c.kv { c.kv with svm := Table.set c.kv.svm l j (some mem) } a b :=
        ⟨rfl, rfl, rfl, Table.set_ne _ _ hab, rfl, rfl, rfl, rfl⟩
      exact (h.held a ha b).frame h.ok.ladder h.layout ha hsc (PoolsLe.refl _)
        fun hin _ _ => hin.frame hsc rfl

/-! ## Runs -/

/-- The engine between two calls. -/
structure KeptIdle (cfg : Config) (p : Core × Contents) : Prop where
  kept : Kept cfg p.1 p.2
  phase : PhaseOk cfg p.1.kv
  closed : ∀ l, p.1.kv.layerFds l = none

theorem KeptIdle.step (hf : cfg.Fits) (hre : io.Reloads) (hio : io.Transfers)
    {p q : Core × Contents} (h : KeptIdle cfg p) (hs : ContentStep cfg io p q) :
    KeptIdle cfg q := by
  obtain ⟨hkept, hphase, hclosed⟩ := h
  have hphase' := (engineStep_ok ⟨hkept.ok, hphase⟩ hs.engineStep).2
  cases hs with
  | swapout c c' g target ratio hs =>
      obtain ⟨_, _, hrun⟩ := hkept.ok.swapout hphase hs
      exact ⟨hkept.evictRun hf hio hrun, hphase', swapout_closed hclosed hs⟩
  | swapin c g early late r hs =>
      exact ⟨hkept.swapin hre hio hclosed hs, hphase', swapin_closed hs⟩
  | grow c g need =>
      refine ⟨hkept.grow need, hphase', ?_⟩
      rw [(grew_mzGrowChunks cfg need c).fds]
      exact hclosed
  | grown c g n =>
      refine ⟨hkept.grown n, hphase', ?_⟩
      rw [(grew_onKvChunksGrown cfg n c).fds]
      exact hclosed
  | write c g l j mem hmem => exact ⟨hkept.write hmem, hphase', hclosed⟩

end

end MzCache
