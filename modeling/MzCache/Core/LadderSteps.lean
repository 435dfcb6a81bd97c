import MzCache.Core.Swapin
import MzCache.Kv.LadderRestore

/-!
# The ladder through every operation

What the operations of `mzcache_core` and `mzcache_kv_state` do to the ladder, one
lemma each, and the step relation they make up. Growth re-derives the plan only
when the ladder is clean, so in every case the chunks the cursors stand for stay
what they were.
-/

namespace MzCache

open MzCache.Lib

section

variable {cfg : Config} {s s' : KvState}

/-! ## Growth -/

/-- `s'` is a ladder, over a possibly larger plan, with the same chunks evicted. -/
structure Regrown (cfg : Config) (s s' : KvState) : Prop where
  ladder : Ladder cfg s'
  comp : s'.compBeyond cfg = s.compBeyond cfg
  store : s'.storeBeyond cfg = s.storeBeyond cfg
  plan : s'.numChunksPerTensor = s.numChunksPerTensor ∨
    (s.compBeyond cfg = [] ∧ s.storeBeyond cfg = [])

theorem Regrown.trans {s'' : KvState} (h1 : Regrown cfg s s') (h2 : Regrown cfg s' s'') :
    Regrown cfg s s'' := by
  refine ⟨h2.ladder, h2.comp.trans h1.comp, h2.store.trans h1.store, ?_⟩
  have hplan := h2.plan
  rw [h1.comp, h1.store] at hplan
  rcases hplan with h | h
  · exact h1.plan.imp_left h.trans
  · exact Or.inr h

theorem Ladder.unseen (h : Ladder cfg s) (hv : s'.view = s.view) : Regrown cfg s s' := by
  have hstay := h.stay hv
  exact ⟨hstay.ladder, hstay.comp, hstay.store, Or.inl hstay.chunks⟩

/-- States outside the plan do not matter. -/
theorem Ladder.of_states (h : Ladder cfg s) {states : Nat → Nat → KVstate}
    (hst : ∀ i c, c < s.numChunksPerTensor → states i c = s.states i c)
    (hv : s'.view = { s.view with states := states }) : Regrown cfg s s' := by
  have hlad : Ladder cfg { s with states := states } :=
    { h with states := fun i c hi hc => (hst i c hc).trans (h.states i c hi hc) }
  have hkeep := hlad.unseen hv
  exact ⟨hkeep.ladder, hkeep.comp, hkeep.store, hkeep.plan⟩

/-- A freshly derived plan is a ladder with nothing evicted. -/
theorem Ladder.derive (hpos : 0 < s.numChunksPerTensor)
    (hle : s.numChunksPerTensor ≤ cfg.f32.limit)
    (hnc : s.nCurCompChunks = 0) (hns : s.nCurStoreChunks = 0)
    (hraw : ∀ i c, i < cfg.numLayers → c < s.numChunksPerTensor → s.states i c = .raw) :
    Ladder cfg (deriveSwapoutPlan cfg s) ∧
      (deriveSwapoutPlan cfg s).compBeyond cfg = [] ∧
      (deriveSwapoutPlan cfg s).storeBeyond cfg = [] := by
  have hL := cfg.numLayers_pos
  have hshape := chunkBounds_shape cfg hle
  have hrow : ((cfg.numLayers : Int) - 1).toNat = cfg.numLayers - 1 := by omega
  have hc : (deriveSwapoutPlan cfg s).compBeyond cfg = [] := by
    unfold KvState.compBeyond beyond
    rw [List.filter_eq_nil_iff]
    intro c hc hb
    obtain ⟨h1, _, h3⟩ := mem_cells.mp hc
    simp only [deriveSwapoutPlan] at h3
    rcases of_decide_eq_true hb with hlt | ⟨heq, hlt⟩
    · simp only [deriveSwapoutPlan] at hlt
      omega
    · simp only [deriveSwapoutPlan] at heq hlt
      rw [show c.1 = cfg.numLayers - 1 by omega] at h3
      omega
  have hs : (deriveSwapoutPlan cfg s).storeBeyond cfg = [] := by
    unfold KvState.storeBeyond beyond
    rw [List.filter_eq_nil_iff]
    intro c hc hb
    obtain ⟨h1, _, h3⟩ := mem_cells.mp hc
    simp only [deriveSwapoutPlan] at h3
    rcases of_decide_eq_true hb with hlt | ⟨heq, hlt⟩
    · simp only [deriveSwapoutPlan] at hlt
      omega
    · simp only [deriveSwapoutPlan] at heq hlt
      omega
  refine ⟨?_, hc, hs⟩
  exact
    { chunks_pos := hpos
      chunks_le := hle
      bound := rfl
      maxComp := rfl
      maxStore := rfl
      compWf := by
        refine ⟨by simp only [deriveSwapoutPlan]; omega, by simp only [deriveSwapoutPlan]; omega, ?_⟩
        intro i hi
        simp only [deriveSwapoutPlan] at hi ⊢
        rw [show i = cfg.numLayers - 1 by omega]
        omega
      storeWf := by
        refine ⟨by simp only [deriveSwapoutPlan]; omega, by simp only [deriveSwapoutPlan]; omega, ?_⟩
        intro i hi
        simp only [deriveSwapoutPlan] at hi ⊢
        have := hshape.le i
        omega
      storeRow := Or.inr (by simp only [deriveSwapoutPlan]; omega)
      states := by
        intro i c hi hlt
        rw [hc, hs]
        exact hraw i c hi hlt
      nComp := by rw [hc]; exact hnc
      nStore := by rw [hs]; exact hns }

/-- What holds of the accumulator of `registerChunks` once `done` is registered. -/
structure Registered (s : KvState) (old : Nat) (done : List Cell) (acc : KvState × Bool) :
    Prop where
  only : ∃ states, acc.1 = { s with states := states }
  mono : ∀ i c, acc.1.states i c = s.states i c ∨ acc.1.states i c = .raw
  keep : ∀ i c, c < old → acc.1.states i c = s.states i c
  raw : acc.2 → ∀ e ∈ done, acc.1.states e.1 e.2 = .raw
  resident : acc.2 → ∀ e ∈ done, (s.svm e.1 e.2).isSome

theorem registerStep_registered {old : Nat} {done : List Cell} {acc : KvState × Bool} {e : Cell}
    (hold : old ≤ e.2) (h : Registered s old done acc) :
    Registered s old (done ++ [e]) (registerStep acc e) := by
  obtain ⟨⟨states, hst⟩, hmono, hkeep, hraw, hres⟩ := h
  unfold registerStep
  split
  · rename_i hok
    refine ⟨⟨_, by rw [hst]⟩, ?_, ?_, ?_, ?_⟩
    · intro i c
      dsimp only
      rw [Table.set_apply]
      split
      · exact Or.inr rfl
      · exact hmono i c
    · intro i c hc
      dsimp only
      rw [Table.set_ne _ _ (by omega), hkeep i c hc]
    · intro _ x hx
      dsimp only
      by_cases hxe : x.1 = e.1 ∧ x.2 = e.2
      · rw [hxe.1, hxe.2, Table.set_same]
      · rw [Table.set_ne _ _ hxe]
        rcases List.mem_append.mp hx with hx | hx
        · exact hraw hok.1 x hx
        · rw [List.mem_singleton] at hx
          exact absurd ⟨congrArg Prod.fst hx, congrArg Prod.snd hx⟩ hxe
    · intro _ x hx
      rcases List.mem_append.mp hx with hx | hx
      · exact hres hok.1 x hx
      · rw [List.mem_singleton.mp hx]
        have hsome := hok.2
        rwa [hst] at hsome
  · exact ⟨⟨states, hst⟩, hmono, hkeep, fun hf => absurd hf (by simp),
      fun hf => absurd hf (by simp)⟩

theorem registerChunks_registered (cfg : Config) (old n : Nat) (s : KvState) :
    Registered s old (cells (fun _ => old) (fun _ => n) cfg.numLayers)
      (registerChunks cfg old n s) := by
  have hfold : ∀ (l done : List Cell) (acc : KvState × Bool), (∀ e ∈ l, old ≤ e.2) →
      Registered s old done acc → Registered s old (done ++ l) (l.foldl registerStep acc) := by
    intro l
    induction l with
    | nil => intro done acc _ h; simpa using h
    | cons e l ih =>
        intro done acc hold h
        rw [List.foldl_cons, show done ++ e :: l = (done ++ [e]) ++ l by simp]
        exact ih _ _ (fun x hx => hold x (List.mem_cons_of_mem _ hx))
          (registerStep_registered (hold e List.mem_cons_self) h)
  exact hfold _ [] (s, true) (fun e he => (mem_cells.mp he).2.1)
    ⟨⟨s.states, rfl⟩, fun _ _ => Or.inl rfl, fun _ _ _ => rfl, fun _ e he => absurd he (by simp),
      fun _ e he => absurd he (by simp)⟩

theorem Ladder.raw_of_clean (h : Ladder cfg s) (hnc : s.nCurCompChunks = 0)
    (hns : s.nCurStoreChunks = 0) :
    s.compBeyond cfg = [] ∧ s.storeBeyond cfg = [] ∧
      ∀ i c, i < cfg.numLayers → c < s.numChunksPerTensor → s.states i c = .raw := by
  have hc : s.compBeyond cfg = [] := List.length_eq_zero_iff.mp (by have := h.nComp; omega)
  have hs : s.storeBeyond cfg = [] := List.length_eq_zero_iff.mp (by have := h.nStore; omega)
  refine ⟨hc, hs, ?_⟩
  intro i c hi hlt
  rw [h.states i c hi hlt, hc, hs]
  simp [stateOf]

theorem Ladder.registerGrownChunks (h : Ladder cfg s) (n : Nat) :
    Regrown cfg s (registerGrownChunks cfg n s) := by
  unfold MzCache.registerGrownChunks
  split
  · exact h.unseen rfl
  · split
    · exact h.unseen rfl
    · rename_i hgt hmax
      split
      · rename_i hclean
        simp only [KvState.cleanLadder, Bool.decide_and, Bool.and_eq_true,
          decide_eq_true_eq] at hclean
        obtain ⟨hnc, hns, _⟩ := hclean
        obtain ⟨hcb, hsb, hraw⟩ := h.raw_of_clean hnc hns
        obtain ⟨⟨states, hst⟩, _, hkeep, hnew, _⟩ :=
          registerChunks_registered cfg s.numChunksPerTensor n s
        dsimp only
        split
        · rename_i hok
          rw [hst] at hkeep hnew ⊢
          -- every chunk of the larger plan is raw: the old ones were, the new ones are now
          have hall : ∀ i c, i < cfg.numLayers → c < n → states i c = .raw := by
            intro i c hi hlt
            by_cases hc : c < s.numChunksPerTensor
            · exact (hkeep i c hc).trans (hraw i c hi hc)
            · exact hnew hok (i, c) (mem_cells.mpr ⟨hi, not_lt.mp hc, hlt⟩)
          have hpos := h.chunks_pos
          obtain ⟨hlad, hc', hs'⟩ := Ladder.derive
            (s := { s with states := states, numChunksPerTensor := n })
            (by simp only; omega) (le_trans (not_lt.mp hmax) cfg.limit_ge) hnc hns hall
          exact ⟨hlad, hc'.trans hcb.symm, hs'.trans hsb.symm, Or.inr ⟨hcb, hsb⟩⟩
        · rw [hst] at hkeep ⊢
          exact h.of_states hkeep rfl
      · exact h.unseen rfl

theorem Ladder.applyPendingGrowth (h : Ladder cfg s) :
    Regrown cfg s (applyPendingGrowth cfg s) := by
  unfold MzCache.applyPendingGrowth
  split
  · have h0 : Ladder cfg { s with pendingChunksTotal := 0 } := h.of_view rfl
    have hg := h0.registerGrownChunks s.pendingChunksTotal
    exact ⟨hg.ladder, hg.comp, hg.store, hg.plan⟩
  · exact h.unseen rfl

end

/-! ## The core -/

/-- The core's own bookkeeping agrees with the ladder. -/
structure CoreOk (cfg : Config) (c : Core) : Prop where
  ladder : Ladder cfg c.kv
  follow : c.numChunksPerTensor = c.kv.numChunksPerTensor
  unloadLow : -1 ≤ c.curLayerIdxToUnload
  unloaded : c.nCurUnloadLayers = (cfg.numLayers : Int) - 1 - c.curLayerIdxToUnload
  weights : ∀ l, l < cfg.numLayers → (c.weightLoaded l ↔ (l : Int) ≤ c.curLayerIdxToUnload)

section

variable {cfg : Config} {c : Core}

/-- The engine may replace its `kv_state` by any ladder over the same plan. -/
theorem CoreOk.withKv (h : CoreOk cfg c) {kv : KvState} (hlad : Ladder cfg kv)
    (hn : kv.numChunksPerTensor = c.kv.numChunksPerTensor) : CoreOk cfg { c with kv := kv } :=
  ⟨hlad, h.follow.trans hn.symm, h.unloadLow, h.unloaded, h.weights⟩

theorem followKv_of_eq (h : c.numChunksPerTensor = c.kv.numChunksPerTensor) :
    c.followKv cfg = c := by
  unfold Core.followKv
  rw [if_neg (not_not.mpr h.symm)]

/-- Growth leaves the evicted chunks and the weights alone. -/
structure CoreGrown (cfg : Config) (c c' : Core) : Prop where
  kv : Regrown cfg c.kv c'.kv
  follow : c'.numChunksPerTensor = c'.kv.numChunksPerTensor
  cur : c'.curLayerIdxToUnload = c.curLayerIdxToUnload
  unloaded : c'.nCurUnloadLayers = c.nCurUnloadLayers
  weights : c'.weightLoaded = c.weightLoaded

theorem CoreGrown.ok {c' : Core} (h : CoreOk cfg c) (hg : CoreGrown cfg c c') : CoreOk cfg c' :=
  ⟨hg.kv.ladder, hg.follow, hg.cur ▸ h.unloadLow, by rw [hg.unloaded, hg.cur]; exact h.unloaded,
    by rw [hg.weights, hg.cur]; exact h.weights⟩

theorem CoreGrown.refl (h : Ladder cfg c.kv)
    (hf : c.numChunksPerTensor = c.kv.numChunksPerTensor) : CoreGrown cfg c c :=
  ⟨h.unseen rfl, hf, rfl, rfl, rfl⟩

theorem CoreGrown.trans {c' c'' : Core} (h1 : CoreGrown cfg c c') (h2 : CoreGrown cfg c' c'') :
    CoreGrown cfg c c'' :=
  ⟨h1.kv.trans h2.kv, h2.follow, h2.cur.trans h1.cur, h2.unloaded.trans h1.unloaded,
    h2.weights.trans h1.weights⟩

/-- The core follows a regrown `kv_state`. -/
theorem Regrown.followKv {kv : KvState} (h : Regrown cfg c.kv kv) :
    CoreGrown cfg c (({ c with kv := kv } : Core).followKv cfg) := by
  unfold Core.followKv
  split
  · exact ⟨h, rfl, rfl, rfl, rfl⟩
  · rename_i heq
    exact ⟨h, (not_not.mp heq).symm, rfl, rfl, rfl⟩

theorem Ladder.onKvChunksGrown (h : Ladder cfg c.kv) (n : Nat) :
    CoreGrown cfg c (onKvChunksGrown cfg n c) :=
  (h.registerGrownChunks n).followKv

theorem Ladder.mzGrowChunks (h : Ladder cfg c.kv)
    (hf : c.numChunksPerTensor = c.kv.numChunksPerTensor) (need : Nat) :
    CoreGrown cfg c (mzGrowChunks cfg need c) := by
  unfold MzCache.mzGrowChunks
  split
  · exact CoreGrown.refl h hf
  · split
    · exact CoreGrown.refl h hf
    · have hkv := @Ladder.unseen _ _
        { c.kv with svm := growLayerChunks cfg c.nChunksAlloc need c.kv.svm } h rfl
      obtain ⟨hg, hfol, hcur, hun, hw⟩ := Ladder.onKvChunksGrown (c := { c with
        nChunksAlloc := need
        kv := { c.kv with svm := growLayerChunks cfg c.nChunksAlloc need c.kv.svm } })
        hkv.ladder need
      exact ⟨hkv.trans hg, hfol, hcur, hun, hw⟩

theorem Ladder.growAll (needs : List Nat) :
    ∀ {c : Core}, Ladder cfg c.kv → c.numChunksPerTensor = c.kv.numChunksPerTensor →
      CoreGrown cfg c (growAll cfg needs c) := by
  induction needs with
  | nil => intro c h hf; exact CoreGrown.refl h hf
  | cons n needs ih =>
      intro c h hf
      have h1 := h.mzGrowChunks hf n
      exact h1.trans (ih h1.kv.ladder h1.follow)

theorem Ladder.foldGrowth (h : Ladder cfg c.kv) :
    CoreGrown cfg c (({ c with kv := MzCache.applyPendingGrowth cfg c.kv } : Core).followKv cfg) :=
  h.applyPendingGrowth.followKv

/-- `mzcache_unload_layers` with layers left to unload. -/
theorem CoreOk.unloadLayers (io : Io) :
    ∀ (n : Nat) {c : Core}, CoreOk cfg c → (n : Int) ≤ c.curLayerIdxToUnload + 1 →
      CoreOk cfg (mzcacheUnloadLayers io n c).1 ∧
        (mzcacheUnloadLayers io n c).1.kv.view = c.kv.view ∧
        ((mzcacheUnloadLayers io n c).2 → (mzcacheUnloadLayers io n c).1.nCurUnloadLayers =
          c.nCurUnloadLayers + n) := by
  intro n
  induction n with
  | zero => intro c h _; exact ⟨h, rfl, fun _ => by simp [mzcacheUnloadLayers]⟩
  | succ n ih =>
      intro c h hn
      have htick : ∀ k, CoreOk cfg { c with kv := { c.kv with tick := k } } := fun k =>
        h.withKv (h.ladder.of_view rfl) rfl
      unfold mzcacheUnloadLayers
      dsimp only
      split
      · split
        · have hnext : CoreOk cfg { c with
              kv := { c.kv with tick := c.kv.tick + 1 + 1 }
              weightLoaded := Function.update c.weightLoaded c.curLayerIdxToUnload.toNat false
              curLayerIdxToUnload := c.curLayerIdxToUnload - 1
              nCurUnloadLayers := c.nCurUnloadLayers + 1 } := by
            refine ⟨(htick _).ladder, h.follow, by simp only; omega, ?_, ?_⟩
            · simp only
              rw [h.unloaded]
              ring
            · intro l hl
              simp only
              by_cases hlc : l = c.curLayerIdxToUnload.toNat
              · subst hlc
                simp only [Function.update_self]
                constructor
                · intro hf
                  exact absurd hf (by simp)
                · intro hle
                  omega
              · rw [Function.update_of_ne hlc, h.weights l hl]
                omega
          obtain ⟨h1, h2, h3⟩ := ih hnext (by simp only; push_cast at hn; omega)
          refine ⟨h1, h2, ?_⟩
          intro hok
          rw [h3 hok]
          push_cast
          ring
        · exact ⟨htick _, rfl, fun hf => absurd hf (by simp)⟩
      · exact ⟨htick _, rfl, fun hf => absurd hf (by simp)⟩

/-! ## Swapin -/

theorem compressInit_eq (s : KvState) :
    compressInit s = rowBeyond (fun _ => 0) s.chunkBound s.curToCompress := by
  funext i
  unfold compressInit rowBeyond
  simp

theorem storeInit_eq (s : KvState) :
    storeInit s = rowBeyond s.chunkBound (fun _ => s.numChunksPerTensor) s.curToStore := by
  funext i
  rfl

/-- The sums of `initialize_layer_sync` count the chunks the cursors stand for. -/
theorem Ladder.layerSum_init {s : KvState} (h : Ladder cfg s) :
    layerSum cfg (compressInit s) = (s.compBeyond cfg).length ∧
      layerSum cfg (storeInit s) = (s.storeBeyond cfg).length := by
  refine ⟨?_, ?_⟩
  · rw [compressInit_eq]
    exact (length_beyond (fun _ => Nat.zero_le _) h.compWf.onRow).symm
  · rw [storeInit_eq]
    exact (length_beyond h.shape.le h.storeWf.onRow).symm

/-- A swapin cycle on a ladder: what was enqueued, and the state it leaves. -/
structure SwapinOk (cfg : Config) (c : Core) (r : Swapin) : Prop where
  decomp : r.tasks.decomp = c.kv.compBeyond cfg
  read : r.tasks.read = c.kv.storeBeyond cfg
  decompOverrun : r.tasks.decompOverrun = false
  readOverrun : r.tasks.readOverrun = false
  ok : CoreOk cfg r.core
  noComp : r.core.kv.compBeyond cfg = []
  noStore : r.core.kv.storeBeyond cfg = []

/-- Growth while something is evicted is parked. -/
theorem registerGrownChunks_parked (cfg : Config) {s : KvState} (n : Nat)
    (hev : s.nCurCompChunks ≠ 0 ∨ s.nCurStoreChunks ≠ 0) :
    (registerGrownChunks cfg n s).view = s.view := by
  unfold registerGrownChunks
  split
  · rfl
  · split
    · rfl
    · have hdirty : ¬ (s.cleanLadder = true) := by
        simp only [KvState.cleanLadder, Bool.decide_and, Bool.and_eq_true, decide_eq_true_eq]
        omega
      rw [if_neg hdirty]
      rfl

theorem growAll_parked (cfg : Config) (needs : List Nat) :
    ∀ (c : Core), c.numChunksPerTensor = c.kv.numChunksPerTensor →
      (c.kv.nCurCompChunks ≠ 0 ∨ c.kv.nCurStoreChunks ≠ 0) →
      ∃ kv alloc, growAll cfg needs c = { c with kv := kv, nChunksAlloc := alloc } ∧
        kv.view = c.kv.view := by
  induction needs with
  | nil => intro c _ _; exact ⟨c.kv, c.nChunksAlloc, rfl, rfl⟩
  | cons n needs ih =>
      intro c hfollow hev
      have hone : ∃ kv alloc, mzGrowChunks cfg n c = { c with kv := kv, nChunksAlloc := alloc } ∧
          kv.view = c.kv.view := by
        unfold mzGrowChunks
        split
        · exact ⟨c.kv, c.nChunksAlloc, rfl, rfl⟩
        · split
          · exact ⟨c.kv, c.nChunksAlloc, rfl, rfl⟩
          · have hview := registerGrownChunks_parked cfg n
              (s := { c.kv with svm := growLayerChunks cfg c.nChunksAlloc n c.kv.svm }) hev
            refine ⟨_, n, ?_, hview⟩
            unfold onKvChunksGrown
            exact followKv_of_eq
              (hfollow.trans (congrArg LadderView.numChunksPerTensor hview).symm)
      obtain ⟨kv, alloc, heq, hview⟩ := hone
      have hN : kv.numChunksPerTensor = c.kv.numChunksPerTensor :=
        congrArg LadderView.numChunksPerTensor hview
      have hc : kv.nCurCompChunks = c.kv.nCurCompChunks :=
        congrArg LadderView.nCurCompChunks hview
      have hs : kv.nCurStoreChunks = c.kv.nCurStoreChunks :=
        congrArg LadderView.nCurStoreChunks hview
      obtain ⟨kv', alloc', heq', hview'⟩ := ih { c with kv := kv, nChunksAlloc := alloc }
        (hfollow.trans hN.symm) (by rw [hc, hs]; exact hev)
      refine ⟨kv', alloc', ?_, hview'.trans hview⟩
      unfold growAll at heq' ⊢
      rw [List.foldl_cons, heq]
      exact heq'

theorem CoreOk.finish {kv : KvState} {c' : Core} (h : CoreOk cfg c) (hlad : Ladder cfg kv)
    (hn : c'.numChunksPerTensor = kv.numChunksPerTensor)
    (hw : c'.weightLoaded = (mzcacheReloadWLayers cfg c).weightLoaded) :
    CoreOk cfg { c' with
      kv := kv
      curLayerIdxToUnload := (cfg.numLayers : Int) - 1
      nCurUnloadLayers := 0 } := by
  have hL := cfg.numLayers_pos
  refine ⟨hlad, hn, by simp only; omega, by simp only; ring, ?_⟩
  intro l hl
  simp only [hw, mzcacheReloadWLayers]
  by_cases hlt : c.curLayerIdxToUnload < l
  · rw [if_pos ⟨hlt, hl⟩]
    simp only [true_iff]
    omega
  · rw [if_neg (fun hand => hlt hand.1), h.weights l hl]
    constructor <;> intro <;> omega

/-- Settling a restore of nothing. -/
theorem clean_zero_view {s : KvState} (hc : 0 ≤ s.nCurCompChunks) (hs : 0 ≤ s.nCurStoreChunks) :
    (cleanAfterRead 0 (cleanAfterDecompress 0 s)).view = s.view := by
  have hv := cleanAfterDecompress_view (s := s) 0 hc
  have hns : (cleanAfterDecompress 0 s).nCurStoreChunks = s.nCurStoreChunks :=
    congrArg LadderView.nCurStoreChunks hv
  rw [cleanAfterRead_view 0 (by rw [hns]; exact hs), hv, hns]
  simp [KvState.view]

/-- The restore of everything evicted, run while the decode thread may grow the
cache, and settled: nothing is evicted any more. -/
theorem CoreOk.settle (h : CoreOk cfg c) (io : Io) {e : Enqueued} (late : List Nat)
    (he : EnqueuedOk cfg c.kv (c.kv.compBeyond cfg).length (c.kv.storeBeyond cfg).length e) :
    let c' := growAll cfg late (swapinRestore cfg io e c)
    let c'' := finishSwapinCycle cfg (c.kv.compBeyond cfg).length (c.kv.storeBeyond cfg).length c'
    CoreOk cfg c'' ∧ c''.kv.compBeyond cfg = [] ∧ c''.kv.storeBeyond cfg = [] := by
  intro c' c''
  set kv4 := runDecomps cfg e.decomp (runReads cfg io e.read e.state) with hkv4
  obtain ⟨_, _, _, _, comp, store, fds, tick, hstate, -⟩ := id he
  have hview4 : kv4.view = { e.state.view with
      states := clearStates e.decomp (runReads cfg io e.read e.state).states } := by
    rw [hkv4, runDecomps_view, runReads_view]
  have hn4 : kv4.numChunksPerTensor = c.kv.numChunksPerTensor := by
    have := congrArg LadderView.numChunksPerTensor hview4
    rw [hstate] at this
    exact this
  have hc4 : kv4.nCurCompChunks = c.kv.nCurCompChunks := by
    have := congrArg LadderView.nCurCompChunks hview4
    rw [hstate] at this
    exact this
  have hs4 : kv4.nCurStoreChunks = c.kv.nCurStoreChunks := by
    have := congrArg LadderView.nCurStoreChunks hview4
    rw [hstate] at this
    exact this
  have hnc := h.ladder.nComp
  have hns := h.ladder.nStore
  by_cases hev : c.kv.nCurCompChunks ≠ 0 ∨ c.kv.nCurStoreChunks ≠ 0
  · -- something is evicted: growth is parked until the counters are settled
    obtain ⟨kv, alloc, heq, hview⟩ := growAll_parked cfg late
      (swapinRestore cfg io e c) (h.follow.trans hn4.symm)
      (by rw [← hc4, ← hs4] at hev; exact hev)
    have hm := h.ladder.restore io le_rfl le_rfl he hview
    rw [List.drop_length, List.drop_length] at hm
    have hc'' : c'' = finishSwapinCycle cfg (c.kv.compBeyond cfg).length
        (c.kv.storeBeyond cfg).length { swapinRestore cfg io e c with
          kv := kv, nChunksAlloc := alloc } := by
      show finishSwapinCycle cfg _ _ (growAll cfg late _) = _
      rw [heq]
    rw [hc'']
    refine ⟨?_, hm.comp, hm.store⟩
    exact h.finish hm.ladder (h.follow.trans hm.chunks.symm) rfl
  · -- nothing is evicted: nothing was enqueued, and growth may re-derive the plan
    have hlc : (c.kv.compBeyond cfg).length = 0 := by omega
    have hls : (c.kv.storeBeyond cfg).length = 0 := by omega
    have hm := @Ladder.restore _ _ kv4 h.ladder io _ _ le_rfl le_rfl _ he rfl
    rw [hlc, hls] at hm
    have hview0 := clean_zero_view (s := kv4) (by omega) (by omega)
    have hlad4 : Ladder cfg kv4 := hm.ladder.of_view hview0.symm
    have hcb : kv4.compBeyond cfg = [] := by
      rw [← KvState.compBeyond_of_view hview0, hm.comp]
      simp [List.length_eq_zero_iff.mp hlc]
    have hsb : kv4.storeBeyond cfg = [] := by
      rw [← KvState.storeBeyond_of_view hview0, hm.store]
      simp [List.length_eq_zero_iff.mp hls]
    have hg : CoreGrown cfg _ c' := Ladder.growAll late
      (c := swapinRestore cfg io e c) hlad4 (h.follow.trans hn4.symm)
    have hlad' : Ladder cfg c'.kv := hg.kv.ladder
    have hview' := clean_zero_view hlad'.nComp_nonneg hlad'.nStore_nonneg
    have hfin := hlad'.unseen hview'
    have hc'' : c'' = finishSwapinCycle cfg 0 0 c' := by
      show finishSwapinCycle cfg _ _ c' = _
      rw [hlc, hls]
    rw [hc'']
    refine ⟨?_, hfin.comp.trans (hg.kv.comp.trans hcb), hfin.store.trans (hg.kv.store.trans hsb)⟩
    refine h.finish hfin.ladder (hg.follow.trans ?_) (hg.weights.trans rfl)
    exact (congrArg LadderView.numChunksPerTensor hview').symm

/-- The state in which a swapin enqueues: the chunks evicted at its start are still evicted,
and the counts of `initialize_layer_sync` are theirs. -/
structure Prepared (cfg : Config) (io : Io) (early : List Nat) (c : Core) : Prop where
  ok : CoreOk cfg (swapinPrepare cfg io early c)
  comp : (swapinPrepare cfg io early c).kv.compBeyond cfg = c.kv.compBeyond cfg
  store : (swapinPrepare cfg io early c).kv.storeBeyond cfg = c.kv.storeBeyond cfg
  decompNumChunks : (initializeLayerSync cfg c).2.decompNumChunks.toNat =
    ((swapinPrepare cfg io early c).kv.compBeyond cfg).length
  loadNumChunks : (initializeLayerSync cfg c).2.loadNumChunks.toNat =
    ((swapinPrepare cfg io early c).kv.storeBeyond cfg).length

theorem CoreOk.prepared (h : CoreOk cfg c) (io : Io) (early : List Nat) :
    Prepared cfg io early c := by
  -- reloading the arenas leaves the ladder alone
  set c2 : Core := { (initializeLayerSync cfg c).1 with
    kv := mzcacheReloadAllArenas cfg io (initializeLayerSync cfg c).1.kv } with hc2
  have hview2 : c2.kv.view = c.kv.view := mzcacheReloadAllArenas_view io
  have h2 : CoreOk cfg c2 := h.withKv (h.ladder.of_view hview2)
    (congrArg LadderView.numChunksPerTensor hview2)
  have hg : CoreGrown cfg c2 (swapinPrepare cfg io early c) :=
    Ladder.growAll early h2.ladder h2.follow
  have hcomp : (swapinPrepare cfg io early c).kv.compBeyond cfg = c.kv.compBeyond cfg :=
    hg.kv.comp.trans (KvState.compBeyond_of_view hview2)
  have hstore : (swapinPrepare cfg io early c).kv.storeBeyond cfg = c.kv.storeBeyond cfg :=
    hg.kv.store.trans (KvState.storeBeyond_of_view hview2)
  obtain ⟨hd, hk⟩ := h.ladder.layerSum_init
  refine ⟨hg.ok h2, hcomp, hstore, ?_, ?_⟩
  · rw [hcomp]
    unfold initializeLayerSync
    dsimp only
    omega
  · rw [hstore]
    unfold initializeLayerSync
    dsimp only
    omega

/-- The parts of a swapin cycle: the prepared state, what is enqueued there, and the rest of
the cycle. -/
structure SwapinParts (cfg : Config) (io : Io) (early late : List Nat) (c : Core) (r : Swapin) :
    Prop where
  prepared : Prepared cfg io early c
  call : mzcacheEnqueueDecompLoadChunks cfg io
    ((swapinPrepare cfg io early c).kv.compBeyond cfg).length
    ((swapinPrepare cfg io early c).kv.storeBeyond cfg).length (swapinPrepare cfg io early c).kv =
      some r.tasks
  enqueued : EnqueuedOk cfg (swapinPrepare cfg io early c).kv
    ((swapinPrepare cfg io early c).kv.compBeyond cfg).length
    ((swapinPrepare cfg io early c).kv.storeBeyond cfg).length r.tasks
  core : r.core = finishSwapinCycle cfg ((swapinPrepare cfg io early c).kv.compBeyond cfg).length
    ((swapinPrepare cfg io early c).kv.storeBeyond cfg).length
    (growAll cfg late (swapinRestore cfg io r.tasks (swapinPrepare cfg io early c)))

theorem CoreOk.swapinParts (h : CoreOk cfg c) {io : Io} {early late : List Nat} {r : Swapin}
    (hs : swapinGenerate cfg io early late c = some r) : SwapinParts cfg io early late c r := by
  have hp := h.prepared io early
  unfold MzCache.swapinGenerate at hs
  dsimp only at hs
  rw [Option.map_eq_some_iff] at hs
  obtain ⟨e, he, rfl⟩ := hs
  rw [hp.decompNumChunks, hp.loadNumChunks] at he ⊢
  exact ⟨hp, he, hp.ok.ladder.enqueue io le_rfl le_rfl he, rfl⟩

/-- `swapin_generate` enqueues what the cursors stand for and empties the ladder. -/
theorem CoreOk.swapinGenerate (h : CoreOk cfg c) {io : Io} {early late : List Nat} {r : Swapin}
    (hs : swapinGenerate cfg io early late c = some r) : SwapinOk cfg c r := by
  obtain ⟨⟨hok3, hcomp, hstore, -, -⟩, -, hq, hcore⟩ := h.swapinParts hs
  obtain ⟨hok, hnc, hns⟩ := hok3.settle io late hq
  rw [← hcore] at hok hnc hns
  refine ⟨?_, ?_, hq.decompOverrun, hq.readOverrun, hok, hnc, hns⟩
  · rw [← hcomp]
    exact hq.decomp.trans (List.take_length)
  · rw [← hstore]
    exact hq.read.trans (List.take_length)

theorem swapinGenerate_isSome (io : Io) (hio : ∀ t, (io .chunkOpen t).opened) (early late : List Nat)
    (c : Core) : (MzCache.swapinGenerate cfg io early late c).isSome := by
  unfold MzCache.swapinGenerate
  dsimp only
  rw [Option.isSome_map]
  exact enqueue_isSome io hio _ _ _

end

/-! ## Steps -/

/-- One operation on the engine, with no more asked for than there is. `write` is
the decode thread writing K and V rows of a resident chunk. -/
inductive LadderStep (cfg : Config) (io : Io) (c : Core) : Core → Prop
  | compress (n : Nat) (h : (n : Int) ≤ c.kv.maxCompChunks - c.kv.nCurCompChunks) :
      LadderStep cfg io c { c with kv := (mzcacheCompressChunks cfg n c.kv).1 }
  | store (n : Nat) (h : (n : Int) ≤ c.kv.maxStoreChunks - c.kv.nCurStoreChunks) :
      LadderStep cfg io c { c with kv := mzcacheStoreChunks cfg io n c.kv }
  | closeStoredFiles : LadderStep cfg io c { c with kv := mzcacheCloseStoredFiles c.kv }
  | decompress (m : Nat) (h : (m : Int) ≤ c.kv.nCurCompChunks)
      (hoff : c.kv.nCurArenaOffloadBytes = 0) :
      LadderStep cfg io c { c with kv := mzcacheDecompressChunks cfg m c.kv }
  | load (m : Nat) (kv : KvState) (h : (m : Int) ≤ c.kv.nCurStoreChunks)
      (hs : mzcacheLoadChunks cfg io m c.kv = some kv) : LadderStep cfg io c { c with kv := kv }
  | unload (n : Nat) (h : (n : Int) ≤ c.curLayerIdxToUnload + 1) :
      LadderStep cfg io c (mzcacheUnloadLayers io n c).1
  | offload : LadderStep cfg io c { c with kv := (mzcacheOffloadArenas io c.kv).1 }
  | reloadAll : LadderStep cfg io c { c with kv := mzcacheReloadAllArenas cfg io c.kv }
  | swapin (early late : List Nat) (r : Swapin)
      (hs : swapinGenerate cfg io early late c = some r) : LadderStep cfg io c r.core
  | grow (need : Nat) : LadderStep cfg io c (mzGrowChunks cfg need c)
  | grown (n : Nat) : LadderStep cfg io c (onKvChunksGrown cfg n c)
  | foldGrowth : LadderStep cfg io c
      (({ c with kv := applyPendingGrowth cfg c.kv } : Core).followKv cfg)
  | write (l j : Nat) (mem : ChunkMem) (h : (c.kv.svm l j).isSome) :
      LadderStep cfg io c { c with kv := { c.kv with svm := Table.set c.kv.svm l j (some mem) } }

section

variable {cfg : Config} {io : Io} {c c' : Core}

theorem CoreOk.moved (h : CoreOk cfg c) {kv : KvState} {comp store : List Cell}
    (hm : Moved cfg c.kv kv comp store) : CoreOk cfg { c with kv := kv } :=
  h.withKv hm.ladder hm.chunks

/-- Every operation keeps the ladder. -/
theorem CoreOk.step (h : CoreOk cfg c) (hs : LadderStep cfg io c c') : CoreOk cfg c' := by
  have hnc := h.ladder.nComp
  have hns := h.ladder.nStore
  cases hs with
  | compress n hn =>
      obtain ⟨_, _, hm⟩ := h.ladder.compressChunks n hn
      exact h.moved hm
  | store n hn =>
      obtain ⟨_, _, _, hm⟩ := h.ladder.storeChunks io n hn
      exact h.moved hm
  | closeStoredFiles => exact h.moved (h.ladder.stay rfl)
  | decompress m hm _ => exact h.moved (h.ladder.decompressChunks (m := m) (by omega))
  | load m kv hm hs => exact h.moved (h.ladder.loadChunks io (by omega) hs)
  | unload n hn => exact (CoreOk.unloadLayers io n h hn).1
  | offload => exact h.moved (h.ladder.stay (mzcacheOffloadArenas_view io))
  | reloadAll => exact h.moved (h.ladder.stay (mzcacheReloadAllArenas_view io))
  | swapin early late r hs => exact (h.swapinGenerate hs).ok
  | grow need => exact (h.ladder.mzGrowChunks h.follow need).ok h
  | grown n => exact (h.ladder.onKvChunksGrown n).ok h
  | foldGrowth => exact h.ladder.foldGrowth.ok h
  | write l j mem _ => exact h.moved (h.ladder.stay rfl)

theorem CoreOk.init (n alloc : Nat) (mem : Nat → Nat → Option ChunkMem) (hpos : 0 < n)
    (hle : n ≤ cfg.f32.limit) : CoreOk cfg (Core.init cfg n alloc mem) := by
  have hL := cfg.numLayers_pos
  obtain ⟨hlad, _, _⟩ := Ladder.derive (s := .fresh cfg n mem) hpos hle rfl rfl
    (fun _ _ _ _ => rfl)
  refine ⟨hlad, rfl, by simp only [Core.init]; omega, by simp only [Core.init]; ring, ?_⟩
  intro l hl
  simp only [Core.init, true_iff]
  omega

end

end MzCache
