import MzCache.Weights.Runs

/-!
# What reloaded layers hold

The dump has the tensors of a layer back to back, the reload places them in padded size,
and both take the size of a layer from layer 0. `LayerLayout` is when these agree for a
layer; then every run keeps `Kept`. `reload_once` is the other direction: it reads the
three conditions off a single unload and reload.
-/

namespace MzCache.Weights

open MzCache.Lib

/-- The dump of the layer and the buffer it comes back in agree. -/
structure LayerLayout (m : WeightModel) (i : Nat) : Prop where
  /-- all tensors but the last end where the next one may begin -/
  aligned : ∀ k, k + 1 < m.numTensorsPerLayer → m.alignment ∣ m.nbytes (m.start i + k)
  /-- the padded tensors fit in a padded layer 0 -/
  fits : m.padSum (m.start i) m.numTensorsPerLayer ≤ m.paddedNumBytesPerLayer
  /-- the dump is at least as long as a padded layer 0 -/
  length : m.paddedNumBytesPerLayer ≤ dumpLength (m.byteSum (m.start i) m.numTensorsPerLayer)

/-- Every layer the tensor belongs to is resident. -/
def WState.Resident (m : WeightModel) (nLayer : Nat) (s : WState) (t : Nat) : Prop :=
  ∀ i < nLayer, m.InLayer i t → s.phase i = .resident

/-- What resident layers hold, and where allocated ones stand. -/
structure Kept (m : WeightModel) (nLayer : Nat) (contents : Nat → Bytes) (s : WState) : Prop where
  resident : ∀ t < m.sizes.length, s.Resident m nLayer t →
    ∃ b off, (s.weights.tensors t).buffer = some b ∧ (s.weights.tensors t).data = some off ∧
      Holds (s.weights.mem b) off (contents t) (m.nbytes t)
  allocated : ∀ i < nLayer, s.phase i = .allocated →
    ∃ b, s.weights.size b = m.paddedNumBytesPerLayer ∧
      ∀ k < m.numTensorsPerLayer, s.weights.tensors (m.start i + k) =
        ⟨some b, some (m.padSum (m.start i) k), true⟩

/-- The weights are as loaded wherever a layer is resident, and every reload that is due works. -/
structure Intact (m : WeightModel) (nLayer : Nat) (bases : Set Nat) (contents : Nat → Bytes)
    (files : Nat → List UInt8) (s : WState) : Prop where
  resident : ∀ t < m.sizes.length, s.Resident m nLayer t →
    ∃ b off, (s.weights.tensors t).buffer = some b ∧ (s.weights.tensors t).data = some off ∧
      Holds (s.weights.mem b) off (contents t) (m.nbytes t)
  alloc : ∀ i < nLayer, s.phase i = .evicted → ∀ b, some b ∉ s.weights.multi.buffers →
    ∀ base ∈ bases, ∃ w, allocWeightLayer m s.weights i b base = some (true, w)
  read : ∀ i < nLayer, s.phase i = .allocated →
    ∃ w, readWeightLayer m s.weights i (files i) = some (true, w)

/-- The files are the dumps of the loaded weights. -/
def Dumped (m : WeightModel) (nLayer : Nat) (contents : Nat → Bytes)
    (files : Nat → List UInt8) : Prop :=
  ∀ w, loadWeights m contents = some w →
    ∀ i < nLayer, saveWeightsInLayerToFile m w i = some (files i)

/-- Addresses that are multiples of the alignment. -/
def alignedBases (m : WeightModel) : Set Nat := {base | m.alignment ∣ base}

section

variable {m : WeightModel} {nLayer : Nat} {s : WState} {contents : Nat → Bytes}
  {files : Nat → List UInt8}

/-! ## Sizes -/

theorem alignedStart_eq_zero {base alignment : Nat} (h : alignment ∣ base) :
    alignedStart base alignment = 0 := by
  unfold alignedStart
  rw [Nat.mod_eq_zero_of_dvd h, Nat.sub_zero, Nat.mod_self]

theorem Matched.nbytes_pos (hm : Matched m nLayer) {t : Nat} (ht : t < m.sizes.length) :
    0 < m.nbytes t := by
  unfold WeightModel.nbytes
  rw [List.getD_eq_getElem _ _ ht]
  exact hm.sizes _ (List.getElem_mem ht)

theorem Matched.weightBufferSize (hm : Matched m nLayer) (h0 : 0 < nLayer) :
    weightBufferSize m.numBytesPerLayer = m.paddedNumBytesPerLayer := by
  have hin : m.InLayer 0 (m.start 0) := ⟨le_rfl, Nat.lt_add_of_pos_right hm.tensors⟩
  have hpos : 0 < m.numBytesPerLayer := by
    rw [hm.bytes]
    obtain ⟨n, hn⟩ := Nat.exists_eq_succ_of_ne_zero hm.tensors.ne'
    have h1 : m.byteSum (m.start 0) 1 ≤ m.byteSum (m.start 0) m.numTensorsPerLayer :=
      Finset.sum_le_sum_of_subset (Finset.range_subset_range.mpr hm.tensors)
    rw [byteSum_succ, byteSum_zero, Nat.zero_add] at h1
    exact (hm.nbytes_pos (hm.inLayer_lt h0 hin)).trans_le h1
  unfold MzCache.Weights.weightBufferSize WeightModel.paddedNumBytesPerLayer
  split <;> omega

theorem readWeightLayer_eq {w : Weights} {i t b off : Nat} {file : List UInt8}
    (hfirst : m.layerFirstTensor i = some t) (hb : (w.tensors t).buffer = some b)
    (hoff : (w.tensors t).data = some off) :
    readWeightLayer m w i file =
      if file.length < m.paddedNumBytesPerLayer ∨ w.size b < off + m.paddedNumBytesPerLayer
      then none
      else some (true, { w with
        mem := Function.update w.mem b
          (blit (w.mem b) off (fun i => file.getD i 0) m.paddedNumBytesPerLayer) }) := by
  have hmod : ¬ m.paddedNumBytesPerLayer % 4096 ≠ 0 := by
    unfold WeightModel.paddedNumBytesPerLayer
    omega
  unfold readWeightLayer
  simp only [if_neg hmod, hfirst, hb, hoff]

/-- The dump of a layer of loaded weights. -/
theorem Loaded.dumpLayer (hm : Matched m nLayer) {w : Weights} (h : Loaded m contents w) {i : Nat}
    (hi : i < nLayer) :
    ∃ file, saveWeightsInLayerToFile m w i = some file ∧
      DumpOf m contents (m.start i) file := by
  have hend := start_mono (m := m) (Nat.succ_le_of_lt hi)
  rw [start_succ, ← hm.length] at hend
  exact h.dump (hm.first i hi) hend

/-! ## Runs keep the contents -/

theorem Loaded.kept (h : Loaded m contents s.weights) (hphase : ∀ i, s.phase i = .resident) :
    Kept m nLayer contents s := by
  refine ⟨fun t ht _ => ⟨t, 0, ?_, ?_, h.holds t ht⟩, fun i _ hp => ?_⟩
  · rw [h.tensors t ht]
  · rw [h.tensors t ht]
  · rw [hphase i] at hp
    exact nomatch hp

/-- A tensor outside layer `i` is resident after a phase change of `i` if it was before. -/
theorem resident_of_update {i t : Nat} {p : Phase} {w : Weights} (ht : ¬ m.InLayer i t)
    (h : WState.Resident m nLayer ⟨w, Function.update s.phase i p⟩ t) :
    s.Resident m nLayer t := by
  intro j hj hin
  have hji : j ≠ i := fun hji => ht (hji ▸ hin)
  exact (Function.update_of_ne hji ..).symm.trans (h j hj hin)

/-- A tensor of a layer that is not resident is not resident. -/
theorem not_inLayer_of_update {i t : Nat} {p : Phase} {w : Weights} (hi : i < nLayer)
    (hp : p ≠ .resident)
    (h : WState.Resident m nLayer ⟨w, Function.update s.phase i p⟩ t) : ¬ m.InLayer i t := by
  intro hin
  have hphase : Function.update s.phase i p i = .resident := h i hi hin
  rw [Function.update_self] at hphase
  exact hp hphase

/-- A phase that was not just set was there before. -/
theorem of_update_phase {phase : Nat → Phase} {i j : Nat} {p q : Phase} (hpq : p ≠ q)
    (h : Function.update phase i p j = q) : j ≠ i ∧ phase j = q := by
  by_cases hji : j = i
  · subst hji
    rw [Function.update_self] at h
    exact absurd h hpq
  · rw [Function.update_of_ne hji] at h
    exact ⟨hji, h⟩

theorem inLayer_add {i k : Nat} (hk : k < m.numTensorsPerLayer) :
    m.InLayer i (m.start i + k) := ⟨Nat.le_add_right _ _, Nat.add_lt_add_left hk _⟩

/-- The tensors of another layer lie outside layer `i`. -/
theorem not_inLayer_add {i j k : Nat} (hji : j ≠ i) (hk : k < m.numTensorsPerLayer) :
    ¬ m.InLayer i (m.start j + k) :=
  fun h => hji (inLayer_unique (inLayer_add hk) h)

theorem Kept.unload (hm : Matched m nLayer) (ho : Owned m nLayer s)
    (hk : Kept m nLayer contents s) {i : Nat} (hi : i < nLayer) :
    Kept m nLayer contents
      ⟨(unloadBuffers m s.weights i).2, Function.update s.phase i .evicted⟩ := by
  obtain ⟨multi, hrun, -⟩ := ho.unload hm hi
  rw [hrun]
  refine ⟨fun t ht hres => ?_, fun j hj hphase => ?_⟩
  · have hin := not_inLayer_of_update hi (nofun : Phase.evicted ≠ .resident) hres
    obtain ⟨b, off, hb, hoff, hholds⟩ := hk.resident t ht (resident_of_update hin hres)
    exact ⟨b, off, by simp [hin, hb], by simp [hin, hoff], hholds⟩
  · obtain ⟨hji, hphase'⟩ := of_update_phase (nofun : Phase.evicted ≠ .allocated) hphase
    obtain ⟨b, hsize, htensors⟩ := hk.allocated j hj hphase'
    refine ⟨b, hsize, fun k hk => ?_⟩
    show (if m.InLayer i (m.start j + k) then _ else _) = _
    rw [if_neg (not_inLayer_add hji hk)]
    exact htensors k hk

theorem Kept.alloc (hm : Matched m nLayer) (ho : Owned m nLayer s)
    (hk : Kept m nLayer contents s) {i b base : Nat} (hi : i < nLayer)
    (hp : s.phase i = .evicted) (hfresh : some b ∉ s.weights.multi.buffers)
    (hbase : base ∈ alignedBases m) :
    Kept m nLayer contents
      ⟨allocatedIn m s.weights i b base, Function.update s.phase i .allocated⟩ := by
  have hstart : alignedStart base m.alignment = 0 := alignedStart_eq_zero hbase
  have hother : ∀ t, ¬ m.InLayer i t →
      (allocatedIn m s.weights i b base).tensors t = s.weights.tensors t :=
    fun t ht => placed_out ht
  refine ⟨fun t ht hres => ?_, fun j hj hphase => ?_⟩
  · have hin := not_inLayer_of_update hi (nofun : Phase.allocated ≠ .resident) hres
    obtain ⟨c, off, hc, hoff, hholds⟩ := hk.resident t ht (resident_of_update hin hres)
    exact ⟨c, off, by rw [hother t hin, hc], by rw [hother t hin, hoff], hholds⟩
  · by_cases hji : j = i
    · subst hji
      refine ⟨b, ?_, fun k hk => ?_⟩
      · exact (Function.update_self ..).trans (hm.weightBufferSize (Nat.zero_lt_of_lt hi))
      · show placed m b _ _ _ _ (m.start j + k) = _
        have hgone := ho.gone _ ((gone_iff_of_inLayer hj (inLayer_add hk)).mpr hp)
        rw [placed_in (inLayer_add hk), hgone, hstart, Nat.zero_add, Nat.add_sub_cancel_left]
    · have hphase' : s.phase j = .allocated := (Function.update_of_ne hji ..).symm.trans hphase
      obtain ⟨c, hsize, htensors⟩ := hk.allocated j hj hphase'
      refine ⟨c, ?_, fun k hk => (hother _ (not_inLayer_add hji hk)).trans (htensors k hk)⟩
      have hlt := hm.inLayer_lt hj (inLayer_add hm.tensors)
      have hone := ho.count_of_buffer hlt (congrArg Tensor.buffer (htensors 0 hm.tensors))
      have hcb : c ≠ b := by
        rintro rfl
        rw [List.count_eq_zero.mpr hfresh] at hone
        exact nomatch hone
      exact (Function.update_of_ne hcb ..).trans hsize

/-- Reading the dump of an allocated layer puts every tensor's bytes back. -/
theorem Kept.read (hm : Matched m nLayer) (ho : Owned m nLayer s)
    (hk : Kept m nLayer contents s) {i : Nat} (hi : i < nLayer) (hp : s.phase i = .allocated)
    (hlayout : LayerLayout m i) (hfile : DumpOf m contents (m.start i) (files i)) :
    ∃ w, readWeightLayer m s.weights i (files i) = some (true, w) ∧
      Kept m nLayer contents ⟨w, Function.update s.phase i .resident⟩ := by
  obtain ⟨b, hsize, htensors⟩ := hk.allocated i hi hp
  have hfirst : s.weights.tensors (m.start i) = ⟨some b, some 0, true⟩ :=
    htensors 0 hm.tensors
  have hread := @readWeightLayer_eq m s.weights i _ b 0 (files i) (hm.first i hi)
    (congrArg Tensor.buffer hfirst) (congrArg Tensor.data hfirst)
  rw [if_neg (by rw [hfile.length, hsize, Nat.zero_add]; have := hlayout.length; omega)] at hread
  refine ⟨_, hread, ⟨fun t ht hres => ?_, fun j hj hphase => ?_⟩⟩
  · by_cases hin : m.InLayer i t
    · obtain ⟨k, rfl⟩ := Nat.exists_eq_add_of_le hin.1
      have hkt : k < m.numTensorsPerLayer := Nat.lt_of_add_lt_add_left hin.2
      refine ⟨b, m.padSum (m.start i) k, by simp [htensors k hkt], by simp [htensors k hkt],
        fun j hj => ?_⟩
      -- the tensor ends inside the bytes that were read
      have hend : m.padSum (m.start i) k + m.nbytes (m.start i + k) ≤
          m.paddedNumBytesPerLayer := by
        have h1 := padSum_mono (m := m) (p := m.start i) (Nat.succ_le_of_lt hkt)
        rw [padSum_succ] at h1
        have h2 := @le_ggmlPad (m.nbytes (m.start i + k)) _ hm.alignment
        have h3 := hlayout.fits
        omega
      show Function.update s.weights.mem b _ b _ = _
      rw [Function.update_self]
      unfold blit
      rw [if_pos (by omega), Nat.sub_zero,
        ← (offsets_agree_iff hm.alignment).mpr hlayout.aligned k hkt]
      exact hfile.tensor k hkt j hj
    · obtain ⟨c, off, hc, hoff, hholds⟩ := hk.resident t ht (resident_of_update hin hres)
      refine ⟨c, off, hc, hoff, ?_⟩
      show Holds (Function.update s.weights.mem b _ c) _ _ _
      rw [Function.update_of_ne]
      · exact hholds
      · rintro rfl
        have hlt := hm.inLayer_lt hi (inLayer_add hm.tensors)
        rcases ho.apart t _ c ht hlt hc (congrArg Tensor.buffer hfirst) with rfl | ⟨j, -, h1, h2⟩
        · exact hin (inLayer_add hm.tensors)
        · exact hin (inLayer_unique h2 (inLayer_add hm.tensors) ▸ h1)
  · obtain ⟨hji, hphase'⟩ := of_update_phase (nofun : Phase.resident ≠ .allocated) hphase
    exact hk.allocated j hj hphase'

/-- Where the layouts agree, every run keeps the contents and never gets stuck. -/
theorem intact_of_layout (hm : Matched m nLayer) (hdump : Dumped m nLayer contents files)
    (hlayout : ∀ i < nLayer, LayerLayout m i) :
    (weightRuns m nLayer (alignedBases m) contents files).Invariant
      (Intact m nLayer (alignedBases m) contents files) := by
  have hfile : ∀ i < nLayer, DumpOf m contents (m.start i) (files i) := by
    obtain ⟨w, hw, hloaded⟩ := loadWeights_loaded hm.alignment hm.two hm.sizes contents
    intro i hi
    obtain ⟨file, hsave, hdumpOf⟩ := hloaded.dumpLayer hm hi
    obtain rfl := Option.some.inj ((hdump w hw i hi).symm.trans hsave)
    exact hdumpOf
  have hboth : (weightRuns m nLayer (alignedBases m) contents files).Invariant
      fun s => Owned m nLayer s ∧ Kept m nLayer contents s := by
    refine TSys.invariant_of_step ?_ fun s s' h hs => ⟨h.1.call hm hs, ?_⟩
    · rintro s ⟨hload, hphase⟩
      obtain ⟨w, hw, hloaded⟩ := loadWeights_loaded hm.alignment hm.two hm.sizes contents
      obtain rfl := Option.some.inj (hw.symm.trans hload)
      exact ⟨hloaded.owned hphase, hloaded.kept hphase⟩
    · cases hs with
      | unload hi => exact h.2.unload hm h.1 hi
      | alloc hi hp hfresh hbase halloc =>
          rw [h.1.alloc_eq hm hi hp] at halloc
          split at halloc
          · obtain ⟨-, rfl⟩ := Prod.mk.inj (Option.some.inj halloc)
            exact h.2.alloc hm h.1 hi hp hfresh hbase
          · exact nomatch halloc
      | read hi hp hread =>
          obtain ⟨w', hw', hkept⟩ := h.2.read hm h.1 hi hp (hlayout _ hi) (hfile _ hi)
          obtain ⟨-, rfl⟩ := Prod.mk.inj (Option.some.inj (hw'.symm.trans hread))
          exact hkept
  intro s hs
  obtain ⟨howned, hkept⟩ := hboth s hs
  refine ⟨hkept.resident, fun i hi hp b hfresh base hbase => ?_, fun i hi hp => ?_⟩
  · refine ⟨_, (howned.alloc_eq hm hi hp).trans (if_pos ?_)⟩
    rw [alignedStart_eq_zero hbase, Nat.zero_add, hm.weightBufferSize (Nat.zero_lt_of_lt hi)]
    exact (hlayout i hi).fits
  · obtain ⟨w, hw, -⟩ := hkept.read hm howned hi hp (hlayout i hi) (hfile i hi)
    exact ⟨w, hw⟩

/-! ## One reload shows the layout -/

/-- If runs are intact, reloading an evicted layer shows that its tensors fit, that the file is
long enough and that each tensor's bytes stand in it where the reload puts the tensor. -/
theorem reload_evicted (hm : Matched m nLayer)
    (hinv : (weightRuns m nLayer (alignedBases m) contents files).Invariant
      (Intact m nLayer (alignedBases m) contents files))
    (hs : (weightRuns m nLayer (alignedBases m) contents files).Reachable s) {i b : Nat}
    (hi : i < nLayer) (hp : s.phase i = .evicted)
    (hfresh : some b ∉ s.weights.multi.buffers) :
    m.padSum (m.start i) m.numTensorsPerLayer ≤ m.paddedNumBytesPerLayer ∧
      m.paddedNumBytesPerLayer ≤ (files i).length ∧
      ∀ k < m.numTensorsPerLayer, ∀ j < m.nbytes (m.start i + k),
        (files i).getD (m.padSum (m.start i) k + j) 0 = contents (m.start i + k) j := by
  have howned := owned_of_run hm _ _ _ s hs
  have hbase : 0 ∈ alignedBases m := Nat.dvd_zero _
  have hstart : alignedStart 0 m.alignment = 0 := alignedStart_eq_zero (Nat.dvd_zero _)
  -- the allocation
  obtain ⟨w, hw⟩ := (hinv s hs).alloc i hi hp b hfresh 0 hbase
  have hfit : m.padSum (m.start i) m.numTensorsPerLayer ≤ m.paddedNumBytesPerLayer ∧
      allocatedIn m s.weights i b 0 = w := by
    rw [howned.alloc_eq hm hi hp, hstart, Nat.zero_add,
      hm.weightBufferSize (Nat.zero_lt_of_lt hi)] at hw
    split at hw
    · next hfit => exact ⟨hfit, (Prod.mk.inj (Option.some.inj hw)).2⟩
    · exact nomatch hw
  obtain ⟨hfit, rfl⟩ := hfit
  have h2 := hs.next (Call.alloc hi hp hfresh hbase hw)
  have htensors : ∀ k < m.numTensorsPerLayer,
      (allocatedIn m s.weights i b 0).tensors (m.start i + k) =
        ⟨some b, some (m.padSum (m.start i) k), true⟩ := by
    intro k hk
    show placed m _ _ _ _ _ (m.start i + k) = _
    rw [placed_in (inLayer_add hk), howned.gone _ ((gone_iff_of_inLayer hi (inLayer_add hk)).mpr hp),
      hstart, Nat.zero_add, Nat.add_sub_cancel_left]
  -- the read
  have hp2 : Function.update s.phase i Phase.allocated i = .allocated := Function.update_self ..
  obtain ⟨w', hw'⟩ := (hinv _ h2).read i hi hp2
  have h3 := h2.next (Call.read hi hp2 hw')
  have hread : m.paddedNumBytesPerLayer ≤ (files i).length ∧
      w'.mem b = blit (s.weights.mem b) 0 (fun q => (files i).getD q 0)
        m.paddedNumBytesPerLayer := by
    have hfirst := htensors 0 hm.tensors
    rw [readWeightLayer_eq (hm.first i hi) (congrArg Tensor.buffer hfirst)
      (congrArg Tensor.data hfirst)] at hw'
    split at hw'
    · exact nomatch hw'
    · next hnot =>
        obtain rfl := (Prod.mk.inj (Option.some.inj hw')).2
        exact ⟨Nat.le_of_not_lt fun h => hnot (Or.inl h), Function.update_self ..⟩
  obtain ⟨hlen, hmem⟩ := hread
  refine ⟨hfit, hlen, fun k hk j hj => ?_⟩
  have hres : WState.Resident m nLayer
      ⟨w', Function.update (Function.update s.phase i .allocated) i .resident⟩
      (m.start i + k) := by
    intro l _ hin
    obtain rfl := inLayer_unique hin (inLayer_add hk)
    exact Function.update_self ..
  obtain ⟨c, off, hc, hoff, hholds⟩ :=
    (hinv _ h3).resident _ (hm.inLayer_lt hi (inLayer_add hk)) hres
  rw [show w'.tensors _ = _ from
    (congrFun (readWeightLayer_frame hw').2.1 _).trans (htensors k hk)] at hc hoff
  obtain rfl := Option.some.inj hc
  obtain rfl := Option.some.inj hoff
  have hbyte := hholds j hj
  rw [hmem] at hbyte
  have hend : m.padSum (m.start i) k + m.nbytes (m.start i + k) ≤ m.paddedNumBytesPerLayer := by
    have h1 := padSum_mono (m := m) (p := m.start i) (Nat.succ_le_of_lt hk)
    rw [padSum_succ] at h1
    have h2 := @le_ggmlPad (m.nbytes (m.start i + k)) _ hm.alignment
    omega
  unfold blit at hbyte
  rwa [if_pos (by omega), Nat.sub_zero] at hbyte

/-- Loaded weights with layer `i` unloaded: reachable, and the buffer named by the number of
tensors is not in use. -/
theorem exists_evicted (hm : Matched m nLayer) {i : Nat} (hi : i < nLayer) :
    ∃ s, (weightRuns m nLayer (alignedBases m) contents files).Reachable s ∧
      s.phase i = .evicted ∧ some m.sizes.length ∉ s.weights.multi.buffers := by
  obtain ⟨w, hw, hloaded⟩ := loadWeights_loaded hm.alignment hm.two hm.sizes contents
  have h0 : (weightRuns m nLayer (alignedBases m) contents files).Reachable
      ⟨w, fun _ => .resident⟩ := .start ⟨hw, fun _ => rfl⟩
  have h1 := h0.next (Call.unload hi)
  have howned := owned_of_run hm _ _ _ _ h1
  obtain ⟨multi, hrun, -⟩ := (owned_of_run hm _ _ _ _ h0).unload hm hi
  refine ⟨_, h1, Function.update_self .., fun hmem => ?_⟩
  obtain ⟨t, ht, htb⟩ := howned.owned _ hmem
  rw [hrun] at htb
  have htb' : (if m.InLayer i t then (⟨none, none, true⟩ : Tensor) else w.tensors t).buffer =
      some m.sizes.length := htb
  by_cases hin : m.InLayer i t
  · rw [if_pos hin] at htb'
    exact nomatch htb'
  · rw [if_neg hin, hloaded.tensors t ht] at htb'
    exact absurd (Option.some.inj htb') ht.ne

/-- The dumps of the loaded weights. -/
theorem exists_dumped (hm : Matched m nLayer) (contents : Nat → Bytes) :
    ∃ files, Dumped m nLayer contents files ∧
      ∀ i < nLayer, DumpOf m contents (m.start i) (files i) := by
  obtain ⟨w, hw, hloaded⟩ := loadWeights_loaded hm.alignment hm.two hm.sizes contents
  have hfile : ∀ i, ∃ file, i < nLayer →
      saveWeightsInLayerToFile m w i = some file ∧ DumpOf m contents (m.start i) file := by
    intro i
    by_cases hi : i < nLayer
    · obtain ⟨file, hsave⟩ := hloaded.dumpLayer hm hi
      exact ⟨file, fun _ => hsave⟩
    · exact ⟨[], fun h => absurd h hi⟩
  choose files hfiles using hfile
  refine ⟨files, fun w' hw' i hi => ?_, fun i hi => (hfiles i hi).2⟩
  obtain rfl := Option.some.inj (hw.symm.trans hw')
  exact (hfiles i hi).1

/-- If runs are intact whatever the weights are, the layouts agree. -/
theorem layout_of_intact (hm : Matched m nLayer)
    (hinv : ∀ contents files, Dumped m nLayer contents files →
      (weightRuns m nLayer (alignedBases m) contents files).Invariant
        (Intact m nLayer (alignedBases m) contents files)) {i : Nat} (hi : i < nLayer) :
    LayerLayout m i := by
  have hreload : ∀ contents files, Dumped m nLayer contents files →
      m.padSum (m.start i) m.numTensorsPerLayer ≤ m.paddedNumBytesPerLayer ∧
        m.paddedNumBytesPerLayer ≤ (files i).length ∧
        ∀ k < m.numTensorsPerLayer, ∀ j < m.nbytes (m.start i + k),
          (files i).getD (m.padSum (m.start i) k + j) 0 = contents (m.start i + k) j := by
    intro contents files hdump
    obtain ⟨s, hs, hp, hfresh⟩ := @exists_evicted _ _ contents files hm _ hi
    exact reload_evicted hm (hinv contents files hdump) hs hi hp hfresh
  have hoffsets : ∀ k < m.numTensorsPerLayer,
      m.byteSum (m.start i) k = m.padSum (m.start i) k := by
    intro k hk
    -- weights that are zero but for the first byte of the tensor tell its place in the dump
    obtain ⟨files, hdump, hdumpOf⟩ :=
      exists_dumped hm fun t j => if t = m.start i + k ∧ j = 0 then 1 else 0
    have hpos := hm.nbytes_pos (hm.inLayer_lt hi (inLayer_add hk))
    have hbyte := (hreload _ files hdump).2.2 k hk 0 hpos
    rw [Nat.add_zero, if_pos ⟨rfl, rfl⟩] at hbyte
    by_cases hq : m.padSum (m.start i) k < m.byteSum (m.start i) m.numTensorsPerLayer
    · obtain ⟨l, j, hl, hj, heq⟩ := exists_of_lt_byteSum hq
      rw [heq, (hdumpOf i hi).tensor l hl j hj] at hbyte
      by_cases hlk : m.start i + l = m.start i + k ∧ j = 0
      · obtain ⟨hlk, rfl⟩ := hlk
        obtain rfl := Nat.add_left_cancel hlk
        exact heq.symm
      · rw [if_neg hlk] at hbyte
        exact absurd hbyte (by decide)
    · rw [(hdumpOf i hi).behind _ (Nat.le_of_not_lt hq)] at hbyte
      exact absurd hbyte (by decide)
  obtain ⟨files, hdump, hdumpOf⟩ := exists_dumped hm fun _ _ => 0
  obtain ⟨hfit, hlen, -⟩ := hreload _ files hdump
  exact ⟨(offsets_agree_iff hm.alignment).mp hoffsets, hfit, (hdumpOf i hi).length ▸ hlen⟩

end

end MzCache.Weights
