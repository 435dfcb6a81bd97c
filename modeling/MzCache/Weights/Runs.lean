import MzCache.Lib.TSys
import MzCache.Weights.Loading

/-!
# Unloading and reloading in any order

A layer is resident, evicted, or allocated but not read yet. A run unloads layers at any
time, allocates evicted ones and reads allocated ones, in any order, so that the two workers
of a reload may be at different layers. `Owned` is what holds of the multi-buffer and the
tensors after every such call.
-/

namespace MzCache.Weights

open MzCache.Lib

/-- Where `layer` begins in the context. -/
def WeightModel.start (m : WeightModel) (layer : Nat) : Nat :=
  m.layer0TensorIdx + m.numTensorsPerLayer * layer

/-- The tensor belongs to the layer. -/
def WeightModel.InLayer (m : WeightModel) (layer t : Nat) : Prop :=
  m.start layer ≤ t ∧ t < m.start layer + m.numTensorsPerLayer

instance (m : WeightModel) (layer t : Nat) : Decidable (m.InLayer layer t) :=
  inferInstanceAs (Decidable (_ ∧ _))

/-- The layer globals describe the context: after the tensors in front come the layers, one behind
the other, and nothing else. -/
structure Matched (m : WeightModel) (nLayer : Nat) : Prop where
  length : m.sizes.length = m.start nLayer
  first : ∀ i < nLayer, m.layerFirstTensor i = some (m.start i)
  last : m.layerFirstTensor nLayer = none
  tensors : 0 < m.numTensorsPerLayer
  two : 2 ≤ m.sizes.length
  sizes : ∀ s ∈ m.sizes, 0 < s
  bytes : m.numBytesPerLayer = m.byteSum (m.start 0) m.numTensorsPerLayer
  alignment : 0 < m.alignment

inductive Phase
  | resident
  | evicted
  | allocated
deriving DecidableEq

structure WState where
  weights : Weights
  phase : Nat → Phase

/-- One call. `bases` are the addresses the allocator may return, and it never returns a buffer
that is still among the children. -/
inductive Call (m : WeightModel) (nLayer : Nat) (bases : Set Nat) (files : Nat → List UInt8) :
    WState → WState → Prop
  | unload {s : WState} {i : Nat} (hi : i < nLayer) :
      Call m nLayer bases files s
        ⟨(unloadBuffers m s.weights i).2, Function.update s.phase i .evicted⟩
  | alloc {s : WState} {i b base : Nat} {ok : Bool} {w : Weights} (hi : i < nLayer)
      (hp : s.phase i = .evicted) (hfresh : some b ∉ s.weights.multi.buffers)
      (hbase : base ∈ bases) (h : allocWeightLayer m s.weights i b base = some (ok, w)) :
      Call m nLayer bases files s ⟨w, Function.update s.phase i .allocated⟩
  | read {s : WState} {i : Nat} {ok : Bool} {w : Weights} (hi : i < nLayer)
      (hp : s.phase i = .allocated)
      (h : readWeightLayer m s.weights i (files i) = some (ok, w)) :
      Call m nLayer bases files s ⟨w, Function.update s.phase i .resident⟩

/-- Runs from loaded weights, all layers resident. -/
def weightRuns (m : WeightModel) (nLayer : Nat) (bases : Set Nat) (contents : Nat → Bytes)
    (files : Nat → List UInt8) : TSys WState where
  init s := loadWeights m contents = some s.weights ∧ ∀ i, s.phase i = .resident
  step := Call m nLayer bases files

/-- Some layer of the tensor is evicted. -/
def WState.Gone (m : WeightModel) (nLayer : Nat) (s : WState) (t : Nat) : Prop :=
  ∃ i < nLayer, m.InLayer i t ∧ s.phase i = .evicted

/-- The state of the multi-buffer and of its tensors between calls. -/
structure Owned (m : WeightModel) (nLayer : Nat) (s : WState) : Prop where
  /-- the table keeps its length -/
  length : s.weights.multi.buffers.length = m.sizes.length
  /-- `cur_n_buffers` counts the children that are not null -/
  count : s.weights.multi.curNBuffers + s.weights.multi.buffers.count none = m.sizes.length
  /-- a tensor outside evicted layers has memory, in exactly one child -/
  held : ∀ t < m.sizes.length, ¬ s.Gone m nLayer t →
    ∃ b off, (s.weights.tensors t).buffer = some b ∧ (s.weights.tensors t).data = some off ∧
      s.weights.multi.buffers.count (some b) = 1
  /-- a tensor of an evicted layer has none -/
  gone : ∀ t, s.Gone m nLayer t → s.weights.tensors t = ⟨none, none, true⟩
  /-- every child belongs to a tensor -/
  owned : ∀ b, some b ∈ s.weights.multi.buffers →
    ∃ t < m.sizes.length, (s.weights.tensors t).buffer = some b
  /-- tensors share a child only within a layer -/
  apart : ∀ t u b, t < m.sizes.length → u < m.sizes.length →
    (s.weights.tensors t).buffer = some b → (s.weights.tensors u).buffer = some b →
    t = u ∨ ∃ i < nLayer, m.InLayer i t ∧ m.InLayer i u

section

variable {m : WeightModel} {nLayer : Nat} {s : WState}

/-! ## Layers do not overlap -/

theorem start_succ (i : Nat) : m.start (i + 1) = m.start i + m.numTensorsPerLayer := by
  unfold WeightModel.start
  rw [Nat.mul_succ, Nat.add_assoc]

theorem start_mono {i j : Nat} (h : i ≤ j) : m.start i ≤ m.start j :=
  Nat.add_le_add_left (Nat.mul_le_mul_left _ h) _

theorem inLayer_unique {i j t : Nat} (hi : m.InLayer i t) (hj : m.InLayer j t) : i = j := by
  have hle : ∀ i j, m.InLayer i t → m.InLayer j t → i ≤ j := by
    intro i j hi hj
    by_contra h
    have h1 := start_mono (m := m) (Nat.succ_le_of_lt (Nat.lt_of_not_le h))
    rw [start_succ] at h1
    exact absurd hj.2 (by have := hi.1; omega)
  exact le_antisymm (hle i j hi hj) (hle j i hj hi)

theorem Matched.inLayer_lt (hm : Matched m nLayer) {i t : Nat} (hi : i < nLayer)
    (ht : m.InLayer i t) : t < m.sizes.length := by
  have h1 := start_mono (m := m) (Nat.succ_le_of_lt hi)
  rw [start_succ] at h1
  rw [hm.length]
  exact ht.2.trans_le h1

/-- `unload_buffers` visits exactly the layer. -/
theorem Matched.mem_unloadRange (hm : Matched m nLayer) {i : Nat} (hi : i < nLayer) (t : Nat) :
    t ∈ m.unloadRange i ↔ m.InLayer i t := by
  unfold WeightModel.unloadRange
  rw [List.mem_filter, List.mem_range'_1, decide_eq_true_iff]
  exact ⟨fun h => h.1, fun h => ⟨h, hm.inLayer_lt hi h⟩⟩

/-- `alloc_weight_layer` visits exactly the layer, the last one included. -/
theorem Matched.tensorRange (hm : Matched m nLayer) {i : Nat} (hi : i < nLayer) :
    m.tensorRange (m.layerFirstTensor i) (m.layerFirstTensor (i + 1)) =
      List.range' (m.start i) m.numTensorsPerLayer := by
  have hlast : (m.layerFirstTensor (i + 1)).getD m.sizes.length = m.start (i + 1) := by
    rcases Nat.lt_or_eq_of_le (Nat.succ_le_of_lt hi) with h | h
    · rw [hm.first _ h]
      rfl
    · rw [show i + 1 = nLayer from h, hm.last, ← hm.length]
      rfl
  unfold WeightModel.tensorRange
  rw [hm.first i hi]
  show List.range' (m.start i) ((m.layerFirstTensor (i + 1)).getD m.sizes.length - m.start i) = _
  rw [hlast, start_succ, Nat.add_sub_cancel_left]

/-- A phase change of layer `i` leaves the other layers' tensors as they were. -/
theorem gone_update_of_not {i t : Nat} {p : Phase} {w : Weights} (ht : ¬ m.InLayer i t) :
    WState.Gone m nLayer ⟨w, Function.update s.phase i p⟩ t ↔ s.Gone m nLayer t := by
  refine exists_congr fun j => and_congr_right fun _ => and_congr_right fun hin => ?_
  have hji : j ≠ i := fun h => ht (h ▸ hin)
  show Function.update s.phase i p j = _ ↔ _
  rw [Function.update_of_ne hji]

/-- A tensor of layer `i` is gone when the layer is. -/
theorem gone_iff_of_inLayer {i t : Nat} (hi : i < nLayer) (ht : m.InLayer i t) :
    s.Gone m nLayer t ↔ s.phase i = .evicted := by
  constructor
  · rintro ⟨j, -, hj, hphase⟩
    exact inLayer_unique hj ht ▸ hphase
  · exact fun h => ⟨i, hi, ht, h⟩

/-- A tensor with memory has its buffer in exactly one child. -/
theorem Owned.count_of_buffer (h : Owned m nLayer s) {t b : Nat} (ht : t < m.sizes.length)
    (hb : (s.weights.tensors t).buffer = some b) :
    s.weights.multi.buffers.count (some b) = 1 := by
  have hgone : ¬ s.Gone m nLayer t := by
    intro hgone
    rw [h.gone t hgone] at hb
    exact nomatch hb
  obtain ⟨c, _, hc, -, hcount⟩ := h.held t ht hgone
  obtain rfl := Option.some.inj (hb.symm.trans hc)
  exact hcount

/-! ## The calls -/

/-- Unloading a layer succeeds and keeps the table in order. -/
theorem Owned.unload (hm : Matched m nLayer) (h : Owned m nLayer s) {i : Nat}
    (hi : i < nLayer) :
    ∃ multi, unloadBuffers m s.weights i =
        (true, { s.weights with
          multi := multi
          tensors := fun t => if m.InLayer i t then ⟨none, none, true⟩
            else s.weights.tensors t }) ∧
      Owned m nLayer ⟨(unloadBuffers m s.weights i).2, Function.update s.phase i .evicted⟩ := by
  have hmem := hm.mem_unloadRange hi
  obtain ⟨hnodup, hunique⟩ := uniqueBuffers_spec s.weights.tensors (m.unloadRange i)
  have hone : ∀ b ∈ uniqueBuffers s.weights.tensors (m.unloadRange i),
      s.weights.multi.buffers.count (some b) = 1 := by
    intro b hb
    obtain ⟨t, ht, htb⟩ := (hunique b).mp hb
    exact h.count_of_buffer (hm.inLayer_lt hi ((hmem t).mp ht)) htb
  obtain ⟨buffers, hrelease, hlen, hfree, hcount⟩ := SlotTable.releaseAll_spec hnodup hone
  have hrun : unloadBuffers m s.weights i =
      (true, { s.weights with
        multi := ⟨buffers, s.weights.multi.curNBuffers -
          (uniqueBuffers s.weights.tensors (m.unloadRange i)).length⟩
        tensors := fun t => if m.InLayer i t then ⟨none, none, true⟩
          else s.weights.tensors t }) := by
    unfold unloadBuffers
    simp only [unloadAll_eq hrelease, hmem]
  refine ⟨_, hrun, ?_⟩
  rw [hrun]
  refine ⟨hlen.trans h.length, ?_, ?_, ?_, ?_, ?_⟩
  · -- the freed children were all counted
    have hle : (uniqueBuffers s.weights.tensors (m.unloadRange i)).length ≤
        s.weights.multi.curNBuffers := by
      have h1 : buffers.count none ≤ buffers.length := List.count_le_length
      have h2 := h.count
      rw [hfree, hlen, h.length] at h1
      omega
    show s.weights.multi.curNBuffers - _ + buffers.count none = _
    rw [hfree, ← h.count]
    omega
  · intro t ht hgone
    by_cases hin : m.InLayer i t
    · exact absurd ((gone_iff_of_inLayer hi hin).mpr (Function.update_self ..)) hgone
    · obtain ⟨b, off, hb, hoff, hc⟩ := h.held t ht ((gone_update_of_not hin).not.mp hgone)
      refine ⟨b, off, by simp [hin, hb], by simp [hin, hoff], ?_⟩
      show buffers.count (some b) = 1
      rw [hcount b, if_neg, hc]
      intro hbu
      obtain ⟨u, hu, hub⟩ := (hunique b).mp hbu
      have huin := (hmem u).mp hu
      rcases h.apart t u b ht (hm.inLayer_lt hi huin) hb hub with rfl | ⟨j, -, htj, huj⟩
      · exact hin huin
      · exact hin (inLayer_unique huj huin ▸ htj)
  · intro t hgone
    show (if m.InLayer i t then _ else s.weights.tensors t) = _
    by_cases hin : m.InLayer i t
    · rw [if_pos hin]
    · rw [if_neg hin]
      exact h.gone t ((gone_update_of_not hin).mp hgone)
  · intro b hb
    have hpos : 0 < buffers.count (some b) := List.count_pos_iff.mpr hb
    rw [hcount b] at hpos
    have hnot : b ∉ uniqueBuffers s.weights.tensors (m.unloadRange i) := by
      intro hbu
      rw [if_pos hbu] at hpos
      exact Nat.lt_irrefl 0 hpos
    rw [if_neg hnot] at hpos
    obtain ⟨t, ht, htb⟩ := h.owned b (List.count_pos_iff.mp hpos)
    refine ⟨t, ht, ?_⟩
    have hin : ¬ m.InLayer i t := fun hin => hnot ((hunique b).mpr ⟨t, (hmem t).mpr hin, htb⟩)
    simp [hin, htb]
  · intro t u b ht hu htb hub
    by_cases htin : m.InLayer i t
    · simp [htin] at htb
    · by_cases huin : m.InLayer i u
      · simp [huin] at hub
      · simp only [htin, huin, if_false] at htb hub
        exact h.apart t u b ht hu htb hub

/-- The table always has a slot for an evicted layer's new buffer. -/
theorem Owned.free_slot (hm : Matched m nLayer) (h : Owned m nLayer s) {i : Nat} (hi : i < nLayer)
    (hp : s.phase i = .evicted) : 0 < s.weights.multi.buffers.count none := by
  refine @SlotTable.free_slot _ _ _ m.sizes.length (fun t => (s.weights.tensors t).buffer)
    h.length.ge (fun b => ?_) h.owned ?_
  · by_cases hb : some b ∈ s.weights.multi.buffers
    · obtain ⟨t, ht, htb⟩ := h.owned b hb
      exact (h.count_of_buffer ht htb).le
    · rw [List.count_eq_zero.mpr hb]
      exact Nat.zero_le 1
  · have hin : m.InLayer i (m.start i) := ⟨le_rfl, Nat.lt_add_of_pos_right hm.tensors⟩
    refine ⟨m.start i, hm.inLayer_lt hi hin, ?_⟩
    show (s.weights.tensors (m.start i)).buffer = none
    rw [h.gone _ ((gone_iff_of_inLayer hi hin).mpr hp)]

/-- The weights after layer `i` was allocated in buffer `b`. -/
def allocatedIn (m : WeightModel) (w : Weights) (i b base : Nat) : Weights :=
  { w with
    multi := ⟨SlotTable.fill w.multi.buffers [b], w.multi.curNBuffers + 1⟩
    tensors := placed m b (m.start i) m.numTensorsPerLayer (alignedStart base m.alignment)
      w.tensors
    size := Function.update w.size b (weightBufferSize m.numBytesPerLayer)
    svm := Function.update w.svm b true }

/-- Allocating an evicted layer finds a slot, or the buffer is too small and the process aborts. -/
theorem Owned.alloc_eq (hm : Matched m nLayer) (h : Owned m nLayer s) {i b base : Nat}
    (hi : i < nLayer) (hp : s.phase i = .evicted) :
    allocWeightLayer m s.weights i b base =
      if alignedStart base m.alignment + m.padSum (m.start i) m.numTensorsPerLayer ≤
          weightBufferSize m.numBytesPerLayer
      then some (true, allocatedIn m s.weights i b base) else none := by
  have hslot := h.free_slot hm hi hp
  have hunset : ∀ t, m.start i ≤ t → t < m.start i + m.numTensorsPerLayer →
      (s.weights.tensors t).data = none ∧ (s.weights.tensors t).buffer = none ∧
        (true = true → (s.weights.tensors t).isWeight = true) := by
    intro t hle hlt
    rw [h.gone t ((gone_iff_of_inLayer hi ⟨hle, hlt⟩).mpr hp)]
    exact ⟨rfl, rfl, fun _ => rfl⟩
  have hconcat : s.weights.multi.concatBuffer [b] =
      some ⟨SlotTable.fill s.weights.multi.buffers [b], s.weights.multi.curNBuffers + 1⟩ :=
    if_neg (Nat.not_lt.mpr hslot)
  unfold allocWeightLayer
  simp only [hm.tensorRange hi, allocTensorRange_eq hunset, hconcat]
  have hne : m.numTensorsPerLayer ≠ 0 := hm.tensors.ne'
  by_cases hfit : alignedStart base m.alignment + m.padSum (m.start i) m.numTensorsPerLayer ≤
      weightBufferSize m.numBytesPerLayer
  · rw [if_pos (Or.inr hfit), if_pos hfit]
    rfl
  · rw [if_neg (by simp [hne, hfit]), if_neg hfit]

/-- An allocation keeps the table in order. -/
theorem Owned.alloc (hm : Matched m nLayer) (h : Owned m nLayer s) {i b base : Nat}
    (hi : i < nLayer) (hp : s.phase i = .evicted)
    (hfresh : some b ∉ s.weights.multi.buffers) :
    Owned m nLayer
      ⟨allocatedIn m s.weights i b base, Function.update s.phase i .allocated⟩ := by
  have hslot := h.free_slot hm hi hp
  obtain ⟨hlen, hfree, hcount⟩ :=
    @SlotTable.fill_spec Nat _ s.weights.multi.buffers [b] hslot
  have hzero : s.weights.multi.buffers.count (some b) = 0 := List.count_eq_zero.mpr hfresh
  have hfresh' : ∀ t < m.sizes.length, (s.weights.tensors t).buffer ≠ some b := by
    intro t ht htb
    have hone := h.count_of_buffer ht htb
    rw [hzero] at hone
    exact nomatch hone
  have htensors : ∀ t, ¬ m.InLayer i t →
      (allocatedIn m s.weights i b base).tensors t = s.weights.tensors t :=
    fun t ht => placed_out ht
  have hplaced : ∀ t, m.InLayer i t →
      ((allocatedIn m s.weights i b base).tensors t).buffer = some b ∧
      ((allocatedIn m s.weights i b base).tensors t).data =
        some (alignedStart base m.alignment + m.padSum (m.start i) (t - m.start i)) := by
    intro t ht
    show (placed m b _ _ _ _ t).buffer = _ ∧ (placed m b _ _ _ _ t).data = _
    rw [placed_in ht]
    exact ⟨rfl, rfl⟩
  have hother : ∀ c, c ≠ b →
      (SlotTable.fill s.weights.multi.buffers [b]).count (some c) =
        s.weights.multi.buffers.count (some c) := by
    intro c hc
    rw [hcount c, show [b].count c = 0 from List.count_eq_zero.mpr (by simpa using hc),
      Nat.add_zero]
  have hnew : (SlotTable.fill s.weights.multi.buffers [b]).count (some b) = 1 := by
    rw [hcount b, hzero, List.count_singleton_self]
  refine ⟨hlen.trans h.length, ?_, ?_, ?_, ?_, ?_⟩
  · have := h.count
    simp only [List.length_singleton] at hfree
    show s.weights.multi.curNBuffers + 1 + (SlotTable.fill s.weights.multi.buffers [b]).count none
      = _
    omega
  · intro t ht hgone
    by_cases hin : m.InLayer i t
    · exact ⟨b, _, (hplaced t hin).1, (hplaced t hin).2, hnew⟩
    · obtain ⟨c, off, hc, hoff, hc1⟩ := h.held t ht ((gone_update_of_not hin).not.mp hgone)
      refine ⟨c, off, by rw [htensors t hin, hc], by rw [htensors t hin, hoff], ?_⟩
      refine (hother c ?_).trans hc1
      exact fun hcb => hfresh' t ht (hcb ▸ hc)
  · intro t hgone
    by_cases hin : m.InLayer i t
    · have hphase : Function.update s.phase i Phase.allocated i = .evicted :=
        (gone_iff_of_inLayer hi hin).mp hgone
      rw [Function.update_self] at hphase
      exact nomatch hphase
    · exact (htensors t hin).trans (h.gone t ((gone_update_of_not hin).mp hgone))
  · intro c hc
    by_cases hcb : c = b
    · subst hcb
      have hin : m.InLayer i (m.start i) := ⟨le_rfl, Nat.lt_add_of_pos_right hm.tensors⟩
      exact ⟨_, hm.inLayer_lt hi hin, (hplaced _ hin).1⟩
    · have hpos : 0 < s.weights.multi.buffers.count (some c) :=
        hother c hcb ▸ List.count_pos_iff.mpr hc
      obtain ⟨t, ht, htc⟩ := h.owned c (List.count_pos_iff.mp hpos)
      refine ⟨t, ht, ?_⟩
      have hin : ¬ m.InLayer i t := by
        intro hin
        rw [h.gone t ((gone_iff_of_inLayer hi hin).mpr hp)] at htc
        exact nomatch htc
      exact (congrArg Tensor.buffer (htensors t hin)).trans htc
  · intro t u c ht hu htc huc
    by_cases htin : m.InLayer i t
    · by_cases huin : m.InLayer i u
      · exact Or.inr ⟨i, hi, htin, huin⟩
      · obtain rfl := Option.some.inj ((hplaced t htin).1.symm.trans htc)
        exact absurd ((congrArg Tensor.buffer (htensors u huin)).symm.trans huc) (hfresh' u hu)
    · by_cases huin : m.InLayer i u
      · obtain rfl := Option.some.inj ((hplaced u huin).1.symm.trans huc)
        exact absurd ((congrArg Tensor.buffer (htensors t htin)).symm.trans htc) (hfresh' t ht)
      · exact h.apart t u c ht hu ((congrArg Tensor.buffer (htensors t htin)).symm.trans htc)
          ((congrArg Tensor.buffer (htensors u huin)).symm.trans huc)

/-- Reading changes bytes only. -/
theorem readWeightLayer_frame {w w' : Weights} {i : Nat} {file : List UInt8} {ok : Bool}
    (h : readWeightLayer m w i file = some (ok, w')) :
    w'.multi = w.multi ∧ w'.tensors = w.tensors ∧ w'.size = w.size := by
  unfold readWeightLayer at h
  simp only at h
  split at h
  · obtain ⟨-, rfl⟩ := Prod.mk.inj (Option.some.inj h)
    exact ⟨rfl, rfl, rfl⟩
  · split at h
    · exact nomatch h
    · split at h
      · split at h
        · exact nomatch h
        · obtain ⟨-, rfl⟩ := Prod.mk.inj (Option.some.inj h)
          exact ⟨rfl, rfl, rfl⟩
      · exact nomatch h

theorem Owned.read (h : Owned m nLayer s) {i : Nat} (hi : i < nLayer)
    (hp : s.phase i = .allocated) {w : Weights} (hmulti : w.multi = s.weights.multi)
    (htensors : w.tensors = s.weights.tensors) :
    Owned m nLayer ⟨w, Function.update s.phase i .resident⟩ := by
  have hgone : ∀ t, WState.Gone m nLayer ⟨w, Function.update s.phase i .resident⟩ t ↔
      s.Gone m nLayer t := by
    intro t
    by_cases hin : m.InLayer i t
    · rw [gone_iff_of_inLayer hi hin, gone_iff_of_inLayer hi hin, hp]
      show Function.update s.phase i Phase.resident i = _ ↔ _
      rw [Function.update_self]
      simp
    · exact gone_update_of_not hin
  refine ⟨?_, ?_, fun t ht hg => ?_, fun t hg => ?_, ?_, ?_⟩
  · show w.multi.buffers.length = _
    rw [hmulti]
    exact h.length
  · show w.multi.curNBuffers + w.multi.buffers.count none = _
    rw [hmulti]
    exact h.count
  · show ∃ b off, (w.tensors t).buffer = _ ∧ (w.tensors t).data = _ ∧ w.multi.buffers.count _ = 1
    rw [hmulti, htensors]
    exact h.held t ht ((hgone t).not.mp hg)
  · show w.tensors t = _
    rw [htensors]
    exact h.gone t ((hgone t).mp hg)
  · show ∀ b, some b ∈ w.multi.buffers → ∃ t < _, (w.tensors t).buffer = _
    rw [hmulti, htensors]
    exact h.owned
  · show ∀ t u b, _ → _ → (w.tensors t).buffer = _ → (w.tensors u).buffer = _ → _
    rw [htensors]
    exact h.apart

/-- Loading leaves the table in order, all layers resident. -/
theorem Loaded.owned {contents : Nat → Bytes} (h : Loaded m contents s.weights)
    (hphase : ∀ i, s.phase i = .resident) : Owned m nLayer s := by
  have hgone : ∀ t, ¬ s.Gone m nLayer t := by
    rintro t ⟨i, -, -, hp⟩
    rw [hphase i] at hp
    exact nomatch hp
  have hnodup : s.weights.multi.buffers.Nodup := by
    rw [h.buffers]
    exact List.nodup_range.map (Option.some_injective Nat)
  have hmem : ∀ b, some b ∈ s.weights.multi.buffers ↔ b < m.sizes.length := by
    intro b
    rw [h.buffers, List.mem_map]
    simp
  have hnone : none ∉ s.weights.multi.buffers := by
    rw [h.buffers, List.mem_map]
    simp
  refine ⟨?_, ?_, fun t ht _ => ?_, fun t hg => absurd hg (hgone t), fun b hb => ?_, ?_⟩
  · rw [h.buffers, List.length_map, List.length_range]
  · rw [h.cur, List.count_eq_zero.mpr hnone, Nat.add_zero]
  · rw [h.tensors t ht]
    exact ⟨t, 0, rfl, rfl, List.count_eq_one_of_mem hnodup ((hmem t).mpr ht)⟩
  · have hlt := (hmem b).mp hb
    exact ⟨b, hlt, congrArg Tensor.buffer (h.tensors b hlt)⟩
  · intro t u b ht hu htb hub
    rw [h.tensors t ht] at htb
    rw [h.tensors u hu] at hub
    exact Or.inl (Option.some.inj (htb.trans hub.symm))

/-- A call keeps the table in order. -/
theorem Owned.call (hm : Matched m nLayer) {bases : Set Nat} {files : Nat → List UInt8}
    {s' : WState} (h : Owned m nLayer s) (hcall : Call m nLayer bases files s s') :
    Owned m nLayer s' := by
  cases hcall with
  | unload hi =>
      obtain ⟨_, _, howned⟩ := h.unload hm hi
      exact howned
  | alloc hi hp hfresh _ halloc =>
      rw [h.alloc_eq hm hi hp] at halloc
      split at halloc
      · obtain ⟨-, rfl⟩ := Prod.mk.inj (Option.some.inj halloc)
        exact h.alloc hm hi hp hfresh
      · exact nomatch halloc
  | read hi hp hread =>
      obtain ⟨hmulti, htensors, -⟩ := readWeightLayer_frame hread
      exact h.read hi hp hmulti htensors

/-- Every run keeps the table in order. -/
theorem owned_of_run (hm : Matched m nLayer) (bases : Set Nat) (contents : Nat → Bytes)
    (files : Nat → List UInt8) :
    (weightRuns m nLayer bases contents files).Invariant (Owned m nLayer) := by
  refine TSys.invariant_of_step ?_ fun s s' h hs => h.call hm hs
  rintro s ⟨hload, hphase⟩
  obtain ⟨w, hw, hloaded⟩ := loadWeights_loaded hm.alignment hm.two hm.sizes contents
  obtain rfl := Option.some.inj (hw.symm.trans hload)
  exact hloaded.owned hphase

end

end MzCache.Weights
