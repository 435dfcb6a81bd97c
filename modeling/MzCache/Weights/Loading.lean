import MzCache.Weights.Alloc

/-!
# Loading and dumping

Loading gives every tensor a buffer of its own, because `max_size` is zero: after it the
children of the multi-buffer are the tensors, in order. A dump of a layer taken then has
the tensors' bytes back to back.
-/

namespace MzCache.Weights

open MzCache.Lib

/-- What loading leaves behind: tensor `t` alone in buffer `t`, with its contents. -/
structure Loaded (m : WeightModel) (contents : Nat → Bytes) (w : Weights) : Prop where
  buffers : w.multi.buffers = (List.range m.sizes.length).map some
  cur : w.multi.curNBuffers = m.sizes.length
  tensors : ∀ t < m.sizes.length, w.tensors t = ⟨some t, some 0, false⟩
  svm : ∀ b, w.svm b = false
  holds : ∀ t < m.sizes.length, Holds (w.mem t) 0 (contents t) (m.nbytes t)

theorem Bytes.holds_zero {buf bytes : Bytes} {n : Nat} :
    Holds buf 0 bytes n ↔ ∀ i < n, buf i = bytes i := by
  simp [Holds]

/-! ## One buffer for each tensor -/

theorem ctxRanges_open {sizes : List Nat} (hpos : ∀ s ∈ sizes, 0 < s) {t first cur : Nat}
    (hcur : 0 < cur) :
    ctxRanges sizes t first cur =
      (first, t) :: (List.range' t sizes.length).map fun u => (u, u + 1) := by
  induction sizes generalizing t first cur with
  | nil => exact if_pos hcur
  | cons size sizes ih =>
      unfold ctxRanges
      rw [if_pos ⟨hcur, by omega⟩,
        ih (fun s hs => hpos s (List.mem_cons_of_mem _ hs)) (hpos size List.mem_cons_self),
        List.length_cons, List.range'_succ, List.map_cons]

theorem ctxRanges_start {sizes : List Nat} (hpos : ∀ s ∈ sizes, 0 < s) :
    ctxRanges sizes 0 0 0 = (List.range' 0 sizes.length).map fun u => (u, u + 1) := by
  cases sizes with
  | nil => rfl
  | cons size sizes =>
      unfold ctxRanges
      rw [if_neg (by omega), Nat.zero_add, Nat.zero_add,
        ctxRanges_open (fun s hs => hpos s (List.mem_cons_of_mem _ hs))
          (hpos size List.mem_cons_self),
        List.length_cons, List.range'_succ, List.map_cons]

/-- Allocating one-tensor ranges puts tensor `u` at the start of buffer `u`. -/
theorem allocRanges_singles (m : WeightModel) {k t : Nat} {w : Weights}
    (hunset : ∀ u, t ≤ u → w.tensors u = Tensor.unset) :
    ∃ w', allocRanges m ((List.range' t k).map fun u => (u, u + 1)) t w = some w' ∧
      w'.multi.buffers = w.multi.buffers ++ (List.range' t k).map some ∧
      w'.multi.curNBuffers = w.multi.curNBuffers + k ∧
      (∀ u, w'.tensors u =
        if t ≤ u ∧ u < t + k then ⟨some u, some 0, false⟩ else w.tensors u) ∧
      w'.svm = w.svm ∧ w'.mem = w.mem := by
  induction k generalizing t w with
  | zero => exact ⟨w, rfl, by simp, rfl, fun u => (if_neg (by omega)).symm, rfl, rfl⟩
  | succ k ih =>
      have hrange : m.tensorRange (some t) (some (t + 1)) = List.range' t 1 := by
        simp [WeightModel.tensorRange]
      have hsize : ((List.range' t 1).map fun u => ggmlPad (m.nbytes u) m.alignment).sum =
          m.padSum t 1 := by
        simp [WeightModel.padSum]
      have hplace : allocTensorRange m t (m.padSum t 1) false (List.range' t 1) 0 w.tensors =
          some (placed m t t 1 0 w.tensors) := by
        rw [allocTensorRange_eq, if_pos (Or.inr (by omega))]
        intro u hle _
        rw [hunset u hle]
        exact ⟨rfl, rfl, fun h => nomatch h⟩
      obtain ⟨w', hw', hbuffers, hcur, htensors, hsvm, hmem⟩ :=
        ih (t := t + 1)
          (w := { w with
            multi := ⟨w.multi.buffers ++ [some t], w.multi.curNBuffers + 1⟩
            tensors := placed m t t 1 0 w.tensors
            size := Function.update w.size t (m.padSum t 1) })
          (fun u hu => (placed_out (by omega)).trans (hunset u (by omega)))
      refine ⟨w', ?_, ?_, ?_, fun u => ?_, hsvm, hmem⟩
      · rw [List.range'_succ, List.map_cons]
        unfold allocRanges
        simp only [hrange, hsize, hplace]
        exact hw'
      · rw [hbuffers, List.range'_succ, List.map_cons, List.append_assoc, List.singleton_append]
      · rw [hcur]
        show w.multi.curNBuffers + 1 + k = _
        omega
      · rw [htensors u]
        show (if _ then _ else placed m t t 1 0 w.tensors u) = _
        by_cases hut : u = t
        · subst hut
          rw [if_neg (by omega), if_pos (by omega), placed_in (by omega), hunset u le_rfl,
            Nat.sub_self, padSum_zero]
          rfl
        · by_cases hin : t + 1 ≤ u ∧ u < t + 1 + k
          · rw [if_pos hin, if_pos (by omega)]
          · rw [if_neg hin, if_neg (by omega), placed_out (by omega)]

/-! ## Storing the contents -/

/-- Setting the first `n` tensors writes each in its own buffer and nothing else. -/
theorem foldl_tensorSet {m : WeightModel} {contents : Nat → Bytes} {w : Weights} {n : Nat}
    (htensors : ∀ t < n, w.tensors t = ⟨some t, some 0, false⟩) (hsvm : ∀ b, w.svm b = false) :
    (List.range n).foldl (fun w t => tensorSet m w t (contents t)) w =
      { w with
        mem := fun b => if b < n then blit (w.mem b) 0 (contents b) (m.nbytes b) else w.mem b } := by
  induction n with
  | zero => simp
  | succ n ih =>
      rw [List.range_succ, List.foldl_append, List.foldl_cons, List.foldl_nil,
        ih fun t ht => htensors t (by omega)]
      simp only [tensorSet, htensors n (by omega), hsvm, Bool.false_eq_true, if_false,
        lt_irrefl]
      congr 1
      funext b
      by_cases hb : b = n
      · subst hb
        rw [Function.update_self, if_pos (by omega)]
      · rw [Function.update_of_ne hb]
        by_cases hlt : b < n
        · rw [if_pos hlt, if_pos (by omega)]
        · rw [if_neg hlt, if_neg (by omega)]

/-- A context of at least two tensors, none of them empty, loads. -/
theorem loadWeights_loaded {m : WeightModel} (ha : 0 < m.alignment) (htwo : 2 ≤ m.sizes.length)
    (hpos : ∀ s ∈ m.sizes, 0 < s) (contents : Nat → Bytes) :
    ∃ w, loadWeights m contents = some w ∧ Loaded m contents w := by
  have hpads : ∀ s ∈ m.sizes.map (ggmlPad · m.alignment), 0 < s := by
    intro s hs
    obtain ⟨x, hx, rfl⟩ := List.mem_map.mp hs
    exact (hpos x hx).trans_le (le_ggmlPad ha)
  obtain ⟨w, hw, hbuffers, hcur, htensors, hsvm, hmem⟩ :=
    allocRanges_singles m (k := m.sizes.length) (t := 0) (w := Weights.empty) fun _ _ => rfl
  have htensors' : ∀ t < m.sizes.length, w.tensors t = ⟨some t, some 0, false⟩ :=
    fun t ht => (htensors t).trans (if_pos (by omega))
  have hsvm' : ∀ b, w.svm b = false := fun b => by rw [hsvm]; rfl
  have hset := @foldl_tensorSet m contents w _ htensors' hsvm'
  refine ⟨{ w with
      mem := fun b =>
        if b < m.sizes.length then blit (w.mem b) 0 (contents b) (m.nbytes b) else w.mem b },
    ?_, ?_⟩
  · unfold loadWeights
    simp only [ctxRanges_start hpads, List.length_map, List.length_range', Nat.not_lt.mpr htwo,
      if_false, hw, Option.map_some, hset]
  · refine ⟨?_, ?_, htensors', hsvm', fun t ht => ?_⟩
    · show w.multi.buffers = _
      rw [hbuffers, List.range_eq_range']
      rfl
    · show w.multi.curNBuffers = _
      rw [hcur]
      exact Nat.zero_add _
    · show Holds (if t < m.sizes.length then _ else _) 0 _ _
      rw [if_pos ht]
      exact blit_holds _ _ _ _

/-! ## Dumping a layer -/

/-- The bytes of `k` tensors from `p` on, back to back. -/
def dumpBytes (m : WeightModel) (contents : Nat → Bytes) (p : Nat) : Nat → List UInt8
  | 0 => []
  | k + 1 => dumpBytes m contents p k ++ (List.range (m.nbytes (p + k))).map (contents (p + k))

section

variable {m : WeightModel} {contents : Nat → Bytes} {w : Weights}

theorem dumpBytes_length (p k : Nat) : (dumpBytes m contents p k).length = m.byteSum p k := by
  induction k with
  | zero => rfl
  | succ k ih =>
      unfold dumpBytes
      rw [List.length_append, ih, List.length_map, List.length_range, byteSum_succ]

/-- Byte `j` of the `k`-th tensor stands behind the tensors before it. -/
theorem dumpBytes_getD {p n k j : Nat} (hk : k < n) (hj : j < m.nbytes (p + k)) :
    (dumpBytes m contents p n).getD (m.byteSum p k + j) 0 = contents (p + k) j := by
  induction n with
  | zero => omega
  | succ n ih =>
      unfold dumpBytes
      by_cases hkn : k = n
      · subst hkn
        rw [List.getD_append_right _ _ _ _ (by rw [dumpBytes_length]; omega), dumpBytes_length,
          Nat.add_sub_cancel_left, List.getD_eq_getElem _ _ (by simpa using hj)]
        simp
      · have hlt : m.byteSum p k + j < m.byteSum p n := by
          have h1 : m.byteSum p (k + 1) ≤ m.byteSum p n :=
            Finset.sum_le_sum_of_subset (Finset.range_subset_range.mpr (by omega))
          rw [byteSum_succ] at h1
          omega
        rw [List.getD_append _ _ _ _ (by rw [dumpBytes_length]; exact hlt)]
        exact ih (by omega)

/-- Every byte of a dump belongs to one of the tensors. -/
theorem exists_of_lt_byteSum {p n q : Nat} (hq : q < m.byteSum p n) :
    ∃ k j, k < n ∧ j < m.nbytes (p + k) ∧ q = m.byteSum p k + j := by
  induction n with
  | zero => exact absurd hq (Nat.not_lt_zero q)
  | succ n ih =>
      rw [byteSum_succ] at hq
      by_cases h : q < m.byteSum p n
      · obtain ⟨k, j, hk, hj, rfl⟩ := ih h
        exact ⟨k, j, by omega, hj, rfl⟩
      · exact ⟨n, q - m.byteSum p n, Nat.lt_succ_self n, by omega, by omega⟩

theorem Loaded.tensorGet (h : Loaded m contents w) {t : Nat} (ht : t < m.sizes.length) :
    tensorGet m w t = some ((List.range (m.nbytes t)).map (contents t)) := by
  unfold MzCache.Weights.tensorGet
  rw [h.tensors t ht]
  simp only [h.svm, Bool.false_eq_true, if_false]
  refine congrArg some (List.map_congr_left fun i hi => ?_)
  exact h.holds t ht i (List.mem_range.mp hi)

theorem Loaded.saveTensors (h : Loaded m contents w) {p k n : Nat}
    (hin : p + k + n ≤ m.sizes.length) :
    saveTensors m w n (p + k) (dumpBytes m contents p k) =
      some (dumpBytes m contents p (k + n)) := by
  induction n generalizing k with
  | zero => rfl
  | succ n ih =>
      unfold MzCache.Weights.saveTensors
      rw [if_neg (by omega), h.tensorGet (by omega)]
      show MzCache.Weights.saveTensors m w n (p + (k + 1)) (dumpBytes m contents p (k + 1)) = _
      rw [ih (by omega), Nat.add_right_comm k 1 n]
      rfl

/-- The length of a dump: the bytes of the layer rounded up to 4096. -/
def dumpLength (bytes : Nat) : Nat := (bytes + 4095) / 4096 * 4096

/-- What a file has to be to be the dump of the tensors from `p` on. -/
structure DumpOf (m : WeightModel) (contents : Nat → Bytes) (p : Nat) (file : List UInt8) :
    Prop where
  length : file.length = dumpLength (m.byteSum p m.numTensorsPerLayer)
  tensor : ∀ k < m.numTensorsPerLayer, ∀ j < m.nbytes (p + k),
    file.getD (m.byteSum p k + j) 0 = contents (p + k) j
  behind : ∀ q, m.byteSum p m.numTensorsPerLayer ≤ q → file.getD q 0 = 0

theorem Loaded.dump (h : Loaded m contents w) {layer p : Nat}
    (hfirst : m.layerFirstTensor layer = some p)
    (hin : p + m.numTensorsPerLayer ≤ m.sizes.length) :
    ∃ file, saveWeightsInLayerToFile m w layer = some file ∧ DumpOf m contents p file := by
  have hsave := h.saveTensors (p := p) (k := 0) (n := m.numTensorsPerLayer) hin
  rw [Nat.zero_add, Nat.add_zero] at hsave
  have hlen := @dumpBytes_length m contents p m.numTensorsPerLayer
  refine ⟨dumpBytes m contents p m.numTensorsPerLayer ++ List.replicate
      ((4096 - (dumpBytes m contents p m.numTensorsPerLayer).length % 4096) % 4096) 0,
    ?_, ⟨?_, fun k hk j hj => ?_, fun q hq => ?_⟩⟩
  · unfold saveWeightsInLayerToFile
    rw [hfirst]
    show Option.map _ (MzCache.Weights.saveTensors m w _ p (dumpBytes m contents p 0)) = _
    rw [hsave]
    rfl
  · rw [List.length_append, List.length_replicate, hlen]
    unfold dumpLength
    omega
  · have hlt : m.byteSum p k + j < m.byteSum p m.numTensorsPerLayer := by
      have h1 : m.byteSum p (k + 1) ≤ m.byteSum p m.numTensorsPerLayer :=
        Finset.sum_le_sum_of_subset (Finset.range_subset_range.mpr hk)
      rw [byteSum_succ] at h1
      omega
    rw [List.getD_append _ _ _ _ (by rw [hlen]; exact hlt)]
    exact dumpBytes_getD hk hj
  · rw [List.getD_append_right _ _ _ _ (by rw [hlen]; exact hq)]
    simp [List.getD_eq_getElem?_getD, List.getElem?_replicate]
    split <;> rfl

end

end MzCache.Weights
