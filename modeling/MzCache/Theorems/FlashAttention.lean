import MzCache.Attention.KernelRun

/-!
# Chunked flash attention is attention

The kernel reads keys through the chunk table, tile by tile, and keeps a running maximum and
sums split over the lanes of a warp. In exact arithmetic a launch writes, for every head and
query, the softmax average over all keys, where key `k` is row `k % 256` of chunk `k / 256`;
the order in which the warps finish does not matter, and nothing else is written.
-/

namespace MzCache.Theorems

open MzCache.Lib MzCache.Attention

section

variable {𝕜 : Type*} {c : Attention.Config} {a : Args 𝕜}

theorem dstIndex_inj {j j' head head' d d' : Nat} (hhead : head < a.ne02)
    (hhead' : head' < a.ne02) (hd : d < c.headDim) (hd' : d' < c.headDim)
    (h : a.dstIndex c j head d = a.dstIndex c j' head' d') : j = j' ∧ head = head' ∧ d = d' := by
  have hform : ∀ j head d, a.dstIndex c j head d = d + c.headDim * (head + a.ne02 * j) := by
    intro j head d
    unfold Args.dstIndex
    ring
  rw [hform, hform] at h
  have hmod := congrArg (· % c.headDim) h
  have hdiv := congrArg (· / c.headDim) h
  simp only [Nat.add_mul_mod_self_left, Nat.mod_eq_of_lt hd, Nat.mod_eq_of_lt hd'] at hmod
  have hpos : 0 < c.headDim := Nat.zero_lt_of_lt hd
  simp only [Nat.add_mul_div_left _ _ hpos, Nat.div_eq_of_lt hd, Nat.div_eq_of_lt hd',
    Nat.zero_add] at hdiv
  have hmod2 := congrArg (· % a.ne02) hdiv
  have hdiv2 := congrArg (· / a.ne02) hdiv
  simp only [Nat.add_mul_mod_self_left, Nat.mod_eq_of_lt hhead, Nat.mod_eq_of_lt hhead'] at hmod2
  have hpos2 : 0 < a.ne02 := Nat.zero_lt_of_lt hhead
  simp only [Nat.add_mul_div_left _ _ hpos2, Nat.div_eq_of_lt hhead, Nat.div_eq_of_lt hhead',
    Nat.zero_add] at hdiv2
  exact ⟨hdiv2, hmod2, hmod⟩

theorem mem_launchItems {group head warp : Nat} :
    (group, head, warp) ∈ a.launchItems c ↔
      group < (a.ne01 + c.ncols - 1) / c.ncols ∧ head < a.ne02 ∧ warp < c.nwarps := by
  simp [Args.launchItems]

end

section

variable {𝕜 : Type*} [Field 𝕜] [LinearOrder 𝕜] {c : Attention.Config} {e : Exponential 𝕜}
  {a : Args 𝕜}

/-- A column writes the attention of its query, feature by feature. -/
theorem mem_columnWrites (hc : c.Valid) (ha : a.Valid) {head j : Nat} (hj : j < a.ne01)
    (w : Nat × 𝕜) :
    w ∈ columnWrites c e a head j ↔
      ∃ d < c.headDim, w = (a.dstIndex c j head d, a.attention c e head j d) := by
  have hholds := Column.run_holds (e := e) hc ha head hj
  have hquot : ∀ lane < c.warp, ∀ x < c.width,
      (Column.run c e a head j).VKQ lane x /
        (List.range c.warp).foldl
          (fun sum lane => sum + (Column.run c e a head j).kqsum lane) 0 =
      a.attention c e head j (c.width * lane + x) := by
    intro lane hlane x hx
    rw [foldl_add_eq_sum, zero_add]
    exact (hholds.sums lane hlane x hx).div_eq
  have hwidth : 0 < c.width := Nat.pos_of_dvd_of_pos hc.width Nat.two_pos
  unfold columnWrites
  rw [List.mem_flatMap]
  constructor
  · rintro ⟨lane, hlane, hw⟩
    obtain ⟨x, hx, rfl⟩ := List.mem_map.mp hw
    rw [List.mem_range] at hlane hx
    refine ⟨c.width * lane + x, ?_, by rw [hquot lane hlane x hx]⟩
    calc c.width * lane + x < c.width * (lane + 1) := by rw [Nat.mul_succ]; omega
      _ ≤ c.headDim := Nat.mul_le_mul_left _ hlane
  · rintro ⟨d, hd, rfl⟩
    have hlane : d / c.width < c.warp := Nat.div_lt_of_lt_mul hd
    have hx : d % c.width < c.width := Nat.mod_lt _ hwidth
    refine ⟨d / c.width, List.mem_range.mpr hlane,
      List.mem_map.mpr ⟨d % c.width, List.mem_range.mpr hx, ?_⟩⟩
    rw [hquot _ hlane _ hx, Nat.div_add_mod]

/-- Everything a warp writes is the attention of a query in range. -/
theorem warpWrites_sound (hc : c.Valid) (ha : a.Valid) {group head warp : Nat} {w : Nat × 𝕜}
    (hw : w ∈ warpWrites c e a group head warp) :
    ∃ j < a.ne01, ∃ d < c.headDim,
      w = (a.dstIndex c j head d, a.attention c e head j d) := by
  obtain ⟨t, ht, hw⟩ := List.mem_flatMap.mp hw
  have hj : group * c.ncols + (t * c.nwarps + warp) < a.ne01 := by
    simpa using List.mem_takeWhile_imp ht
  exact ⟨_, hj, (mem_columnWrites hc ha hj w).mp hw⟩

/-- The warp of query `j` gets to it: it meets no query out of range before. -/
theorem warpWrites_complete (hc : c.Valid) (ha : a.Valid) {head j d : Nat} (hj : j < a.ne01)
    (hd : d < c.headDim) :
    (a.dstIndex c j head d, a.attention c e head j d) ∈
      warpWrites c e a (j / c.ncols) head (j % c.ncols % c.nwarps) := by
  have hdecomp : j / c.ncols * c.ncols +
      (j % c.ncols / c.nwarps * c.nwarps + j % c.ncols % c.nwarps) = j := by
    rw [Nat.mul_comm (j % c.ncols / c.nwarps), Nat.div_add_mod, Nat.mul_comm, Nat.div_add_mod]
  have hcol : j % c.ncols / c.nwarps < c.ncols / c.nwarps :=
    Nat.div_lt_div_of_lt_of_dvd hc.columns (Nat.mod_lt _ hc.ncols)
  refine List.mem_flatMap.mpr ⟨j % c.ncols / c.nwarps, ?_, ?_⟩
  · rw [← List.take_append_drop (j % c.ncols / c.nwarps + 1) (List.range (c.ncols / c.nwarps)),
      List.take_range, Nat.min_eq_left hcol, List.takeWhile_append_of_pos]
    · exact List.mem_append_left _ (List.mem_range.mpr (Nat.lt_succ_self _))
    · intro t ht
      -- the warp's earlier queries lie in front of this one
      have hle := Nat.mul_le_mul_right c.nwarps (Nat.le_of_lt_succ (List.mem_range.mp ht))
      exact decide_eq_true (by omega)
  · rw [hdecomp]
    exact (mem_columnWrites hc ha hj _).mpr ⟨d, hd, rfl⟩

/-- Whatever the order in which the warps finish, a launch writes the attention of every query and
head, the average being over at least one key that is not masked, and it writes nothing else. -/
theorem flash_attention_eq [IsStrictOrderedRing 𝕜] (hc : c.Valid) (ha : a.Valid)
    {order : List (Nat × Nat × Nat)} (horder : order.Perm (a.launchItems c)) (dst : Nat → 𝕜) :
    (∀ head < a.ne02, ∀ j < a.ne01, (∃ k < a.ne11, a.mask (j * a.ne11 + k) ≠ ⊥) →
      0 < ∑ k ∈ Finset.range a.ne11, e.weight 0 (a.logit c head j k) ∧
      ∀ d < c.headDim,
        launch c e a order dst (a.dstIndex c j head d) = a.attention c e head j d) ∧
    ∀ i, (∀ head < a.ne02, ∀ j < a.ne01, ∀ d < c.headDim, i ≠ a.dstIndex c j head d) →
      launch c e a order dst i = dst i := by
  have hsound : ∀ w ∈ order.flatMap fun item => warpWrites c e a item.1 item.2.1 item.2.2,
      ∃ head < a.ne02, ∃ j < a.ne01, ∃ d < c.headDim,
        w = (a.dstIndex c j head d, a.attention c e head j d) := by
    intro w hw
    obtain ⟨⟨group, head, warp⟩, hitem, hw⟩ := List.mem_flatMap.mp hw
    obtain ⟨-, hhead, -⟩ := mem_launchItems.mp (horder.mem_iff.mp hitem)
    obtain ⟨j, hj, d, hd, rfl⟩ := warpWrites_sound hc ha hw
    exact ⟨head, hhead, j, hj, d, hd, rfl⟩
  refine ⟨fun head hhead j hj hkey => ⟨?_, fun d hd => ?_⟩, fun i hi => ?_⟩
  · obtain ⟨k, hk, hmask⟩ := hkey
    refine Finset.sum_pos' (fun k _ => e.weight_nonneg 0 _)
      ⟨k, Finset.mem_range.mpr hk, e.weight_pos 0 fun hbot => hmask ?_⟩
    exact WithBot.map_eq_bot_iff.mp hbot
  · refine writeAll_agree (fun w hw haddr => ?_) ?_ dst
    · obtain ⟨head', hhead', j', hj', d', hd', rfl⟩ := hsound w hw
      obtain ⟨rfl, rfl, rfl⟩ := dstIndex_inj hhead' hhead hd' hd haddr
      rfl
    · refine ⟨_, List.mem_flatMap.mpr ⟨(j / c.ncols, head, j % c.ncols % c.nwarps), ?_,
        warpWrites_complete hc ha hj hd⟩, rfl⟩
      refine horder.mem_iff.mpr (mem_launchItems.mpr ⟨?_, hhead, Nat.mod_lt _ hc.nwarps⟩)
      rw [Nat.div_lt_iff_lt_mul hc.ncols]
      have h1 := Nat.div_add_mod (a.ne01 + c.ncols - 1) c.ncols
      have h2 := Nat.mod_lt (a.ne01 + c.ncols - 1) hc.ncols
      rw [Nat.mul_comm] at h1
      omega
  · refine writeAll_other (fun hmem => ?_) dst
    obtain ⟨w, hw, rfl⟩ := List.mem_map.mp hmem
    obtain ⟨head, hhead, j, hj, d, hd, rfl⟩ := hsound w hw
    exact hi head hhead j hj d hd rfl

end

/-- The tuned configurations fit the kernel's loops. -/
theorem kernelConfig_valid (a8x wide : Bool) : (kernelConfig a8x wide).Valid := by
  cases a8x <;> cases wide <;>
    exact ⟨by decide, by decide, by decide, by decide, by decide, by decide, by decide, by decide,
      by decide, by decide⟩

/-- The exponential function of the reals. -/
noncomputable def realExp : Exponential ℝ where
  toFun := Real.exp
  pos := Real.exp_pos
  map_add := Real.exp_add

/-- Two heads on one head of keys, three queries, two chunks of keys; the values are ones. -/
def twoChunks : Args ℝ where
  Q := fun _ => 0
  K := fun _ _ => 0
  V := fun _ _ => 1
  mask := fun _ => (0 : ℝ)
  scale := 1
  maxBias := 0
  m0 := 0
  m1 := 0
  nHeadLog2 := 0
  ne01 := 3
  ne02 := 2
  ne11 := 512
  ne12 := 1
  nb01 := 512
  nb02 := 256
  nb11 := 256
  nb12 := 128
  nb21 := 256
  nb22 := 128

theorem twoChunks_valid : twoChunks.Valid where
  keys := by decide
  kRows := by decide
  qRows := by decide
  rows := rfl
  heads := rfl
  slope := fun _ _ => by simp [Args.slopef, getAlibiSlope, twoChunks]

/-- The last query's last feature of head 1, whatever was there before. -/
theorem flash_attention_twoChunks :
    (twoChunks.dstIndex (kernelConfig false true) 2 1 127 = 767) ∧
    launch (kernelConfig false true) realExp twoChunks
        (twoChunks.launchItems (kernelConfig false true)) (fun _ => 5) 767 =
      twoChunks.attention (kernelConfig false true) realExp 1 2 127 :=
  ⟨rfl, ((flash_attention_eq (e := realExp) (kernelConfig_valid false true) twoChunks_valid
    (List.Perm.refl _) (fun _ => 5)).1 1 (by decide) 2 (by decide)
      ⟨0, by decide, WithBot.coe_ne_bot⟩).2 127 (by decide)⟩

end MzCache.Theorems
