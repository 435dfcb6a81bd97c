import MzCache.CacheGen.Chunk

/-!
# Tables of counted data

The bin tables, what the 16-bit histogram and prefix sums of `cdf_calculate_cpu` stand for, and
what makes the rows it returns well formed. A prefix sum counts the tokens below a level; it is
that count as long as no more than `2 ^ 16 - 1` tokens are counted.
-/

namespace MzCache.CacheGen

open MzCache.Lib

/-! ## Bin tables -/

def keyFirstLayers : ℕ := 1
def keySecondLayers : ℕ := 1
def keyFirstBins : ℕ := 32
def keySecondBins : ℕ := 32
def keyThirdBins : ℕ := 32
def valueFirstLayers : ℕ := 2
def valueFirstBins : ℕ := 32
def valueSecondBins : ℕ := 32

/-- `make_key_bins_cpp`. -/
def makeKeyBinsCpp (nLayers : ℕ) : List ℕ :=
  (List.range nLayers).map fun l =>
    if l < keyFirstLayers then keyFirstBins
    else if l < keyFirstLayers + keySecondLayers then keySecondBins
    else keyThirdBins

/-- `make_value_bins_cpp`. -/
def makeValueBinsCpp (nLayers : ℕ) : List ℕ :=
  (List.range nLayers).map fun l => if l < valueFirstLayers then valueFirstBins else valueSecondBins

/-- Every layer has the bins of the first one. -/
theorem bins_of_mem {nLayers maxBins : ℕ}
    (h : maxBins ∈ makeKeyBinsCpp nLayers ∨ maxBins ∈ makeValueBinsCpp nLayers) :
    maxBins = bins := by
  rcases h with h | h
  · obtain ⟨l, -, rfl⟩ := List.mem_map.mp h
    simp [keyFirstBins, keySecondBins, keyThirdBins, bins]
  · obtain ⟨l, -, rfl⟩ := List.mem_map.mp h
    simp [valueFirstBins, valueSecondBins, bins]

/-- The levels of `quantize_from_bins_raw` go up to `max_bins - 2`. -/
theorem quantizeEntry_le {f32 : Rounding} {C t c y : ℕ} {h : Bytes}
    (hy : quantizeEntry f32 C h t c = some y) : y ≤ bins - 2 := by
  obtain ⟨x, -, rfl⟩ := Option.map_eq_some_iff.mp hy
  dsimp only
  unfold bins
  split_ifs <;> omega

/-- So do those of `quantize_from_bins_raw_chunked`, where no value is an infinity or a NaN. -/
theorem quantizeChunked_le {f32 : Rounding} {C T : ℕ} {quant : Bytes → ℕ → UInt8}
    (hquant : Quantizes f32 C quant) {chunks : ℕ → Bytes}
    (hfinite : ∀ t < T, ∀ c < C,
      halfValue (halfAt (chunks (t / tokensPerChunk)) (c + C * (t % tokensPerChunk))) ≠ none)
    {i : ℕ} (hi : i < T * C) : (quantizeChunked C quant chunks i).toNat ≤ bins - 2 := by
  have hC : 0 < C := by
    rcases Nat.eq_zero_or_pos C with rfl | h
    · omega
    · exact h
  have ht : i / C < T := Nat.div_lt_of_lt_mul (by rwa [Nat.mul_comm])
  have hc : i % C < C := Nat.mod_lt _ hC
  have hmod : i / C % tokensPerChunk < tokensPerChunk := Nat.mod_lt _ (by decide)
  obtain ⟨x, hx⟩ := Option.ne_none_iff_exists'.mp (hfinite _ ht _ hc)
  have hindex : i % C + C * (i / C % tokensPerChunk) < tokensPerChunk * C := by
    nlinarith
  have hdiv : (i % C + C * (i / C % tokensPerChunk)) / C = i / C % tokensPerChunk := by
    rw [Nat.add_mul_div_left _ _ hC, Nat.div_eq_of_lt hc, Nat.zero_add]
  have hrem : (i % C + C * (i / C % tokensPerChunk)) % C = i % C := by
    rw [Nat.add_mul_mod_self_left, Nat.mod_eq_of_lt hc]
  obtain ⟨y, hy⟩ : ∃ y, quantizeEntry f32 C (chunks (i / C / tokensPerChunk))
      (i / C % tokensPerChunk) (i % C) = some y := by
    unfold quantizeEntry
    rw [hx]
    exact ⟨_, rfl⟩
  have hentry := hquant (chunks (i / C / tokensPerChunk)) _ hindex (UInt8.ofNat y) (by
    unfold quantizeFromBinsRaw
    rw [hdiv, hrem, hy]
    rfl)
  have hle := quantizeEntry_le hy
  unfold quantizeChunked
  rw [hentry, UInt8.toNat_ofNat']
  exact (Nat.mod_le _ _).trans hle

/-! ## Counts -/

section Counts

variable (T C : ℕ) (q : ℕ → UInt8)

/-- The tokens of channel `c` whose level is `value`. -/
def levelCount (c value : ℕ) : ℕ :=
  (List.range T).countP fun t => (q (c + C * t)).toNat = value

/-- The tokens of channel `c` whose level is below `b`. -/
def belowCount (c b : ℕ) : ℕ :=
  (List.range T).countP fun t => (q (c + C * t)).toNat < b

variable {T C q}

theorem levelCount_le (c value : ℕ) : levelCount T C q c value ≤ T := by
  simpa [levelCount] using List.countP_le_length (l := List.range T)
    (p := fun t => decide ((q (c + C * t)).toNat = value))

theorem belowCount_le (c b : ℕ) : belowCount T C q c b ≤ T := by
  simpa [belowCount] using List.countP_le_length (l := List.range T)
    (p := fun t => decide ((q (c + C * t)).toNat < b))

@[simp] theorem belowCount_zero (c : ℕ) : belowCount T C q c 0 = 0 := by
  simp [belowCount]

theorem belowCount_succ (c b : ℕ) :
    belowCount T C q c (b + 1) = belowCount T C q c b + levelCount T C q c b := by
  unfold belowCount levelCount
  generalize List.range T = tokens
  induction tokens with
  | nil => simp
  | cons t rest ih =>
      simp only [List.countP_cons, ih, decide_eq_true_eq]
      split_ifs <;> omega

theorem belowCount_mono {c a b : ℕ} (h : a ≤ b) : belowCount T C q c a ≤ belowCount T C q c b := by
  apply List.countP_mono_left
  intro t _ ht
  simp only [decide_eq_true_eq] at ht ⊢
  omega

/-- The counts below `b` add up. -/
theorem belowCount_eq_sum (c b : ℕ) :
    belowCount T C q c b = ((List.range b).map (levelCount T C q c)).sum := by
  induction b with
  | zero => simp
  | succ b ih => rw [List.sum_range_succ, belowCount_succ, ih]

/-- Every token is below the bins. -/
theorem belowCount_all {maxBins c : ℕ} (hc : c < C)
    (hq : ∀ i < T * C, (q i).toNat < maxBins) : belowCount T C q c maxBins = T := by
  have hall : (List.range T).countP (fun t => (q (c + C * t)).toNat < maxBins) =
      (List.range T).length := by
    rw [List.countP_eq_length]
    intro t ht
    have hlt := List.mem_range.mp ht
    have hi : c + C * t < T * C := by nlinarith
    simpa using hq _ hi
  simpa [belowCount] using hall

end Counts

/-! ## Well-formed tables -/

/-- The table `cdf_calculate_cpu` makes of `q` is well formed: rows start at zero, increase
strictly and end at `0xFFFF` at most, and no sum or product on the way to them wrapped. -/
structure WellFormed (maxBins T C : ℕ) (q : ℕ → UInt8) : Prop where
  zero : ∀ c < C, (cdfRow (cdfCalculateCpu maxBins T C q) (maxBins + 1) c 0).toNat = 0
  rises : ∀ c < C, ∀ b < maxBins,
    (cdfRow (cdfCalculateCpu maxBins T C q) (maxBins + 1) c b).toNat <
      (cdfRow (cdfCalculateCpu maxBins T C q) (maxBins + 1) c (b + 1)).toNat
  last : ∀ c < C, (cdfRow (cdfCalculateCpu maxBins T C q) (maxBins + 1) c maxBins).toNat ≤ 0xFFFF
  hist : ∀ c < C, ∀ value < maxBins, cdfHist maxBins T C q c value = levelCount T C q c value
  sums : ∀ c < C, ∀ b ≤ maxBins, cdfPrefix maxBins T C q c b = belowCount T C q c b
  product : ∀ c < C, ∀ b ≤ maxBins, (0xFFFF - maxBins) * cdfPrefix maxBins T C q c b < 2 ^ 32
  entry : ∀ c < C, ∀ b ≤ maxBins,
    (cdfRow (cdfCalculateCpu maxBins T C q) (maxBins + 1) c b).toNat =
      (0xFFFF - maxBins) * cdfPrefix maxBins T C q c b /
        max 1 (cdfPrefix maxBins T C q c maxBins) + b

/-- Numbers that increase and end at the last index are their indices. -/
theorem indices_of_steps {f : ℕ → ℕ} {n : ℕ} (hstep : ∀ b < n, f b < f (b + 1)) (hlast : f n = n) :
    ∀ b ≤ n, f b = b := by
  have hlow : ∀ b ≤ n, b ≤ f b := by
    intro b hb
    induction b with
    | zero => exact Nat.zero_le _
    | succ b ih =>
        have hlt := hstep b hb
        have hle := ih (by omega)
        omega
  have hhigh : ∀ d ≤ n, f (n - d) ≤ n - d := by
    intro d hd
    induction d with
    | zero => exact hlast.le
    | succ d ih =>
        have hlt := hstep (n - (d + 1)) (by omega)
        have hle := ih (by omega)
        rw [show n - (d + 1) + 1 = n - d by omega] at hlt
        omega
  intro b hb
  have hle := hhigh (n - b) (by omega)
  rw [show n - (n - b) = b by omega] at hle
  exact le_antisymm hle (hlow b hb)

section Rows

variable {maxBins T C : ℕ} {q : ℕ → UInt8}

/-- Entry `b` of row `c`. -/
theorem cdfRow_eq {c b : ℕ} (hb : b ≤ maxBins) :
    cdfRow (cdfCalculateCpu maxBins T C q) (maxBins + 1) c b =
      UInt16.ofNat ((0xFFFF - maxBins) * cdfPrefix maxBins T C q c b /
        max 1 (cdfPrefix maxBins T C q c maxBins) + b) := by
  have hdiv : ((maxBins + 1) * c + b) / (maxBins + 1) = c := by
    rw [Nat.mul_add_div (Nat.succ_pos _), Nat.div_eq_of_lt (Nat.lt_succ_of_le hb), Nat.add_zero]
  have hmod : ((maxBins + 1) * c + b) % (maxBins + 1) = b := by
    rw [Nat.mul_add_mod, Nat.mod_eq_of_lt (Nat.lt_succ_of_le hb)]
  simp only [cdfRow, cdfCalculateCpu, hdiv, hmod]

/-- A histogram entry is the count of its level, modulo `2 ^ 16`. -/
theorem cdfHist_eq {c value : ℕ} (hbins : maxBins < 256) (hc : c < C)
    (hq : ∀ i < T * C, (q i).toNat < maxBins) :
    cdfHist maxBins T C q c value = levelCount T C q c value % 2 ^ 16 := by
  unfold cdfHist levelCount
  congr 1
  apply List.countP_congr
  intro t ht
  have hlt := List.mem_range.mp ht
  have hi : c + C * t < T * C := by nlinarith
  have hlevel := hq _ hi
  have hmin : min (q (c + C * t)).toNat (maxBins % 256) = (q (c + C * t)).toNat := by omega
  rw [hmin]

/-- With less than `2 ^ 16` tokens nothing wraps. -/
theorem wellFormed_of_lt (hT : 0 < T) (hlt : T < 2 ^ 16) (hbins : maxBins < 256)
    (hq : ∀ i < T * C, (q i).toNat < maxBins) : WellFormed maxBins T C q := by
  have hhist : ∀ c < C, ∀ value, cdfHist maxBins T C q c value = levelCount T C q c value := by
    intro c hc value
    have hle := @levelCount_le T C q c value
    rw [cdfHist_eq hbins hc hq, Nat.mod_eq_of_lt (by omega)]
  have hsums : ∀ c < C, ∀ b, cdfPrefix maxBins T C q c b = belowCount T C q c b := by
    intro c hc b
    have hle := @belowCount_le T C q c b
    unfold cdfPrefix
    rw [List.map_congr_left fun value _ => hhist c hc value, ← belowCount_eq_sum,
      Nat.mod_eq_of_lt (by omega)]
  -- the normalised count takes what the offset leaves free
  have hnorm : ∀ c < C, ∀ b,
      (0xFFFF - maxBins) * belowCount T C q c b / T ≤ 0xFFFF - maxBins := by
    intro c _ b
    apply Nat.div_le_of_le_mul
    rw [Nat.mul_comm T]
    exact Nat.mul_le_mul_left _ (belowCount_le c b)
  have hentry : ∀ c < C, ∀ b ≤ maxBins,
      (cdfRow (cdfCalculateCpu maxBins T C q) (maxBins + 1) c b).toNat =
        (0xFFFF - maxBins) * belowCount T C q c b / T + b := by
    intro c hc b hb
    have hle := hnorm c hc b
    rw [cdfRow_eq hb, hsums c hc, hsums c hc, belowCount_all hc hq, max_eq_right hT,
      UInt16.toNat_ofNat', Nat.mod_eq_of_lt (by omega)]
  refine ⟨fun c hc => ?_, fun c hc b hb => ?_, fun c hc => ?_, fun c hc value _ => hhist c hc value,
    fun c hc b _ => hsums c hc b, fun c hc b _ => ?_, fun c hc b hb => ?_⟩
  · rw [hentry c hc 0 (Nat.zero_le _)]
    simp
  · rw [hentry c hc b hb.le, hentry c hc (b + 1) hb]
    have hstep : (0xFFFF - maxBins) * belowCount T C q c b / T ≤
        (0xFFFF - maxBins) * belowCount T C q c (b + 1) / T := by
      apply Nat.div_le_div_right
      exact Nat.mul_le_mul_left _ (belowCount_mono b.le_succ)
    omega
  · have hsize := (cdfRow (cdfCalculateCpu maxBins T C q) (maxBins + 1) c maxBins).toNat_lt
    omega
  · have hle := @belowCount_le T C q c b
    rw [hsums c hc]
    calc (0xFFFF - maxBins) * belowCount T C q c b ≤ 0xFFFF * 0xFFFF :=
          Nat.mul_le_mul (Nat.sub_le _ _) (by omega)
      _ < 2 ^ 32 := by norm_num
  · rw [hentry c hc b hb, hsums c hc, hsums c hc, belowCount_all hc hq, max_eq_right hT]

/-- A well-formed table is one the coder can use. -/
theorem WellFormed.table (h : WellFormed bins T C q) :
    ∀ c < C, CdfRow (cdfRow (cdfCalculateCpu bins T C q) (bins + 1) c) (bins + 1 - 2) :=
  Increasing.table h.rises

/-- The tables the constructor keeps of finite data are, up to 255 chunks. -/
theorem encodeMetaFunctionNew_tables {f32 : Rounding} {quant : Bytes → ℕ → UInt8}
    (hquant : Quantizes f32 C quant) {kChunks vChunks : ℕ → Bytes} (hT : 0 < T) (hlt : T < 2 ^ 16)
    (hk : ∀ t < T, ∀ c < C,
      halfValue (halfAt (kChunks (t / tokensPerChunk)) (c + C * (t % tokensPerChunk))) ≠ none)
    (hv : ∀ t < T, ∀ c < C,
      halfValue (halfAt (vChunks (t / tokensPerChunk)) (c + C * (t % tokensPerChunk))) ≠ none) :
    (∀ c < C, CdfRow (cdfRow (encodeMetaFunctionNew quant kChunks vChunks T C).cdfKey (bins + 1) c)
      (bins + 1 - 2)) ∧
    ∀ c < C, CdfRow (cdfRow (encodeMetaFunctionNew quant kChunks vChunks T C).cdfValue (bins + 1) c)
      (bins + 1 - 2) := by
  have htable : ∀ chunks : ℕ → Bytes, (∀ t < T, ∀ c < C,
      halfValue (halfAt (chunks (t / tokensPerChunk)) (c + C * (t % tokensPerChunk))) ≠ none) →
      WellFormed bins T C (quantizeChunked C quant chunks) := by
    intro chunks hfinite
    apply wellFormed_of_lt hT hlt (by decide)
    intro i hi
    have hle := quantizeChunked_le hquant hfinite hi
    unfold bins at *
    omega
  exact ⟨(htable kChunks hk).table, (htable vChunks hv).table⟩

/-! ## Tables of `2 ^ 16` tokens -/

/-- The last sum wraps to zero, so that the entries are multiples of the others. -/
theorem cdfRow_full (hT : T = 2 ^ 16) (hbins : maxBins < 256)
    (hq : ∀ i < T * C, (q i).toNat < maxBins) {c : ℕ} (hc : c < C) {b : ℕ} (hb : b ≤ maxBins) :
    (cdfRow (cdfCalculateCpu maxBins T C q) (maxBins + 1) c b).toNat =
      ((0xFFFF - maxBins) * belowCount T C q c b + b) % 2 ^ 16 := by
  have hsums : ∀ b, cdfPrefix maxBins T C q c b = belowCount T C q c b % 2 ^ 16 := by
    intro b
    unfold cdfPrefix
    rw [List.map_congr_left fun value _ => @cdfHist_eq maxBins T C q c value hbins hc hq,
      belowCount_eq_sum]
    induction b with
    | zero => rfl
    | succ b ih =>
        rw [List.sum_range_succ, List.sum_range_succ, Nat.add_mod, ih, Nat.mod_mod,
          ← Nat.add_mod]
  have hlast : cdfPrefix maxBins T C q c maxBins = 0 := by
    rw [hsums, belowCount_all hc hq, hT, Nat.mod_self]
  have hmod : ∀ k p : ℕ, (k * (p % 2 ^ 16) + b) % 2 ^ 16 = (k * p + b) % 2 ^ 16 := by
    intro k p
    exact Nat.ModEq.add_right b (Nat.ModEq.mul_left k (Nat.mod_modEq p _))
  rw [cdfRow_eq hb, hlast, hsums, UInt16.toNat_ofNat', max_eq_left (Nat.zero_le _), Nat.div_one,
    hmod]

/-- A channel of one level has the indices for its row. -/
theorem cdfRow_full_level (hT : T = 2 ^ 16) (hbins : maxBins < 256)
    (hq : ∀ i < T * C, (q i).toNat < maxBins) {c x : ℕ} (hc : c < C)
    (hx : levelCount T C q c x = T) {b : ℕ} (hb : b ≤ maxBins) :
    (cdfRow (cdfCalculateCpu maxBins T C q) (maxBins + 1) c b).toNat = b := by
  have hsucc := @belowCount_succ T C q c x
  have hle := @belowCount_le T C q c (x + 1)
  have hb' : b < 2 ^ 16 := by omega
  rw [cdfRow_full hT hbins hq hc hb]
  rcases Nat.lt_or_ge x b with hlt | hge
  · have hmono := @belowCount_mono T C q c (x + 1) b hlt
    have hall := @belowCount_le T C q c b
    have heq : belowCount T C q c b = 2 ^ 16 := by omega
    rw [heq, Nat.add_comm, Nat.add_mul_mod_self_right, Nat.mod_eq_of_lt hb']
  · have hmono := @belowCount_mono T C q c _ _ hge
    have heq : belowCount T C q c b = 0 := by omega
    rw [heq, Nat.mul_zero, Nat.zero_add, Nat.mod_eq_of_lt hb']

/-- Such a channel is the only kind whose row increases: it has `maxBins` steps to get from 0
to `maxBins`, and every entry is then its own index. -/
theorem cdfRow_full_rises_iff (hT : T = 2 ^ 16) (hbins : maxBins = bins)
    (hq : ∀ i < T * C, (q i).toNat < maxBins) {c : ℕ} (hc : c < C) :
    (∀ b < maxBins, (cdfRow (cdfCalculateCpu maxBins T C q) (maxBins + 1) c b).toNat <
        (cdfRow (cdfCalculateCpu maxBins T C q) (maxBins + 1) c (b + 1)).toNat) ↔
      ∃ x, levelCount T C q c x = T := by
  have hsmall : maxBins = 32 := hbins
  have hlast := @belowCount_all T C q maxBins c hc hq
  constructor
  · intro hrise
    have hrow : ∀ b ≤ maxBins, ((0xFFFF - maxBins) * belowCount T C q c b + b) % 2 ^ 16 = b := by
      have hstep : ∀ b < maxBins, ((0xFFFF - maxBins) * belowCount T C q c b + b) % 2 ^ 16 <
          ((0xFFFF - maxBins) * belowCount T C q c (b + 1) + (b + 1)) % 2 ^ 16 := by
        intro b hb
        have h := hrise b hb
        rwa [cdfRow_full hT (by omega) hq hc hb.le, cdfRow_full hT (by omega) hq hc hb] at h
      exact indices_of_steps hstep (by
        rw [hlast, hT, Nat.add_comm, Nat.add_mul_mod_self_right, Nat.mod_eq_of_lt (by omega)])
    have hcount : ∀ b ≤ maxBins, belowCount T C q c b = 0 ∨ belowCount T C q c b = T := by
      intro b hb
      have hentry := hrow b hb
      have hle := @belowCount_le T C q c b
      have hmod : (0xFFFF - maxBins) * belowCount T C q c b ≡ 0 [MOD 2 ^ 16] := by
        apply Nat.ModEq.add_right_cancel' b
        rw [Nat.zero_add]
        exact hentry.trans (Nat.mod_eq_of_lt (by omega)).symm
      rw [hsmall] at hmod
      -- the factor is odd
      have hdvd : 2 ^ 16 ∣ belowCount T C q c b :=
        Nat.Coprime.dvd_of_dvd_mul_left (by norm_num) (Nat.modEq_zero_iff_dvd.mp hmod)
      rcases Nat.eq_zero_or_pos (belowCount T C q c b) with hzero | hpos
      · exact Or.inl hzero
      · have hge := Nat.le_of_dvd hpos hdvd
        exact Or.inr (le_antisymm hle (hT.le.trans hge))
    -- where the sum leaves zero, all the tokens are
    by_contra hnone
    have hzero : ∀ b ≤ maxBins, belowCount T C q c b = 0 := by
      intro b hb
      induction b with
      | zero => exact belowCount_zero c
      | succ b ih =>
          have hsucc := @belowCount_succ T C q c b
          rw [ih (by omega), Nat.zero_add] at hsucc
          rcases hcount (b + 1) hb with h | h
          · exact h
          · exact absurd ⟨b, hsucc ▸ h⟩ hnone
    rw [hzero maxBins le_rfl, hT] at hlast
    exact absurd hlast (by decide)
  · rintro ⟨x, hx⟩ b hb
    rw [cdfRow_full_level hT (by omega) hq hc hx hb.le, cdfRow_full_level hT (by omega) hq hc hx hb]
    exact b.lt_succ_self

end Rows

end MzCache.CacheGen
