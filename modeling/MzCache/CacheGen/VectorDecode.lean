import MzCache.CacheGen.BlockSpec

/-!
# Vectorised decoders

`decode_ntokens_cpu_new_simd_range` and `decode_ntokens_cpu_new_range_pairs`: the range decoder
for groups of four and of two channels, which take every step together. A group's lanes do not
touch each other, so a lane decodes what the scalar decoder does of its channel. The channels
behind the last whole group are left as `std::vector` made them.
-/

namespace MzCache.CacheGen

open MzCache.Lib

/-! ## Lanes -/

/-- One channel of a group: its table row and its decoder. -/
structure Lane where
  row : ℕ → UInt16
  dec : DecState LowRange

instance : Inhabited Lane := ⟨⟨fun _ => 0, ⟨⟨0, 0⟩, 0, ⟨[], 0, 0, 0, 0⟩⟩⟩⟩

/-- The symbol search of one lane. -/
def Lane.sym (binsP1 : ℕ) (l : Lane) : ℕ :=
  binsearchSymbol l.row binsP1 (LowRange.count l.dec.iv l.dec.value)

/-- One lane of `update_range4_neon_rangeQ16`. -/
def updateRange4NeonRangeQ16 (s : LowRange) (cLo cHi : ℕ) : LowRange where
  low := u32 (u64 (s.low + (u64 (s.range * cLo) >>> 16)))
  range := u32 (u64 (s.range * u32 (cHi + 2 ^ 32 - cLo)) >>> 16)

/-- One lane of `update_range2_neon_rangeQ16`: `vmull`, `vshrq`, `vaddq` and `vmovn`. -/
def updateRange2NeonRangeQ16 (s : LowRange) (cLo cHi : ℕ) : LowRange where
  low := u32 (u64 (u64 (s.range * cLo) / 2 ^ 16 + s.low))
  range := u32 (u64 (s.range * u32 (cHi + 2 ^ 32 - cLo)) / 2 ^ 16)

section Groups

variable (fuel : ℕ) (update : LowRange → ℕ → ℕ → LowRange) (binsP1 : ℕ)

/-- The range update of one lane, to the interval of symbol `s`. -/
def Lane.narrow (l : Lane) (s : ℕ) : Lane :=
  { l with dec := { l.dec with
      iv := update l.dec.iv (l.row s).toNat (cdfHigh l.row (binsP1 - 2) s) } }

/-- The range update of all lanes. -/
def updateLanes (lanes : List Lane) (syms : List ℕ) : List Lane :=
  List.zipWith (Lane.narrow update binsP1) lanes syms

/-- The renormalisation of one lane. -/
def renormLane (l : Lane) : Except Stop Lane := do
  let dec ← decRenormLoop LowRange.coder fuel l.dec
  return { l with dec := dec }

/-- The token loop of a group. Every token is a symbol for each lane. -/
def decodeLanes : ℕ → List Lane → Except Stop (List (List UInt8))
  | 0, _ => .ok []
  | n + 1, lanes =>
      let syms := lanes.map (Lane.sym binsP1)
      if n = 0 then .ok [syms.map UInt8.ofNat]
      else do
        let lanes ← (updateLanes update binsP1 lanes syms).mapM (renormLane fuel)
        let rest ← decodeLanes n lanes
        return syms.map UInt8.ofNat :: rest

/-- The lane of channel `c` before the first token. -/
def startLane (cdf : ℕ → UInt16) (input lengths : List UInt8) (c : ℕ) : Lane :=
  let bs := input.drop (channelOffset lengths c)
  let len := (lengths.getD c 0).toNat
  ⟨cdfRow cdf binsP1 c,
    ⟨LowRange.coder.init, loadU32Be bs (if len ≥ 4 then 4 else len), BitReader.start bs len 4⟩⟩

/-- The columns of one group of `g` channels. -/
def decodeGroup (g : ℕ) (cdf : ℕ → UInt16) (input lengths : List UInt8) (j : ℕ) :
    Except Stop (List (List UInt8)) := do
  let tokens ← decodeLanes fuel update binsP1 maxTokensPerChunk
    ((List.range g).map fun i => startLane binsP1 cdf input lengths (g * j + i))
  return (List.range g).map fun i => tokens.map fun token => token.getD i 0

/-- The loop over groups. No loop follows it. -/
def decodeGroups (g : ℕ) (cdf : ℕ → UInt16) (C : ℕ) (input lengths : List UInt8) :
    Except Stop (List UInt8) :=
  if lengths.length ≠ C then .error (.thrown "lengths size mismatch")
  else do
    let groups ← (List.range (C / g)).mapM (decodeGroup fuel update binsP1 g cdf input lengths)
    return assemble C maxTokensPerChunk groups.flatten

end Groups

def decodeNtokensCpuNewSimdRange (fuel : ℕ) (cdf : ℕ → UInt16) (C binsP1 : ℕ)
    (input lengths : List UInt8) : Except Stop (List UInt8) :=
  decodeGroups fuel updateRange4NeonRangeQ16 binsP1 4 cdf C input lengths

def decodeNtokensCpuNewRangePairs (fuel : ℕ) (cdf : ℕ → UInt16) (C binsP1 : ℕ)
    (input lengths : List UInt8) : Except Stop (List UInt8) :=
  decodeGroups fuel updateRange2NeonRangeQ16 binsP1 2 cdf C input lengths

/-- Both updates are that of the scalar decoder. -/
theorem updateRange4_eq : updateRange4NeonRangeQ16 = LowRange.decNarrow := by
  funext s cLo cHi
  simp only [updateRange4NeonRangeQ16, LowRange.decNarrow, u32, u64, LowRange.mk.injEq, and_true]
  omega

theorem updateRange2_eq : updateRange2NeonRangeQ16 = LowRange.decNarrow := by
  funext s cLo cHi
  simp only [updateRange2NeonRangeQ16, LowRange.decNarrow, u32, u64, LowRange.mk.injEq,
    Nat.shiftRight_eq_div_pow, and_true]
  omega

/-! ## Lanes do not touch each other -/

section Lockstep

variable {fuel binsP1 : ℕ}

/-- A group decodes, lane by lane, what each lane decodes alone. -/
theorem decodeLanes_eq {g n : ℕ} (f : ℕ → Lane) (v : ℕ → List UInt8)
    (h : ∀ i < g, decodeSymbols LowRange.coder fuel (f i).row binsP1 n (f i).dec = .ok (v i)) :
    decodeLanes fuel LowRange.decNarrow binsP1 n ((List.range g).map f) =
      .ok ((List.range n).map fun t => (List.range g).map fun i => (v i).getD t 0) := by
  induction n generalizing f v with
  | zero => rfl
  | succ n ih =>
      have hsyms : ∀ i < g, UInt8.ofNat ((f i).sym binsP1) = (v i).getD 0 0 := by
        intro i hi
        have hlen := decodeSymbols_length (h i hi)
        obtain ⟨b, l, hv⟩ := List.exists_cons_of_length_eq_add_one hlen
        have hi' := h i hi
        rw [hv] at hi'
        rw [hv, List.getD_cons_zero, decodeSymbols_head hi']
        rfl
      have hfirst : ((List.range g).map f).map (Lane.sym binsP1) =
          (List.range g).map fun i => (f i).sym binsP1 := by
        simp [Function.comp_def]
      have hbytes : ((List.range g).map fun i => (f i).sym binsP1).map UInt8.ofNat =
          (List.range g).map fun i => (v i).getD 0 0 := by
        rw [List.map_map]
        exact List.map_congr_left fun i hi => hsyms i (List.mem_range.mp hi)
      rw [decodeLanes, hfirst, hbytes]
      by_cases hn : n = 0
      · subst hn
        simp
      · rw [if_neg hn]
        -- what the lanes are after the renormalisation, and what they decode from there
        have hstep : ∀ i, ∃ d rest, i < g →
            renormLane fuel ((f i).narrow LowRange.decNarrow binsP1 ((f i).sym binsP1)) =
              .ok ⟨(f i).row, d⟩ ∧
            decodeSymbols LowRange.coder fuel (f i).row binsP1 n d = .ok rest ∧
            v i = UInt8.ofNat ((f i).sym binsP1) :: rest := by
          intro i
          by_cases hi : i < g
          · have hdec := h i hi
            rw [decodeSymbols] at hdec
            simp only [if_neg hn, bind_eq_ok, pure, Except.pure, Except.ok.injEq] at hdec
            obtain ⟨d, hd, rest, hrest, hv⟩ := hdec
            refine ⟨d, rest, fun _ => ⟨?_, hrest, hv.symm⟩⟩
            unfold renormLane
            rw [bind_eq_ok]
            exact ⟨d, hd, rfl⟩
          · exact ⟨(f i).dec, [], fun h => absurd h hi⟩
        choose d rest hd using hstep
        have hupdate : updateLanes LowRange.decNarrow binsP1 ((List.range g).map f)
            ((List.range g).map fun i => (f i).sym binsP1) =
            (List.range g).map fun i =>
              (f i).narrow LowRange.decNarrow binsP1 ((f i).sym binsP1) := by
          unfold updateLanes
          rw [List.zipWith_map, List.zipWith_self]
        have hlanes : ((List.range g).map fun i =>
              (f i).narrow LowRange.decNarrow binsP1 ((f i).sym binsP1)).mapM (renormLane fuel) =
            .ok ((List.range g).map fun i => ⟨(f i).row, d i⟩) := by
          rw [List.mapM_map]
          exact mapM_range_eq_ok fun i hi => (hd i hi).1
        rw [hupdate, hlanes]
        have hrest := ih (fun i => ⟨(f i).row, d i⟩) rest fun i hi => (hd i hi).2.1
        simp only [bind, Except.bind, pure, Except.pure, hrest]
        rw [List.range_succ_eq_map, List.map_cons, List.map_map]
        congr 2
        refine List.map_congr_left fun t _ => List.map_congr_left fun i hi => ?_
        rw [(hd i (List.mem_range.mp hi)).2.2, Nat.succ_eq_add_one, List.getD_cons_succ]

/-- The columns of the groups stand one behind the other. -/
theorem flatten_groups {α : Type} (v : ℕ → α) (g m : ℕ) :
    ((List.range m).map fun j => (List.range g).map fun i => v (g * j + i)).flatten =
      (List.range (g * m)).map v := by
  induction m with
  | zero => simp
  | succ m ih =>
      rw [List.range_succ, List.map_append, List.flatten_append, ih, Nat.mul_succ, List.range_add,
        List.map_append, List.map_map]
      simp [Function.comp_def]

variable {cdf : ℕ → UInt16} {C : ℕ} {input lengths : List UInt8} {v : ℕ → List UInt8}

/-- A group decodes the columns of its channels. -/
theorem decodeGroup_eq {g j : ℕ} (h : ∀ i < g, decodeChannel LowRange.coder fuel
      (cdfRow cdf binsP1 (g * j + i)) binsP1 maxTokensPerChunk
      (input.drop (channelOffset lengths (g * j + i))) (lengths.getD (g * j + i) 0).toNat =
        .ok (v (g * j + i))) :
    decodeGroup fuel LowRange.decNarrow binsP1 g cdf input lengths j =
      .ok ((List.range g).map fun i => v (g * j + i)) := by
  have hlen : ∀ i < g, (v (g * j + i)).length = maxTokensPerChunk := fun i hi =>
    decodeSymbols_length (h i hi)
  unfold decodeGroup
  rw [decodeLanes_eq (fun i => startLane binsP1 cdf input lengths (g * j + i))
    (fun i => v (g * j + i)) h]
  simp only [bind, Except.bind, pure, Except.pure]
  congr 1
  refine List.map_congr_left fun i hi => ?_
  have hi' := List.mem_range.mp hi
  rw [List.map_map]
  apply List.ext_getElem
  · simp [hlen i hi']
  · intro t ht _
    simp only [List.length_map, List.length_range] at ht
    simp [hi', List.getD_eq_getElem?_getD, hlen i hi', ht]

/-- What a vectorised decoder returns, when the channels of its groups decode: the columns of
these channels, and zeros behind them. -/
theorem decodeGroups_eq {g : ℕ} (hlengths : lengths.length = C)
    (h : ∀ c < C, decodeChannel LowRange.coder fuel (cdfRow cdf binsP1 c) binsP1 maxTokensPerChunk
      (input.drop (channelOffset lengths c)) (lengths.getD c 0).toNat = .ok (v c)) :
    decodeGroups fuel LowRange.decNarrow binsP1 g cdf C input lengths =
      .ok (assemble C maxTokensPerChunk ((List.range (g * (C / g))).map v)) := by
  have hgroups : (List.range (C / g)).mapM
      (decodeGroup fuel LowRange.decNarrow binsP1 g cdf input lengths) =
      .ok ((List.range (C / g)).map fun j => (List.range g).map fun i => v (g * j + i)) := by
    refine mapM_range_eq_ok fun j hj => decodeGroup_eq fun i hi => h _ ?_
    have hle : g * (j + 1) ≤ g * (C / g) := Nat.mul_le_mul_left g hj
    have hC := Nat.mul_div_le C g
    rw [Nat.mul_succ] at hle
    omega
  unfold decodeGroups
  rw [if_neg (not_not.mpr hlengths), hgroups, ← flatten_groups]
  rfl

/-- Entry `t * C + c` of a block is entry `t` of column `c`. -/
theorem assemble_getD {cols : List (List UInt8)} {n c t : ℕ} (hc : c < C) (ht : t < n) :
    (assemble C n cols).getD (t * C + c) 0 = (cols.getD c []).getD t 0 := by
  have hi : t * C + c < n * C := by
    calc t * C + c < t * C + C := by omega
      _ = (t + 1) * C := by ring
      _ ≤ n * C := Nat.mul_le_mul_right _ ht
  have hmod : (t * C + c) % C = c := by
    rw [Nat.mul_comm, Nat.mul_add_mod, Nat.mod_eq_of_lt hc]
  have hdiv : (t * C + c) / C = t := by
    rw [Nat.mul_comm, Nat.mul_add_div (by omega), Nat.div_eq_of_lt hc, Nat.add_zero]
  simp only [assemble, List.getD_eq_getElem?_getD, List.getElem?_map, List.getElem?_range hi,
    Option.map_some, Option.getD_some, hmod, hdiv]

/-- The block has the columns of the scalar decoder if and only if the ones it leaves out are
zeros. -/
theorem assemble_tail_iff {m : ℕ} (hm : m ≤ C) (hlen : ∀ c < C, (v c).length = maxTokensPerChunk) :
    assemble C maxTokensPerChunk ((List.range m).map v) =
        assemble C maxTokensPerChunk ((List.range C).map v) ↔
      ∀ c < C, m ≤ c → ∀ b ∈ v c, b = 0 := by
  have hgetD : ∀ n, ∀ c, ((List.range n).map v).getD c [] = if c < n then v c else [] := by
    intro n c
    split_ifs with h <;> simp [List.getD_eq_getElem?_getD, h]
  constructor
  · intro heq c hc hmc b hb
    obtain ⟨t, ht, rfl⟩ := List.getElem_of_mem hb
    have ht' := ht
    rw [hlen c hc] at ht'
    have hentry := congrArg (fun l => l.getD (t * C + c) 0) heq
    simp only [assemble_getD hc ht', hgetD] at hentry
    rw [if_neg (by omega), if_pos hc, List.getD_eq_getElem?_getD (l := v c),
      List.getElem?_eq_getElem ht] at hentry
    exact hentry.symm
  · intro hzero
    unfold assemble
    refine List.map_congr_left fun i hi => ?_
    have hi' := List.mem_range.mp hi
    have hC : 0 < C := by
      rcases Nat.eq_zero_or_pos C with rfl | hpos
      · simp at hi'
      · exact hpos
    have hc := Nat.mod_lt i hC
    rw [hgetD, hgetD, if_pos hc]
    split_ifs with h
    · rfl
    · have ht : i / C < (v (i % C)).length := by
        rw [hlen _ hc]
        exact Nat.div_lt_of_lt_mul (by rwa [Nat.mul_comm])
      rw [List.getD_eq_getElem?_getD (l := v (i % C)), List.getElem?_eq_getElem ht]
      exact (hzero _ hc (by omega) _ (List.getElem_mem ht)).symm

end Lockstep

/-! ## The scalar decoder always returns -/

section Returns

variable {row : ℕ → UInt16}

theorem binsearchLoop_le (maxSymbol count fuel : ℕ) (lo hi : ℤ) (hlo : 0 ≤ lo)
    (hhi : hi ≤ maxSymbol) : binsearchLoop row maxSymbol count fuel lo hi ≤ maxSymbol := by
  induction fuel generalizing lo hi with
  | zero => simp [binsearchLoop]
  | succ fuel ih =>
      rw [binsearchLoop]
      dsimp only
      split_ifs <;> first | omega | exact ih _ _ (by omega) (by omega)

/-- The search returns a symbol of the table, whatever it looks for. -/
theorem binsearchSymbol_le {lp : ℕ} (hlp : 2 ≤ lp) (count : ℕ) :
    binsearchSymbol row lp count ≤ lp - 2 := by
  have hle : binsearchLoop row (lp - 2 : ℕ) count lp 0 (lp - 2) ≤ (lp - 2 : ℕ) :=
    binsearchLoop_le (lp - 2) count lp 0 (lp - 2) le_rfl (by omega)
  have hmax : ((lp - 2 : ℕ) : ℤ) = (lp : ℤ) - 2 := by omega
  rw [hmax] at hle
  unfold binsearchSymbol
  omega

/-- A range decoder between two tokens. -/
def Ready (d : DecState LowRange) : Prop := quarter < d.iv.range ∧ d.iv.range < 2 ^ 32

/-- The renormalisation ends when enough doublings are left. -/
theorem decRenormLoop_ready {k fuel : ℕ} (hfuel : k < fuel) {d : DecState LowRange}
    (hlt : d.iv.range < 2 ^ 32) (henough : quarter < d.iv.range * 2 ^ k) :
    ∃ d', decRenormLoop LowRange.coder fuel d = .ok d' ∧ Ready d' := by
  induction k generalizing fuel d with
  | zero =>
      obtain ⟨fuel, rfl⟩ : ∃ n, fuel = n + 1 := ⟨fuel - 1, by omega⟩
      have hstop : LowRange.coder.decRenorm d.iv d.value = none := by
        simp only [LowRange.coder, LowRange.decRenorm]
        rw [if_neg (by omega)]
      exact ⟨d, by rw [decRenormLoop, hstop], by omega, hlt⟩
  | succ k ih =>
      obtain ⟨fuel, rfl⟩ : ∃ n, fuel = n + 1 := ⟨fuel - 1, by omega⟩
      by_cases hsmall : d.iv.range ≤ quarter
      · -- each case of the renormalisation doubles the range
        obtain ⟨iv, value, hstep, hrange⟩ : ∃ iv value,
            LowRange.coder.decRenorm d.iv d.value = some (iv, value) ∧
              iv.range = 2 * d.iv.range := by
          have hdouble : u32 (d.iv.range <<< 1) = 2 * d.iv.range := by
            unfold quarter at hsmall
            unfold u32
            rw [Nat.shiftLeft_eq]
            omega
          simp only [LowRange.coder, LowRange.decRenorm]
          rw [if_pos hsmall]
          split_ifs
          · exact ⟨_, _, rfl, hdouble⟩
          · exact ⟨_, _, rfl, hdouble⟩
          · exact ⟨_, _, rfl, hdouble⟩
        rw [decRenormLoop, hstep]
        apply ih (by omega)
        · show iv.range < 2 ^ 32
          unfold quarter at hsmall
          omega
        · show quarter < iv.range * 2 ^ k
          rw [hrange]
          calc quarter < d.iv.range * 2 ^ (k + 1) := henough
            _ = 2 * d.iv.range * 2 ^ k := by ring
      · have hstop : LowRange.coder.decRenorm d.iv d.value = none := by
          simp only [LowRange.coder, LowRange.decRenorm]
          rw [if_neg hsmall]
        exact ⟨d, by rw [decRenormLoop, hstop], by omega, hlt⟩

/-- After the update to a symbol of a row that increases, it ends. -/
theorem narrow_renorm {fuel lp s : ℕ} (hfuel : 32 ≤ fuel) (hrise : Rises row (lp - 2))
    (hs : s ≤ lp - 2) {d : DecState LowRange} (hd : Ready d) :
    ∃ d', decRenormLoop LowRange.coder fuel
      { d with iv := LowRange.decNarrow d.iv (row s).toNat (cdfHigh row (lp - 2) s) } = .ok d' ∧
      Ready d' := by
  obtain ⟨hwide, hlt⟩ := hd
  have hgt := hrise.cdfHigh_gt hs
  have hle := CdfRow.cdfHigh_le row (lp - 2) s
  have hdiff := diff_eq hgt hle
  set w := cdfHigh row (lp - 2) s - (row s).toNat with hw
  have hprod : d.iv.range * w < 2 ^ 64 := by
    calc d.iv.range * w ≤ 2 ^ 32 * 2 ^ 16 := Nat.mul_le_mul hlt.le (by omega)
      _ < 2 ^ 64 := by norm_num
  have hrange : (LowRange.decNarrow d.iv (row s).toNat (cdfHigh row (lp - 2) s)).range =
      d.iv.range * w / 2 ^ 16 := by
    have hquot : d.iv.range * w / 2 ^ 16 < 2 ^ 32 := by
      apply Nat.div_lt_of_lt_mul
      calc d.iv.range * w ≤ d.iv.range * 2 ^ 16 := Nat.mul_le_mul_left _ (by omega)
        _ < 2 ^ 16 * 2 ^ 32 := by omega
    simp only [LowRange.decNarrow]
    rw [hdiff, u64, Nat.mod_eq_of_lt hprod, Nat.shiftRight_eq_div_pow, u32_of_lt hquot]
  apply decRenormLoop_ready (k := 17) (by omega)
  · show (LowRange.decNarrow d.iv (row s).toNat (cdfHigh row (lp - 2) s)).range < 2 ^ 32
    exact Nat.mod_lt _ (by norm_num)
  · show quarter < (LowRange.decNarrow d.iv (row s).toNat (cdfHigh row (lp - 2) s)).range * 2 ^ 17
    rw [hrange]
    have hge : d.iv.range ≤ d.iv.range * w := Nat.le_mul_of_pos_right _ (by omega)
    have hmono : d.iv.range / 2 ^ 16 ≤ d.iv.range * w / 2 ^ 16 := Nat.div_le_div_right hge
    unfold quarter at *
    omega

/-- So a decoder that is ready decodes every token, whatever the stream. -/
theorem decodeSymbols_ok {fuel lp n : ℕ} (hfuel : 32 ≤ fuel) (hlp : 2 ≤ lp)
    (hrise : Rises row (lp - 2)) {d : DecState LowRange} (hd : Ready d) :
    ∃ l, decodeSymbols LowRange.coder fuel row lp n d = .ok l := by
  induction n generalizing d with
  | zero => exact ⟨[], rfl⟩
  | succ n ih =>
      rw [decodeSymbols]
      by_cases hn : n = 0
      · exact ⟨_, by rw [if_pos hn]⟩
      · obtain ⟨d', hstep, hd'⟩ := narrow_renorm hfuel hrise
          (binsearchSymbol_le hlp (LowRange.coder.count d.iv d.value)) hd
        obtain ⟨l, hl⟩ := ih hd'
        refine ⟨UInt8.ofNat (binsearchSymbol row lp (LowRange.coder.count d.iv d.value)) :: l, ?_⟩
        rw [if_neg hn, bind_eq_ok]
        exact ⟨d', hstep, bind_eq_ok.mpr ⟨l, hl, rfl⟩⟩

end Returns

/-! ## Channels of level 0 -/

section Zero

variable {row : ℕ → UInt16}

/-- The code value stays in the share of level 0 for `n` tokens: whenever a token is due, its
scaled position is below the second entry of the row. -/
def StaysZero (fuel : ℕ) (row : ℕ → UInt16) : ℕ → DecState LowRange → Prop
  | 0, _ => True
  | n + 1, d =>
      LowRange.count d.iv d.value < (row 1).toNat ∧
      (n = 0 ∨ ∃ d', decRenormLoop LowRange.coder fuel
          { d with iv := LowRange.decNarrow d.iv (row 0).toNat (row 1).toNat } = .ok d' ∧
        StaysZero fuel row n d')

/-- Channel `c` of a block holds level 0 only. -/
def ZeroChannel (fuel : ℕ) (cdf : ℕ → UInt16) (binsP1 : ℕ) (input lengths : List UInt8)
    (c : ℕ) : Prop :=
  StaysZero fuel (cdfRow cdf binsP1 c) maxTokensPerChunk (startLane binsP1 cdf input lengths c).dec

theorem rises_one_le {maxSymbol m : ℕ} (hrise : Rises row maxSymbol) (hm : 1 ≤ m)
    (hmax : m ≤ maxSymbol) : (row 1).toNat ≤ (row m).toNat := by
  induction m, hm using Nat.le_induction with
  | base => exact le_rfl
  | succ m hm ih =>
      have hstep := hrise m (by omega)
      have hle := ih (by omega)
      omega

/-- Below the second entry the search ends at symbol 0. -/
theorem binsearchLoop_zero {maxSymbol count : ℕ} (hrise : Rises row maxSymbol)
    (hmax : 1 ≤ maxSymbol) (hcount : count < (row 1).toNat) (fuel : ℕ) (hi : ℤ)
    (hhi : hi ≤ maxSymbol) : binsearchLoop row maxSymbol count fuel 0 hi = 0 := by
  induction fuel generalizing hi with
  | zero => rfl
  | succ fuel ih =>
      rw [binsearchLoop]
      by_cases hle : (0 : ℤ) ≤ hi
      · rw [if_pos hle]
        obtain ⟨m, hm⟩ : ∃ m : ℕ, (0 + hi) / 2 = m := ⟨((0 + hi) / 2).toNat, by omega⟩
        simp only [hm, Int.toNat_natCast]
        rcases Nat.eq_zero_or_pos m with rfl | hpos
        · by_cases hlow : count < (row 0).toNat
          · rw [if_pos hlow]
            exact ih _ (by omega)
          · rw [if_neg hlow, if_neg]
            · rfl
            · rw [if_neg (by omega), Nat.zero_add]
              omega
        · have hge := rises_one_le hrise hpos (by omega)
          rw [if_pos (by omega)]
          exact ih _ (by omega)
      · rw [if_neg hle, if_pos le_rfl]

/-- From there on it ends behind it. -/
theorem binsearchLoop_pos {maxSymbol count : ℕ} (hrise : Rises row maxSymbol)
    (hmax : 1 ≤ maxSymbol) (hcount : (row 1).toNat ≤ count) (fuel : ℕ) (lo hi : ℤ) (hlo : 0 ≤ lo)
    (hpos : 1 ≤ hi) (hhi : hi ≤ maxSymbol) (hfuel : hi - lo + 1 < fuel) (hlh : lo ≤ hi + 1) :
    1 ≤ binsearchLoop row maxSymbol count fuel lo hi := by
  induction fuel generalizing lo hi with
  | zero => omega
  | succ fuel ih =>
      rw [binsearchLoop]
      by_cases hle : lo ≤ hi
      · rw [if_pos hle]
        obtain ⟨m, hm⟩ : ∃ m : ℕ, (lo + hi) / 2 = m := ⟨((lo + hi) / 2).toNat, by omega⟩
        simp only [hm, Int.toNat_natCast]
        by_cases hlow : count < (row m).toNat
        · rw [if_pos hlow]
          -- the first two entries are not above `count`
          have hm2 : 2 ≤ m := by
            by_contra hsmall
            have hrow : (row m).toNat ≤ (row 1).toNat := by
              have hcases : m = 0 ∨ m = 1 := by omega
              rcases hcases with rfl | rfl
              · exact (hrise 0 (by omega)).le
              · exact le_rfl
            omega
          exact ih _ _ hlo (by omega) (by omega) (by push_cast at *; omega) (by omega)
        · rw [if_neg hlow]
          split_ifs with h1 h2 h2
          · exact ih _ _ (by omega) hpos hhi (by push_cast at *; omega) (by omega)
          · omega
          · exact ih _ _ (by omega) hpos hhi (by push_cast at *; omega) (by omega)
          · rcases Nat.eq_zero_or_pos m with rfl | hm0
            · exact absurd hcount h2
            · omega
      · rw [if_neg hle, if_neg (by omega)]
        split_ifs <;> omega

theorem binsearchSymbol_eq_zero_iff {lp count : ℕ} (hlp : 3 ≤ lp) (hrise : Rises row (lp - 2)) :
    binsearchSymbol row lp count = 0 ↔ count < (row 1).toNat := by
  have hmax : ((lp - 2 : ℕ) : ℤ) = (lp : ℤ) - 2 := by omega
  unfold binsearchSymbol
  constructor
  · intro hzero
    by_contra hge
    have hpos := binsearchLoop_pos hrise (by omega) (not_lt.mp hge) lp 0 (lp - 2) le_rfl (by omega)
      (by omega) (by omega) (by omega)
    rw [hmax] at hpos
    omega
  · intro hlt
    have hzero := binsearchLoop_zero hrise (by omega) hlt lp (lp - 2) (by omega)
    rw [hmax] at hzero
    rw [hzero]
    rfl

/-- A decoder returns zeros only, if and only if the code value stays in the share of level 0. -/
theorem decodeSymbols_zero_iff {fuel lp n : ℕ} (hlp : 3 ≤ lp) (hlp' : lp ≤ 257)
    (hrise : Rises row (lp - 2)) {d : DecState LowRange} {l : List UInt8}
    (h : decodeSymbols LowRange.coder fuel row lp n d = .ok l) :
    (∀ b ∈ l, b = 0) ↔ StaysZero fuel row n d := by
  induction n generalizing d l with
  | zero =>
      simp only [decodeSymbols, Except.ok.injEq] at h
      simp [← h, StaysZero]
  | succ n ih =>
      have hle : binsearchSymbol row lp (LowRange.coder.count d.iv d.value) ≤ lp - 2 :=
        binsearchSymbol_le (by omega) _
      have hbyte : UInt8.ofNat (binsearchSymbol row lp (LowRange.coder.count d.iv d.value)) = 0 ↔
          LowRange.count d.iv d.value < (row 1).toNat := by
        rw [← binsearchSymbol_eq_zero_iff hlp hrise, ← UInt8.toNat_inj, UInt8.toNat_ofNat',
          Nat.mod_eq_of_lt (by omega)]
        rfl
      rw [decodeSymbols] at h
      rw [StaysZero]
      by_cases hn : n = 0
      · rw [if_pos hn, Except.ok.injEq] at h
        simp [← h, hn, hbyte]
      · simp only [if_neg hn, bind_eq_ok, pure, Except.pure, Except.ok.injEq] at h
        obtain ⟨d', hstep, rest, hrest, hl⟩ := h
        rw [← hl, List.forall_mem_cons, hbyte, ih hrest]
        refine and_congr_right fun hlt => ?_
        -- on symbol 0 the update is that of its share
        have hsym := (binsearchSymbol_eq_zero_iff hlp hrise).mpr hlt
        have hhigh : cdfHigh row (lp - 2) 0 = (row 1).toNat := by
          rw [cdfHigh, if_neg (by omega)]
        have hcount : LowRange.coder.count d.iv d.value = LowRange.count d.iv d.value := rfl
        rw [hcount, hsym, hhigh] at hstep
        constructor
        · intro hzero
          exact Or.inr ⟨d', hstep, hzero⟩
        · rintro (h0 | ⟨d'', hstep', hzero⟩)
          · exact absurd h0 hn
          · have heq := hstep.symm.trans hstep'
            rw [Except.ok.injEq] at heq
            rwa [heq]

end Zero

end MzCache.CacheGen
