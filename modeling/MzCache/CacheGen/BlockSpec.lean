import MzCache.CacheGen.CoderSpec

/-!
# Round trips of channels and blocks

One channel's bytes decode to its symbols exactly when the final window does not start
past the middle of the coding range; a block decodes when all its channels do.
-/

namespace MzCache.CacheGen

open MzCache.Lib

section Channel

variable {σ : Type} {K : IntervalCoder σ} {S : Scheme} {rep : σ → Window → Prop}
  {first : Window}

/-- The window in which a channel's symbols end. -/
def finalWindow (S : Scheme) (first : Window) (row : ℕ → UInt16) (maxSymbol : ℕ)
    (syms : List ℕ) : Window :=
  S.message 30 32 first (frequencies row maxSymbol syms)

/-- The bytes of a channel: the rescalings and the two terminating bits, in whole bytes. -/
def channelBytes (S : Scheme) (first : Window) (row : ℕ → UInt16) (maxSymbol : ℕ)
    (syms : List ℕ) : ℕ :=
  (S.rescalings 30 32 first (frequencies row maxSymbol syms) + 2 + 7) / 8

theorem decodeSymbols_length {row : ℕ → UInt16} {lp fuel n : ℕ} {d : DecState σ}
    {l : List UInt8} (h : decodeSymbols K fuel row lp n d = .ok l) : l.length = n := by
  induction n generalizing d l with
  | zero =>
      simp only [decodeSymbols, Except.ok.injEq] at h
      simp [← h]
  | succ n ih =>
      rw [decodeSymbols] at h
      by_cases hn : n = 0
      · rw [if_pos hn, Except.ok.injEq] at h
        simp [← h, hn]
      · simp only [if_neg hn, bind_eq_ok] at h
        obtain ⟨d', -, rest, hrest, hret⟩ := h
        simp only [pure, Except.pure, Except.ok.injEq] at hret
        rw [← hret, List.length_cons, ih hrest]

/-- Writing one channel and reading it back. -/
theorem channel_spec (hK : Lawful K S rep first) {row : ℕ → UInt16} {lp fuel : ℕ}
    (hlp : 2 ≤ lp) (hrise : Rises row (lp - 2)) (hfuel : 32 ≤ fuel) (syms : List ℕ)
    (hlen : syms.length ≤ 16) (hsyms : ∀ s ∈ syms, s ≤ lp - 2 ∧ s < 256) :
    Settled S (finalWindow S first row (lp - 2) syms) ∧
    ∃ bytes : List UInt8, encodeChannel K fuel row (lp - 2) syms [] = .ok bytes ∧
      bytes.length < 256 ∧ bytes.length = channelBytes S first row (lp - 2) syms ∧
      ((row 0).toNat = 0 → ∀ rest : List UInt8,
      (decodeChannel K fuel row lp syms.length (bytes ++ rest) bytes.length =
          .ok (syms.map UInt8.ofNat) ↔
        (finalWindow S first row (lp - 2) syms).low ≤ 2 ^ 31)) := by
  let c₀ : Coded := ⟨first, [], 0⟩
  have hstart : c₀.start 30 = 0 := by simp [Coded.start, Coded.origin, c₀, hK.first_low, bitsVal]
  have henc₀ : Encodes rep [] ⟨K.init, 0, ⟨0, 0, []⟩⟩ c₀ :=
    ⟨hK.init, rfl, BitOut.ok_empty _, rfl⟩
  obtain ⟨e, c, hrun, henc, hset, -, hshifts, hwin, hexact, hdec⟩ :=
    codeSymbols_spec hK hlp hrise hfuel syms hsyms _ c₀ henc₀ hK.first_settled
      (by rw [show c₀.shifts = 0 from rfl]; omega)
  -- the terminating bits and the padding of the last byte
  set w := if K.low e.iv < quarter then appendBitAndPending false (e.pending + 1) e.out
    else appendBitAndPending true (e.pending + 1) e.out with hw
  have hpending : e.pending + 1 < 2 ^ 31 := by
    have hle : c.pending ≤ c.shifts := Nat.le_add_left _ _
    rw [henc.pending]
    rw [show c₀.shifts = 0 from rfl] at hshifts
    omega
  have hfinish : Appends e.out w
      (Lib.emit (decide (2 ^ 30 ≤ c.win.low)) (c.pending + 1)) := by
    have hlow := hK.low_eq _ _ henc.rep
    rw [quarter_eq, hlow, henc.pending] at hw
    rw [hw]
    by_cases h : c.win.low < 2 ^ 30
    · rw [if_pos h, decide_eq_false (by omega)]
      exact appendBitAndPending_appends _ (henc.pending ▸ hpending) _ henc.ok
    · rw [if_neg h, decide_eq_true (by omega)]
      exact appendBitAndPending_appends _ (henc.pending ▸ hpending) _ henc.ok
  have hbits : w.bits = c.finish 30 := by
    rw [hfinish.bits, henc.bits]
    rfl
  obtain ⟨k, hk, hspill⟩ := spillPartial_byteBits w hfinish.ok
  rw [hbits] at hspill
  set bytes := (spillPartialRegToVec w).out with hbytes
  have hcount : 8 * bytes.length = c.shifts + 2 + k := by
    have := congrArg List.length hspill
    rwa [length_byteBits, List.length_append, Coded.length_finish, List.length_replicate] at this
  have hfinal : c.win = finalWindow S first row (lp - 2) syms := hwin
  have h0 : c₀.shifts = 0 := rfl
  refine ⟨hfinal ▸ hset, bytes, ?_, ?_, ?_, fun hzero rest => ?_⟩
  · rw [encodeChannel, hrun]
    rfl
  · omega
  · rw [h0, Nat.zero_add] at hexact
    rw [channelBytes, ← hexact]
    omega
  · have hstream : channelStream (bytes ++ rest) bytes.length = padded (c.finish 30) := by
      rw [channelStream, List.take_left, hspill, padded_append_zeros]
    have hfol : Follows (bytes ++ rest) bytes.length K.init
        ⟨K.init, loadU32Be (bytes ++ rest) (if bytes.length ≥ 4 then 4 else bytes.length),
          BitReader.start (bytes ++ rest) bytes.length 4⟩ c₀ := by
      refine ⟨rfl, ?_, BitReader.start_at _ _⟩
      rw [loadU32Be_eq, Coded.Reads]
      simp [Coded.origin, Coded.shifts, c₀, bitsVal]
    have hlo : c₀.NotBelow 30 (channelStream (bytes ++ rest) bytes.length) := by
      rw [Coded.NotBelow, hstart]
      exact Nat.zero_le _
    have hhi : c.NotAbove 30 (channelStream (bytes ++ rest) bytes.length) := by
      rw [hstream]
      exact Coded.finish_notAbove hset.wide
    rw [decodeChannel, hdec hzero _ _ _ hfol hlo hhi, hstream, Coded.finish_notBelow_iff, hfinal]
    norm_num

end Channel

/-! ## Blocks -/

/-- A table of `C` usable rows of `lp` entries. -/
structure CdfTable (C lp : ℕ) where
  entry : ℕ → UInt16
  rows : ∀ c < C, CdfRow (cdfRow entry lp c) (lp - 2)

theorem mapM_eq_ok {α β : Type} {f : α → Except Stop β} {l : List α} {r : List β} :
    l.mapM f = .ok r ↔ List.Forall₂ (fun a b => f a = .ok b) l r := by
  induction l generalizing r with
  | nil => simp [pure, Except.pure, eq_comm]
  | cons a l ih =>
      simp only [List.mapM_cons, bind_eq_ok, ih, List.forall₂_cons_left_iff, pure, Except.pure,
        Except.ok.injEq]
      constructor
      · rintro ⟨b, hb, r', hr', rfl⟩
        exact ⟨b, r', hb, hr', rfl⟩
      · rintro ⟨b, r', hb, hr', rfl⟩
        exact ⟨b, hb, r', hr', rfl⟩

theorem mapM_range_eq_ok {β : Type} {f : ℕ → Except Stop β} {g : ℕ → β} {n : ℕ}
    (h : ∀ c < n, f c = .ok (g c)) : (List.range n).mapM f = .ok ((List.range n).map g) := by
  rw [mapM_eq_ok, List.forall₂_map_right_iff, List.forall₂_same]
  exact fun c hc => h c (List.mem_range.mp hc)

theorem mapM_range_getD {f : ℕ → Except Stop (List UInt8)} {n : ℕ} {r : List (List UInt8)}
    (h : (List.range n).mapM f = .ok r) {c : ℕ} (hc : c < n) : f c = .ok (r.getD c []) := by
  rw [mapM_eq_ok] at h
  have hlen := h.length_eq
  rw [List.length_range] at hlen
  have hget := h.get (i := c) (by simpa using hc) (by omega)
  simpa [List.getD_eq_getElem?_getD, List.getElem?_eq_getElem (show c < r.length by omega)]
    using hget

/-- The channels that precede channel `c` take up exactly the bytes before its offset. -/
theorem channelOffset_eq (v : ℕ → List UInt8) (n c : ℕ) (hc : c ≤ n)
    (hv : ∀ i < n, (v i).length < 256) :
    channelOffset (((List.range n).map v).map fun l => UInt8.ofNat l.length) c =
      ((List.range c).map v).flatten.length := by
  have htake : (((List.range n).map v).map fun l => UInt8.ofNat l.length).take c =
      ((List.range c).map v).map fun l => UInt8.ofNat l.length := by
    rw [← List.map_take, ← List.map_take, List.take_range, Nat.min_eq_left hc]
  rw [channelOffset, htake, List.length_flatten, List.map_map, List.map_map, List.map_map]
  congr 1
  refine List.map_congr_left fun i hi => ?_
  have := hv i (by rw [List.mem_range] at hi; omega)
  simpa using Nat.mod_eq_of_lt this

theorem drop_flatten (v : ℕ → List UInt8) (n c : ℕ) (hc : c < n) :
    ∃ rest, (((List.range n).map v).flatten).drop ((List.range c).map v).flatten.length =
      v c ++ rest := by
  obtain ⟨m, rfl⟩ : ∃ m, n = c + (m + 1) := ⟨n - c - 1, by omega⟩
  have hsplit : (List.range (c + (m + 1))).map v =
      (List.range c).map v ++ (v c :: ((List.range m).map fun i => v (c + (i + 1)))) := by
    rw [List.range_add, List.map_append, List.map_map, List.range_succ_eq_map]
    simp [Function.comp_def]
  rw [hsplit, List.flatten_append, List.drop_left, List.flatten_cons]
  exact ⟨_, rfl⟩

section Block

variable {σ : Type} {K : IntervalCoder σ} {S : Scheme} {rep : σ → Window → Prop}
  {first : Window}

/-- What the decoders should return for a block of clamped entries. -/
def clampedBlock (clamp : UInt8 → ℕ) (q : ℕ → UInt8) (C : ℕ) : List UInt8 :=
  (List.range (maxTokensPerChunk * C)).map fun i => UInt8.ofNat (clamp (q i))

theorem assemble_columns (clamp : UInt8 → ℕ) (q : ℕ → UInt8) (C : ℕ) (hC : 0 < C) :
    assemble C maxTokensPerChunk ((List.range C).map fun c =>
      (column clamp q C maxTokensPerChunk c).map UInt8.ofNat) = clampedBlock clamp q C := by
  refine List.map_congr_left fun i hi => ?_
  rw [List.mem_range] at hi
  have hmod := Nat.mod_lt i hC
  have hdiv : i / C < maxTokensPerChunk := (Nat.div_lt_iff_lt_mul hC).mpr hi
  have hi' : i / C * C + i % C = i := Nat.div_add_mod' i C
  simp [List.getD_eq_getElem?_getD, List.getElem?_range hmod, column, List.getElem?_range hdiv,
    hi']

/-- A block with the right entries has the right columns. -/
theorem column_of_assemble {clamp : UInt8 → ℕ} {q : ℕ → UInt8} {C c : ℕ} (hc : c < C)
    {cols : List (List UInt8)} (hlen : (cols.getD c []).length = maxTokensPerChunk)
    (h : assemble C maxTokensPerChunk cols = clampedBlock clamp q C) :
    cols.getD c [] = (column clamp q C maxTokensPerChunk c).map UInt8.ofNat := by
  have hC : 0 < C := by omega
  refine List.ext_getElem (by rw [hlen]; simp [column]) fun t ht _ => ?_
  rw [hlen] at ht
  -- entry `t * C + c` of both blocks
  have hi : t * C + c < maxTokensPerChunk * C := by
    calc t * C + c < t * C + C := by omega
      _ = (t + 1) * C := by ring
      _ ≤ _ := Nat.mul_le_mul_right _ ht
  have hmod : (t * C + c) % C = c := by
    rw [Nat.mul_comm, Nat.mul_add_mod, Nat.mod_eq_of_lt hc]
  have hdiv : (t * C + c) / C = t := by
    rw [Nat.mul_comm, Nat.mul_add_div hC, Nat.div_eq_of_lt hc, Nat.add_zero]
  have hentry := congrArg (fun l : List UInt8 => l[t * C + c]?) h
  simp only [assemble, clampedBlock, List.getElem?_map, List.getElem?_range hi, Option.map_some,
    hmod, hdiv, Option.some.injEq] at hentry
  rw [List.getD_eq_getElem?_getD, List.getElem?_eq_getElem (by omega)] at hentry
  simpa [column] using hentry

/-- Encoding a block and decoding it with the `_new` functions. -/
theorem block_spec (hK : Lawful K S rep first) {clamp : ℕ → UInt8 → ℕ} {C lp fuel : ℕ}
    (hC : 1 ≤ C) (hlp : 3 ≤ lp) (hfuel : 32 ≤ fuel) (cdf : CdfTable C lp) (q : ℕ → UInt8)
    (hclamp : ∀ x, clamp (lp - 2) x ≤ lp - 2 ∧ clamp (lp - 2) x < 256) :
    (∀ c < C, Settled S (finalWindow S first (cdfRow cdf.entry lp c) (lp - 2)
      (column (clamp (lp - 2)) q C maxTokensPerChunk c))) ∧
    ∃ v : ℕ → List UInt8,
      (∀ c < C, encodeChannel K fuel (cdfRow cdf.entry lp c) (lp - 2)
        (column (clamp (lp - 2)) q C maxTokensPerChunk c) [] = .ok (v c)) ∧
      (∀ c < C, (v c).length < 256) ∧
      (∀ c < C, (v c).length = channelBytes S first (cdfRow cdf.entry lp c) (lp - 2)
        (column (clamp (lp - 2)) q C maxTokensPerChunk c)) ∧
      (decodeBlockNew K fuel cdf.entry C lp ((List.range C).map v).flatten
          (((List.range C).map v).map fun l => UInt8.ofNat l.length) =
          .ok (clampedBlock (clamp (lp - 2)) q C) ↔
        ∀ c < C, (finalWindow S first (cdfRow cdf.entry lp c) (lp - 2)
          (column (clamp (lp - 2)) q C maxTokensPerChunk c)).low ≤ 2 ^ 31) := by
  have hchan := fun c (hc : c < C) =>
    (@channel_spec σ K S rep first hK _ _ fuel (by omega) (cdf.rows c hc).rises hfuel
      (column (clamp (lp - 2)) q C maxTokensPerChunk c)
      (by simp [column, maxTokensPerChunk])
      (by
        intro s hs
        obtain ⟨t, -, rfl⟩ := List.mem_map.mp hs
        exact hclamp _))
  choose! hsettled v henc hlen hbytes hdec using hchan
  refine ⟨hsettled, v, henc, hlen, hbytes, ?_⟩
  set lengths := ((List.range C).map v).map fun l => UInt8.ofNat l.length with hlengths
  set input := ((List.range C).map v).flatten with hinput
  -- channel `c` reads its own bytes
  have hread : ∀ c < C, decodeChannel K fuel (cdfRow cdf.entry lp c) lp maxTokensPerChunk
      (input.drop (channelOffset lengths c)) (lengths.getD c 0).toNat =
        .ok ((column (clamp (lp - 2)) q C maxTokensPerChunk c).map UInt8.ofNat) ↔
      (finalWindow S first (cdfRow cdf.entry lp c) (lp - 2)
        (column (clamp (lp - 2)) q C maxTokensPerChunk c)).low ≤ 2 ^ 31 := by
    intro c hc
    obtain ⟨rest, hrest⟩ := drop_flatten v C c hc
    have hl : (lengths.getD c 0).toNat = (v c).length := by
      simpa [hlengths, List.getD_eq_getElem?_getD, List.getElem?_range hc] using
        Nat.mod_eq_of_lt (hlen c hc)
    rw [hlengths, channelOffset_eq v C c hc.le hlen, ← hlengths, hrest, hl,
      ← hdec c hc (cdf.rows c hc).zero rest]
    simp [column]
  rw [decodeBlockNew, if_neg (by simp [hlengths]), bind_eq_ok]
  constructor
  · rintro ⟨cols, hcols, hret⟩ c hc
    simp only [pure, Except.pure, Except.ok.injEq] at hret
    have hcol := mapM_range_getD hcols hc
    rw [← hread c hc, hcol, column_of_assemble hc (decodeSymbols_length hcol) hret]
  · intro hall
    refine ⟨_, mapM_range_eq_ok fun c hc => (hread c hc).mpr (hall c hc), ?_⟩
    simp only [pure, Except.pure, assemble_columns _ _ _ hC]

theorem encodeBlockNew_eq {clamp : ℕ → UInt8 → ℕ} {C lp fuel tChunk : ℕ} {cdf : ℕ → UInt16}
    {q : ℕ → UInt8} {v : ℕ → List UInt8} (hC : 1 ≤ C) (hlp : 3 ≤ lp) (ht : 1 ≤ tChunk)
    (hv : ∀ c < C, encodeChannel K fuel (cdfRow cdf lp c) (lp - 2)
      (column (clamp (lp - 2)) q C tChunk c) [] = .ok (v c)) :
    encodeBlockNew K fuel clamp cdf C lp q tChunk =
      .ok (((List.range C).map v).flatten,
        ((List.range C).map v).map fun l => UInt8.ofNat l.length) := by
  rw [encodeBlockNew, if_neg (by omega), mapM_range_eq_ok hv]
  rfl

end Block

/-! ## One vector for all channels -/

/-- A writer whose vector already holds `p`. -/
def BitOut.under (p : List UInt8) (s : BitOut) : BitOut := { s with out := p ++ s.out }

section Under

variable (p : List UInt8)

theorem spillRegToVec_under (s : BitOut) :
    spillRegToVec (s.under p) = (spillRegToVec s).under p := by
  simp [spillRegToVec, BitOut.under]

theorem addBitsRound_under (bit : Bool) (take : ℕ) (s : BitOut) :
    addBitsRound bit take (s.under p) = (addBitsRound bit take s).under p := by
  by_cases h32 : take = 32
  · simp [addBitsRound, h32, BitOut.under]
  · by_cases hfull : s.outputRegLen + take = 32
    · have hfull' : (s.under p).outputRegLen + take = 32 := hfull
      simp only [addBitsRound, if_neg h32, if_pos hfull, if_pos hfull']
      rw [← spillRegToVec_under]
      rfl
    · have hfull' : ¬ (s.under p).outputRegLen + take = 32 := hfull
      simp only [addBitsRound, if_neg h32, if_neg hfull, if_neg hfull']
      rfl

theorem addBitsLoop_under (bit : Bool) (fuel num : ℕ) (s : BitOut) :
    addBitsLoop bit fuel num (s.under p) = (addBitsLoop bit fuel num s).under p := by
  induction fuel generalizing num s with
  | zero => rfl
  | succ fuel ih =>
      simp only [addBitsLoop]
      split
      · rfl
      · rw [addBitsRound_under, ih]
        rfl

theorem addBitsSlow_under (bit : Bool) (num : ℕ) (s : BitOut) :
    addBitsSlow bit num (s.under p) = (addBitsSlow bit num s).under p :=
  addBitsLoop_under p bit num num s

theorem addBitsGuard_under (bit : Bool) (k num : ℕ) (s : BitOut) :
    (if k = 0 then s.under p else addBitsSlow bit num (s.under p)) =
      (if k = 0 then s else addBitsSlow bit num s).under p := by
  split
  · rfl
  · exact addBitsSlow_under p bit num s

theorem addBytesBulk_under (bit : Bool) (num : ℕ) (s : BitOut) :
    addBytesBulk bit num (s.under p) =
      ((addBytesBulk bit num s).1, (addBytesBulk bit num s).2.under p) := by
  by_cases h : num ≥ 8 ∧ s.outputRegLen = 0
  · have h' : num ≥ 8 ∧ (s.under p).outputRegLen = 0 := h
    rw [addBytesBulk, if_pos h', addBytesBulk, if_pos h]
    simp [BitOut.under]
  · have h' : ¬ (num ≥ 8 ∧ (s.under p).outputRegLen = 0) := h
    rw [addBytesBulk, if_neg h', addBytesBulk, if_neg h]

theorem addBitsRun_under (bit : Bool) (num : ℕ) (s : BitOut) :
    addBitsRun bit num (s.under p) = (addBitsRun bit num s).under p := by
  have halign : alignTake num (s.under p) = alignTake num s := rfl
  simp only [addBitsRun, halign, addBitsGuard_under, addBytesBulk_under]
  split <;> rfl

theorem appendBitAndPending_under (bit : Bool) (pending : ℕ) (s : BitOut) :
    appendBitAndPending bit pending (s.under p) =
      (appendBitAndPending bit pending s).under p := by
  simp only [appendBitAndPending, addBitsRun_under]
  split <;> rfl

theorem spillPartial_under (s : BitOut) :
    (spillPartialRegToVec (s.under p)).out = p ++ (spillPartialRegToVec s).out := by
  by_cases h : s.outputRegLen = 0
  · have h' : (s.under p).outputRegLen = 0 := h
    rw [spillPartialRegToVec, if_pos h', spillPartialRegToVec, if_pos h]
    rfl
  · have h' : ¬ (s.under p).outputRegLen = 0 := h
    rw [spillPartialRegToVec, if_neg h', spillPartialRegToVec, if_neg h]
    simp [BitOut.under]

variable {σ : Type} (K : IntervalCoder σ)

def EncState.under (e : EncState σ) : EncState σ := { e with out := e.out.under p }

theorem EncState.emit_under (e : EncState σ) (k : Rescale) (iv : σ) :
    (e.under p).emit k iv = (e.emit k iv).under p := by
  cases k <;> simp [EncState.emit, EncState.under, appendBitAndPending_under]

theorem encRenormLoop_under (fuel : ℕ) (e : EncState σ) :
    encRenormLoop K fuel (e.under p) = (encRenormLoop K fuel e).map (EncState.under p) := by
  induction fuel generalizing e with
  | zero => rfl
  | succ fuel ih =>
      have hiv : (e.under p).iv = e.iv := rfl
      simp only [encRenormLoop, hiv]
      cases K.renorm e.iv with
      | none => rfl
      | some ks =>
          obtain ⟨k, iv⟩ := ks
          simp only [EncState.emit_under, ih]

theorem encodeSymbols_under (fuel : ℕ) (row : ℕ → UInt16) (m : ℕ) (syms : List ℕ)
    (e : EncState σ) :
    encodeSymbols K fuel row m syms (e.under p) =
      (encodeSymbols K fuel row m syms e).map (EncState.under p) := by
  induction syms generalizing e with
  | nil => rfl
  | cons s syms ih =>
      simp only [encodeSymbols]
      have hnarrow : ({ e.under p with
          iv := K.narrow (e.under p).iv (row s).toNat (cdfHigh row m s) } : EncState σ) =
          EncState.under p { e with iv := K.narrow e.iv (row s).toNat (cdfHigh row m s) } := rfl
      rw [hnarrow, encRenormLoop_under]
      cases encRenormLoop K fuel { e with iv := K.narrow e.iv (row s).toNat (cdfHigh row m s) }
        with
      | error err => rfl
      | ok e' => exact ih e'

/-- A channel written behind `p` is the channel written alone, behind `p`. -/
theorem encodeChannel_under {fuel : ℕ} {row : ℕ → UInt16} {m : ℕ} {syms : List ℕ}
    {bytes : List UInt8} (h : encodeChannel K fuel row m syms [] = .ok bytes) :
    encodeChannel K fuel row m syms p = .ok (p ++ bytes) := by
  have hstart : (⟨K.init, 0, ⟨0, 0, p⟩⟩ : EncState σ) =
      EncState.under p ⟨K.init, 0, ⟨0, 0, []⟩⟩ := by
    simp [EncState.under, BitOut.under]
  simp only [encodeChannel, bind_eq_ok, pure, Except.pure, Except.ok.injEq] at h ⊢
  obtain ⟨e, he, hout⟩ := h
  refine ⟨e.under p, by rw [hstart, encodeSymbols_under, he]; rfl, ?_⟩
  rw [← hout]
  simp only [EncState.under, appendBitAndPending_under]
  split <;> exact spillPartial_under p _

end Under

/-- With one layer, `encode_ntokens_cpu` writes what `encode_ntokens_cpu_new` does. -/
theorem encodeNtokensCpu_one {fuel C lp tChunk : ℕ} {cdf : ℕ → UInt16} {q : ℕ → UInt8}
    {v : ℕ → List UInt8} (hC : 1 ≤ C) (hlp : 3 ≤ lp) (ht : 1 ≤ tChunk)
    (hv : ∀ c < C, encodeChannel LowHigh.coder fuel (cdfRow cdf lp c) (lp - 2)
      (column (clampU8 (lp - 2)) q C tChunk c) [] = .ok (v c)) :
    encodeNtokensCpu fuel cdf 1 C lp q tChunk =
      .ok ⟨((List.range C).map v).flatten,
        ((List.range C).map v).map fun l => UInt8.ofNat l.length, tChunk⟩ := by
  have hfold : ∀ n ≤ C, (List.range n).foldlM (encodeOnto fuel cdf C lp q tChunk 0)
      ⟨[], [], tChunk⟩ = .ok ⟨((List.range n).map v).flatten,
        ((List.range n).map v).map fun l => UInt8.ofNat l.length, tChunk⟩ := by
    intro n hn
    induction n with
    | zero => rfl
    | succ n ih =>
        have hchan := encodeChannel_under ((List.range n).map v).flatten _ (hv n (by omega))
        rw [List.range_succ, List.foldlM_append, ih (by omega)]
        simp only [List.foldlM_cons, List.foldlM_nil, bind, Except.bind, encodeOnto, Nat.mul_zero,
          Nat.zero_add, Nat.add_zero, hchan, pure, Except.pure]
        simp
  rw [encodeNtokensCpu, if_neg (by omega)]
  simp only [List.range_one, List.foldlM_cons, List.foldlM_nil, hfold C le_rfl, bind, Except.bind,
    pure, Except.pure]

/-- With one layer and matching sizes, `decode_ntokens_cpu` is `decode_ntokens_cpu_new`. -/
theorem decodeNtokensCpu_one {fuel C lp : ℕ} {cdf : ℕ → UInt16} {bytes lengths : List UInt8}
    (hsum : channelOffset lengths C = bytes.length) :
    decodeNtokensCpu fuel cdf 1 C lp ⟨bytes, lengths, maxTokensPerChunk⟩ =
      decodeNtokensCpuNew fuel cdf C lp bytes lengths := by
  simp only [decodeNtokensCpu, decodeNtokensCpuNew, decodeBlockNew, ne_eq, not_true_eq_false,
    if_false, Nat.one_mul, hsum]

/-! ## The two coders -/

theorem clampU8_eq (m : ℕ) (x : UInt8) : clampU8 m x = min x.toNat (m % 256) := by
  unfold clampU8
  split <;> omega

theorem clampInt_eq {m : ℕ} {x : UInt8} (h : x.toNat ≤ m) : clampInt m x = x.toNat := by
  unfold clampInt
  split <;> omega

/-- The low/high coder leaves no window that starts in the upper half. -/
theorem clampInt_bounds (m : ℕ) (x : UInt8) : clampInt m x ≤ m ∧ clampInt m x < 256 := by
  have := x.toNat_lt
  unfold clampInt
  split <;> omega

theorem lowHigh_low_lt {w : Window} (h : Settled lowHighScheme w) : w.low < 2 ^ 31 := by
  have hdone := h.done
  simp only [lowHighScheme] at hdone
  split_ifs at hdone
  omega

/-- The range encoder always returns, with the bytes of its channels one after the other. -/
theorem range_encode {C lp fuel : ℕ} (hC : 1 ≤ C) (hlp : 3 ≤ lp) (hfuel : 32 ≤ fuel)
    {cdf : ℕ → UInt16} (hrise : ∀ c < C, Rises (cdfRow cdf lp c) (lp - 2)) (q : ℕ → UInt8) :
    ∃ v : ℕ → List UInt8,
      encodeNtokensCpuNewRange fuel cdf C lp q maxTokensPerChunk =
        .ok (((List.range C).map v).flatten,
          ((List.range C).map v).map fun l => UInt8.ofNat l.length) ∧
      ∀ c < C, encodeChannel LowRange.coder fuel (cdfRow cdf lp c) (lp - 2)
          (column (clampInt (lp - 2)) q C maxTokensPerChunk c) [] = .ok (v c) ∧
        (v c).length = channelBytes rangeScheme rangeFirst (cdfRow cdf lp c) (lp - 2)
          (column (clampInt (lp - 2)) q C maxTokensPerChunk c) := by
  have hchan := fun c (hc : c < C) =>
    (@channel_spec _ _ _ _ _ LowRange.lawful _ lp fuel (by omega) (hrise c hc) hfuel
      (column (clampInt (lp - 2)) q C maxTokensPerChunk c)
      (by simp [column, maxTokensPerChunk])
      (by
        intro s hs
        obtain ⟨t, -, rfl⟩ := List.mem_map.mp hs
        exact clampInt_bounds _ _)).2
  choose! v henc _ hbytes _ using hchan
  exact ⟨v, encodeBlockNew_eq hC hlp (by decide) henc, fun c hc => ⟨henc c hc, hbytes c hc⟩⟩

section Coders

variable {C lp fuel : ℕ} (hC : 1 ≤ C) (hlp : 3 ≤ lp) (hfuel : 32 ≤ fuel) (cdf : CdfTable C lp)
  (q : ℕ → UInt8)

include hC hlp hfuel

/-- Both low/high codecs return the block with its entries clamped to `lp - 2` modulo 256. -/
theorem lowHigh_roundtrip :
    (∃ bytes lengths, encodeNtokensCpuNew fuel cdf.entry C lp q maxTokensPerChunk =
        .ok (bytes, lengths) ∧
      decodeNtokensCpuNew fuel cdf.entry C lp bytes lengths =
        .ok (clampedBlock (clampU8 (lp - 2)) q C)) ∧
    ∃ r, encodeNtokensCpu fuel cdf.entry 1 C lp q maxTokensPerChunk = .ok r ∧
      decodeNtokensCpu fuel cdf.entry 1 C lp r = .ok (clampedBlock (clampU8 (lp - 2)) q C) := by
  have hclamp : ∀ x, clampU8 (lp - 2) x ≤ lp - 2 ∧ clampU8 (lp - 2) x < 256 := fun x => by
    rw [clampU8_eq]
    omega
  obtain ⟨hsettled, v, henc, hlen, -, hdec⟩ := block_spec LowHigh.lawful hC hlp hfuel cdf q hclamp
  have hout := hdec.mpr fun c hc => (lowHigh_low_lt (hsettled c hc)).le
  have hsum := channelOffset_eq v C C le_rfl hlen
  refine ⟨⟨_, _, encodeBlockNew_eq hC hlp (by decide) henc, hout⟩,
    _, encodeNtokensCpu_one hC hlp (by decide) henc, ?_⟩
  rw [decodeNtokensCpu_one hsum]
  exact hout

/-- The range codec returns the block, entries clamped to `lp - 2`, exactly when no channel
ends past the middle of the coding range. -/
theorem range_roundtrip :
    (∃ bytes lengths, encodeNtokensCpuNewRange fuel cdf.entry C lp q maxTokensPerChunk =
        .ok (bytes, lengths) ∧
      decodeNtokensCpuNewRange fuel cdf.entry C lp bytes lengths =
        .ok (clampedBlock (clampInt (lp - 2)) q C)) ↔
    ∀ c < C, (finalWindow rangeScheme rangeFirst (cdfRow cdf.entry lp c) (lp - 2)
      (column (clampInt (lp - 2)) q C maxTokensPerChunk c)).low ≤ 2 ^ 31 := by
  obtain ⟨-, v, henc, -, -, hdec⟩ :=
    block_spec LowRange.lawful hC hlp hfuel cdf q (clampInt_bounds (lp - 2))
  have hok := encodeBlockNew_eq (K := LowRange.coder) hC hlp (by decide) henc
  rw [← hdec]
  constructor
  · rintro ⟨bytes, lengths, hbytes, hout⟩
    rw [encodeNtokensCpuNewRange, hok, Except.ok.injEq, Prod.mk.injEq] at hbytes
    obtain ⟨rfl, rfl⟩ := hbytes
    exact hout
  · exact fun hout => ⟨_, _, hok, hout⟩

end Coders

end MzCache.CacheGen
