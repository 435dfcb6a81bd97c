import MzCache.Lib.ArithCode
import MzCache.CacheGen.BitIo

/-!
# CacheGen entropy coders

The two coders of `cachegen_utils.cpp`: the low/high coder (`encode_ntokens_cpu`,
`encode_ntokens_cpu_new` and their decoders) and the range coder
(`encode_ntokens_cpu_new_range` and its decoder). The loops over tokens and channels are
the same for both; an `IntervalCoder` holds what differs, the interval arithmetic of each
encoder and of each decoder.

Every renormalisation loop runs on `fuel`, which the round-trip results show to be enough
from 32 on.
-/

namespace MzCache.CacheGen

open MzCache.Lib

/-- Why a call has no result. -/
inductive Stop
  | thrown (what : String)
  | outOfFuel
  deriving DecidableEq, Repr

/-- A `uint64_t` result. -/
def u64 (n : ℕ) : ℕ := n % 2 ^ 64

def maxTokensPerChunk : ℕ := 16

def full : ℕ := 0xFFFFFFFF
def half : ℕ := 0x80000000
def quarter : ℕ := 0x40000000
def threeQ : ℕ := 0xC0000000
def cdfTop : ℕ := 0x10000

/-- The interval arithmetic of a coder: the encoder's update and renormalisation, and the
decoder's own. -/
structure IntervalCoder (σ : Type) where
  init : σ
  low : σ → ℕ
  /-- The encoder's interval update for the frequencies `c_low` and `c_high`. -/
  narrow : σ → ℕ → ℕ → σ
  /-- One renormalisation of the encoder, or `none` where its loop stops. -/
  renorm : σ → Option (Rescale × σ)
  /-- The decoder's scaled position of the code value. -/
  count : σ → ℕ → ℕ
  decNarrow : σ → ℕ → ℕ → σ
  /-- One renormalisation of the decoder, with the value before it is shifted. -/
  decRenorm : σ → ℕ → Option (σ × ℕ)

/-! ## The low/high coder -/

structure LowHigh where
  low : ℕ
  high : ℕ
  deriving DecidableEq, Repr

namespace LowHigh

def span (s : LowHigh) : ℕ := u64 (s.high + 2 ^ 64 - s.low + 1)

def narrow (s : LowHigh) (cLow cHigh : ℕ) : LowHigh where
  high := u32 (u32 (s.low + 2 ^ 32 - 1) + (u64 (s.span * cHigh) >>> 16))
  low := u32 (s.low + (u64 (s.span * cLow) >>> 16))

def renorm (s : LowHigh) : Option (Rescale × LowHigh) :=
  if s.high < half then
    some (.lower, ⟨u32 (s.low <<< 1), u32 (s.high <<< 1) ||| 1⟩)
  else if s.low ≥ half then
    some (.upper, ⟨u32 (s.low <<< 1), u32 (s.high <<< 1) ||| 1⟩)
  else if s.low ≥ quarter ∧ s.high < threeQ then
    some (.middle, ⟨u32 (s.low <<< 1) &&& 0x7FFFFFFF, u32 (s.high <<< 1) ||| 0x80000001⟩)
  else none

def count (s : LowHigh) (value : ℕ) : ℕ :=
  u64 (u64 (value + 2 ^ 64 - s.low + 1) * 0x10000 + 2 ^ 64 - 1) / s.span % 2 ^ 16

/-- The decoder leaves the value alone when it keeps a half: the shift drops the top bit. -/
def decRenorm (s : LowHigh) (value : ℕ) : Option (LowHigh × ℕ) :=
  if s.low ≥ half ∨ s.high < half then
    some (⟨u32 (s.low <<< 1), u32 (s.high <<< 1) ||| 1⟩, value)
  else if s.low ≥ quarter ∧ s.high < threeQ then
    some (⟨u32 (s.low <<< 1) &&& 0x7FFFFFFF, u32 (s.high <<< 1) ||| 0x80000001⟩,
      u32 (value + 2 ^ 32 - quarter))
  else none

def coder : IntervalCoder LowHigh where
  init := ⟨0, full⟩
  low := LowHigh.low
  narrow := narrow
  renorm := renorm
  count := count
  decNarrow := narrow
  decRenorm := decRenorm

end LowHigh

/-! ## The range coder -/

structure LowRange where
  low : ℕ
  range : ℕ
  deriving DecidableEq, Repr

namespace LowRange

def narrow (s : LowRange) (cLo cHi : ℕ) : LowRange where
  low := u32 (s.low + (u64 (s.range * cLo) >>> 16))
  range := u32 (u64 (s.range * u32 (cHi + 2 ^ 32 - cLo)) >>> 16)

def renorm (s : LowRange) : Option (Rescale × LowRange) :=
  if s.range ≤ quarter then
    if s.low < quarter then
      some (.lower, ⟨u32 (s.low <<< 1), u32 (s.range <<< 1)⟩)
    else if s.low ≥ half then
      some (.upper, ⟨u32 (u32 (s.low + 2 ^ 32 - half) <<< 1), u32 (s.range <<< 1)⟩)
    else
      some (.middle, ⟨u32 (u32 (s.low + 2 ^ 32 - quarter) <<< 1), u32 (s.range <<< 1)⟩)
  else none

def count (s : LowRange) (value : ℕ) : ℕ :=
  u64 (u64 (value + 2 ^ 64 - s.low + 1) * 0x10000 + 2 ^ 64 - 1) / s.range % 2 ^ 16

def decNarrow (s : LowRange) (cLo cHi : ℕ) : LowRange where
  low := u32 (s.low + u32 (u64 (s.range * cLo) >>> 16))
  range := u32 (u64 (s.range * u32 (cHi + 2 ^ 32 - cLo)) >>> 16)

def decRenorm (s : LowRange) (value : ℕ) : Option (LowRange × ℕ) :=
  if s.range ≤ quarter then
    if s.low ≥ half then
      some (⟨u32 (u32 (s.low + 2 ^ 32 - half) <<< 1), u32 (s.range <<< 1)⟩,
        u32 (value + 2 ^ 32 - half))
    else if s.low ≥ quarter then
      some (⟨u32 (u32 (s.low + 2 ^ 32 - quarter) <<< 1), u32 (s.range <<< 1)⟩,
        u32 (value + 2 ^ 32 - quarter))
    else
      some (⟨u32 (s.low <<< 1), u32 (s.range <<< 1)⟩, value)
  else none

def coder : IntervalCoder LowRange where
  init := ⟨0, full⟩
  low := LowRange.low
  narrow := narrow
  renorm := renorm
  count := count
  decNarrow := decNarrow
  decRenorm := decRenorm

end LowRange

/-! ## Encoding one channel -/

section Encode

variable {σ : Type} (K : IntervalCoder σ) (fuel : ℕ)

/-- The interval, `pending_bits` and the output of one channel. -/
structure EncState (σ : Type) where
  iv : σ
  pending : ℕ
  out : BitOut

/-- The output of one renormalisation. -/
def EncState.emit (e : EncState σ) (k : Rescale) (iv : σ) : EncState σ :=
  match k with
  | .lower => ⟨iv, 0, appendBitAndPending false e.pending e.out⟩
  | .upper => ⟨iv, 0, appendBitAndPending true e.pending e.out⟩
  | .middle => ⟨iv, e.pending + 1, e.out⟩

def encRenormLoop : ℕ → EncState σ → Except Stop (EncState σ)
  | 0, _ => .error .outOfFuel
  | fuel + 1, e =>
      match K.renorm e.iv with
      | none => .ok e
      | some (k, iv) => encRenormLoop fuel (e.emit k iv)

/-- The upper frequency of a symbol: the last one ends at `CDF_TOP`. -/
def cdfHigh (row : ℕ → UInt16) (maxSymbol sym : ℕ) : ℕ :=
  if sym = maxSymbol then cdfTop else (row (sym + 1)).toNat

/-- The main encoding loop, over symbols already clamped. -/
def encodeSymbols (row : ℕ → UInt16) (maxSymbol : ℕ) :
    List ℕ → EncState σ → Except Stop (EncState σ)
  | [], e => .ok e
  | sym :: rest, e => do
      let iv := K.narrow e.iv (row sym).toNat (cdfHigh row maxSymbol sym)
      let e ← encRenormLoop K fuel { e with iv := iv }
      encodeSymbols row maxSymbol rest e

/-- One channel: the main loop, the terminating bit and the final spill. -/
def encodeChannel (row : ℕ → UInt16) (maxSymbol : ℕ) (syms : List ℕ) (out : List UInt8) :
    Except Stop (List UInt8) := do
  let e ← encodeSymbols K fuel row maxSymbol syms ⟨K.init, 0, ⟨0, 0, out⟩⟩
  let pending := e.pending + 1
  let w :=
    if K.low e.iv < quarter then appendBitAndPending false pending e.out
    else appendBitAndPending true pending e.out
  return (spillPartialRegToVec w).out

end Encode

/-- The clamp of the low/high encoders, which compares with a `uint8_t` bound. -/
def clampU8 (maxSymbol : ℕ) (q : UInt8) : ℕ :=
  if q.toNat > maxSymbol % 256 then maxSymbol % 256 else q.toNat

/-- The clamp of the range encoder. -/
def clampInt (maxSymbol : ℕ) (q : UInt8) : ℕ :=
  if q.toNat > maxSymbol then maxSymbol else q.toNat

/-- The symbols of channel `c`: entries `t * C + c` of the block. -/
def column (clamp : UInt8 → ℕ) (q : ℕ → UInt8) (C tChunk c : ℕ) : List ℕ :=
  (List.range tChunk).map fun t => clamp (q (t * C + c))

/-- Row `c` of a table with `lp` entries a row. -/
def cdfRow (cdf : ℕ → UInt16) (lp c : ℕ) : ℕ → UInt16 := fun sym => cdf (lp * c + sym)

/-! ## Decoding one channel -/

/-- The loop of `binsearch_symbol`; the last upper end `0x10000` is stored as `uint16_t`. -/
def binsearchLoop (row : ℕ → UInt16) (maxSymbol : ℤ) (count : ℕ) : ℕ → ℤ → ℤ → ℤ
  | 0, _, _ => 0
  | fuel + 1, lo, hi =>
      if lo ≤ hi then
        let mid := (lo + hi) / 2
        let cLo := (row mid.toNat).toNat
        let cHi := if mid = maxSymbol then 0x10000 % 2 ^ 16 else (row (mid.toNat + 1)).toNat
        if count < cLo then binsearchLoop row maxSymbol count fuel lo (mid - 1)
        else if count ≥ cHi then binsearchLoop row maxSymbol count fuel (mid + 1) hi
        else mid
      else if lo ≤ 0 then 0
      else if lo > maxSymbol then maxSymbol
      else lo - 1

/-- The search interval shrinks every round, so `bins_p1` rounds are enough. -/
def binsearchSymbol (row : ℕ → UInt16) (binsP1 count : ℕ) : ℕ :=
  (binsearchLoop row (binsP1 - 2) count binsP1 0 (binsP1 - 2)).toNat

section Decode

variable {σ : Type} (K : IntervalCoder σ) (fuel : ℕ)

/-- The interval, the code value and the reader of one channel. -/
structure DecState (σ : Type) where
  iv : σ
  value : ℕ
  br : BitReader

def decRenormLoop : ℕ → DecState σ → Except Stop (DecState σ)
  | 0, _ => .error .outOfFuel
  | fuel + 1, d =>
      match K.decRenorm d.iv d.value with
      | none => .ok d
      | some (iv, value) =>
          let (bit, br) := d.br.nextBit
          decRenormLoop fuel ⟨iv, u32 (value <<< 1) ||| bit.toNat, br⟩

/-- The main decoding loop; after the last symbol it stops before the interval update. -/
def decodeSymbols (row : ℕ → UInt16) (binsP1 : ℕ) : ℕ → DecState σ → Except Stop (List UInt8)
  | 0, _ => .ok []
  | n + 1, d =>
      let sym := binsearchSymbol row binsP1 (K.count d.iv d.value)
      if n = 0 then .ok [UInt8.ofNat sym]
      else do
        let iv := K.decNarrow d.iv (row sym).toNat (cdfHigh row (binsP1 - 2) sym)
        let d ← decRenormLoop K fuel { d with iv := iv }
        let rest ← decodeSymbols row binsP1 n d
        return UInt8.ofNat sym :: rest

def decodeChannel (row : ℕ → UInt16) (binsP1 tChunk : ℕ) (bs : List UInt8) (len : ℕ) :
    Except Stop (List UInt8) :=
  let value := loadU32Be bs (if len ≥ 4 then 4 else len)
  decodeSymbols K fuel row binsP1 tChunk ⟨K.init, value, BitReader.start bs len 4⟩

end Decode

/-! ## Blocks -/

/-- Byte offset of channel `c`. -/
def channelOffset (lengths : List UInt8) (c : ℕ) : ℕ := ((lengths.take c).map UInt8.toNat).sum

/-- The output block: entry `t * C + c` is symbol `t` of channel `c`. -/
def assemble (C tChunk : ℕ) (cols : List (List UInt8)) : List UInt8 :=
  (List.range (tChunk * C)).map fun i => (cols.getD (i % C) []).getD (i / C) 0

section Blocks

variable {σ : Type} (K : IntervalCoder σ) (fuel : ℕ)

/-- The loop over channels of the `_new` encoders: each channel fills a vector of its own,
which is copied behind the ones before it. -/
def encodeBlockNew (clamp : ℕ → UInt8 → ℕ) (cdf : ℕ → UInt16) (C lp : ℕ) (q : ℕ → UInt8)
    (tChunk : ℕ) : Except Stop (List UInt8 × List UInt8) :=
  if C = 0 ∨ lp ≤ 2 ∨ tChunk = 0 then .error (.thrown "encode_ntokens_cpu: bad dims")
  else do
    let chans ← (List.range C).mapM fun c =>
      encodeChannel K fuel (cdfRow cdf lp c) (lp - 2) (column (clamp (lp - 2)) q C tChunk c) []
    return (chans.flatten, chans.map fun v => UInt8.ofNat v.length)

/-- The loop over channels of the decoders. -/
def decodeColumns (cdf : ℕ → UInt16) (C binsP1 tChunk : ℕ) (input lengths : List UInt8) :
    Except Stop (List (List UInt8)) :=
  (List.range C).mapM fun c =>
    decodeChannel K fuel (cdfRow cdf binsP1 c) binsP1 tChunk
      (input.drop (channelOffset lengths c)) (lengths.getD c 0).toNat

def decodeBlockNew (cdf : ℕ → UInt16) (C binsP1 : ℕ) (input lengths : List UInt8) :
    Except Stop (List UInt8) :=
  if lengths.length ≠ C then .error (.thrown "lengths size mismatch")
  else do
    let cols ← decodeColumns K fuel cdf C binsP1 maxTokensPerChunk input lengths
    return assemble C maxTokensPerChunk cols

end Blocks

/-- Returns the bytes and the channel lengths; `bytes_sum` is the number of bytes. -/
def encodeNtokensCpuNew (fuel : ℕ) (cdf : ℕ → UInt16) (C lp : ℕ) (q : ℕ → UInt8) (tChunk : ℕ) :
    Except Stop (List UInt8 × List UInt8) :=
  encodeBlockNew LowHigh.coder fuel clampU8 cdf C lp q tChunk

def decodeNtokensCpuNew (fuel : ℕ) (cdf : ℕ → UInt16) (C binsP1 : ℕ)
    (input lengths : List UInt8) : Except Stop (List UInt8) :=
  decodeBlockNew LowHigh.coder fuel cdf C binsP1 input lengths

def encodeNtokensCpuNewRange (fuel : ℕ) (cdf : ℕ → UInt16) (C lp : ℕ) (q : ℕ → UInt8)
    (tChunk : ℕ) : Except Stop (List UInt8 × List UInt8) :=
  encodeBlockNew LowRange.coder fuel clampInt cdf C lp q tChunk

def decodeNtokensCpuNewRange (fuel : ℕ) (cdf : ℕ → UInt16) (C binsP1 : ℕ)
    (input lengths : List UInt8) : Except Stop (List UInt8) :=
  decodeBlockNew LowRange.coder fuel cdf C binsP1 input lengths

structure EncodeCPUResult where
  bytestream : List UInt8
  lengths : List UInt8
  tChunk : ℕ
  deriving DecidableEq, Repr

/-- One channel of `encode_ntokens_cpu`, whose layers and channels all write behind each
other into one vector. -/
def encodeOnto (fuel : ℕ) (cdf : ℕ → UInt16) (C lp : ℕ) (q : ℕ → UInt8) (tChunk l : ℕ)
    (r : EncodeCPUResult) (c : ℕ) : Except Stop EncodeCPUResult := do
  let ql := fun i => q (C * (tChunk * l) + i)
  let bytes ← encodeChannel LowHigh.coder fuel (cdfRow cdf lp (c + C * l)) (lp - 2)
    (column (clampU8 (lp - 2)) ql C tChunk c) r.bytestream
  return { r with
    bytestream := bytes
    lengths := r.lengths ++ [UInt8.ofNat (bytes.length - r.bytestream.length)] }

def encodeNtokensCpu (fuel : ℕ) (cdf : ℕ → UInt16) (L C lp : ℕ) (q : ℕ → UInt8)
    (tChunk : ℕ) : Except Stop EncodeCPUResult :=
  if L = 0 ∨ C = 0 ∨ lp ≤ 2 ∨ tChunk = 0 then .error (.thrown "encode_ntokens_cpu: bad dims")
  else
    (List.range L).foldlM (fun r l =>
      (List.range C).foldlM (encodeOnto fuel cdf C lp q tChunk l) r) ⟨[], [], tChunk⟩

def decodeNtokensCpu (fuel : ℕ) (cdf : ℕ → UInt16) (L C binsP1 : ℕ) (chunk : EncodeCPUResult) :
    Except Stop (List UInt8) :=
  if L ≠ 1 then .error (.thrown "decode_ntokens_cpu assumes L=1")
  else if chunk.lengths.length ≠ L * C then .error (.thrown "lengths size mismatch")
  else if channelOffset chunk.lengths C ≠ chunk.bytestream.length then
    .error (.thrown "bytestream total size != sum(lengths)")
  else do
    let cols ← decodeColumns LowHigh.coder fuel cdf C binsP1 chunk.tChunk chunk.bytestream
      chunk.lengths
    return assemble C chunk.tChunk cols

end MzCache.CacheGen
