import MzCache.Lib.BitString

/-!
# Bit input and output of the entropy coders

The encoder collects bits in a 32-bit register and spills it to a byte vector; the decoder
loads one big-endian word and then reads single bits, zeros past the end. Both are
described by bit strings: writing appends, and reading follows the padded stream.
-/

namespace MzCache.CacheGen

open MzCache.Lib

/-- A `uint32_t` result. -/
def u32 (n : ℕ) : ℕ := n % 2 ^ 32

theorem u32_of_lt {n : ℕ} (h : n < 2 ^ 32) : u32 n = n := Nat.mod_eq_of_lt h

/-! ## Writing -/

/-- `output_reg`, `output_reg_len` and the byte vector. -/
structure BitOut where
  outputReg : ℕ
  outputRegLen : ℕ
  out : List UInt8
  deriving DecidableEq, Repr

/-- Four pushes of a register, most significant byte first. -/
def pushBytes (reg : ℕ) : List UInt8 :=
  [UInt8.ofNat (reg >>> 24), UInt8.ofNat (reg >>> 16), UInt8.ofNat (reg >>> 8), UInt8.ofNat reg]

def spillRegToVec (s : BitOut) : BitOut :=
  ⟨0, 0, s.out ++ pushBytes (u32 (s.outputReg <<< (32 - s.outputRegLen)))⟩

/-- The byte loop of `spill_partial_reg_to_vec`. -/
def spillBytes : ℕ → ℕ → List UInt8
  | 0, _ => []
  | n + 1, reg => UInt8.ofNat (reg >>> 24) :: spillBytes n (u32 (reg <<< 8))

def spillPartialRegToVec (s : BitOut) : BitOut :=
  if s.outputRegLen = 0 then s
  else
    let reg := u32 (s.outputReg <<< (32 - s.outputRegLen))
    ⟨0, 0, s.out ++ spillBytes ((s.outputRegLen + 7) / 8) reg⟩

/-- One round of `add_bits_slow`, which puts `take` copies of a bit into the register. -/
def addBitsRound (bit : Bool) (take : ℕ) (s : BitOut) : BitOut :=
  if take = 32 then
    ⟨0, 0, s.out ++ pushBytes (if bit then 0xFFFFFFFF else 0)⟩
  else
    let reg := u32 (s.outputReg <<< take)
    let reg := if bit then reg ||| (1 <<< take - 1) else reg
    let s' : BitOut := ⟨reg, s.outputRegLen + take, s.out⟩
    if s'.outputRegLen = 32 then spillRegToVec s' else s'

/-- The loop of `add_bits_slow`; every round takes at least one of the `num` bits. -/
def addBitsLoop (bit : Bool) : ℕ → ℕ → BitOut → BitOut
  | 0, _, s => s
  | fuel + 1, num, s =>
      if num = 0 then s
      else
        let can := 32 - s.outputRegLen
        let take := if num < can then num else can
        addBitsLoop bit fuel (num - take) (addBitsRound bit take s)

def addBitsSlow (bit : Bool) (num : ℕ) (s : BitOut) : BitOut := addBitsLoop bit num num s

/-- Step 1 of `add_bits_run`: how many bits fill the current byte. -/
def alignTake (num : ℕ) (s : BitOut) : ℕ :=
  let mod8 := s.outputRegLen &&& 7
  if mod8 ≠ 0 then (if num < 8 - mod8 then num else 8 - mod8) else 0

/-- Step 2: with an empty register, whole bytes go straight to the vector. Returns the bits
that are left. -/
def addBytesBulk (bit : Bool) (num : ℕ) (s : BitOut) : ℕ × BitOut :=
  if num ≥ 8 ∧ s.outputRegLen = 0 then
    (num &&& 7,
      { s with out := s.out ++ List.replicate (num >>> 3) (if bit then 0xFF else 0x00) })
  else (num, s)

/-- The rounds of `add_bits_slow` for a `uint64_t` count passed as `(int)num`: the loop does not
run when the low word is negative. -/
def tailCount (num : ℕ) : ℕ := if u32 num < 2 ^ 31 then u32 num else 0

def addBitsRun (bit : Bool) (num : ℕ) (s : BitOut) : BitOut :=
  if num = 0 then s
  else
    let take := alignTake num s
    let s := if take = 0 then s else addBitsSlow bit take s
    let rest := addBytesBulk bit (num - take) s
    -- step 3: the tail
    if rest.1 = 0 then rest.2 else addBitsSlow bit (tailCount rest.1) rest.2

/-- Append a bit and then `pending_bits` inverted ones. -/
def appendBitAndPending (bit : Bool) (pendingBits : ℕ) (s : BitOut) : BitOut :=
  let s := addBitsRun bit 1 s
  if pendingBits = 0 then s else addBitsRun (!bit) pendingBits s

/-! ## Reading -/

def loadU32Be (p : List UInt8) (nAvail : ℕ) : ℕ :=
  let b0 := if nAvail > 0 then (p.getD 0 0).toNat else 0
  let b1 := if nAvail > 1 then (p.getD 1 0).toNat else 0
  let b2 := if nAvail > 2 then (p.getD 2 0).toNat else 0
  let b3 := if nAvail > 3 then (p.getD 3 0).toNat else 0
  (b0 <<< 24) ||| (b1 <<< 16) ||| (b2 <<< 8) ||| b3

structure BitReader where
  base : List UInt8
  len : ℕ
  pos : ℕ
  byte : UInt8
  bitIdx : ℕ

/-- The constructor of `BitReader`. -/
def BitReader.start (p : List UInt8) (n start : ℕ) : BitReader :=
  ⟨p, n, start, if start < n then p.getD start 0 else 0, 1⟩

def BitReader.nextBit (r : BitReader) : Bool × BitReader :=
  let b := (r.byte.toNat >>> (8 - r.bitIdx)) &&& 1
  let r' : BitReader :=
    if r.bitIdx + 1 = 9 then
      { r with
        bitIdx := 1
        pos := r.pos + 1
        byte := if r.pos + 1 < r.len then r.base.getD (r.pos + 1) 0 else 0 }
    else { r with bitIdx := r.bitIdx + 1 }
  (decide (b = 1), r')

/-! ## Writing appends -/

namespace BitOut

/-- The bits written so far. -/
def bits (s : BitOut) : List Bool := byteBits s.out ++ bitsOf s.outputRegLen s.outputReg

/-- The register is not full and holds nothing beyond its length. -/
structure Ok (s : BitOut) : Prop where
  len_lt : s.outputRegLen < 32
  reg_lt : s.outputReg < 2 ^ s.outputRegLen

/-- An empty register. -/
theorem ok_empty (out : List UInt8) : (⟨0, 0, out⟩ : BitOut).Ok := ⟨by simp, by simp⟩

end BitOut

/-- `s'` is `s` with the bits `l` appended. -/
structure Appends (s s' : BitOut) (l : List Bool) : Prop where
  ok : s'.Ok
  bits : s'.bits = s.bits ++ l

theorem Appends.trans {s s' s'' : BitOut} {l m : List Bool} (h : Appends s s' l)
    (h' : Appends s' s'' m) : Appends s s'' (l ++ m) :=
  ⟨h'.ok, by rw [h'.bits, h.bits, List.append_assoc]⟩

theorem Appends.refl {s : BitOut} (h : s.Ok) : Appends s s [] := ⟨h, by simp⟩

theorem byteBits_spillBytes (n x : ℕ) (hn : n ≤ 4) (hx : x < 2 ^ (8 * n)) :
    byteBits (spillBytes n (x * 2 ^ (32 - 8 * n))) = bitsOf (8 * n) x := by
  induction n generalizing x with
  | zero => rfl
  | succ n ih =>
      -- the head byte is the top eight bits, the rest moves up by a byte
      have hexp : 32 - 8 * n = 32 - 8 * (n + 1) + 8 := by omega
      have htop : 8 * n + (32 - 8 * (n + 1)) = 24 := by omega
      have hmod : x % 2 ^ (8 * n) < 2 ^ (8 * n) := Nat.mod_lt _ (by positivity)
      have hdiv : x / 2 ^ (8 * n) < 2 ^ 8 := by
        rw [Nat.div_lt_iff_lt_mul (by positivity), ← pow_add]
        exact hx.trans_eq (by ring)
      have hhead : (x * 2 ^ (32 - 8 * (n + 1))) >>> 24 = x / 2 ^ (8 * n) := by
        rw [Nat.shiftRight_eq_div_pow, ← htop, pow_add,
          Nat.mul_div_mul_right _ _ (by positivity)]
      have htail : u32 ((x * 2 ^ (32 - 8 * (n + 1))) <<< 8) =
          x % 2 ^ (8 * n) * 2 ^ (32 - 8 * n) := by
        have h32 : 32 = 8 * n + (32 - 8 * n) := by omega
        rw [u32, Nat.shiftLeft_eq, Nat.mul_assoc, ← pow_add, ← hexp]
        conv_lhs => rw [h32, pow_add]
        rw [Nat.add_sub_cancel_left, Nat.mul_mod_mul_right]
      rw [spillBytes, byteBits_cons, hhead, htail, ih _ (by omega) hmod,
        UInt8.toNat_ofNat_of_lt' hdiv]
      have hx' : x = x / 2 ^ (8 * n) * 2 ^ (8 * n) + x % 2 ^ (8 * n) :=
        (Nat.div_add_mod' _ _).symm
      conv_rhs => rw [hx', show 8 * (n + 1) = 8 + 8 * n by ring]
      rw [bitsOf_add _ _ _ _ hmod]

theorem pushBytes_eq (reg : ℕ) : pushBytes reg = spillBytes 4 reg := by
  have h8 : reg >>> 16 % 256 = u32 (reg <<< 8) >>> 24 := by
    simp only [u32, Nat.shiftRight_eq_div_pow, Nat.shiftLeft_eq]
    omega
  have h16 : reg >>> 8 % 256 = u32 (u32 (reg <<< 8) <<< 8) >>> 24 := by
    simp only [u32, Nat.shiftRight_eq_div_pow, Nat.shiftLeft_eq]
    omega
  have h24 : reg % 256 = u32 (u32 (u32 (reg <<< 8) <<< 8) <<< 8) >>> 24 := by
    simp only [u32, Nat.shiftRight_eq_div_pow, Nat.shiftLeft_eq]
    omega
  have hmod : ∀ n, UInt8.ofNat (n % 256) = UInt8.ofNat n := fun n => UInt8.ofNat_mod_size
  simp only [pushBytes, spillBytes, ← h8, ← h16, ← h24, hmod]

theorem byteBits_pushBytes (reg : ℕ) (h : reg < 2 ^ 32) :
    byteBits (pushBytes reg) = bitsOf 32 reg := by
  have := byteBits_spillBytes 4 reg le_rfl h
  simpa [pushBytes_eq] using this

theorem bitsOf_run (bit : Bool) (n : ℕ) :
    bitsOf n (if bit then 2 ^ n - 1 else 0) = List.replicate n bit := by
  cases bit with
  | false => simpa using bitsOf_zero n
  | true => simpa using bitsOf_ones n

theorem addBitsRound_appends (bit : Bool) (take : ℕ) (s : BitOut) (hs : s.Ok)
    (htake : take ≤ 32 - s.outputRegLen) :
    Appends s (addBitsRound bit take s) (List.replicate take bit) := by
  obtain ⟨hlen, hreg⟩ := hs
  unfold addBitsRound
  by_cases h32 : take = 32
  · -- an empty register is bypassed
    have hz : s.outputRegLen = 0 := by omega
    rw [if_pos h32]
    refine ⟨BitOut.ok_empty _, ?_⟩
    have hfill := bitsOf_run bit 32
    simp only [BitOut.bits, byteBits_append, bitsOf_width_zero, hz, List.append_nil, h32]
    rw [byteBits_pushBytes _ (by split <;> norm_num), ← hfill]
    norm_num
  rw [if_neg h32]
  have hpow : 2 ^ s.outputRegLen * 2 ^ take ≤ 2 ^ 32 := by
    rw [← pow_add]
    exact Nat.pow_le_pow_right (by norm_num) (by omega)
  have hy : (if bit then 2 ^ take - 1 else 0) < 2 ^ take := by
    have : 0 < 2 ^ take := by positivity
    split <;> omega
  have hshift : u32 (s.outputReg <<< take) = s.outputReg * 2 ^ take := by
    rw [Nat.shiftLeft_eq, u32_of_lt]
    exact (Nat.mul_lt_mul_of_pos_right hreg (by positivity)).trans_le hpow
  have hor : (if bit then u32 (s.outputReg <<< take) ||| (1 <<< take - 1)
      else u32 (s.outputReg <<< take)) =
      s.outputReg * 2 ^ take + (if bit then 2 ^ take - 1 else 0) := by
    rw [hshift]
    cases bit with
    | false => simp
    | true =>
        have hlt : 2 ^ take - 1 < 2 ^ take := by simp
        simp only [if_true, Nat.shiftLeft_eq, Nat.one_mul]
        rw [Nat.mul_comm, Nat.two_pow_add_eq_or_of_lt hlt]
  simp only [hor]
  set y := if bit then 2 ^ take - 1 else 0 with hydef
  have hnew : s.outputReg * 2 ^ take + y < 2 ^ (s.outputRegLen + take) := by
    rw [pow_add]
    nlinarith
  have hbits : bitsOf (s.outputRegLen + take) (s.outputReg * 2 ^ take + y) =
      bitsOf s.outputRegLen s.outputReg ++ List.replicate take bit := by
    rw [bitsOf_add _ _ _ _ hy, hydef, bitsOf_run]
  by_cases hfull : s.outputRegLen + take = 32
  · rw [if_pos hfull]
    refine ⟨BitOut.ok_empty _, ?_⟩
    rw [hfull] at hnew hbits
    simp only [spillRegToVec, BitOut.bits, byteBits_append, hfull, Nat.sub_self,
      Nat.shiftLeft_zero, u32_of_lt hnew, byteBits_pushBytes _ hnew, hbits, bitsOf_width_zero,
      List.append_nil, List.append_assoc]
  · rw [if_neg hfull]
    refine ⟨⟨by show s.outputRegLen + take < 32; omega, hnew⟩, ?_⟩
    simp only [BitOut.bits, hbits, List.append_assoc]

theorem addBitsLoop_appends (bit : Bool) (fuel num : ℕ) (s : BitOut) (hs : s.Ok)
    (hfuel : num ≤ fuel) :
    Appends s (addBitsLoop bit fuel num s) (List.replicate num bit) := by
  induction fuel generalizing num s with
  | zero =>
      obtain rfl : num = 0 := by omega
      exact Appends.refl hs
  | succ fuel ih =>
      rw [addBitsLoop]
      by_cases hz : num = 0
      · rw [if_pos hz, hz]
        exact Appends.refl hs
      · rw [if_neg hz]
        have hlen := hs.len_lt
        set take := if num < 32 - s.outputRegLen then num else 32 - s.outputRegLen with ht
        have htake : 1 ≤ take ∧ take ≤ num ∧ take ≤ 32 - s.outputRegLen := by
          split at ht <;> omega
        have hround := addBitsRound_appends bit take s hs htake.2.2
        have hrest := ih (num - take) _ hround.ok (by omega)
        have hsplit : num = take + (num - take) := by omega
        have happ := hround.trans hrest
        rw [← List.replicate_add, ← hsplit] at happ
        exact happ

theorem addBitsSlow_appends (bit : Bool) (num : ℕ) (s : BitOut) (hs : s.Ok) :
    Appends s (addBitsSlow bit num s) (List.replicate num bit) :=
  addBitsLoop_appends bit num num s hs le_rfl

theorem byteBits_run (bit : Bool) (n : ℕ) :
    byteBits (List.replicate n (if bit then 0xFF else 0x00)) = List.replicate (8 * n) bit := by
  induction n with
  | zero => rfl
  | succ n ih =>
      have hhead : bitsOf 8 (if bit then (0xFF : UInt8) else 0x00).toNat = List.replicate 8 bit := by
        cases bit <;> decide
      rw [List.replicate_succ, byteBits_cons, ih, hhead, ← List.replicate_add]
      congr 1
      ring

theorem alignTake_le (num : ℕ) (s : BitOut) : alignTake num s ≤ num := by
  simp only [alignTake]
  split_ifs <;> omega

theorem addBitsGuard_appends (bit : Bool) {k num : ℕ} (hk : k = 0 → num = 0) (s : BitOut)
    (hs : s.Ok) :
    Appends s (if k = 0 then s else addBitsSlow bit num s) (List.replicate num bit) := by
  by_cases hz : k = 0
  · rw [if_pos hz, hk hz]
    exact Appends.refl hs
  · rw [if_neg hz]
    exact addBitsSlow_appends bit num s hs

theorem addBytesBulk_appends (bit : Bool) (num : ℕ) (s : BitOut) (hs : s.Ok) :
    ∃ n, num = n + (addBytesBulk bit num s).1 ∧
      Appends s (addBytesBulk bit num s).2 (List.replicate n bit) := by
  unfold addBytesBulk
  by_cases h : num ≥ 8 ∧ s.outputRegLen = 0
  · rw [if_pos h]
    have hmask : num &&& 7 = num % 8 := Nat.and_two_pow_sub_one_eq_mod num 3
    refine ⟨8 * (num >>> 3), ?_, ⟨hs.len_lt, hs.reg_lt⟩, ?_⟩
    · rw [hmask, Nat.shiftRight_eq_div_pow]
      omega
    · simp only [BitOut.bits, h.2, bitsOf_width_zero, List.append_nil, byteBits_append,
        byteBits_run]
  · rw [if_neg h]
    exact ⟨0, by simp, Appends.refl hs⟩

theorem tailCount_of_lt {num : ℕ} (h : num < 2 ^ 31) : tailCount num = num := by
  rw [tailCount, u32_of_lt (h.trans (by norm_num)), if_pos h]

/-- A count that does not fit loses `2 ^ 31` bits or more. -/
theorem tailCount_lossy {num : ℕ} (h : 2 ^ 31 ≤ num) : tailCount num + 2 ^ 31 ≤ num := by
  unfold tailCount u32
  split <;> omega

theorem tailCount_le (num : ℕ) : tailCount num ≤ num := by
  unfold tailCount u32
  split <;> omega

/-- The register when a run is aligned, and the count that is left for its tail. -/
def alignRun (bit : Bool) (num : ℕ) (s : BitOut) : BitOut :=
  if alignTake num s = 0 then s else addBitsSlow bit (alignTake num s) s

def tailOf (bit : Bool) (num : ℕ) (s : BitOut) : ℕ :=
  (addBytesBulk bit (num - alignTake num s) (alignRun bit num s)).1

theorem addBytesBulk_rest (bit : Bool) (num : ℕ) (s : BitOut) : (addBytesBulk bit num s).1 =
    if 8 ≤ num ∧ s.outputRegLen = 0 then num % 8 else num := by
  have hmask : num &&& 7 = num % 8 := Nat.and_two_pow_sub_one_eq_mod num 3
  unfold addBytesBulk
  split <;> simp_all

theorem tailOf_le (bit : Bool) (num : ℕ) (s : BitOut) : tailOf bit num s ≤ num := by
  rw [tailOf, addBytesBulk_rest]
  have hmod := Nat.mod_le (num - alignTake num s) 8
  split <;> omega

/-- A run appends its bits, less those that the count of its tail loses. -/
theorem addBitsRun_appends_tail (bit : Bool) (num : ℕ) (s : BitOut) (hs : s.Ok) :
    ∃ m, m + tailOf bit num s = num + tailCount (tailOf bit num s) ∧
      Appends s (addBitsRun bit num s) (List.replicate m bit) := by
  by_cases hz : num = 0
  · have htail : tailOf bit num s = 0 := by
      have := tailOf_le bit num s
      omega
    refine ⟨0, by rw [htail, hz]; rfl, ?_⟩
    rw [addBitsRun, if_pos hz]
    exact Appends.refl hs
  have hle := alignTake_le num s
  have halign : Appends s (alignRun bit num s) _ := addBitsGuard_appends bit id s hs
  obtain ⟨n, hn, hbulk⟩ :=
    addBytesBulk_appends bit (num - alignTake num s) (alignRun bit num s) halign.ok
  have hzero : tailOf bit num s = 0 → tailCount (tailOf bit num s) = 0 := fun h => by
    rw [h]
    rfl
  have happ := (halign.trans hbulk).trans (addBitsGuard_appends bit hzero _ hbulk.ok)
  rw [← List.replicate_add, ← List.replicate_add] at happ
  have hsplit : num = alignTake num s + n + tailOf bit num s := by
    unfold tailOf
    omega
  refine ⟨alignTake num s + n + tailCount (tailOf bit num s), by omega, ?_⟩
  rw [addBitsRun, if_neg hz]
  exact happ

theorem addBitsRun_appends (bit : Bool) {num : ℕ} (hnum : num < 2 ^ 31) (s : BitOut)
    (hs : s.Ok) : Appends s (addBitsRun bit num s) (List.replicate num bit) := by
  obtain ⟨m, hm, happ⟩ := addBitsRun_appends_tail bit num s hs
  rw [tailCount_of_lt ((tailOf_le bit num s).trans_lt hnum), Nat.add_right_cancel_iff] at hm
  rwa [hm] at happ

theorem appendBitAndPending_appends (bit : Bool) {pending : ℕ} (hp : pending < 2 ^ 31)
    (s : BitOut) (hs : s.Ok) :
    Appends s (appendBitAndPending bit pending s)
      (bit :: List.replicate pending (!bit)) := by
  have h1 := @addBitsRun_appends bit 1 (by norm_num) s hs
  unfold appendBitAndPending
  by_cases hz : pending = 0
  · simpa [hz] using h1
  · simp only [if_neg hz]
    exact h1.trans (addBitsRun_appends (!bit) hp _ h1.ok)

/-- The final spill pads the bits with zeros to whole bytes. -/
theorem spillPartial_byteBits (s : BitOut) (hs : s.Ok) :
    ∃ k < 8, byteBits (spillPartialRegToVec s).out = s.bits ++ List.replicate k false := by
  obtain ⟨hlen, hreg⟩ := hs
  unfold spillPartialRegToVec
  by_cases hz : s.outputRegLen = 0
  · refine ⟨0, by norm_num, ?_⟩
    simp [BitOut.bits, hz]
  rw [if_neg hz]
  set n := (s.outputRegLen + 7) / 8 with hn
  have hn4 : n ≤ 4 := by omega
  have hk : s.outputRegLen + (8 * n - s.outputRegLen) = 8 * n := by omega
  have hpow : 2 ^ s.outputRegLen * 2 ^ (32 - s.outputRegLen) = 2 ^ 32 := by
    rw [← pow_add]
    congr 1
    omega
  have hword : u32 (s.outputReg <<< (32 - s.outputRegLen)) =
      s.outputReg * 2 ^ (8 * n - s.outputRegLen) * 2 ^ (32 - 8 * n) := by
    rw [Nat.shiftLeft_eq, u32_of_lt, Nat.mul_assoc, ← pow_add]
    · congr 2
      omega
    · rw [← hpow]
      exact Nat.mul_lt_mul_of_pos_right hreg (by positivity)
  have hx : s.outputReg * 2 ^ (8 * n - s.outputRegLen) < 2 ^ (8 * n) := by
    conv_rhs => rw [← hk, pow_add]
    exact Nat.mul_lt_mul_of_pos_right hreg (by positivity)
  refine ⟨8 * n - s.outputRegLen, by omega, ?_⟩
  simp only [byteBits_append, hword, byteBits_spillBytes n _ hn4 hx, BitOut.bits,
    List.append_assoc]
  congr 1
  have hbits := bitsOf_add s.outputRegLen (8 * n - s.outputRegLen) s.outputReg 0 (by positivity)
  rw [hk, Nat.add_zero, bitsOf_zero] at hbits
  exact hbits

/-! ## Reading follows the stream -/

/-- The bits of the first `len` bytes, continued by zeros. -/
def channelStream (base : List UInt8) (len : ℕ) : ℕ → Bool := padded (byteBits (base.take len))

theorem channelStream_eq (base : List UInt8) (len i : ℕ) :
    channelStream base len i =
      (if i / 8 < len then base.getD (i / 8) 0 else 0).toNat.testBit (7 - i % 8) := by
  rw [channelStream, padded_byteBits]
  congr 2
  by_cases h : i / 8 < len
  · rw [if_pos h, List.getD_eq_getElem?_getD, List.getElem?_take_of_lt h,
      List.getD_eq_getElem?_getD]
  · rw [if_neg h]
    exact List.getD_eq_default _ _ ((List.length_take_le _ _).trans (by omega))

theorem lor_bytes (b0 b1 b2 b3 : UInt8) :
    (b0.toNat <<< 24) ||| (b1.toNat <<< 16) ||| (b2.toNat <<< 8) ||| b3.toNat =
      bitsVal (byteBits [b0, b1, b2, b3]) := by
  have h0 := b0.toNat_lt
  have h1 := b1.toNat_lt
  have h2 := b2.toNat_lt
  have h3 := b3.toNat_lt
  have e1 : b0.toNat <<< 24 ||| b1.toNat <<< 16 = (b0.toNat <<< 8 + b1.toNat) <<< 16 := by
    rw [← Nat.shiftLeft_add_eq_or_of_lt (by rw [Nat.shiftLeft_eq]; omega)]
    simp only [Nat.shiftLeft_eq]
    ring
  have e2 : (b0.toNat <<< 8 + b1.toNat) <<< 16 ||| b2.toNat <<< 8 =
      ((b0.toNat <<< 8 + b1.toNat) <<< 8 + b2.toNat) <<< 8 := by
    rw [← Nat.shiftLeft_add_eq_or_of_lt (by rw [Nat.shiftLeft_eq]; omega)]
    simp only [Nat.shiftLeft_eq]
    ring
  rw [e1, e2, ← Nat.shiftLeft_add_eq_or_of_lt (by omega)]
  simp only [byteBits_cons, byteBits_nil, bitsVal_append, List.append_nil, length_bitsOf,
    List.length_append]
  rw [bitsVal_bitsOf h0, bitsVal_bitsOf h1, bitsVal_bitsOf h2, bitsVal_bitsOf h3]
  simp only [Nat.shiftLeft_eq]
  ring

/-- The first word is the first 32 bits of the stream. -/
theorem loadU32Be_eq (base : List UInt8) (len : ℕ) :
    loadU32Be base (if len ≥ 4 then 4 else len) = streamVal (channelStream base len) 32 := by
  let b (k : ℕ) : UInt8 := if k < len then base.getD k 0 else 0
  have hb : ∀ k < 4, (if (if len ≥ 4 then 4 else len) > k then (base.getD k 0).toNat else 0) =
      (b k).toNat := by
    intro k hk
    by_cases h : k < len
    · have : (if len ≥ 4 then 4 else len) > k := by split <;> omega
      simp [b, h, this]
    · have : ¬ (if len ≥ 4 then 4 else len) > k := by split <;> omega
      simp [b, h, this]
  simp only [loadU32Be]
  rw [hb 0 (by norm_num), hb 1 (by norm_num), hb 2 (by norm_num), hb 3 (by norm_num), lor_bytes]
  have hstream := streamVal_padded_append (byteBits [b 0, b 1, b 2, b 3]) []
  rw [List.append_nil, length_byteBits] at hstream
  rw [← hstream]
  refine streamVal_congr fun i hi => ?_
  rw [channelStream_eq, padded_byteBits]
  have h4 : i / 8 < 4 := by simp at hi; omega
  congr 2
  interval_cases i / 8 <;> rfl

/-- The reader stands before bit `32 + i` of the stream. -/
structure BitReader.At (r : BitReader) (base : List UInt8) (len i : ℕ) : Prop where
  base_eq : r.base = base
  len_eq : r.len = len
  pos_eq : r.pos = 4 + i / 8
  bitIdx_eq : r.bitIdx = 1 + i % 8
  byte_eq : r.byte = if 4 + i / 8 < len then base.getD (4 + i / 8) 0 else 0

theorem BitReader.start_at (base : List UInt8) (len : ℕ) :
    (BitReader.start base len 4).At base len 0 := ⟨rfl, rfl, rfl, rfl, rfl⟩

theorem BitReader.At.nextBit {r : BitReader} {base : List UInt8} {len i : ℕ}
    (h : r.At base len i) :
    r.nextBit.1 = channelStream base len (32 + i) ∧ r.nextBit.2.At base len (i + 1) := by
  obtain ⟨hbase, hlen, hpos, hidx, hbyte⟩ := h
  constructor
  · have hdiv : (32 + i) / 8 = 4 + i / 8 := by omega
    have hmod : 8 - (1 + i % 8) = 7 - (32 + i) % 8 := by omega
    rw [channelStream_eq, hdiv, ← hbyte, ← hmod, Nat.testBit, ← hidx]
    simp only [BitReader.nextBit, Nat.and_comm _ 1]
    rcases Nat.mod_two_eq_zero_or_one (r.byte.toNat >>> (8 - r.bitIdx)) with hm | hm <;>
      simp [Nat.one_and_eq_mod_two, hm]
  · simp only [BitReader.nextBit]
    by_cases h9 : r.bitIdx + 1 = 9
    · have hi : i % 8 = 7 := by omega
      have hnext : (i + 1) / 8 = i / 8 + 1 := by omega
      rw [if_pos h9]
      refine ⟨hbase, hlen, ?_, ?_, ?_⟩
      · show r.pos + 1 = _
        omega
      · show 1 = _
        omega
      · show (if r.pos + 1 < r.len then r.base.getD (r.pos + 1) 0 else 0) = _
        rw [hbase, hlen, hpos, hnext, Nat.add_assoc]
    · have hi : i % 8 < 7 := by omega
      have hnext : (i + 1) / 8 = i / 8 := by omega
      rw [if_neg h9]
      refine ⟨hbase, hlen, ?_, ?_, ?_⟩
      · show r.pos = _
        omega
      · show r.bitIdx + 1 = _
        omega
      · rw [hnext]
        exact hbyte

end MzCache.CacheGen
