import Mathlib

/-!
# Bit strings

Finite bit strings, most significant bit first, the numbers they spell, and infinite
streams read through longer and longer leading parts.
-/

namespace MzCache.Lib

/-- The number a bit string spells. -/
def bitsVal (l : List Bool) : ℕ := l.foldl (fun a b => 2 * a + b.toNat) 0

/-- The `w` lowest bits of `n`. -/
def bitsOf : ℕ → ℕ → List Bool
  | 0, _ => []
  | w + 1, n => bitsOf w (n / 2) ++ [n.testBit 0]

/-- The number the first `k` bits of a stream spell. -/
def streamVal (x : ℕ → Bool) : ℕ → ℕ
  | 0 => 0
  | k + 1 => 2 * streamVal x k + (x k).toNat

/-- A finite string continued by zeros. -/
def padded (l : List Bool) (i : ℕ) : Bool := l.getD i false

/-- The bytes that hold a bit string, the last one filled up with zeros. -/
def packBits (l : List Bool) : List UInt8 :=
  (List.range ((l.length + 7) / 8)).map fun i =>
    UInt8.ofNat (bitsVal ((List.range 8).map fun k => padded l (8 * i + k)))

/-! ## Values of strings -/

private theorem foldl_bits (l : List Bool) (a : ℕ) :
    l.foldl (fun a b => 2 * a + b.toNat) a = a * 2 ^ l.length + bitsVal l := by
  induction l generalizing a with
  | nil => simp [bitsVal]
  | cons b l ih =>
      simp only [List.foldl_cons, List.length_cons, bitsVal]
      rw [ih, ih (2 * 0 + b.toNat)]
      ring

theorem bitsVal_append (l m : List Bool) :
    bitsVal (l ++ m) = bitsVal l * 2 ^ m.length + bitsVal m := by
  rw [bitsVal, List.foldl_append, foldl_bits]
  rfl

theorem bitsVal_concat (l : List Bool) (b : Bool) :
    bitsVal (l ++ [b]) = 2 * bitsVal l + b.toNat := by
  rw [bitsVal_append]
  simp [bitsVal, Nat.mul_comm]

theorem bitsVal_zeros (n : ℕ) : bitsVal (List.replicate n false) = 0 := by
  induction n with
  | zero => rfl
  | succ n ih => rw [List.replicate_succ', bitsVal_concat, ih]; rfl

theorem bitsVal_ones (n : ℕ) : bitsVal (List.replicate n true) + 1 = 2 ^ n := by
  induction n with
  | zero => rfl
  | succ n ih =>
      rw [List.replicate_succ', bitsVal_concat, pow_succ, ← ih]
      simp only [Bool.toNat_true]
      ring

/-! ## Bits of numbers -/

@[simp] theorem bitsOf_width_zero (n : ℕ) : bitsOf 0 n = [] := rfl

@[simp] theorem length_bitsOf (w n : ℕ) : (bitsOf w n).length = w := by
  induction w generalizing n with
  | zero => rfl
  | succ w ih => simp [bitsOf, ih]

theorem bitsOf_add (a b x y : ℕ) (hy : y < 2 ^ b) :
    bitsOf (a + b) (x * 2 ^ b + y) = bitsOf a x ++ bitsOf b y := by
  induction b generalizing y with
  | zero =>
      have : y = 0 := by simpa using hy
      simp [this, bitsOf]
  | succ b ih =>
      have hdiv : (x * 2 ^ (b + 1) + y) / 2 = x * 2 ^ b + y / 2 := by
        rw [pow_succ, ← Nat.mul_assoc]
        omega
      have hbit : (x * 2 ^ (b + 1) + y).testBit 0 = y.testBit 0 := by
        rw [pow_succ, ← Nat.mul_assoc, Nat.testBit_zero, Nat.testBit_zero]
        congr 2
        omega
      rw [← Nat.add_assoc, bitsOf, bitsOf, hdiv, hbit,
        ih (y / 2) (by rw [pow_succ] at hy; omega), List.append_assoc]

theorem bitsOf_zero (w : ℕ) : bitsOf w 0 = List.replicate w false := by
  induction w with
  | zero => rfl
  | succ w ih => rw [bitsOf, Nat.zero_div, ih, List.replicate_succ']; rfl

theorem bitsOf_ones (w : ℕ) : bitsOf w (2 ^ w - 1) = List.replicate w true := by
  induction w with
  | zero => rfl
  | succ w ih =>
      have hpos : 0 < 2 ^ w := by positivity
      have hdiv : (2 ^ (w + 1) - 1) / 2 = 2 ^ w - 1 := by
        rw [pow_succ]
        omega
      have hbit : (2 ^ (w + 1) - 1).testBit 0 = true := by
        rw [pow_succ, Nat.testBit_zero]
        simp only [decide_eq_true_eq]
        omega
      rw [bitsOf, hdiv, hbit, ih, List.replicate_succ']

theorem bitsVal_bitsOf {w n : ℕ} (h : n < 2 ^ w) : bitsVal (bitsOf w n) = n := by
  induction w generalizing n with
  | zero =>
      have : n = 0 := by simpa using h
      rw [this]
      rfl
  | succ w ih =>
      rw [bitsOf, bitsVal_concat, ih (by rw [pow_succ] at h; omega), Nat.testBit_zero]
      rcases Nat.mod_two_eq_zero_or_one n with hn | hn <;> simp [hn] <;> omega

theorem bitsOf_bitsVal (l : List Bool) : bitsOf l.length (bitsVal l) = l := by
  induction l using List.reverseRecOn with
  | nil => rfl
  | append_singleton l b ih =>
      have hdiv : (2 * bitsVal l + b.toNat) / 2 = bitsVal l := by
        have := b.toNat_lt
        omega
      have hbit : (2 * bitsVal l + b.toNat).testBit 0 = b := by cases b <;> simp
      rw [bitsVal_concat, List.length_append, List.length_singleton, bitsOf, hdiv, hbit, ih]

theorem bitsVal_lt (l : List Bool) : bitsVal l < 2 ^ l.length := by
  induction l using List.reverseRecOn with
  | nil => simp [bitsVal]
  | append_singleton l b ih =>
      have := b.toNat_lt
      rw [bitsVal_concat, List.length_append, List.length_singleton, pow_succ]
      omega

theorem bitsOf_getD (w n i : ℕ) (hi : i < w) :
    (bitsOf w n).getD i false = n.testBit (w - 1 - i) := by
  induction w generalizing n with
  | zero => omega
  | succ w ih =>
      rw [bitsOf]
      rcases Nat.lt_or_ge i w with h | h
      · rw [List.getD_append _ _ _ _ (by simpa using h), ih _ h, ← Nat.testBit_succ]
        congr 1
        omega
      · obtain rfl : i = w := by omega
        rw [List.getD_append_right _ _ _ _ (by simp)]
        simp

theorem bitsOf_eq_map (w n : ℕ) :
    bitsOf w n = (List.range w).map fun i => n.testBit (w - 1 - i) := by
  refine List.ext_getElem (by simp) fun i hi _ => ?_
  rw [List.getElem_map, List.getElem_range, ← bitsOf_getD w n i (by simpa using hi),
    List.getD_eq_getElem]

/-! ## Streams -/

theorem streamVal_succ (x : ℕ → Bool) (k : ℕ) :
    streamVal x (k + 1) = 2 * streamVal x k + (x k).toNat := rfl

/-- The leading bits of a stream, read back from their value. -/
theorem bitsOf_streamVal (x : ℕ → Bool) (k : ℕ) :
    bitsOf k (streamVal x k) = (List.range k).map x := by
  induction k with
  | zero => rfl
  | succ k ih =>
      have hdiv : (2 * streamVal x k + (x k).toNat) / 2 = streamVal x k := by
        have := (x k).toNat_lt
        omega
      have hbit : (2 * streamVal x k + (x k).toNat).testBit 0 = x k := by
        cases x k <;> simp
      rw [bitsOf, streamVal_succ, hdiv, hbit, ih, List.range_succ, List.map_append,
        List.map_singleton]

theorem streamVal_lower (x : ℕ → Bool) (k n : ℕ) :
    2 ^ n * streamVal x k ≤ streamVal x (k + n) := by
  induction n with
  | zero => simp
  | succ n ih =>
      rw [← Nat.add_assoc, streamVal_succ, pow_succ]
      nlinarith

theorem streamVal_upper (x : ℕ → Bool) (k n : ℕ) :
    streamVal x (k + n) < 2 ^ n * (streamVal x k + 1) := by
  induction n with
  | zero => simp
  | succ n ih =>
      have hb : (x (k + n)).toNat ≤ 1 := Bool.toNat_le _
      rw [← Nat.add_assoc, streamVal_succ, pow_succ]
      nlinarith

theorem streamVal_congr {x y : ℕ → Bool} {k : ℕ} (h : ∀ i < k, x i = y i) :
    streamVal x k = streamVal y k := by
  induction k with
  | zero => rfl
  | succ k ih =>
      rw [streamVal_succ, streamVal_succ, ih fun i hi => h i (by omega), h k (by omega)]

theorem streamVal_padded_append (l m : List Bool) :
    streamVal (padded (l ++ m)) l.length = bitsVal l := by
  induction l using List.reverseRecOn generalizing m with
  | nil => rfl
  | append_singleton l b ih =>
      have hlast : padded (l ++ [b] ++ m) l.length = b := by simp [padded]
      rw [List.length_append, List.length_singleton, streamVal_succ, hlast,
        List.append_assoc, ih, bitsVal_concat]

/-- Past its end a padded string only doubles. -/
theorem streamVal_padded (l : List Bool) (k : ℕ) :
    streamVal (padded l) (l.length + k) = bitsVal l * 2 ^ k := by
  induction k with
  | zero => simpa using streamVal_padded_append l []
  | succ k ih =>
      have hz : padded l (l.length + k) = false := by simp [padded]
      rw [← Nat.add_assoc, streamVal_succ, ih, hz, pow_succ]
      simp only [Bool.toNat_false]
      ring

theorem padded_append_zeros (l : List Bool) (k : ℕ) :
    padded (l ++ List.replicate k false) = padded l := by
  funext i
  rcases Nat.lt_or_ge i l.length with h | h
  · rw [padded, List.getD_append _ _ _ _ h]
    rfl
  · rw [padded, List.getD_append_right _ _ _ _ h, padded, List.getD_eq_default _ _ h]
    rcases Nat.lt_or_ge (i - l.length) k with h' | h'
    · rw [List.getD_replicate _ h']
    · exact List.getD_eq_default _ _ (by simpa using h')

/-! ## Byte strings -/

/-- The bits of a byte string. -/
def byteBits (bytes : List UInt8) : List Bool := bytes.flatMap fun b => bitsOf 8 b.toNat

@[simp] theorem byteBits_nil : byteBits [] = [] := rfl

theorem byteBits_cons (b : UInt8) (l : List UInt8) :
    byteBits (b :: l) = bitsOf 8 b.toNat ++ byteBits l := rfl

theorem byteBits_append (l m : List UInt8) : byteBits (l ++ m) = byteBits l ++ byteBits m :=
  List.flatMap_append

@[simp] theorem length_byteBits (l : List UInt8) : (byteBits l).length = 8 * l.length := by
  induction l with
  | nil => rfl
  | cons b l ih => rw [byteBits_cons, List.length_append, ih, length_bitsOf, List.length_cons]; ring

/-- Bit `i` of a byte string is bit `7 - i % 8` of its byte `i / 8`. -/
theorem padded_byteBits (l : List UInt8) (i : ℕ) :
    padded (byteBits l) i = (l.getD (i / 8) 0).toNat.testBit (7 - i % 8) := by
  induction l generalizing i with
  | nil => simp [padded]
  | cons b l ih =>
      rw [byteBits_cons, padded]
      rcases Nat.lt_or_ge i 8 with h | h
      · rw [List.getD_append _ _ _ _ (by simpa using h), bitsOf_getD _ _ _ h,
          Nat.div_eq_of_lt h, Nat.mod_eq_of_lt h]
        rfl
      · have hdiv : i / 8 = (i - 8) / 8 + 1 := by omega
        have hmod : i % 8 = (i - 8) % 8 := by omega
        rw [List.getD_append_right _ _ _ _ (by simpa using h), length_bitsOf, ← padded, ih,
          hdiv, hmod, List.getD_cons_succ]

theorem length_packBits (l : List Bool) : (packBits l).length = (l.length + 7) / 8 := by
  simp [packBits]

theorem byteBits_packBits (l : List Bool) :
    byteBits (packBits l) = l ++ List.replicate (8 * ((l.length + 7) / 8) - l.length) false := by
  have hlen : (byteBits (packBits l)).length = 8 * ((l.length + 7) / 8) := by
    rw [length_byteBits, length_packBits]
  refine List.ext_getElem (by rw [hlen]; simp; omega) fun i hi _ => ?_
  rw [hlen] at hi
  have hbyte : i / 8 < (l.length + 7) / 8 := by omega
  -- bit `i` is one of the eight bits of its byte
  set bits := (List.range 8).map fun k => padded l (8 * (i / 8) + k) with hbits
  have hval : bitsVal bits < 2 ^ 8 := by
    have := bitsVal_lt bits
    rwa [hbits, List.length_map, List.length_range] at this
  have hget : (packBits l).getD (i / 8) 0 = UInt8.ofNat (bitsVal bits) := by
    rw [packBits, List.getD_eq_getElem _ _ (by simpa using hbyte), List.getElem_map,
      List.getElem_range]
  have hbit : (bitsVal bits).testBit (7 - i % 8) = padded l i := by
    have h8 : bits.length = 8 := by simp [hbits]
    have hstr := bitsOf_bitsVal bits
    rw [h8] at hstr
    have := bitsOf_getD 8 (bitsVal bits) (i % 8) (Nat.mod_lt _ (by norm_num))
    rw [hstr] at this
    rw [show 7 - i % 8 = 8 - 1 - i % 8 from rfl, ← this, hbits,
      List.getD_eq_getElem _ _ (by simpa using Nat.mod_lt i (by norm_num)), List.getElem_map,
      List.getElem_range, Nat.div_add_mod]
  have hleft := padded_byteBits (packBits l) i
  rw [hget, UInt8.toNat_ofNat_of_lt' hval, hbit, ← padded_append_zeros l] at hleft
  rw [padded, padded, List.getD_eq_getElem _ _ (by omega), List.getD_eq_getElem] at hleft
  exact hleft

/-- Byte strings with the same bits are the same. -/
theorem byteBits_injective : Function.Injective byteBits := by
  intro a b h
  have hlen := congrArg List.length h
  rw [length_byteBits, length_byteBits] at hlen
  refine List.ext_getElem (by omega) fun i hi hj => UInt8.toNat_inj.mp ?_
  rw [← bitsVal_bitsOf (a[i]).toNat_lt, ← bitsVal_bitsOf (b[i]).toNat_lt, bitsOf_eq_map,
    bitsOf_eq_map]
  congr 1
  refine List.map_congr_left fun k hk => ?_
  have hk := List.mem_range.mp hk
  have hdiv : (8 * i + k) / 8 = i := by omega
  have hmod : (8 * i + k) % 8 = k := by omega
  have ha := padded_byteBits a (8 * i + k)
  have hb := padded_byteBits b (8 * i + k)
  rw [hdiv, hmod, List.getD_eq_getElem _ _ hi] at ha
  rw [hdiv, hmod, List.getD_eq_getElem _ _ hj] at hb
  exact ha.symm.trans ((congrFun (congrArg padded h) _).trans hb)

/-- The padding of a packing is less than a byte, so it is known from the bits. -/
theorem eq_append_packBits {bytes out : List UInt8} {l : List Bool} {k : ℕ} (hk : k < 8)
    (h : byteBits bytes = byteBits out ++ (l ++ List.replicate k false)) :
    bytes = out ++ packBits l := by
  have hlen := congrArg List.length h
  simp only [length_byteBits, List.length_append, List.length_replicate] at hlen
  have hpad : 8 * ((l.length + 7) / 8) - l.length = k := by omega
  apply byteBits_injective
  rw [h, byteBits_append, byteBits_packBits, hpad]

end MzCache.Lib
