import MzCache.Lib.Table

/-!
# Byte streams

Fixed-width little-endian numbers, two's complement for signed ones, and slices of
a byte medium as lists. A format that writes fields one after the other reads them
back with the lemmas about `ofLe (toLe w v)`; a tensor that is written piece by piece
is one slice when the pieces follow each other (`slice_add`).
-/

namespace MzCache.Lib

/-! ## Numbers -/

/-- The `w` little-endian bytes of `v`. -/
def toLe : Nat → Nat → List UInt8
  | 0, _ => []
  | w + 1, v => UInt8.ofNat v :: toLe w (v / 256)

/-- The number some little-endian bytes stand for. -/
def ofLe : List UInt8 → Nat
  | [] => 0
  | b :: bs => b.toNat + 256 * ofLe bs

@[simp] theorem toLe_length (w v : Nat) : (toLe w v).length = w := by
  induction w generalizing v with
  | zero => rfl
  | succ w ih => rw [toLe, List.length_cons, ih]

/-- What fits is read back. -/
theorem ofLe_toLe {w v : Nat} (h : v < 256 ^ w) : ofLe (toLe w v) = v := by
  induction w generalizing v with
  | zero =>
      have : v = 0 := by simpa using h
      rw [this]
      rfl
  | succ w ih =>
      have hdiv : v / 256 < 256 ^ w := by
        rw [pow_succ] at h
        exact Nat.div_lt_of_lt_mul (by rwa [Nat.mul_comm] at h)
      rw [toLe, ofLe, ih hdiv]
      have hbyte : (UInt8.ofNat v).toNat = v % 256 := by
        simp
      rw [hbyte]
      omega

/-- The four bytes of a signed number. -/
def toI32 (x : Int) : List UInt8 := toLe 4 (x % 2 ^ 32).toNat

/-- The signed number four bytes stand for. -/
def ofI32 (bs : List UInt8) : Int := Int.bmod (ofLe bs) (2 ^ 32)

@[simp] theorem toI32_length (x : Int) : (toI32 x).length = 4 := toLe_length _ _

/-- The values of a signed 32-bit number. -/
def InI32 (x : Int) : Prop := -2 ^ 31 ≤ x ∧ x < 2 ^ 31

theorem ofI32_toI32 {x : Int} (h : InI32 x) : ofI32 (toI32 x) = x := by
  obtain ⟨hlow, hhigh⟩ := h
  have hnonneg : 0 ≤ x % 2 ^ 32 := Int.emod_nonneg _ (by decide)
  have hlt : x % 2 ^ 32 < 2 ^ 32 := Int.emod_lt_of_pos _ (by decide)
  unfold ofI32 toI32
  rw [ofLe_toLe (by omega), Int.toNat_of_nonneg hnonneg]
  rw [show (2 : Int) ^ 32 = ((2 ^ 32 : Nat) : Int) by norm_num, Int.emod_bmod]
  exact Int.bmod_eq_of_le (by norm_num; omega) (by norm_num; omega)

/-! ## Slices -/

/-- `n` bytes of a medium from `off` on. -/
def slice (m : Bytes) (off n : Nat) : List UInt8 := (List.range n).map fun i => m (off + i)

@[simp] theorem slice_length (m : Bytes) (off n : Nat) : (slice m off n).length = n := by
  simp [slice]

/-- Two slices that follow each other are one. -/
theorem slice_add (m : Bytes) (off a b : Nat) :
    slice m off (a + b) = slice m off a ++ slice m (off + a) b := by
  unfold slice
  rw [List.range_add, List.map_append, List.map_map]
  congr 1
  apply List.map_congr_left
  intro i _
  show m (off + (a + i)) = m (off + a + i)
  rw [Nat.add_assoc]

theorem slice_congr {m m' : Bytes} {off off' n : Nat}
    (h : ∀ i < n, m (off + i) = m' (off' + i)) : slice m off n = slice m' off' n := by
  unfold slice
  apply List.map_congr_left
  intro i hi
  exact h i (List.mem_range.mp hi)

theorem slice_getElem {m : Bytes} {off n i : Nat} (h : i < n) :
    (slice m off n)[i]? = some (m (off + i)) := by
  unfold slice
  rw [List.getElem?_map, List.getElem?_range h]
  rfl

end MzCache.Lib
