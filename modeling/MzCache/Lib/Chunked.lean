import MzCache.Lib.ByteStream

/-!
# Rows in chunks

A tensor of rows cut into chunks of `t` rows each. Row `r` is row `r % t` of chunk
`r / t`, and byte `x` of the flat tensor is byte `x % (t * row)` of chunk
`x / (t * row)`. A range of rows is walked chunk by chunk; `span` is the part of a
chunk such a walk touches, told apart by whether the chunk is the only one, the
first, the last or one in between, and `span_eq` says that this is the intersection
of the range with the chunk.
-/

namespace MzCache.Lib

/-- Offset and length, in bytes, of the part of chunk `ci` that the rows `s ≤ r < e` touch. -/
def span (t row s e ci : Nat) : Nat × Nat :=
  let first := s / t
  let last := (e - 1) / t
  let full := t * row
  if first = last then (s % t * row, (e - s) * row)
  else if ci = first then (s % t * row, full - s % t * row)
  else if ci = last then (0, (e - last * t) * row)
  else (0, full)

section

variable {t row s e ci : Nat}

/-- The rows of the range that lie in chunk `ci` start at `lowRow` and end before `highRow`. -/
def lowRow (t s ci : Nat) : Nat := max s (ci * t)

def highRow (t e ci : Nat) : Nat := min e (ci * t + t)

/-- The four cases are one: the intersection of the range with the chunk. -/
theorem span_eq (ht : 0 < t) (hse : s < e) (hlow : s / t ≤ ci) (hhigh : ci ≤ (e - 1) / t) :
    span t row s e ci =
      ((lowRow t s ci - ci * t) * row, (highRow t e ci - lowRow t s ci) * row) := by
  have hs := Nat.div_add_mod s t
  have hsm := Nat.mod_lt s ht
  have he := Nat.div_add_mod (e - 1) t
  have hem := Nat.mod_lt (e - 1) ht
  rw [Nat.mul_comm] at hs he
  unfold span lowRow highRow
  dsimp only
  by_cases h1 : s / t = (e - 1) / t
  · rw [if_pos h1]
    have hci : ci = s / t := by omega
    rw [← h1] at he
    subst hci
    rw [show max s (s / t * t) = s by omega, show min e (s / t * t + t) = e by omega,
      show s - s / t * t = s % t by omega]
  · rw [if_neg h1]
    by_cases h2 : ci = s / t
    · rw [if_pos h2]
      have hmul : (s / t + 1) * t ≤ (e - 1) / t * t := Nat.mul_le_mul_right t (by omega)
      rw [Nat.add_mul, Nat.one_mul] at hmul
      rw [h2, show max s (s / t * t) = s by omega,
        show min e (s / t * t + t) = s / t * t + t by omega,
        show s - s / t * t = s % t by omega, show s / t * t + t - s = t - s % t by omega,
        Nat.sub_mul]
    · rw [if_neg h2]
      have hmul : (s / t + 1) * t ≤ ci * t := Nat.mul_le_mul_right t (by omega)
      rw [Nat.add_mul, Nat.one_mul] at hmul
      rw [show max s (ci * t) = ci * t by omega, Nat.sub_self, Nat.zero_mul]
      by_cases h3 : ci = (e - 1) / t
      · rw [if_pos h3, ← h3]
        rw [← h3] at he
        rw [show min e (ci * t + t) = e by omega]
      · rw [if_neg h3]
        have hmul' : (ci + 1) * t ≤ (e - 1) / t * t := Nat.mul_le_mul_right t (by omega)
        rw [Nat.add_mul, Nat.one_mul] at hmul'
        rw [show min e (ci * t + t) = ci * t + t by omega, Nat.add_sub_cancel_left]

/-- Inside the range the rows of a chunk are rows of the range. -/
theorem lowRow_le_highRow (ht : 0 < t) (hse : s < e) (hlow : s / t ≤ ci)
    (hhigh : ci ≤ (e - 1) / t) :
    lowRow t s ci ≤ highRow t e ci ∧ ci * t ≤ lowRow t s ci ∧ highRow t e ci ≤ ci * t + t := by
  have hs := Nat.lt_div_mul_add ht (a := s)
  have he := Nat.div_mul_le_self (e - 1) t
  have h1 : s / t * t ≤ ci * t := Nat.mul_le_mul_right t hlow
  have h2 : ci * t ≤ (e - 1) / t * t := Nat.mul_le_mul_right t hhigh
  unfold lowRow highRow
  refine ⟨?_, ?_, ?_⟩
  · omega
  · omega
  · omega

/-- The next chunk goes on where this one ends. -/
theorem lowRow_succ (ht : 0 < t) (hlow : s / t ≤ ci) (hhigh : ci + 1 ≤ (e - 1) / t) :
    highRow t e ci = lowRow t s (ci + 1) := by
  have hs := Nat.lt_div_mul_add ht (a := s)
  have he := Nat.div_mul_le_self (e - 1) t
  have h1 : s / t * t ≤ ci * t := Nat.mul_le_mul_right t hlow
  have h2 : (ci + 1) * t ≤ (e - 1) / t * t := Nat.mul_le_mul_right t hhigh
  rw [Nat.add_mul, Nat.one_mul] at h2
  unfold lowRow highRow
  rw [Nat.add_mul, Nat.one_mul]
  omega

theorem lowRow_first (s t : Nat) : lowRow t s (s / t) = s := by
  unfold lowRow
  have := Nat.div_mul_le_self s t
  omega

theorem highRow_last (ht : 0 < t) (he : 0 < e) : highRow t e ((e - 1) / t) = e := by
  unfold highRow
  have := Nat.lt_div_mul_add ht (a := e - 1)
  omega

/-! ## The flat tensor -/

/-- The flat tensor that the chunks hold. -/
def flatten (full : Nat) (chunk : Nat → Bytes) : Bytes := fun x => chunk (x / full) (x % full)

/-- Bytes of one chunk are bytes of the flat tensor. -/
theorem slice_flatten {full : Nat} {chunk : Nat → Bytes} {off n : Nat} (h : off + n ≤ full) :
    slice (chunk ci) off n = slice (flatten full chunk) (ci * full + off) n := by
  apply slice_congr
  intro i hi
  have hlt : off + i < full := by omega
  unfold flatten
  rw [show ci * full + off + i = off + i + full * ci by ring,
    Nat.add_mul_div_left _ _ (by omega), Nat.div_eq_of_lt hlt, Nat.zero_add,
    Nat.add_mul_mod_self_left, Nat.mod_eq_of_lt hlt]

/-- Byte `b` of row `r` is in chunk `r / t`. -/
theorem row_div {r b : Nat} (hb : b < row) : (r * row + b) / (t * row) = r / t := by
  rw [Nat.mul_comm t row, ← Nat.div_div_eq_div_mul, Nat.mul_comm r row,
    Nat.mul_add_div (by omega), Nat.div_eq_of_lt hb, Nat.add_zero]

/-- Byte `b` of row `r` is byte `b` of row `r % t` there. -/
theorem row_mod {r b : Nat} (hb : b < row) :
    (r * row + b) % (t * row) = r % t * row + b := by
  have hsplit := Nat.div_add_mod (r * row + b) (t * row)
  rw [row_div hb] at hsplit
  have hr : r * row = t * row * (r / t) + r % t * row := by
    conv_lhs => rw [← Nat.div_add_mod r t]
    ring
  omega

/-- Byte `b` of row `r` stands in row `r % t` of chunk `r / t`. -/
theorem flatten_row {chunk : Nat → Bytes} {r b : Nat} (hb : b < row) :
    flatten (t * row) chunk (r * row + b) = chunk (r / t) (r % t * row + b) := by
  unfold flatten
  rw [row_div hb, row_mod hb]

/-- The same byte of the same row in a list of rows. -/
theorem flatMap_row {α : Type} {rows : α → List UInt8} (xs : List α)
    (hlen : ∀ a ∈ xs, (rows a).length = row) {k b : Nat} {a : α} (hk : xs[k]? = some a)
    (hb : b < row) : (xs.flatMap rows).getD (k * row + b) 0 = (rows a).getD b 0 := by
  induction xs generalizing k with
  | nil => exact absurd hk (by simp)
  | cons x xs ih =>
      have hx := hlen x List.mem_cons_self
      rw [List.flatMap_cons, List.getD_eq_getElem?_getD, List.getD_eq_getElem?_getD]
      cases k with
      | zero =>
          rw [List.getElem?_cons_zero, Option.some.injEq] at hk
          rw [Nat.zero_mul, Nat.zero_add, List.getElem?_append_left (by omega), hk]
      | succ k =>
          rw [List.getElem?_cons_succ] at hk
          have hrest := ih (fun a ha => hlen a (List.mem_cons_of_mem _ ha)) hk
          rw [List.getD_eq_getElem?_getD, List.getD_eq_getElem?_getD] at hrest
          rw [Nat.succ_mul, List.getElem?_append_right (by omega), hx, ← hrest]
          congr 2
          omega

end

end MzCache.Lib
