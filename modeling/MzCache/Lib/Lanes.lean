import Mathlib

/-!
# Vector lanes

A vector register is a function from lanes. `load` and `store` move it from and to memory,
`high`, `combine`, `pairwise`, `zipLow` and `zipHigh` are the usual rearrangements with the
number of lanes of a half as a parameter.
-/

namespace MzCache.Lib.Lanes

variable {α β : Type*}

/-- The vector at `off`. -/
def load (src : ℕ → α) (off : ℕ) : ℕ → α := fun i => src (off + i)

/-- The upper half of a vector of `2 * n` lanes. -/
def high (n : ℕ) (v : ℕ → α) : ℕ → α := fun i => v (n + i)

/-- Two halves of `n` lanes. -/
def combine (n : ℕ) (lo hi : ℕ → α) : ℕ → α := fun i => if i < n then lo i else hi (i - n)

/-- Neighbouring lanes combined, those of the first vector in the lower half. -/
def pairwise (n : ℕ) (op : α → α → α) (v w : ℕ → α) : ℕ → α :=
  combine n (fun i => op (v (2 * i)) (v (2 * i + 1))) (fun i => op (w (2 * i)) (w (2 * i + 1)))

/-- Two vectors interleaved, from their first lanes on. -/
def zipLow (v w : ℕ → α) : ℕ → α := fun i => if i % 2 = 0 then v (i / 2) else w (i / 2)

/-- Two vectors interleaved, from lane `n` on. -/
def zipHigh (n : ℕ) (v w : ℕ → α) : ℕ → α := zipLow (high n v) (high n w)

/-- The memory after `n` lanes were stored at `off`. -/
def store (mem : ℕ → α) (off n : ℕ) (v : ℕ → α) : ℕ → α :=
  fun a => if off ≤ a ∧ a < off + n then v (a - off) else mem a

/-- Interleaving the low halves and then the high halves of `2 * n` lanes interleaves all. -/
theorem combine_zip (n : ℕ) (v w : ℕ → α) {i : ℕ} :
    combine (2 * n) (zipLow v w) (zipHigh n v w) i = zipLow v w i := by
  unfold combine
  split
  · rfl
  · next h =>
      unfold zipHigh zipLow high
      rw [show (i - 2 * n) % 2 = i % 2 by omega, show n + (i - 2 * n) / 2 = i / 2 by omega]

/-- Storing both halves of a vector stores the vector. -/
theorem store_halves (mem : ℕ → α) (off n : ℕ) (v w : ℕ → α) :
    store (store mem off n v) (off + n) n w = store mem off (2 * n) (combine n v w) := by
  funext a
  unfold store combine
  by_cases h1 : off ≤ a ∧ a < off + n
  · rw [if_neg (by omega), if_pos h1, if_pos (by omega), if_pos (by omega)]
  · by_cases h2 : off + n ≤ a ∧ a < off + n + n
    · rw [if_pos h2, if_pos (by omega), if_neg (by omega)]
      congr 1
      omega
    · rw [if_neg h2, if_neg h1, if_neg (by omega)]

theorem combine_high (n : ℕ) (v : ℕ → α) : combine n v (high n v) = v := by
  funext i
  unfold combine high
  split
  · rfl
  · next h =>
      rw [Nat.add_sub_cancel' (by omega)]

/-- A vector stored half by half. -/
theorem store_split (mem : ℕ → α) (off n : ℕ) (v : ℕ → α) :
    store (store mem off n v) (off + n) n (high n v) = store mem off (2 * n) v := by
  rw [store_halves, combine_high]

theorem store_congr {mem : ℕ → α} {off n : ℕ} {v w : ℕ → α} (h : ∀ i < n, v i = w i) :
    store mem off n v = store mem off n w := by
  funext a
  unfold store
  split
  · exact h _ (by omega)
  · rfl

/-- Scalars stored one behind another. -/
theorem foldl_update_range (n off : ℕ) (f : ℕ → α) (mem : ℕ → α) :
    (List.range n).foldl (fun mem i => Function.update mem (off + i) (f i)) mem =
      store mem off n f := by
  induction n with
  | zero =>
      funext a
      exact (if_neg (by omega)).symm
  | succ n ih =>
      rw [List.range_succ, List.foldl_append, List.foldl_cons, List.foldl_nil, ih]
      funext a
      unfold store
      by_cases hlast : a = off + n
      · subst hlast
        rw [Function.update_self, if_pos (by omega), Nat.add_sub_cancel_left]
      · rw [Function.update_of_ne hlast]
        by_cases hfirst : off ≤ a ∧ a < off + n
        · rw [if_pos hfirst, if_pos (by omega)]
        · rw [if_neg hfirst, if_neg (by omega)]

/-- Vectors of `k` lanes stored one behind another. -/
theorem foldl_store (k n off : ℕ) (f : ℕ → ℕ → α) (mem : ℕ → α) :
    (List.range n).foldl (fun mem b => store mem (off + b * k) k (f b)) mem =
      store mem off (n * k) (fun i => f (i / k) (i % k)) := by
  induction n with
  | zero =>
      funext a
      unfold store
      rw [if_neg (by omega)]
      rfl
  | succ n ih =>
      rw [List.range_succ, List.foldl_append, List.foldl_cons, List.foldl_nil, ih, Nat.succ_mul]
      funext a
      unfold store
      by_cases hlast : off + n * k ≤ a ∧ a < off + n * k + k
      · have hk : 0 < k := by omega
        obtain ⟨i, rfl⟩ := Nat.exists_eq_add_of_le hlast.1
        have hi : i < k := by omega
        rw [if_pos hlast, if_pos (by omega), Nat.add_sub_cancel_left, Nat.add_assoc off,
          Nat.add_sub_cancel_left, Nat.add_comm (n * k) i]
        show f n i = f ((i + n * k) / k) ((i + n * k) % k)
        rw [Nat.add_mul_div_right _ _ hk, Nat.add_mul_mod_self_right, Nat.div_eq_of_lt hi,
          Nat.mod_eq_of_lt hi, Nat.zero_add]
      · rw [if_neg hlast]
        by_cases hfirst : off ≤ a ∧ a < off + n * k
        · rw [if_pos hfirst, if_pos (by omega)]
        · rw [if_neg hfirst, if_neg (by omega)]

/-- Blocks of `k` stored at their own places, in any order: a visited block holds what was stored,
and the others are as before. -/
theorem foldl_store_blocks {k : ℕ} (hk : 0 < k) (f : ℕ → ℕ → α) (bs : List ℕ) (mem : ℕ → α)
    (a : ℕ) :
    bs.foldl (fun mem b => store mem (b * k) k (f b)) mem a =
      if a / k ∈ bs then f (a / k) (a % k) else mem a := by
  induction bs using List.reverseRecOn with
  | nil => exact (if_neg List.not_mem_nil).symm
  | append_singleton bs b ih =>
      rw [List.foldl_append, List.foldl_cons, List.foldl_nil]
      show (if b * k ≤ a ∧ a < b * k + k then f b (a - b * k) else bs.foldl _ mem a) = _
      have hblock : (b * k ≤ a ∧ a < b * k + k) ↔ a / k = b := by
        constructor
        · rintro ⟨h1, h2⟩
          exact Nat.div_eq_of_lt_le h1 (by rwa [Nat.succ_mul])
        · rintro rfl
          have h1 := Nat.div_add_mod a k
          have h2 := Nat.mod_lt a hk
          rw [Nat.mul_comm] at h1
          omega
      by_cases hb : a / k = b
      · rw [if_pos (hblock.mpr hb), if_pos (List.mem_append_right _ (List.mem_singleton.mpr hb))]
        have h1 := Nat.div_add_mod a k
        rw [hb, Nat.mul_comm] at h1
        rw [hb]
        congr 1
        omega
      · rw [if_neg (hblock.not.mpr hb), ih]
        simp only [List.mem_append, List.mem_singleton, hb, or_false]

/-- The same for one value a block. -/
theorem foldl_update (f : ℕ → α) (bs : List ℕ) (mem : ℕ → α) (a : ℕ) :
    bs.foldl (fun mem b => Function.update mem b (f b)) mem a =
      if a ∈ bs then f a else mem a := by
  induction bs using List.reverseRecOn with
  | nil => exact (if_neg List.not_mem_nil).symm
  | append_singleton bs b ih =>
      rw [List.foldl_append, List.foldl_cons, List.foldl_nil]
      by_cases hb : a = b
      · subst hb
        rw [Function.update_self, if_pos (List.mem_append_right _ (List.mem_singleton_self a))]
      · rw [Function.update_of_ne hb]
        show bs.foldl _ mem a = _
        rw [ih]
        simp only [List.mem_append, List.mem_singleton, hb, or_false]

end MzCache.Lib.Lanes
