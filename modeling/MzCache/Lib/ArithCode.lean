import MzCache.Lib.BitString

/-!
# Arithmetic coding

A coder narrows a window inside `[0, 4q)`, `q = 2 ^ b`, and rescales it: it drops an
offset of none, one or two quarters and doubles what is left. Dropped halves are output
bits; dropped middle quarters are pending bits whose value the next half decides.

In absolute terms the window starts at `origin + low` after `shifts` rescalings. A stream
stays inside the nested windows exactly when its leading bits do, and this is what a
decoder that follows the same windows observes.
-/

namespace MzCache.Lib

/-- The half of the coding range that a rescaling keeps. -/
inductive Rescale
  | lower
  | upper
  | middle
  deriving DecidableEq, Repr

/-- What a rescaling subtracts, in a coding range of four quarters `2 ^ b`. -/
def Rescale.offset (b : ℕ) : Rescale → ℕ
  | lower => 0
  | upper => 2 * 2 ^ b
  | middle => 2 ^ b

/-- The current interval `[low, low + size)`. -/
structure Window where
  low : ℕ
  size : ℕ
  deriving DecidableEq, Repr

namespace Window

/-- The window lies inside the coding range. -/
def Within (b : ℕ) (w : Window) : Prop := w.low + w.size ≤ 4 * 2 ^ b

/-- The half `k` of the coding range contains the window. -/
def Fits (b : ℕ) (k : Rescale) (w : Window) : Prop :=
  k.offset b ≤ w.low ∧ w.low + w.size ≤ k.offset b + 2 * 2 ^ b

def rescale (b : ℕ) (k : Rescale) (w : Window) : Window :=
  ⟨2 * (w.low - k.offset b), 2 * w.size⟩

theorem Fits.within {b : ℕ} {k : Rescale} {w : Window} (h : w.Fits b k) :
    (w.rescale b k).Within b := by
  obtain ⟨hlo, hhi⟩ := h
  simp only [Within, rescale]
  omega

/-- The sub-window of `size` values that starts at `base`. -/
def part (w : Window) (base size : ℕ) : Window := ⟨w.low + base, size⟩

end Window

/-! ## Coding schemes -/

/-- How a coder divides its window among frequencies `lo < hi` out of `total`, and when it
rescales. -/
structure Scheme where
  total : ℕ
  /-- The size of the part that the frequencies from `lo` to `hi` get. -/
  cut : ℕ → ℕ → ℕ → ℕ
  /-- The half to keep next, if the window is to be rescaled. -/
  pick : Window → Option Rescale

namespace Scheme

variable (S : Scheme) (b : ℕ)

def narrow (w : Window) (lo hi : ℕ) : Window :=
  w.part (w.size * lo / S.total) (S.cut w.size lo hi)

/-- Rescale up to `n` times. -/
def settle : ℕ → Window → Window
  | 0, w => w
  | n + 1, w =>
      match S.pick w with
      | none => w
      | some k => settle n (w.rescale b k)

/-- How often `settle` rescales. -/
def settleCount : ℕ → Window → ℕ
  | 0, _ => 0
  | n + 1, w =>
      match S.pick w with
      | none => 0
      | some k => settleCount n (w.rescale b k) + 1

/-- The window left after a message, given by the frequencies of its symbols. -/
def message (n : ℕ) (w : Window) (freqs : List (ℕ × ℕ)) : Window :=
  freqs.foldl (fun w f => S.settle b n (S.narrow w f.1 f.2)) w

/-- The rescalings of a message. -/
def rescalings (n : ℕ) : Window → List (ℕ × ℕ) → ℕ
  | _, [] => 0
  | w, f :: freqs =>
      S.settleCount b n (S.narrow w f.1 f.2) +
        rescalings n (S.settle b n (S.narrow w f.1 f.2)) freqs

end Scheme

/-! ## Encoder states -/

/-- A bit followed by the pending bits it decides. -/
def emit (bit : Bool) (pending : ℕ) : List Bool := bit :: List.replicate pending (!bit)

theorem bitsVal_emit_false (n : ℕ) : bitsVal (emit false n) + 1 = 2 ^ n := by
  rw [emit, ← List.singleton_append, bitsVal_append]
  simpa [bitsVal] using bitsVal_ones n

theorem bitsVal_emit_true (n : ℕ) : bitsVal (emit true n) = 2 ^ n := by
  rw [emit, ← List.singleton_append, bitsVal_append]
  simpa [bitsVal] using bitsVal_zeros n

@[simp] theorem length_emit (bit : Bool) (n : ℕ) : (emit bit n).length = n + 1 := by
  simp [emit]

/-- A window with the bits output so far. -/
structure Coded where
  win : Window
  bits : List Bool
  pending : ℕ

namespace Coded

variable (b : ℕ)

/-- One rescaling. -/
def rescale (k : Rescale) (c : Coded) : Coded :=
  match k with
  | .lower => ⟨c.win.rescale b .lower, c.bits ++ emit false c.pending, 0⟩
  | .upper => ⟨c.win.rescale b .upper, c.bits ++ emit true c.pending, 0⟩
  | .middle => ⟨c.win.rescale b .middle, c.bits, c.pending + 1⟩

/-- Pass to a sub-window. -/
def narrow (c : Coded) (base size : ℕ) : Coded := ⟨c.win.part base size, c.bits, c.pending⟩

/-- The number of rescalings so far. -/
def shifts (c : Coded) : ℕ := c.bits.length + c.pending

/-- The absolute position of the coding range. -/
def origin (c : Coded) : ℕ :=
  bitsVal c.bits * 2 ^ c.pending * (4 * 2 ^ b) + (2 ^ c.pending - 1) * (2 * 2 ^ b)

/-- The absolute position of the window. -/
def start (c : Coded) : ℕ := c.origin b + c.win.low

@[simp] theorem rescale_win (k : Rescale) (c : Coded) :
    (c.rescale b k).win = c.win.rescale b k := by
  cases k <;> rfl

theorem rescale_middle_bits (c : Coded) : (c.rescale b .middle).bits = c.bits := rfl

theorem rescale_middle_pending (c : Coded) :
    (c.rescale b .middle).pending = c.pending + 1 := rfl

@[simp] theorem shifts_rescale (k : Rescale) (c : Coded) :
    (c.rescale b k).shifts = c.shifts + 1 := by
  cases k <;> simp [rescale, shifts] <;> omega

theorem origin_rescale (k : Rescale) (c : Coded) :
    (c.rescale b k).origin b = 2 * (c.origin b + k.offset b) := by
  have hpos : 1 ≤ 2 ^ c.pending := Nat.one_le_two_pow
  obtain ⟨m, hm⟩ := Nat.exists_eq_add_of_le hpos
  cases k with
  | lower =>
      have hemit := bitsVal_emit_false c.pending
      have hm' : bitsVal (emit false c.pending) = m := by omega
      simp only [rescale, origin, Rescale.offset, bitsVal_append, length_emit, pow_succ, hm', hm]
      simp
      ring
  | upper =>
      simp only [rescale, origin, Rescale.offset, bitsVal_append, length_emit, pow_succ,
        bitsVal_emit_true, hm]
      simp
      ring
  | middle =>
      have hsub : (1 + m) * 2 - 1 = 2 * m + 1 := by omega
      simp only [rescale, origin, Rescale.offset, pow_succ, hm, hsub]
      simp
      ring

theorem start_rescale {k : Rescale} {c : Coded} (h : k.offset b ≤ c.win.low) :
    (c.rescale b k).start b = 2 * c.start b := by
  rw [start, origin_rescale, rescale_win, start, Window.rescale]
  simp only
  omega

@[simp] theorem shifts_narrow (c : Coded) (base size : ℕ) :
    (c.narrow base size).shifts = c.shifts := rfl

@[simp] theorem origin_narrow (c : Coded) (base size : ℕ) :
    (c.narrow base size).origin b = c.origin b := rfl

theorem start_narrow (c : Coded) (base size : ℕ) :
    (c.narrow base size).start b = c.start b + base :=
  (Nat.add_assoc _ _ _).symm

/-- The bits a finished coder has output: one more bit and its pending ones name a value in
the lower or in the upper half. -/
def finish (c : Coded) : List Bool :=
  c.bits ++ emit (decide (2 ^ b ≤ c.win.low)) (c.pending + 1)

theorem length_finish (c : Coded) : (c.finish b).length = c.shifts + 2 := by
  simp only [finish, List.length_append, length_emit, shifts]
  omega

/-- The value the final bits name: one quarter or two, counted from the origin. -/
theorem streamVal_finish (c : Coded) :
    streamVal (padded (c.finish b)) (b + 2 + c.shifts) =
      c.origin b + if 2 ^ b ≤ c.win.low then 2 * 2 ^ b else 2 ^ b := by
  have hlen : b + 2 + c.shifts = (c.finish b).length + b := by
    rw [length_finish]
    omega
  have hpos : 1 ≤ 2 ^ c.pending := Nat.one_le_two_pow
  obtain ⟨m, hm⟩ := Nat.exists_eq_add_of_le hpos
  rw [hlen, streamVal_padded, finish, bitsVal_append, length_emit, origin]
  by_cases h : 2 ^ b ≤ c.win.low
  · simp only [h, decide_true, bitsVal_emit_true, if_true, pow_succ, hm]
    simp
    ring
  · have hemit := bitsVal_emit_false (c.pending + 1)
    have hm' : bitsVal (emit false (c.pending + 1)) = 2 * m + 1 := by
      rw [pow_succ, hm] at hemit
      omega
    simp only [h, decide_false, hm', if_false, pow_succ, hm]
    simp
    ring

/-! ## Nesting -/

/-- `c'` codes a sub-window of `c`, some rescalings later. -/
def Nested (c c' : Coded) : Prop :=
  ∃ n, c'.shifts = c.shifts + n ∧ 2 ^ n * c.start b ≤ c'.start b ∧
    c'.start b + c'.win.size ≤ 2 ^ n * (c.start b + c.win.size)

theorem Nested.refl (c : Coded) : c.Nested b c := ⟨0, by simp⟩

variable {b}

theorem Nested.trans {c c' c'' : Coded} (h : c.Nested b c') (h' : c'.Nested b c'') :
    c.Nested b c'' := by
  obtain ⟨n, hn, hlo, hhi⟩ := h
  obtain ⟨m, hm, hlo', hhi'⟩ := h'
  refine ⟨n + m, by omega, ?_, ?_⟩
  · calc 2 ^ (n + m) * c.start b = 2 ^ m * (2 ^ n * c.start b) := by ring
      _ ≤ 2 ^ m * c'.start b := Nat.mul_le_mul_left _ hlo
      _ ≤ _ := hlo'
  · calc c''.start b + c''.win.size ≤ 2 ^ m * (c'.start b + c'.win.size) := hhi'
      _ ≤ 2 ^ m * (2 ^ n * (c.start b + c.win.size)) := Nat.mul_le_mul_left _ hhi
      _ = _ := by ring

theorem Nested.rescale {c : Coded} {k : Rescale} (h : k.offset b ≤ c.win.low) :
    c.Nested b (c.rescale b k) := by
  have hstart := start_rescale b h
  refine ⟨1, by simp, by omega, ?_⟩
  rw [hstart, rescale_win, Window.rescale]
  simp only
  omega

theorem Nested.narrow {c : Coded} {base size : ℕ} (h : base + size ≤ c.win.size) :
    c.Nested b (c.narrow base size) := by
  refine ⟨0, rfl, ?_, ?_⟩
  · rw [start_narrow]
    omega
  · rw [start_narrow]
    simp only [Coded.narrow, Window.part]
    omega

/-! ## Streams against windows -/

/-- The stream does not lie below the window. -/
def NotBelow (b : ℕ) (x : ℕ → Bool) (c : Coded) : Prop :=
  c.start b ≤ streamVal x (b + 2 + c.shifts)

/-- The stream does not lie above the window. -/
def NotAbove (b : ℕ) (x : ℕ → Bool) (c : Coded) : Prop :=
  streamVal x (b + 2 + c.shifts) < c.start b + c.win.size

variable {x : ℕ → Bool} {c c' : Coded}

theorem Nested.notBelow (h : c.Nested b c') (hx : c'.NotBelow b x) : c.NotBelow b x := by
  obtain ⟨n, hn, hlo, -⟩ := h
  have hup := streamVal_upper x (b + 2 + c.shifts) n
  rw [NotBelow, hn, ← Nat.add_assoc] at hx
  have hlt : 2 ^ n * c.start b < 2 ^ n * (streamVal x (b + 2 + c.shifts) + 1) := by omega
  have := Nat.lt_of_mul_lt_mul_left hlt
  rw [NotBelow]
  omega

theorem Nested.notAbove (h : c.Nested b c') (hx : c'.NotAbove b x) : c.NotAbove b x := by
  obtain ⟨n, hn, -, hhi⟩ := h
  have hlow := streamVal_lower x (b + 2 + c.shifts) n
  rw [NotAbove, hn, ← Nat.add_assoc] at hx
  have hlt : 2 ^ n * streamVal x (b + 2 + c.shifts) < 2 ^ n * (c.start b + c.win.size) := by
    omega
  exact Nat.lt_of_mul_lt_mul_left hlt

theorem NotBelow.rescale {k : Rescale} (h : k.offset b ≤ c.win.low) (hx : c.NotBelow b x) :
    (c.rescale b k).NotBelow b x := by
  rw [NotBelow, start_rescale b h, shifts_rescale, ← Nat.add_assoc, streamVal_succ]
  rw [NotBelow] at hx
  omega

/-- What a decoder holds: the leading bits of the stream, counted from the origin. -/
def Reads (b : ℕ) (x : ℕ → Bool) (c : Coded) (value : ℕ) : Prop :=
  value + c.origin b = streamVal x (b + 2 + c.shifts)

theorem Reads.notBelow_iff {value : ℕ} (h : c.Reads b x value) :
    c.NotBelow b x ↔ c.win.low ≤ value := by
  rw [NotBelow, ← h, start]
  omega

theorem Reads.notAbove_iff {value : ℕ} (h : c.Reads b x value) :
    c.NotAbove b x ↔ value < c.win.low + c.win.size := by
  rw [NotAbove, ← h, start]
  omega

theorem Reads.narrow {value base size : ℕ} (h : c.Reads b x value) :
    (c.narrow base size).Reads b x value := h

theorem Reads.rescale {value : ℕ} {k : Rescale} (h : c.Reads b x value)
    (hv : k.offset b ≤ value) :
    (c.rescale b k).Reads b x (2 * (value - k.offset b) + (x (b + 2 + c.shifts)).toNat) := by
  rw [Reads] at h
  rw [Reads, origin_rescale, shifts_rescale, ← Nat.add_assoc, streamVal_succ, ← h]
  omega

/-- The final bits never lie above a window wider than one quarter, and they lie below it
exactly when it starts in the upper half past its first value. -/
theorem finish_notAbove (h : 2 ^ b < c.win.size) : c.NotAbove b (padded (c.finish b)) := by
  rw [NotAbove, streamVal_finish, start]
  split <;> omega

theorem finish_notBelow_iff :
    c.NotBelow b (padded (c.finish b)) ↔ c.win.low ≤ 2 * 2 ^ b := by
  rw [NotBelow, streamVal_finish, start]
  split <;> omega

end Coded

end MzCache.Lib
