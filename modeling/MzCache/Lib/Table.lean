import Mathlib

/-!
# Tables and byte media

`Table.set` updates one entry of a two-index table. A byte medium (a file, a
memory pool) is a function from offsets to bytes; `blit` writes the first `n`
bytes of a buffer at an offset, and `Holds` says that a range of the medium
carries the first `n` bytes of a buffer.
-/

namespace MzCache.Lib

/-- Update of one entry of a two-index table. -/
def Table.set {α : Type} (t : Nat → Nat → α) (i j : Nat) (v : α) : Nat → Nat → α :=
  fun a b => if a = i ∧ b = j then v else t a b

@[simp] theorem Table.set_same {α : Type} (t : Nat → Nat → α) (i j : Nat) (v : α) :
    Table.set t i j v i j = v := if_pos ⟨rfl, rfl⟩

theorem Table.set_ne {α : Type} (t : Nat → Nat → α) {i j a b : Nat} (v : α)
    (h : ¬ (a = i ∧ b = j)) : Table.set t i j v a b = t a b := if_neg h

theorem Table.set_apply {α : Type} (t : Nat → Nat → α) (i j a b : Nat) (v : α) :
    Table.set t i j v a b = if a = i ∧ b = j then v else t a b := rfl

/-- A buffer or a medium: bytes by offset. -/
abbrev Bytes := Nat → UInt8

/-- The medium after the first `n` bytes of `buf` were written at `off`. -/
def blit (m : Bytes) (off : Nat) (buf : Bytes) (n : Nat) : Bytes :=
  fun o => if off ≤ o ∧ o < off + n then buf (o - off) else m o

/-- `n` bytes of `buf` stand at `off`. -/
def Holds (m : Bytes) (off : Nat) (buf : Bytes) (n : Nat) : Prop :=
  ∀ i < n, m (off + i) = buf i

theorem blit_holds (m : Bytes) (off : Nat) (buf : Bytes) (n : Nat) :
    Holds (blit m off buf n) off buf n := by
  intro i hi
  unfold blit
  rw [if_pos ⟨by omega, by omega⟩, Nat.add_sub_cancel_left]

/-- A write outside the range keeps what the range carries. -/
theorem Holds.blit {m : Bytes} {off n : Nat} {buf : Bytes} (h : Holds m off buf n)
    {off' n' : Nat} {buf' : Bytes} (hdisj : off + n ≤ off' ∨ off' + n' ≤ off) :
    Holds (blit m off' buf' n') off buf n := by
  intro i hi
  unfold MzCache.Lib.blit
  rw [if_neg (by omega)]
  exact h i hi

end MzCache.Lib
