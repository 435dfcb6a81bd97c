import MzCache.Unified.ReadSpec

/-!
# What a read keeps

However a read ends, every chunk stays where it is once the cache has grown, and growth
itself moves none. A property of the cache that each step keeps is kept by the program.
-/

namespace MzCache.Unified

open MzCache MzCache.Lib

/-- The state a read ends in, by whichever exit. -/
def finalState {α : Type} : EStateM.Result Stop Restore α → Restore
  | .ok _ s => s
  | .error _ s => s

/-- A read keeps a property of the cache, by every exit. -/
def Keeps (P : Cache → Prop) {α : Type} (x : Read α) : Prop :=
  ∀ s, P s.cache → P (finalState (x s)).cache

section

variable {P : Cache → Prop} {α β : Type}

theorem Keeps.pure (a : α) : Keeps P (pure a : Read α) := fun _ h => h

theorem Keeps.bind {x : Read α} {f : α → Read β} (hx : Keeps P x) (hf : ∀ a, Keeps P (f a)) :
    Keeps P (x >>= f) := by
  intro s hs
  have h1 := hx s hs
  cases hr : x s with
  | ok a s' =>
      rw [bind_ok hr]
      rw [hr] at h1
      exact hf a s' h1
  | error e s' =>
      rw [bind_error hr]
      rw [hr] at h1
      exact h1

/-- Reading bytes leaves the cache alone. -/
theorem Keeps.readBytes (n : Nat) : Keeps P (readBytes n) := by
  intro s hs
  unfold MzCache.Unified.readBytes
  split
  · exact hs
  · exact hs

theorem Keeps.readU32 : Keeps P readU32 := (Keeps.readBytes 4).bind fun _ => Keeps.pure _

theorem Keeps.readU64 : Keeps P readU64 := (Keeps.readBytes 8).bind fun _ => Keeps.pure _

theorem Keeps.readI32 : Keeps P readI32 := (Keeps.readBytes 4).bind fun _ => Keeps.pure _

theorem Keeps.get : Keeps P (get : Read Restore) := fun _ h => h

theorem Keeps.require (p : Prop) [Decidable p] : Keeps P (require p) := by
  intro s hs
  unfold MzCache.Unified.require
  split
  · exact hs
  · exact hs

theorem Keeps.onCache {f : Cache → Cache} (h : ∀ c, P c → P (f c)) : Keeps P (onCache f) :=
  fun s hs => h s.cache hs

/-- A conditional read. -/
theorem Keeps.when {p : Prop} [Decidable p] {x : Read Unit} (h : Keeps P x) :
    Keeps P (if p then x else Pure.pure ()) := by
  split
  · exact h
  · exact Keeps.pure ()

theorem Keeps.residentOrThrow (slot ci : Nat) : Keeps P (residentOrThrow slot ci) := by
  intro s hs
  unfold MzCache.Unified.residentOrThrow
  split
  · exact hs
  · exact hs

/-! ## Rows -/

/-- A property that copying into the memory keeps. -/
def OfLayout (P : Cache → Prop) : Prop :=
  ∀ (c : Cache) (m : Memory), m.size = c.mem.size → P c → P { c with mem := m }

theorem Keeps.copyTo (hP : OfLayout P) (slot ci off : Nat) (data : List UInt8) :
    Keeps P (copyTo slot ci off data) := by
  intro s hs
  unfold MzCache.Unified.copyTo
  cases s.cache.ptr slot ci with
  | none => exact hs
  | some p =>
      dsimp only
      split
      · exact hP _ _ rfl hs
      · exact hs

theorem Keeps.chunkReadFrom (hP : OfLayout P) (slot sizeRow s e : Nat) (cis : List Nat) :
    Keeps P (chunkReadFrom slot sizeRow s e cis) := by
  induction cis with
  | nil => exact Keeps.pure ()
  | cons ci rest ih =>
      exact (Keeps.residentOrThrow _ _).bind fun _ => (Keeps.readBytes _).bind fun _ =>
        (Keeps.copyTo hP _ _ _ _).bind fun _ => ih

theorem Keeps.readK (hP : OfLayout P) (n : Nat) (l : Layer) : Keeps P (readK n l) :=
  Keeps.readI32.bind fun _ => (Keeps.require _).bind fun _ => Keeps.readU64.bind fun _ =>
    (Keeps.require _).bind fun _ => Keeps.get.bind fun _ =>
      (Keeps.chunkReadFrom hP _ _ _ _ _).when

theorem Keeps.readTransposed (hP : OfLayout P) (n : Nat) (l : Layer) (js : List Nat) :
    Keeps P (readTransposed n l js) := by
  induction js with
  | nil => exact Keeps.pure ()
  | cons j rest ih =>
      exact Keeps.get.bind fun _ => (Keeps.readBytes _).bind fun _ =>
        (Keeps.copyTo hP _ _ _ _).bind fun _ => ih

theorem Keeps.readV (hP : OfLayout P) (sh : Shape) (n : Nat) (l : Layer) :
    Keeps P (readV sh n l) := by
  refine Keeps.readI32.bind fun _ => (Keeps.require _).bind fun _ => ?_
  split
  · exact Keeps.readU32.bind fun _ => (Keeps.require _).bind fun _ =>
      Keeps.readU32.bind fun _ => (Keeps.require _).bind fun _ =>
        (Keeps.readTransposed hP n l _).when
  · exact Keeps.readU64.bind fun _ => (Keeps.require _).bind fun _ => Keeps.get.bind fun _ =>
      (Keeps.chunkReadFrom hP _ _ _ _ _).when

theorem Keeps.readLayers {f : Layer → Read Unit} (h : ∀ l, Keeps P (f l)) (ls : List Layer) :
    Keeps P (readLayers f ls) := by
  induction ls with
  | nil => exact Keeps.pure ()
  | cons l ls ih => exact (h l).bind fun _ => ih

/-- The rows of a state change nothing but bytes. -/
theorem Keeps.rows (hP : OfLayout P) (sh : Shape) (n : Nat) :
    Keeps P (do
      MzCache.Unified.readLayers (MzCache.Unified.readK n) sh.layers
      MzCache.Unified.readLayers (MzCache.Unified.readV sh n) sh.layers) :=
  (Keeps.readLayers (Keeps.readK hP n) _).bind fun _ => Keeps.readLayers (Keeps.readV hP sh n) _

end

end MzCache.Unified
