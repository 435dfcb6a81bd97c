import Mathlib.Data.Nat.Pairing
import MzCache.Unified.SeqFits

/-!
# Sources with given rows

A cache whose slots each stand in allocations of their own can hold any bytes in its rows. Such
caches tell apart the places to which their rows are restored.
-/

namespace MzCache.Unified

open MzCache MzCache.Lib

/-! ## Saved places -/

/-- The places of one half's saved rows. -/
def Cache.savedHalf (c : Cache) (saved : List Nat) (h : Half) (l : Layer) : List Place :=
  saved.flatMap (c.rowPlaces (l.slot h) (l.sizeRow h))

/-- The places of all saved rows, in the order in which they are written. -/
def Cache.savedPlaces (sh : Shape) (c : Cache) (saved : List Nat) : List Place :=
  sh.layers.flatMap (c.savedHalf saved .key) ++ sh.layers.flatMap (c.savedHalf saved .value)

/-- A cache with given cells, whose place `q` holds `f q`. -/
def Cache.source (sh : Shape) (cells : Cells) (f : Place → UInt8) : Cache where
  cells := cells
  head := 0
  nChunksAlloc := 0
  tensors := fun _ _ => false
  ptr := fun slot ci => some ⟨.other (Nat.pair slot ci), 0⟩
  mem := {
    bytes := fun b x => f (b, x)
    size := fun
      | .other m => tokensPerChunk * sh.sizeRow (Nat.unpair m).1
      | _ => 0 }

section

variable {sh : Shape} {cells : Cells} {f : Place → UInt8} {slot slot' sizeRow i i' : Nat} {q : Place}

/-- What is written are the bytes at the saved places. -/
theorem rowsData_places (c : Cache) (saved : List Nat) :
    rowsData sh (c.savedRows saved) = (c.savedPlaces sh saved).map c.mem.at := by
  have hrows : ∀ h l, c.savedRows saved h l = (c.savedHalf saved h l).map c.mem.at := by
    intro h l
    unfold Cache.savedRows Cache.savedHalf
    rw [List.map_flatMap]
    exact List.flatMap_congr fun i _ => Cache.row_places c _ _ i
  unfold rowsData Cache.savedPlaces
  rw [List.map_append, List.map_flatMap, List.map_flatMap]
  congr 1
  · exact List.flatMap_congr fun l _ => hrows .key l
  · exact List.flatMap_congr fun l _ => hrows .value l

theorem source_resident (sh : Shape) (cells : Cells) (f : Place → UInt8) (n : Nat) :
    (Cache.source sh cells f).AllResident sh n := by
  have hres : ∀ l ∈ sh.layers, ∀ h,
      (Cache.source sh cells f).Resident (l.slot h) (l.sizeRow h) n := by
    intro l hl h ci _
    refine ⟨_, rfl, ?_⟩
    show 0 + 0 + tokensPerChunk * l.sizeRow h ≤
      tokensPerChunk * sh.sizeRow (Nat.unpair (Nat.pair (l.slot h) ci)).1
    rw [Nat.unpair_pair, sizeRow_slot hl]
    omega
  exact fun l hl => ⟨hres l hl .key, hres l hl .value⟩

theorem source_rowPlaces : q ∈ (Cache.source sh cells f).rowPlaces slot sizeRow i →
    ∃ b < sizeRow, q.1 = .other (Nat.pair slot (i / tokensPerChunk)) ∧
      q.2 = i % tokensPerChunk * sizeRow + b := by
  intro hq
  obtain ⟨b, hb, rfl⟩ := List.mem_map.mp hq
  refine ⟨b, List.mem_range.mp hb, rfl, ?_⟩
  dsimp only
  omega

/-- A place belongs to one slot. -/
theorem source_slot {sizeRow' : Nat} (hq : q ∈ (Cache.source sh cells f).rowPlaces slot sizeRow i)
    (hq' : q ∈ (Cache.source sh cells f).rowPlaces slot' sizeRow' i') : slot = slot' := by
  obtain ⟨b, -, hblock, -⟩ := source_rowPlaces hq
  obtain ⟨b', -, hblock', -⟩ := source_rowPlaces hq'
  rw [hblock] at hblock'
  exact (Nat.pair_eq_pair.mp (Block.other.inj hblock')).1

/-- In a slot it belongs to one row. -/
theorem source_row (hq : q ∈ (Cache.source sh cells f).rowPlaces slot sizeRow i)
    (hq' : q ∈ (Cache.source sh cells f).rowPlaces slot sizeRow i') : i = i' := by
  obtain ⟨b, hb, hblock, hoff⟩ := source_rowPlaces hq
  obtain ⟨b', hb', hblock', hoff'⟩ := source_rowPlaces hq'
  rw [hblock] at hblock'
  have hdiv := (Nat.pair_eq_pair.mp (Block.other.inj hblock')).2
  have hmod : i % tokensPerChunk = i' % tokensPerChunk := by
    have h1 := Nat.mul_add_div (by omega : 0 < sizeRow) (i % tokensPerChunk) b
    have h2 := Nat.mul_add_div (by omega : 0 < sizeRow) (i' % tokensPerChunk) b'
    rw [Nat.div_eq_of_lt hb, Nat.mul_comm] at h1
    rw [Nat.div_eq_of_lt hb', Nat.mul_comm] at h2
    rw [hoff] at hoff'
    rw [hoff'] at h1
    omega
  rw [← Nat.div_add_mod i tokensPerChunk, ← Nat.div_add_mod i' tokensPerChunk, hdiv, hmod]

theorem source_savedHalf {saved : List Nat} (hsaved : saved.Nodup) (h : Half) (l : Layer) :
    ((Cache.source sh cells f).savedHalf saved h l).Nodup := by
  refine List.nodup_flatMap.mpr ⟨fun i _ => placesAt_nodup _ _ _, ?_⟩
  refine hsaved.pairwise_of_forall_ne fun i _ i' _ hne q hq hq' => ?_
  exact hne (source_row hq hq')

theorem mem_savedHalf {c : Cache} {saved : List Nat} {h : Half} {l : Layer} :
    q ∈ c.savedHalf saved h l ↔ ∃ i ∈ saved, q ∈ c.rowPlaces (l.slot h) (l.sizeRow h) i :=
  List.mem_flatMap

/-- The saved places of such a cache are all different. -/
theorem source_nodup {saved : List Nat} (hsaved : saved.Nodup) :
    ((Cache.source sh cells f).savedPlaces sh saved).Nodup := by
  have hlayers : sh.layers.Nodup := List.Nodup.of_map _ sh.layers_nodup
  have hslots : ∀ {q : Place} {h h' : Half} {l l' : Layer},
      q ∈ (Cache.source sh cells f).savedHalf saved h l →
      q ∈ (Cache.source sh cells f).savedHalf saved h' l' → l.il = l'.il ∧ h = h' := by
    intro q h h' l l' hq hq'
    obtain ⟨i, -, hq⟩ := mem_savedHalf.mp hq
    obtain ⟨i', -, hq'⟩ := mem_savedHalf.mp hq'
    exact Layer.slot_inj (source_slot hq hq')
  have hhalf : ∀ h, (sh.layers.flatMap ((Cache.source sh cells f).savedHalf saved h)).Nodup := by
    intro h
    refine List.nodup_flatMap.mpr ⟨fun l _ => source_savedHalf hsaved h l, ?_⟩
    refine hlayers.pairwise_of_forall_ne fun l hl l' hl' hne q hq hq' => ?_
    exact hne (Shape.layer_eq hl hl' (hslots hq hq').1)
  refine (hhalf .key).append (hhalf .value) fun q hq hq' => ?_
  obtain ⟨l, -, hq⟩ := List.mem_flatMap.mp hq
  obtain ⟨l', -, hq'⟩ := List.mem_flatMap.mp hq'
  exact absurd (hslots hq hq').2 (by decide)

end

end MzCache.Unified
