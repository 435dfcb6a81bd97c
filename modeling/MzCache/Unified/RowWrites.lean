import MzCache.Lib.Writes
import MzCache.Unified.ReadSpec

/-!
# Restored rows as writes

Row `i` of a slot is row `i % 256` of chunk `i / 256`, wherever the chunk stands. A restore
succeeds exactly when the rows lie inside their allocations, and then it has written its bytes to
the places of the rows, the K rows of all layers before the V rows.
-/

namespace MzCache.Unified

open MzCache MzCache.Lib

/-! ## Places -/

/-- A byte of memory. -/
abbrev Place := Block × Nat

/-- What a place holds. -/
def Memory.at (m : Memory) (q : Place) : UInt8 := m.bytes q.1 q.2

/-- The memory after some writes. -/
def Memory.write (m : Memory) (ws : List (Place × UInt8)) : Memory :=
  { m with bytes := fun b x => writeAll ws m.at (b, x) }

/-- `n` places at offset `off` behind a pointer. -/
def placesAt (p : Ptr) (off n : Nat) : List Place :=
  (List.range n).map fun b => (p.block, p.off + off + b)

/-- The places of row `i` of a slot. -/
def Cache.rowPlaces (c : Cache) (slot sizeRow i : Nat) : List Place :=
  match c.ptr slot (i / tokensPerChunk) with
  | some p => placesAt p (i % tokensPerChunk * sizeRow) sizeRow
  | none => []

/-- Row `i` of a slot, row `i % 256` of chunk `i / 256`. -/
def Cache.row (c : Cache) (slot sizeRow i : Nat) : List UInt8 :=
  match c.ptr slot (i / tokensPerChunk) with
  | some p => slice (c.mem.peek p) (i % tokensPerChunk * sizeRow) sizeRow
  | none => []

/-- Row `i` of a slot lies inside its allocation. -/
def Cache.RowInside (c : Cache) (slot sizeRow i : Nat) : Prop :=
  ∀ p ∈ c.ptr slot (i / tokensPerChunk), c.mem.Inside p (i % tokensPerChunk * sizeRow) sizeRow

/-- The chunk of row `i` is there. -/
def Cache.RowThere (c : Cache) (slot i : Nat) : Prop :=
  (c.ptr slot (i / tokensPerChunk)).isSome = true

section

variable {c : Cache} {m : Memory} {slot sizeRow i : Nat}

@[simp] theorem Memory.write_size (m : Memory) (ws : List (Place × UInt8)) :
    (m.write ws).size = m.size := rfl

@[simp] theorem Memory.write_at (m : Memory) (ws : List (Place × UInt8)) :
    (m.write ws).at = writeAll ws m.at := rfl

@[simp] theorem Memory.write_nil (m : Memory) : m.write [] = m := rfl

theorem Memory.write_append (m : Memory) (ws ws' : List (Place × UInt8)) :
    m.write (ws ++ ws') = (m.write ws).write ws' := by
  unfold Memory.write
  simp only [writeAll_append]
  rfl

@[simp] theorem placesAt_length (p : Ptr) (off n : Nat) : (placesAt p off n).length = n := by
  simp [placesAt]

theorem placesAt_nodup (p : Ptr) (off n : Nat) : (placesAt p off n).Nodup := by
  refine List.nodup_range.map fun a b hab => ?_
  have := congrArg Prod.snd hab
  dsimp only at this
  omega

theorem placesAt_add (p : Ptr) (off a b : Nat) :
    placesAt p off (a + b) = placesAt p off a ++ placesAt p (off + a) b := by
  unfold placesAt
  rw [List.range_add, List.map_append, List.map_map]
  congr 1
  refine List.map_congr_left fun x _ => ?_
  simp only [Function.comp_apply, Nat.add_assoc]

/-- Several rows behind a pointer, row by row. -/
theorem placesAt_rows (p : Ptr) (sizeRow : Nat) : ∀ n r : Nat,
    placesAt p (r * sizeRow) (n * sizeRow) =
      (List.range' r n).flatMap fun i => placesAt p (i * sizeRow) sizeRow := by
  intro n
  induction n with
  | zero =>
      intro r
      rw [Nat.zero_mul]
      rfl
  | succ n ih =>
      intro r
      rw [Nat.succ_mul, Nat.add_comm, placesAt_add, List.range'_succ, List.flatMap_cons, ← ih,
        Nat.succ_mul]

/-- `memcpy` writes to the places behind the pointer. -/
theorem Memory.poke_write (m : Memory) (p : Ptr) (off : Nat) (data : List UInt8) :
    m.poke p off data = m.write ((placesAt p off data.length).zip data) := by
  unfold Memory.poke Memory.write
  congr 1
  funext b x
  have hlen := placesAt_length p off data.length
  split
  · rename_i hin
    obtain ⟨rfl, hlo, hhi⟩ := hin
    have hi : x - (p.off + off) < data.length := by omega
    have hmap := map_writeAll_zip hlen (placesAt_nodup p off data.length) m.at
    have hget := congrArg (fun l => l[x - (p.off + off)]?) hmap
    simp only [List.getElem?_map, placesAt, List.getElem?_range hi, Option.map_some,
      List.getElem?_eq_getElem hi, Option.some.injEq] at hget
    rw [show p.off + off + (x - (p.off + off)) = x by omega] at hget
    rw [List.getD_eq_getElem _ _ hi, ← hget]
    rfl
  · rename_i hout
    refine (writeAll_other (a := (b, x)) (fun hmem => hout ?_) m.at).symm
    rw [List.map_fst_zip (le_of_eq hlen)] at hmem
    obtain ⟨y, hy, heq⟩ := List.mem_map.mp hmem
    rw [List.mem_range] at hy
    obtain ⟨rfl, rfl⟩ := Prod.mk.inj heq
    exact ⟨rfl, by omega, by omega⟩

/-- A row is what its places hold. -/
theorem Cache.row_places (c : Cache) (slot sizeRow i : Nat) :
    c.row slot sizeRow i = (c.rowPlaces slot sizeRow i).map c.mem.at := by
  unfold Cache.row Cache.rowPlaces
  split
  · unfold slice placesAt
    rw [List.map_map]
    refine List.map_congr_left fun b _ => ?_
    exact congrArg (c.mem.bytes _) (Nat.add_assoc _ _ _).symm
  · rfl

theorem Cache.rowPlaces_length (h : c.RowThere slot i) :
    (c.rowPlaces slot sizeRow i).length = sizeRow := by
  obtain ⟨p, hp⟩ := Option.isSome_iff_exists.mp h
  unfold Cache.rowPlaces
  rw [hp]
  exact placesAt_length _ _ _

end

/-! ## `chunk_read` -/

section

variable {c : Cache} {slot sizeRow s e ci : Nat} {p : Ptr}

theorem lowRow_lt_highRow (hse : s < e) (hlow : s / tokensPerChunk ≤ ci)
    (hhigh : ci ≤ (e - 1) / tokensPerChunk) :
    lowRow tokensPerChunk s ci < highRow tokensPerChunk e ci := by
  unfold lowRow highRow tokensPerChunk at *
  omega

/-- The places of `n` rows of a slot from row `head` on. -/
def Cache.slotPlaces (c : Cache) (slot sizeRow head n : Nat) : List Place :=
  (List.range' head n).flatMap (c.rowPlaces slot sizeRow)

theorem slotPlaces_length {head n : Nat}
    (hthere : ∀ i, head ≤ i → i < head + n → c.RowThere slot i) :
    (c.slotPlaces slot sizeRow head n).length = n * sizeRow := by
  unfold Cache.slotPlaces
  rw [List.length_flatMap, List.map_congr_left (g := fun _ => sizeRow), List.map_const',
    List.sum_replicate, List.length_range', smul_eq_mul]
  intro i hi
  rw [List.mem_range'_1] at hi
  exact Cache.rowPlaces_length (hthere i hi.1 hi.2)

theorem slotPlaces_add (c : Cache) (slot sizeRow head n n' : Nat) :
    c.slotPlaces slot sizeRow head (n + n') =
      c.slotPlaces slot sizeRow head n ++ c.slotPlaces slot sizeRow (head + n) n' := by
  unfold Cache.slotPlaces
  rw [← List.flatMap_append, ← List.range'_append_1]

theorem row_of_chunk {i : Nat} (hlo : ci * tokensPerChunk ≤ i)
    (hhi : i < ci * tokensPerChunk + tokensPerChunk) :
    i / tokensPerChunk = ci ∧ i % tokensPerChunk = i - ci * tokensPerChunk := by
  unfold tokensPerChunk at *
  omega

/-- The rows of one chunk, from row `lo` of the slot to row `hi`. -/
theorem rows_of_chunk (hptr : c.ptr slot ci = some p) {lo hi : Nat}
    (hlo : ci * tokensPerChunk ≤ lo) (hhi : hi ≤ ci * tokensPerChunk + tokensPerChunk) :
    c.slotPlaces slot sizeRow lo (hi - lo) =
      placesAt p ((lo - ci * tokensPerChunk) * sizeRow) ((hi - lo) * sizeRow) := by
  rw [Cache.slotPlaces, placesAt_rows, List.range'_eq_map_range, List.range'_eq_map_range, List.flatMap_map,
    List.flatMap_map]
  refine List.flatMap_congr fun x hx => ?_
  rw [List.mem_range] at hx
  obtain ⟨hdiv, hmod⟩ := @row_of_chunk ci (lo + x) (by omega) (by omega)
  rw [Cache.rowPlaces, hdiv, hptr, hmod, show lo + x - ci * tokensPerChunk =
    lo - ci * tokensPerChunk + x by omega]

/-- They lie inside the allocation together or one by one. -/
theorem inside_of_chunk (hptr : c.ptr slot ci = some p) {lo hi : Nat} (hlt : lo < hi)
    (hlo : ci * tokensPerChunk ≤ lo) (hhi : hi ≤ ci * tokensPerChunk + tokensPerChunk) :
    c.mem.Inside p ((lo - ci * tokensPerChunk) * sizeRow) ((hi - lo) * sizeRow) ↔
      ∀ i, lo ≤ i → i < hi → c.RowInside slot sizeRow i := by
  have hrow : ∀ i, lo ≤ i → i < hi → (c.RowInside slot sizeRow i ↔
      p.off + (i + 1 - ci * tokensPerChunk) * sizeRow ≤ c.mem.size p.block) := by
    intro i hge hi'
    obtain ⟨hdiv, hmod⟩ := @row_of_chunk ci i (by omega) (by omega)
    unfold Cache.RowInside Memory.Inside
    rw [hdiv, hptr, hmod, show i + 1 - ci * tokensPerChunk = i - ci * tokensPerChunk + 1 by omega,
      Nat.succ_mul, ← Nat.add_assoc]
    simp
  have htop : (lo - ci * tokensPerChunk) * sizeRow + (hi - lo) * sizeRow =
      (hi - ci * tokensPerChunk) * sizeRow := by
    rw [← Nat.add_mul]
    congr 1
    omega
  unfold Memory.Inside
  rw [Nat.add_assoc, htop]
  constructor
  · intro hin i hge hi'
    have hle : (i + 1 - ci * tokensPerChunk) * sizeRow ≤ (hi - ci * tokensPerChunk) * sizeRow :=
      Nat.mul_le_mul_right _ (by omega)
    exact (hrow i hge hi').mpr (by omega)
  · intro hall
    have hlast := (hrow (hi - 1) (by omega) (by omega)).mp (hall (hi - 1) (by omega) (by omega))
    rwa [show hi - 1 + 1 = hi by omega] at hlast

/-- One chunk of `chunk_read`: its rows are written, or the read crashes. -/
theorem chunkReadFrom_cons (hse : s < e) (hlow : s / tokensPerChunk ≤ ci)
    (hhigh : ci ≤ (e - 1) / tokensPerChunk) (hptr : c.ptr slot ci = some p) {lo hi : Nat}
    (hlo : lowRow tokensPerChunk s ci = lo) (hhi : highRow tokensPerChunk e ci = hi)
    {d tail : List UInt8} (hlen : d.length = (hi - lo) * sizeRow) (more : List Nat) :
    ((∀ i, lo ≤ i → i < hi → c.RowInside slot sizeRow i) →
      chunkReadFrom slot sizeRow s e (ci :: more) ⟨c, d ++ tail⟩ =
        chunkReadFrom slot sizeRow s e more
          ⟨{ c with mem := c.mem.write ((c.slotPlaces slot sizeRow lo (hi - lo)).zip d) }, tail⟩) ∧
    (¬ (∀ i, lo ≤ i → i < hi → c.RowInside slot sizeRow i) →
      chunkReadFrom slot sizeRow s e (ci :: more) ⟨c, d ++ tail⟩ = .error .crashed ⟨c, tail⟩) := by
  have hlt := lowRow_lt_highRow hse hlow hhigh
  obtain ⟨-, hci, hci'⟩ := lowRow_le_highRow tokensPerChunk_pos hse hlow hhigh
  have hthere : residentOrThrow slot ci ⟨c, d ++ tail⟩ = .ok () ⟨c, d ++ tail⟩ := by
    unfold residentOrThrow
    rw [if_pos (by rw [hptr]; rfl)]
  have hspan := @span_eq tokensPerChunk sizeRow s e ci tokensPerChunk_pos hse hlow hhigh
  rw [hlo, hhi] at hspan hlt
  rw [hlo] at hci
  rw [hhi] at hci'
  rw [← inside_of_chunk hptr hlt hci hci', rows_of_chunk hptr hci hci', ← hlen, ←
    Memory.poke_write, chunkReadFrom, hspan]
  dsimp only
  rw [bind_ok hthere, bind_ok (readBytes_ok hlen)]
  constructor
  · intro hin
    refine bind_ok (a := ()) ?_
    unfold copyTo
    dsimp only
    rw [hptr]
    exact if_pos hin
  · intro hout
    refine bind_error ?_
    unfold copyTo
    dsimp only
    rw [hptr]
    exact if_neg hout

/-- The chunks `ci .. last` of `chunk_read`, by induction on the chunks left: either all rows lie
inside their allocations and are written, or the read crashes. -/
theorem chunkReadFrom_writes (hse : s < e) {rest : List UInt8} :
    ∀ (n ci : Nat) (c : Cache) (data : List UInt8), s / tokensPerChunk ≤ ci →
      ci + n = (e - 1) / tokensPerChunk →
      (∀ i, lowRow tokensPerChunk s ci ≤ i → i < e → c.RowThere slot i) →
      data.length = (e - lowRow tokensPerChunk s ci) * sizeRow →
      ((∀ i, lowRow tokensPerChunk s ci ≤ i → i < e → c.RowInside slot sizeRow i) →
        chunkReadFrom slot sizeRow s e (List.range' ci (n + 1)) ⟨c, data ++ rest⟩ =
          .ok () ⟨{ c with
            mem := c.mem.write ((c.slotPlaces slot sizeRow (lowRow tokensPerChunk s ci)
              (e - lowRow tokensPerChunk s ci)).zip data) }, rest⟩) ∧
      (¬ (∀ i, lowRow tokensPerChunk s ci ≤ i → i < e → c.RowInside slot sizeRow i) →
        ∃ s', chunkReadFrom slot sizeRow s e (List.range' ci (n + 1)) ⟨c, data ++ rest⟩ =
          .error .crashed s') := by
  have ht := tokensPerChunk_pos
  intro n
  induction n with
  | zero =>
      intro ci c data hlow hlast hthere hlen
      have hhigh : ci ≤ (e - 1) / tokensPerChunk := by omega
      have htop : highRow tokensPerChunk e ci = e := by
        rw [show ci = (e - 1) / tokensPerChunk by omega]
        exact highRow_last ht (by omega)
      have hlt := lowRow_lt_highRow hse hlow hhigh
      obtain ⟨-, hci, hci'⟩ := lowRow_le_highRow ht hse hlow hhigh
      rw [htop] at hlt hci'
      obtain ⟨p, hp⟩ := Option.isSome_iff_exists.mp (hthere _ le_rfl hlt)
      rw [(@row_of_chunk ci _ hci (by omega)).1] at hp
      obtain ⟨hin, hout⟩ := @chunkReadFrom_cons c slot sizeRow s e ci p hse hlow hhigh hp _ e rfl
        htop data rest hlen []
      exact ⟨hin, fun hnot => ⟨_, hout hnot⟩⟩
  | succ n ih =>
      intro ci c data hlow hlast hthere hlen
      have hhigh : ci ≤ (e - 1) / tokensPerChunk := by omega
      have hlt := lowRow_lt_highRow hse hlow hhigh
      have hnext := lowRow_succ ht hlow (e := e) (by omega)
      have htop : highRow tokensPerChunk e ci ≤ e := Nat.min_le_left ..
      obtain ⟨-, hci, hci'⟩ := lowRow_le_highRow ht hse hlow hhigh
      obtain ⟨p, hp⟩ := Option.isSome_iff_exists.mp (hthere _ le_rfl (by omega))
      rw [(@row_of_chunk ci _ hci (by omega)).1] at hp
      set lo := lowRow tokensPerChunk s ci with hlo
      set hi := highRow tokensPerChunk e ci with hhi
      -- the bytes of this chunk, and those of the later ones
      have hsum : (hi - lo) * sizeRow + (e - hi) * sizeRow = data.length := by
        rw [hlen, ← Nat.add_mul]
        congr 1
        omega
      have htake : (data.take ((hi - lo) * sizeRow)).length = (hi - lo) * sizeRow := by
        rw [List.length_take]
        omega
      have hdrop : (data.drop ((hi - lo) * sizeRow)).length = (e - hi) * sizeRow := by
        rw [List.length_drop]
        omega
      obtain ⟨hin, hout⟩ := @chunkReadFrom_cons c slot sizeRow s e ci p hse hlow hhigh hp lo hi rfl
        rfl (data.take ((hi - lo) * sizeRow)) (data.drop ((hi - lo) * sizeRow) ++ rest) htake
        (List.range' (ci + 1) (n + 1))
      rw [← List.append_assoc, List.take_append_drop, ← List.range'_succ] at hin hout
      obtain ⟨hok, hcrash⟩ := ih (ci + 1)
        { c with
          mem := c.mem.write ((c.slotPlaces slot sizeRow lo (hi - lo)).zip
            (data.take ((hi - lo) * sizeRow))) }
        (data.drop ((hi - lo) * sizeRow)) (by omega) (by omega)
        (fun i hge hlt' => hthere i (by omega) hlt') (by rw [← hnext]; exact hdrop)
      rw [← hnext] at hok hcrash
      have hplaces : c.slotPlaces slot sizeRow lo (e - lo) =
          c.slotPlaces slot sizeRow lo (hi - lo) ++ c.slotPlaces slot sizeRow hi (e - hi) := by
        have hadd := slotPlaces_add c slot sizeRow lo (hi - lo) (e - hi)
        rwa [show hi - lo + (e - hi) = e - lo by omega, show lo + (hi - lo) = hi by omega] at hadd
      constructor
      · intro hall
        rw [hin fun i hge hlt' => hall i hge (by omega), hok fun i hge hlt' => hall i (by omega) hlt', hplaces]
        have hzip := @List.zip_append _ _ (c.slotPlaces slot sizeRow lo (hi - lo))
          (c.slotPlaces slot sizeRow hi (e - hi)) (data.take ((hi - lo) * sizeRow))
          (data.drop ((hi - lo) * sizeRow))
          (by rw [htake, slotPlaces_length fun i hge hlt' => hthere i hge (by omega)])
        rw [List.take_append_drop] at hzip
        rw [hzip, Memory.write_append]
        rfl
      · intro hnot
        by_cases hthis : ∀ i, lo ≤ i → i < hi → c.RowInside slot sizeRow i
        · rw [hin hthis]
          refine hcrash fun hrest => hnot fun i hge hlt' => ?_
          by_cases hi' : i < hi
          · exact hthis i hge hi'
          · exact hrest i (by omega) hlt'
        · exact ⟨_, hout hthis⟩

/-- `chunk_read` of the rows of `n` cells from cell `head` on. -/
theorem chunkRead_writes {head n : Nat} (hn : 0 < n) {data rest : List UInt8}
    (hthere : ∀ i, head ≤ i → i < head + n → c.RowThere slot i)
    (hlen : data.length = n * sizeRow) :
    ((∀ i, head ≤ i → i < head + n → c.RowInside slot sizeRow i) →
      chunkRead slot sizeRow n head ⟨c, data ++ rest⟩ =
        .ok () ⟨{ c with mem := c.mem.write ((c.slotPlaces slot sizeRow head n).zip data) },
          rest⟩) ∧
    (¬ (∀ i, head ≤ i → i < head + n → c.RowInside slot sizeRow i) →
      ∃ s', chunkRead slot sizeRow n head ⟨c, data ++ rest⟩ = .error .crashed s') := by
  have hfirst : lowRow tokensPerChunk head (head / tokensPerChunk) = head := lowRow_first _ _
  have hle : head / tokensPerChunk ≤ (head + n - 1) / tokensPerChunk :=
    Nat.div_le_div_right (by omega)
  have h := @chunkReadFrom_writes slot sizeRow head (head + n) (by omega) rest
    ((head + n - 1) / tokensPerChunk - head / tokensPerChunk) (head / tokensPerChunk) c data le_rfl
    (by omega) (by rw [hfirst]; exact hthere)
    (by rw [hfirst, Nat.add_sub_cancel_left]; exact hlen)
  rw [hfirst, Nat.add_sub_cancel_left, show (head + n - 1) / tokensPerChunk -
    head / tokensPerChunk + 1 = (head + n - 1) / tokensPerChunk + 1 - head / tokensPerChunk by
      omega] at h
  exact h

end

/-! ## Layers -/

/-- The places of a layer's half for `n` cells from cell `head` on. -/
def Cache.halfPlaces (c : Cache) (h : Half) (head n : Nat) (l : Layer) : List Place :=
  c.slotPlaces (l.slot h) (l.sizeRow h) head n

/-- These cells' chunks are there. -/
def Cache.HalfThere (c : Cache) (h : Half) (head n : Nat) (l : Layer) : Prop :=
  ∀ i, head ≤ i → i < head + n → c.RowThere (l.slot h) i

/-- Their rows lie inside the allocations. -/
def Cache.HalfInside (c : Cache) (h : Half) (head n : Nat) (l : Layer) : Prop :=
  ∀ i, head ≤ i → i < head + n → c.RowInside (l.slot h) (l.sizeRow h) i

/-- A reader of one layer's half takes a header and writes rows, or crashes. -/
structure Writes (f : Layer → Read Unit) (h : Half) (head n : Nat) (hdr : Layer → List UInt8)
    (l : Layer) : Prop where
  ok : ∀ (c : Cache) (data rest : List UInt8), c.head = head → c.HalfThere h head n l →
    data.length = n * l.sizeRow h → c.HalfInside h head n l →
    f l ⟨c, hdr l ++ data ++ rest⟩ =
      .ok () ⟨{ c with mem := c.mem.write ((c.halfPlaces h head n l).zip data) }, rest⟩
  crash : ∀ (c : Cache) (data rest : List UInt8), c.head = head → c.HalfThere h head n l →
    data.length = n * l.sizeRow h → ¬ c.HalfInside h head n l →
    ∃ s', f l ⟨c, hdr l ++ data ++ rest⟩ = .error .crashed s'

section

variable {sh : Shape} {head n : Nat} {l : Layer}

theorem halfPlaces_zero (c : Cache) (h : Half) : c.halfPlaces h head 0 l = [] := rfl

/-- The end of a half's reader, which reads rows if there are cells. -/
theorem writes_rows {f : Layer → Read Unit} {h : Half} {hdr : Layer → List UInt8}
    (hf : ∀ (c : Cache) (input : List UInt8), c.head = head → f l ⟨c, hdr l ++ input⟩ =
      (if n ≠ 0 then chunkRead (l.slot h) (l.sizeRow h) n head else pure ()) ⟨c, input⟩) :
    Writes f h head n hdr l := by
  by_cases hn : n = 0
  · subst hn
    refine ⟨fun c data rest hhead _ hlen _ => ?_, fun c data rest _ _ _ hnot => ?_⟩
    · have hnil : data = [] := List.eq_nil_of_length_eq_zero (by rw [hlen, Nat.zero_mul])
      rw [List.append_assoc, hf c _ hhead, hnil]
      rfl
    · exact absurd (fun i hge hlt => absurd hge (by omega)) hnot
  · refine ⟨fun c data rest hhead hthere hlen hin => ?_, fun c data rest hhead hthere hlen hnot => ?_⟩
    · rw [List.append_assoc, hf c _ hhead, if_pos hn]
      exact (chunkRead_writes (Nat.pos_of_ne_zero hn) hthere hlen).1 hin
    · rw [List.append_assoc, hf c _ hhead, if_pos hn]
      exact (chunkRead_writes (Nat.pos_of_ne_zero hn) hthere hlen).2 hnot

/-- The header of a half. -/
def Layer.header (l : Layer) : Half → List UInt8
  | .key => toI32 l.kType ++ toLe 8 l.kSizeRow
  | .value => toI32 l.vType ++ toLe 8 l.vSizeRow

theorem readK_writes : Writes (readK n) .key head n (fun l => l.header .key) l := by
  refine writes_rows fun c input hhead => ?_
  unfold readK Layer.header
  rw [List.append_assoc, bind_ok (readI32_ok (inI32_natCast l.kType_lt)), bind_ok (require_ok rfl),
    bind_ok (readU64_ok l.kSizeRow_lt), bind_ok (require_ok rfl)]
  rw [bind_ok (show (get : Read Restore) _ = .ok _ _ from rfl), hhead]
  rfl

theorem readV_writes (hv : sh.vTrans = false) :
    Writes (readV sh n) .value head n (fun l => l.header .value) l := by
  refine writes_rows fun c input hhead => ?_
  unfold readV Layer.header
  rw [List.append_assoc, bind_ok (readI32_ok (inI32_natCast l.vType_lt)), bind_ok (require_ok rfl),
    hv, if_neg Bool.false_ne_true, bind_ok (readU64_ok l.vSizeRow_lt), bind_ok (require_ok rfl)]
  rw [bind_ok (show (get : Read Restore) _ = .ok _ _ from rfl), hhead]
  rfl

/-- The layers one after the other, by induction on them. -/
theorem readLayers_writes {f : Layer → Read Unit} {h : Half} {hdr data : Layer → List UInt8}
    {rest : List UInt8} (ls : List Layer) :
    (∀ l ∈ ls, (data l).length = n * l.sizeRow h) → (∀ l ∈ ls, Writes f h head n hdr l) → ∀ c : Cache, c.head = head →
      (∀ l ∈ ls, c.HalfThere h head n l) →
      ((∀ l ∈ ls, c.HalfInside h head n l) →
        readLayers f ls ⟨c, (ls.flatMap fun l => hdr l ++ data l) ++ rest⟩ =
          .ok () ⟨{ c with
            mem := c.mem.write ((ls.flatMap (c.halfPlaces h head n)).zip (ls.flatMap data)) },
            rest⟩) ∧
      (¬ (∀ l ∈ ls, c.HalfInside h head n l) →
        ∃ s', readLayers f ls ⟨c, (ls.flatMap fun l => hdr l ++ data l) ++ rest⟩ =
          .error .crashed s') := by
  induction ls with
  | nil =>
      intro _ _ c _ _
      exact ⟨fun _ => rfl, fun hnot => absurd (fun l hl => (List.not_mem_nil hl).elim) hnot⟩
  | cons l ls ih =>
      intro hlen hwrites c hhead hthere
      have hlenL := hlen l List.mem_cons_self
      have hl := hwrites l List.mem_cons_self
      have hthereL := hthere l List.mem_cons_self
      obtain ⟨hok, hcrash⟩ := ih (fun l' hl' => hlen l' (List.mem_cons_of_mem _ hl'))
        (fun l' hl' => hwrites l' (List.mem_cons_of_mem _ hl'))
        { c with mem := c.mem.write ((c.halfPlaces h head n l).zip (data l)) } hhead
        (fun l' hl' => hthere l' (List.mem_cons_of_mem _ hl'))
      rw [List.flatMap_cons, List.append_assoc, readLayers]
      constructor
      · intro hall
        rw [bind_ok (hl.ok c _ _ hhead hthereL hlenL (hall l List.mem_cons_self)),
          hok fun l' hl' => hall l' (List.mem_cons_of_mem _ hl')]
        rw [List.flatMap_cons, List.flatMap_cons, List.zip_append, Memory.write_append]
        · rfl
        · rw [hlenL]
          exact slotPlaces_length hthereL
      · intro hnot
        by_cases hin : c.HalfInside h head n l
        · rw [bind_ok (hl.ok c _ _ hhead hthereL hlenL hin)]
          refine hcrash fun hrest => hnot fun l' hl' => ?_
          rcases List.mem_cons.mp hl' with rfl | hl'
          · exact hin
          · exact hrest l' hl'
        · obtain ⟨s', hs'⟩ := hl.crash c _ ((ls.flatMap fun l => hdr l ++ data l) ++ rest) hhead
            hthereL hlenL hin
          exact ⟨s', bind_error hs'⟩

end

/-! ## The data of a state -/

/-- The places of the rows of all layers, K before V. -/
def Cache.places (sh : Shape) (c : Cache) (head n : Nat) : List Place :=
  sh.layers.flatMap (c.halfPlaces .key head n) ++ sh.layers.flatMap (c.halfPlaces .value head n)

/-- Rows of all layers in the same order. -/
def rowsData (sh : Shape) (data : Half → Layer → List UInt8) : List UInt8 :=
  sh.layers.flatMap (data .key) ++ sh.layers.flatMap (data .value)

/-- What `state_write_data` writes for given rows, with V not transposed. -/
def dataStream (sh : Shape) (data : Half → Layer → List UInt8) : List UInt8 :=
  toLe 4 0 ++ toLe 4 sh.layers.length ++
    ((sh.layers.flatMap fun l => l.header .key ++ data .key l) ++
      (sh.layers.flatMap fun l => l.header .value ++ data .value l))

/-- The rows of the cells `saved`, one after the other. -/
def Cache.savedRows (c : Cache) (saved : List Nat) (h : Half) (l : Layer) : List UInt8 :=
  saved.flatMap (c.row (l.slot h) (l.sizeRow h))

section

variable {sh : Shape} {c : Cache} {n head : Nat}

theorem Cache.row_length {slot sizeRow i : Nat} (h : c.RowThere slot i) :
    (c.row slot sizeRow i).length = sizeRow := by
  rw [Cache.row_places, List.length_map, Cache.rowPlaces_length h]

/-- A row of the flat tensor is the row of its chunk. -/
theorem flatRow_row {slot sizeRow i : Nat} (h : c.RowThere slot i) :
    flatRow (c.flat slot sizeRow) sizeRow i = c.row slot sizeRow i := by
  obtain ⟨p, hp⟩ := Option.isSome_iff_exists.mp h
  have hmod : i % tokensPerChunk + 1 ≤ tokensPerChunk := Nat.mod_lt _ tokensPerChunk_pos
  have hfit : i % tokensPerChunk * sizeRow + sizeRow ≤ tokensPerChunk * sizeRow := by
    rw [← Nat.succ_mul]
    exact Nat.mul_le_mul_right _ hmod
  have hslice := @slice_flatten (i / tokensPerChunk) _ (fun ci =>
    match c.ptr slot ci with
    | some p => c.mem.peek p
    | none => fun _ => 0) _ _ hfit
  have hoff : i / tokensPerChunk * (tokensPerChunk * sizeRow) + i % tokensPerChunk * sizeRow =
      i * sizeRow := by
    rw [← Nat.mul_assoc, ← Nat.add_mul, Nat.mul_comm, Nat.div_add_mod', Nat.mul_comm]
  rw [hoff] at hslice
  refine hslice.symm.trans ?_
  rw [Cache.row, hp]

theorem AllResident.rowThere (hres : c.AllResident sh n) {l : Layer} (hl : l ∈ sh.layers)
    (h : Half) {i : Nat} (hi : i < n) : c.RowThere (l.slot h) i := by
  have hci : i / tokensPerChunk * tokensPerChunk < n :=
    lt_of_le_of_lt (Nat.div_mul_le_self i tokensPerChunk) hi
  cases h with
  | key =>
      obtain ⟨p, hp, -⟩ := (hres l hl).1 _ hci
      exact Option.isSome_iff_exists.mpr ⟨p, hp⟩
  | value =>
      obtain ⟨p, hp, -⟩ := (hres l hl).2 _ hci
      exact Option.isSome_iff_exists.mpr ⟨p, hp⟩

/-- A save writes the count, the records and the rows of the saved cells. -/
theorem stateWrite_rows {seqId : Int} (hv : sh.vTrans = false)
    (hn : ∀ i ∈ c.cells.savedCells seqId, i < n) (hres : c.AllResident sh n) :
    stateWrite sh c seqId = some (toLe 4 (c.cells.cellCount seqId) ++
      (c.cells.savedCells seqId).flatMap (c.cells.cellRecord sh seqId) ++
        dataStream sh (c.savedRows (c.cells.savedCells seqId))) := by
  rw [stateWrite_eq seqId hv hn hres, unchunkedStream_rows]
  unfold savedStream dataStream Cache.savedRows
  have hrows : ∀ h, ∀ l ∈ sh.layers,
      (c.cells.savedCells seqId).flatMap (flatRow (c.flat (l.slot h) (l.sizeRow h)) (l.sizeRow h)) =
        (c.cells.savedCells seqId).flatMap (c.row (l.slot h) (l.sizeRow h)) := fun h l hl =>
    List.flatMap_congr fun i hi => flatRow_row (AllResident.rowThere hres hl h (hn i hi))
  have hk : ∀ l ∈ sh.layers, toI32 l.kType ++ toLe 8 l.kSizeRow ++
      (c.cells.savedCells seqId).flatMap (flatRow (c.flat l.kSlot l.kSizeRow) l.kSizeRow) =
        l.header .key ++ (c.cells.savedCells seqId).flatMap (c.row (l.slot .key) (l.sizeRow .key)) :=
    fun l hl => congrArg (l.header .key ++ ·) (hrows .key l hl)
  have hvs : ∀ l ∈ sh.layers, toI32 l.vType ++ toLe 8 l.vSizeRow ++
      (c.cells.savedCells seqId).flatMap (flatRow (c.flat l.vSlot l.vSizeRow) l.vSizeRow) =
        l.header .value ++
          (c.cells.savedCells seqId).flatMap (c.row (l.slot .value) (l.sizeRow .value)) :=
    fun l hl => congrArg (l.header .value ++ ·) (hrows .value l hl)
  rw [List.flatMap_congr hk, List.flatMap_congr hvs]

/-- The data pass: growth, then the rows of every layer are written, or the read crashes. -/
theorem stateReadData_writes {alloc : Alloc} (hv : sh.vTrans = false) {g : Cache}
    (hgrow : mzGrowChunks sh alloc (c.head + n) c = (g, true)) (hhead : g.head = head)
    (hn : n ≤ c.cells.size) (hthere : ∀ l ∈ sh.layers, ∀ h, g.HalfThere h head n l)
    {data : Half → Layer → List UInt8}
    (hlen : ∀ l ∈ sh.layers, ∀ h, (data h l).length = n * l.sizeRow h) :
    ((∀ l ∈ sh.layers, ∀ h, g.HalfInside h head n l) →
      stateReadData sh alloc n ⟨c, dataStream sh data⟩ = .ok ()
        ⟨{ g with mem := g.mem.write ((g.places sh head n).zip (rowsData sh data)) }, []⟩) ∧
    (¬ (∀ l ∈ sh.layers, ∀ h, g.HalfInside h head n l) →
      ∃ s', stateReadData sh alloc n ⟨c, dataStream sh data⟩ = .error .crashed s') := by
  have hstart : ∀ input, stateReadData sh alloc n
      ⟨c, toLe 4 0 ++ toLe 4 sh.layers.length ++ input⟩ =
        (do
          readLayers (readK n) sh.layers
          readLayers (readV sh n) sh.layers : Read Unit) ⟨g, input⟩ := by
    intro input
    unfold stateReadData
    rw [List.append_assoc, bind_ok (readU32_ok (by decide)), bind_ok (readU32_ok sh.layers_lt),
      bind_ok (require_ok rfl), bind_ok (show (get : Read Restore) _ = .ok _ _ from rfl),
      bind_ok (require_ok hn), bind_ok (require_ok (by rw [hv]; rfl))]
    refine bind_ok (a := ()) ?_
    unfold growFor
    dsimp only
    rw [hgrow]
    rfl
  unfold dataStream
  rw [hstart]
  obtain ⟨hokK, hcrashK⟩ := @readLayers_writes head n (readK n) .key (fun l => l.header .key)
    (data .key) (sh.layers.flatMap fun l => l.header .value ++ data .value l) sh.layers
    (fun l hl => hlen l hl .key) (fun l _ => readK_writes) g hhead fun l hl => hthere l hl .key
  obtain ⟨hokV, hcrashV⟩ := @readLayers_writes head n (readV sh n) .value
    (fun l => l.header .value) (data .value) [] sh.layers (fun l hl => hlen l hl .value)
    (fun l _ => readV_writes hv)
    { g with
      mem := g.mem.write ((sh.layers.flatMap (g.halfPlaces .key head n)).zip
        (sh.layers.flatMap (data .key))) }
    hhead fun l hl => hthere l hl .value
  rw [List.append_nil] at hokV hcrashV
  constructor
  · intro hall
    rw [bind_ok (hokK fun l hl => hall l hl .key), hokV fun l hl => hall l hl .value]
    have hkeys : (sh.layers.flatMap (g.halfPlaces .key head n)).length =
        (sh.layers.flatMap (data .key)).length := by
      rw [List.length_flatMap, List.length_flatMap]
      refine congrArg List.sum (List.map_congr_left fun l hl => ?_)
      exact (slotPlaces_length (hthere l hl .key)).trans (hlen l hl .key).symm
    unfold Cache.places rowsData
    rw [List.zip_append hkeys, Memory.write_append]
    rfl
  · intro hnot
    by_cases hk : ∀ l ∈ sh.layers, g.HalfInside .key head n l
    · rw [bind_ok (hokK hk)]
      refine hcrashV fun hvs => hnot fun l hl h => ?_
      cases h with
      | key => exact hk l hl
      | value => exact hvs l hl
    · obtain ⟨s', hs'⟩ := hcrashK hk
      exact ⟨s', bind_error hs'⟩

end

/-! ## Rows and their places -/

section

variable {α β : Type}

theorem flatMap_eq_iff {f g : α → List β} (xs : List α) :
    (∀ x ∈ xs, (f x).length = (g x).length) →
      (xs.flatMap f = xs.flatMap g ↔ ∀ x ∈ xs, f x = g x) := by
  induction xs with
  | nil => exact fun _ => ⟨fun _ x hx => (List.not_mem_nil hx).elim, fun _ => rfl⟩
  | cons x xs ih =>
      intro hlen
      rw [List.flatMap_cons, List.flatMap_cons,
        List.append_eq_append_iff_of_size_eq_left (hlen x List.mem_cons_self),
        List.forall_mem_cons, ih fun y hy => hlen y (List.mem_cons_of_mem x hy)]

end

section

variable {sh : Shape} {c g : Cache} {saved : List Nat} {head n : Nat} {h : Half} {l : Layer}

theorem rows_length (hrows : ∀ i ∈ saved, c.RowThere (l.slot h) i) :
    (c.savedRows saved h l).length = saved.length * l.sizeRow h := by
  unfold Cache.savedRows
  rw [List.length_flatMap, List.map_congr_left fun i hi => Cache.row_length (hrows i hi),
    List.map_const', List.sum_replicate, smul_eq_mul]

theorem halfPlaces_length (hthere : g.HalfThere h head n l) :
    (g.halfPlaces h head n l).length = n * l.sizeRow h := slotPlaces_length hthere

theorem saved_map (saved : List Nat) :
    saved = (List.range saved.length).map fun k => saved.getD k 0 := by
  apply List.ext_getElem
  · rw [List.length_map, List.length_range]
  · intro k hk hk'
    rw [List.getElem_map, List.getElem_range]
    exact (List.getD_eq_getElem _ _ hk).symm

/-- One half of one layer holds the saved rows. -/
theorem halfHolds_iff {m : Place → UInt8} (hthere : g.HalfThere h head saved.length l)
    (hrows : ∀ i ∈ saved, c.RowThere (l.slot h) i) :
    (g.halfPlaces h head saved.length l).map m = c.savedRows saved h l ↔
      ∀ k < saved.length, (g.rowPlaces (l.slot h) (l.sizeRow h) (head + k)).map m =
        c.row (l.slot h) (l.sizeRow h) (saved.getD k 0) := by
  have hmap : c.savedRows saved h l = (List.range saved.length).flatMap fun k =>
      c.row (l.slot h) (l.sizeRow h) (saved.getD k 0) := by
    unfold Cache.savedRows
    conv_lhs => rw [saved_map saved]
    rw [List.flatMap_map]
  unfold Cache.halfPlaces Cache.slotPlaces
  rw [hmap, List.range'_eq_map_range, List.flatMap_map, List.map_flatMap, flatMap_eq_iff]
  · refine forall_congr' fun k => ?_
    rw [List.mem_range]
  · intro k hk
    rw [List.mem_range] at hk
    rw [List.length_map, Cache.rowPlaces_length (hthere _ (by omega) (by omega)),
      Cache.row_length (hrows _ ?_)]
    rw [List.getD_eq_getElem _ _ hk]
    exact List.getElem_mem hk

/-- The places of all rows hold the saved rows iff every row holds its own. -/
theorem placesHold_iff {m : Place → UInt8}
    (hthere : ∀ l ∈ sh.layers, ∀ h, g.HalfThere h head saved.length l)
    (hrows : ∀ l ∈ sh.layers, ∀ h, ∀ i ∈ saved, c.RowThere (l.slot h) i) :
    (g.places sh head saved.length).map m = rowsData sh (c.savedRows saved) ↔
      ∀ l ∈ sh.layers, ∀ h, ∀ k < saved.length,
        (g.rowPlaces (l.slot h) (l.sizeRow h) (head + k)).map m =
          c.row (l.slot h) (l.sizeRow h) (saved.getD k 0) := by
  have hlen : ∀ h, ∀ l ∈ sh.layers, ((g.halfPlaces h head saved.length l).map m).length =
      (c.savedRows saved h l).length := by
    intro h l hl
    rw [List.length_map, halfPlaces_length (hthere l hl h), rows_length (hrows l hl h)]
  have hkeys : (sh.layers.flatMap fun l => (g.halfPlaces .key head saved.length l).map m).length =
      (sh.layers.flatMap (c.savedRows saved .key)).length := by
    rw [List.length_flatMap, List.length_flatMap, List.map_congr_left (hlen .key)]
  unfold Cache.places rowsData
  rw [List.map_append, List.map_flatMap, List.map_flatMap,
    List.append_eq_append_iff_of_size_eq_left hkeys, flatMap_eq_iff _ (hlen .key),
    flatMap_eq_iff _ (hlen .value)]
  constructor
  · rintro ⟨hk, hv⟩ l hl h
    cases h with
    | key => exact (halfHolds_iff (hthere l hl .key) (hrows l hl .key)).mp (hk l hl)
    | value => exact (halfHolds_iff (hthere l hl .value) (hrows l hl .value)).mp (hv l hl)
  · intro hall
    exact ⟨fun l hl => (halfHolds_iff (hthere l hl .key) (hrows l hl .key)).mpr (hall l hl .key),
      fun l hl => (halfHolds_iff (hthere l hl .value) (hrows l hl .value)).mpr (hall l hl .value)⟩

theorem places_length {data : Half → Layer → List UInt8}
    (hthere : ∀ l ∈ sh.layers, ∀ h, g.HalfThere h head n l)
    (hlen : ∀ l ∈ sh.layers, ∀ h, (data h l).length = n * l.sizeRow h) :
    (g.places sh head n).length = (rowsData sh data).length := by
  unfold Cache.places rowsData
  rw [List.length_append, List.length_append, List.length_flatMap, List.length_flatMap,
    List.length_flatMap, List.length_flatMap]
  congr 2
  · exact List.map_congr_left fun l hl =>
      (halfPlaces_length (hthere l hl .key)).trans (hlen l hl .key).symm
  · exact List.map_congr_left fun l hl =>
      (halfPlaces_length (hthere l hl .value)).trans (hlen l hl .value).symm

end

end MzCache.Unified
