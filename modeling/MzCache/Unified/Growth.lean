import MzCache.Unified.Cache

/-!
# Growth

What `mz_grow_chunks` leaves behind, whether or not it gets to its end. In a cache whose
chunks nobody has moved, chunk 0 of a slot is its tensor and every later chunk that exists
is half of its pair; `Laid` says so and every growth keeps it.
-/

namespace MzCache.Unified

open MzCache MzCache.Lib

/-- K or V. -/
inductive Half where
  | key
  | value
deriving DecidableEq, Repr

def Layer.slot (l : Layer) : Half → Nat
  | .key => l.kSlot
  | .value => l.vSlot

def Layer.sizeRow (l : Layer) : Half → Nat
  | .key => l.kSizeRow
  | .value => l.vSizeRow

/-- Where chunk `ci` of a half stands: in its tensor, or in the pair. -/
def Layer.home (l : Layer) (h : Half) (ci : Nat) : Ptr :=
  if ci = 0 then ⟨.base (l.slot h), 0⟩
  else ⟨.grown l.il ci, match h with | .key => 0 | .value => l.chunkBytes⟩

/-- Size of the allocation behind `Layer.home`. -/
def Layer.homeSize (l : Layer) (h : Half) (ci : Nat) : Nat :=
  if ci = 0 then tokensPerChunk * l.sizeRow h else l.chunkBytes * 2

/-- Chunk `ci` of a layer exists and stands at home. -/
def Cache.AtHome (c : Cache) (l : Layer) (ci : Nat) : Prop :=
  ∀ h, c.ptr (l.slot h) ci = some (l.home h ci) ∧
    c.mem.size (l.home h ci).block = l.homeSize h ci

/-- Every existing chunk stands at home, and the chunks that the cache counts exist. -/
structure Cache.Laid (sh : Shape) (c : Cache) : Prop where
  atHome : ∀ l ∈ sh.layers, ∀ ci, c.tensors l.il ci = true → c.AtHome l ci
  first : ∀ l ∈ sh.layers, c.tensors l.il 0 = true
  counted : ∀ l ∈ sh.layers, ∀ ci < c.nChunksAlloc, c.tensors l.il ci = true
  some : 0 < c.nChunksAlloc

section

variable {sh : Shape} {c c' : Cache} {alloc : Alloc}

/-- Layers are told apart by their index. -/
theorem Shape.layer_eq {l l' : Layer} (hl : l ∈ sh.layers) (hl' : l' ∈ sh.layers)
    (h : l.il = l'.il) : l = l' :=
  List.inj_on_of_nodup_map sh.layers_nodup hl hl' h

theorem Layer.slot_key (l : Layer) : l.slot .key = 2 * l.il := rfl

theorem Layer.slot_value (l : Layer) : l.slot .value = 2 * l.il + 1 := rfl

theorem Layer.slot_div (l : Layer) (h : Half) : l.slot h / 2 = l.il := by
  cases h with
  | key => rw [Layer.slot_key]; omega
  | value => rw [Layer.slot_value]; omega

theorem Layer.slot_inj {l l' : Layer} {h h' : Half} (heq : l.slot h = l'.slot h') :
    l.il = l'.il ∧ h = h' := by
  have hil : l.il = l'.il := by
    rw [← l.slot_div h, heq, Layer.slot_div]
  refine ⟨hil, ?_⟩
  cases h with
  | key =>
      cases h' with
      | key => rfl
      | value => rw [Layer.slot_key, Layer.slot_value] at heq; omega
  | value =>
      cases h' with
      | key => rw [Layer.slot_key, Layer.slot_value] at heq; omega
      | value => rfl

theorem sizeRow_slot {l : Layer} (hl : l ∈ sh.layers) (h : Half) :
    sh.sizeRow (l.slot h) = l.sizeRow h := by
  have hil := l.slot_div h
  have hfind : sh.layers.find? (fun l' => decide (l'.il = l.slot h / 2)) = Option.some l := by
    cases hf : sh.layers.find? (fun l' => decide (l'.il = l.slot h / 2)) with
    | none =>
        have := List.find?_eq_none.mp hf l hl
        simp [hil] at this
    | some l' =>
        have hprop := List.find?_some hf
        rw [decide_eq_true_eq, hil] at hprop
        rw [Shape.layer_eq (List.mem_of_find?_eq_some hf) hl hprop]
  unfold Shape.sizeRow
  rw [hfind]
  cases h with
  | key =>
      show (if l.slot .key % 2 = 0 then _ else _) = _
      rw [if_pos (by rw [Layer.slot_key]; omega)]
      rfl
  | value =>
      show (if l.slot .value % 2 = 0 then _ else _) = _
      rw [if_neg (by rw [Layer.slot_value]; omega)]
      rfl

/-- A constructed cache is laid out. -/
theorem Laid.fresh (sh : Shape) (kvSize : Nat) : (Cache.fresh sh kvSize).Laid sh := by
  have hany : ∀ l ∈ sh.layers, ∀ il, il = l.il →
      (sh.layers.any fun l' => decide (l'.il = il)) = true := by
    intro l hl il hil
    exact List.any_eq_true.mpr ⟨l, hl, by simp [hil]⟩
  refine ⟨?_, ?_, ?_, ?_⟩
  · intro l hl ci hci h
    have hzero : ci = 0 := by
      simp only [Cache.fresh, Bool.and_eq_true, decide_eq_true_eq] at hci
      exact hci.2
    subst hzero
    have hslot := l.slot_div h
    refine ⟨?_, ?_⟩
    · show (if (sh.layers.any fun l' => decide (l'.il = l.slot h / 2)) && decide (0 = 0) then
        Option.some (Ptr.mk (.base (l.slot h)) 0) else none) = _
      rw [hany l hl _ hslot]
      rfl
    · show tokensPerChunk * sh.sizeRow (l.slot h) = tokensPerChunk * l.sizeRow h
      rw [sizeRow_slot hl]
  · intro l hl
    simp [Cache.fresh, hany l hl _ rfl]
  · intro l hl ci hci
    have : ci = 0 := by
      simp only [Cache.fresh] at hci
      omega
    subst this
    simp [Cache.fresh, hany l hl _ rfl]
  · exact Nat.one_pos

/-- What an operation may change without moving a chunk: the cells, the head and the contents
of the memory. -/
theorem Cache.Laid.keep (h : c.Laid sh) (ht : c'.tensors = c.tensors) (hp : c'.ptr = c.ptr)
    (hs : c'.mem.size = c.mem.size) (hn : c'.nChunksAlloc = c.nChunksAlloc) : c'.Laid sh := by
  refine ⟨?_, ?_, ?_, ?_⟩
  · intro l hl ci hci h'
    rw [hp, hs]
    rw [ht] at hci
    exact h.atHome l hl ci hci h'
  · intro l hl
    rw [ht]
    exact h.first l hl
  · intro l hl ci hci
    rw [ht]
    rw [hn] at hci
    exact h.counted l hl ci hci
  · rw [hn]
    exact h.some

/-! ## One chunk -/

/-- What growth never touches. -/
structure Cache.SameCells (c c' : Cache) : Prop where
  cells : c'.cells = c.cells
  head : c'.head = c.head
  alloc : c'.nChunksAlloc = c.nChunksAlloc

theorem Cache.SameCells.trans {c'' : Cache} (h1 : c.SameCells c') (h2 : c'.SameCells c'') :
    c.SameCells c'' :=
  ⟨h2.cells.trans h1.cells, h2.head.trans h1.head, h2.alloc.trans h1.alloc⟩

/-- `grow_layer_chunk` moves no chunk, and after it the chunk exists if it returned. -/
theorem growLayerChunk_spec (h : c.Laid sh) {l : Layer} (hl : l ∈ sh.layers) {ci : Nat} :
    (growLayerChunk alloc l ci c).1.Laid sh ∧ c.SameCells (growLayerChunk alloc l ci c).1 ∧
      (∀ il i, c.tensors il i = true → (growLayerChunk alloc l ci c).1.tensors il i = true) ∧
      ((growLayerChunk alloc l ci c).2 = true →
        (growLayerChunk alloc l ci c).1.tensors l.il ci = true) := by
  unfold growLayerChunk
  split
  · exact ⟨h, ⟨rfl, rfl, rfl⟩, fun _ _ ht => ht, fun hf => absurd hf (by simp)⟩
  · rename_i hrange
    split
    · rename_i ht
      exact ⟨h, ⟨rfl, rfl, rfl⟩, fun _ _ ht => ht, fun _ => ht⟩
    · split
      · have hkeep : ∀ il i, c.tensors il i = true →
            Table.set c.tensors l.il ci true il i = true := by
          intro il i ht
          rw [Table.set_apply]
          split
          · rfl
          · exact ht
        refine ⟨⟨?_, ?_, ?_, h.some⟩, ⟨rfl, rfl, rfl⟩, hkeep, fun _ => Table.set_same ..⟩
        · intro l' hl' i hi half
          by_cases hsame : l'.il = l.il ∧ i = ci
          · -- the pair just allocated
            obtain ⟨hil, rfl⟩ := hsame
            obtain rfl := Shape.layer_eq hl' hl hil
            cases half with
            | key =>
                refine ⟨?_, ?_⟩
                · show Table.set (Table.set c.ptr l'.kSlot i _) l'.vSlot i _ l'.kSlot i = _
                  rw [Table.set_ne _ _ (by unfold Layer.kSlot Layer.vSlot; omega),
                    Table.set_same]
                  simp [Layer.home, show i ≠ 0 by omega]
                · simp [Layer.home, Layer.homeSize, show i ≠ 0 by omega]
            | value =>
                refine ⟨?_, ?_⟩
                · show Table.set (Table.set c.ptr l'.kSlot i _) l'.vSlot i _ l'.vSlot i = _
                  rw [Table.set_same]
                  simp [Layer.home, show i ≠ 0 by omega]
                · simp [Layer.home, Layer.homeSize, show i ≠ 0 by omega]
          · have hold : c.tensors l'.il i = true := by
              have : Table.set c.tensors l.il ci true l'.il i = true := hi
              rwa [Table.set_ne _ _ hsame] at this
            obtain ⟨hp, hs⟩ := h.atHome l' hl' i hold half
            refine ⟨?_, ?_⟩
            · show Table.set (Table.set c.ptr l.kSlot ci _) l.vSlot ci _ (l'.slot half) i = _
              have hne : ∀ half', ¬ (l'.slot half = l.slot half' ∧ i = ci) := by
                rintro half' ⟨h1, h2⟩
                exact hsame ⟨(Layer.slot_inj h1).1, h2⟩
              exact (Table.set_ne _ _ (hne .value)).trans ((Table.set_ne _ _ (hne .key)).trans hp)
            · show Function.update c.mem.size (.grown l.il ci) _ (l'.home half i).block = _
              rw [Function.update_of_ne]
              · exact hs
              · unfold Layer.home
                split
                · simp
                · intro heq
                  rw [Block.grown.injEq] at heq
                  exact hsame heq
        · intro l' hl'
          exact hkeep _ _ (h.first l' hl')
        · intro l' hl' i hi
          exact hkeep _ _ (h.counted l' hl' i hi)
      · exact ⟨h, ⟨rfl, rfl, rfl⟩, fun _ _ ht => ht, fun hf => absurd hf (by simp)⟩

/-- The nested loops, by induction on the chunks left. -/
theorem growList_spec (todo : List (Layer × Nat)) :
    ∀ c : Cache, c.Laid sh → (∀ e ∈ todo, e.1 ∈ sh.layers) →
      (growList alloc todo c).1.Laid sh ∧ c.SameCells (growList alloc todo c).1 ∧
        (∀ il i, c.tensors il i = true → (growList alloc todo c).1.tensors il i = true) ∧
        ((growList alloc todo c).2 = true →
          ∀ e ∈ todo, (growList alloc todo c).1.tensors e.1.il e.2 = true) := by
  induction todo with
  | nil =>
      intro c h _
      exact ⟨h, ⟨rfl, rfl, rfl⟩, fun _ _ ht => ht, fun _ e he => absurd he (by simp)⟩
  | cons e rest ih =>
      intro c h hmem
      obtain ⟨h1, h2, h3, h4⟩ := @growLayerChunk_spec sh c alloc h e.1
        (hmem e List.mem_cons_self) e.2
      obtain ⟨h1', h2', h3', h4'⟩ := ih _ h1 fun e' he' => hmem e' (List.mem_cons_of_mem _ he')
      unfold growList
      dsimp only
      split
      · rename_i hok
        refine ⟨h1', h2.trans h2', fun il i ht => h3' il i (h3 il i ht), ?_⟩
        intro hdone e' he'
        rcases List.mem_cons.mp he' with heq | hrest
        · rw [heq]
          exact h3' _ _ (h4 hok)
        · exact h4' hdone e' hrest
      · rename_i hfail
        exact ⟨h1, h2, h3, fun hf => absurd hf hfail⟩

/-! ## The whole growth -/

/-- After `mz_grow_chunks` no chunk has moved, the cells are as before, and the count has not
fallen; if it returned, the count covers what was asked for. -/
theorem mzGrowChunks_spec (h : c.Laid sh) (n : Nat) :
    (mzGrowChunks sh alloc n c).1.Laid sh ∧ (mzGrowChunks sh alloc n c).1.cells = c.cells ∧
      (mzGrowChunks sh alloc n c).1.head = c.head ∧
      c.nChunksAlloc ≤ (mzGrowChunks sh alloc n c).1.nChunksAlloc ∧
      ((mzGrowChunks sh alloc n c).2 = true →
        chunksFor n ≤ (mzGrowChunks sh alloc n c).1.nChunksAlloc) := by
  unfold mzGrowChunks
  dsimp only
  split
  · rename_i hle
    exact ⟨h, rfl, rfl, le_rfl, fun _ => hle⟩
  · rename_i hmore
    split
    · exact ⟨h, rfl, rfl, le_rfl, fun hf => absurd hf (by simp)⟩
    · set todo := sh.layers.flatMap fun l =>
        (List.range' c.nChunksAlloc (chunksFor n - c.nChunksAlloc)).map fun idx => (l, idx)
        with htodo
      have hmem : ∀ e ∈ todo, e.1 ∈ sh.layers := by
        intro e he
        obtain ⟨l, hl, he⟩ := List.mem_flatMap.mp he
        obtain ⟨i, _, rfl⟩ := List.mem_map.mp he
        exact hl
      obtain ⟨h1, h2, h3, h4⟩ := @growList_spec sh alloc todo c h hmem
      split
      · rename_i hdone
        refine ⟨⟨h1.atHome, h1.first, ?_, ?_⟩, h2.cells, h2.head, ?_, fun _ => le_rfl⟩
        · intro l hl ci hci
          by_cases hold : ci < c.nChunksAlloc
          · exact h3 _ _ (h.counted l hl ci hold)
          · refine h4 hdone (l, ci) (List.mem_flatMap.mpr ⟨l, hl, List.mem_map.mpr ⟨ci, ?_, rfl⟩⟩)
            rw [List.mem_range'_1]
            dsimp only at hci
            omega
        · have := h.some
          show 0 < chunksFor n
          omega
        · show c.nChunksAlloc ≤ chunksFor n
          omega
      · rename_i hfail
        refine ⟨h1, h2.cells, h2.head, ?_, fun hf => absurd hf hfail⟩
        rw [h2.alloc]

/-- With memory to allocate, growth within the table returns. -/
theorem growList_succeeds (todo : List (Layer × Nat)) (hall : ∀ il i, alloc il i = true) :
    ∀ c : Cache, (∀ e ∈ todo, 0 < e.2 ∧ e.2 < maxChunksPerTensor) →
      (growList alloc todo c).2 = true := by
  induction todo with
  | nil => intro c _; rfl
  | cons e rest ih =>
      intro c hmem
      have hrange := hmem e List.mem_cons_self
      have hone : (growLayerChunk alloc e.1 e.2 c).2 = true := by
        unfold growLayerChunk
        rw [if_neg (by omega), hall]
        split
        · rfl
        · rfl
      unfold growList
      dsimp only
      rw [if_pos hone]
      exact ih _ fun e' he' => hmem e' (List.mem_cons_of_mem _ he')

theorem mzGrowChunks_succeeds (hall : ∀ il i, alloc il i = true) (hsome : 0 < c.nChunksAlloc)
    {n : Nat} (hn : chunksFor n ≤ maxChunksPerTensor) : (mzGrowChunks sh alloc n c).2 = true := by
  unfold mzGrowChunks
  dsimp only
  split
  · rfl
  · rw [if_neg (by omega)]
    have hlist := @growList_succeeds alloc (sh.layers.flatMap fun l =>
      (List.range' c.nChunksAlloc (chunksFor n - c.nChunksAlloc)).map fun idx => (l, idx)) hall c
      (by
        intro e he
        obtain ⟨l, _, he⟩ := List.mem_flatMap.mp he
        obtain ⟨i, hi, rfl⟩ := List.mem_map.mp he
        rw [List.mem_range'_1] at hi
        exact ⟨by dsimp only; omega, by dsimp only; omega⟩)
    rw [if_pos hlist]

end

/-! ## Chunks that may have been moved -/

/-- The chunks that exist are resident, a counted one not where a growth would allocate, and the
cells in use have counted chunks. -/
structure Cache.Backed (sh : Shape) (c : Cache) : Prop where
  counted : ∀ l ∈ sh.layers, ∀ h, ∀ ci < c.nChunksAlloc, (c.ptr (l.slot h) ci).isSome = true
  there : ∀ l ∈ sh.layers, ∀ h ci, c.tensors l.il ci = true → (c.ptr (l.slot h) ci).isSome = true
  fresh : ∀ l ∈ sh.layers, ∀ h, ∀ ci < c.nChunksAlloc, ∀ p ∈ c.ptr (l.slot h) ci, ∀ il idx,
    p.block = .grown il idx → c.tensors il idx = true
  occupied : ∀ j, c.cells.pos j ≠ -1 → j < c.nChunksAlloc * tokensPerChunk

/-- `c'` has grown from `c`: the counted chunks are where they were, and so is what stands in
allocations that a growth does not make. -/
structure Cache.Grew (sh : Shape) (c c' : Cache) : Prop where
  ptr : ∀ l ∈ sh.layers, ∀ h, ∀ ci < c.nChunksAlloc, c'.ptr (l.slot h) ci = c.ptr (l.slot h) ci
  bytes : ∀ b, (∀ il idx, b = .grown il idx → c.tensors il idx = true) →
    c'.mem.bytes b = c.mem.bytes b
  tensors : ∀ il idx, c.tensors il idx = true → c'.tensors il idx = true
  there : ∀ l ∈ sh.layers, ∀ h ci, c'.tensors l.il ci = true → (c'.ptr (l.slot h) ci).isSome = true

section

variable {sh : Shape} {c c' : Cache} {alloc : Alloc}

/-- A cache whose chunks are where they were made is backed. -/
theorem Cache.Laid.backed (h : c.Laid sh)
    (hocc : ∀ j, c.cells.pos j ≠ -1 → j < c.nChunksAlloc * tokensPerChunk) : c.Backed sh := by
  have hhome : ∀ l ∈ sh.layers, ∀ half ci, c.tensors l.il ci = true →
      c.ptr (l.slot half) ci = Option.some (l.home half ci) := fun l hl half ci ht =>
    (h.atHome l hl ci ht half).1
  refine ⟨fun l hl half ci hci => ?_, fun l hl half ci ht => ?_, ?_, hocc⟩
  · rw [hhome l hl half ci (h.counted l hl ci hci)]
    rfl
  · rw [hhome l hl half ci ht]
    rfl
  · intro l hl half ci hci p hp il idx hblock
    have ht := h.counted l hl ci hci
    rw [hhome l hl half ci ht] at hp
    obtain rfl := Option.some.inj hp
    unfold Layer.home at hblock
    split at hblock
    · exact absurd hblock (by simp)
    · obtain ⟨rfl, rfl⟩ := Block.grown.inj hblock
      exact ht

theorem Cache.Backed.grew (h : c.Backed sh) : c.Grew sh c :=
  ⟨fun _ _ _ _ _ => rfl, fun _ _ => rfl, fun _ _ ht => ht, h.there⟩

/-- One chunk beyond the counted ones. -/
theorem Cache.Grew.growLayerChunk (h : c.Grew sh c') {l : Layer} (hl : l ∈ sh.layers) {idx : Nat}
    (hidx : c.nChunksAlloc ≤ idx) :
    c.Grew sh (growLayerChunk alloc l idx c').1 ∧
      ((MzCache.Unified.growLayerChunk alloc l idx c').2 = true →
        (MzCache.Unified.growLayerChunk alloc l idx c').1.tensors l.il idx = true) := by
  unfold MzCache.Unified.growLayerChunk
  split
  · exact ⟨h, fun hf => absurd hf Bool.false_ne_true⟩
  split
  · rename_i ht
    exact ⟨h, fun _ => ht⟩
  rename_i hnew
  split
  · have hslot : ∀ l' ∈ sh.layers, ∀ (half : Half) (ci : Nat), ¬ (l'.il = l.il ∧ ci = idx) →
        Table.set (Table.set c'.ptr l.kSlot idx (some ⟨.grown l.il idx, 0⟩)) l.vSlot idx
          (some ⟨.grown l.il idx, l.chunkBytes⟩) (l'.slot half) ci = c'.ptr (l'.slot half) ci := by
      intro l' _ half ci hne
      have hother : ∀ half', ¬ (l'.slot half = l.slot half' ∧ ci = idx) := fun half' heq =>
        hne ⟨(Layer.slot_inj heq.1).1, heq.2⟩
      exact (Table.set_ne _ _ (hother .value)).trans (Table.set_ne _ _ (hother .key))
    refine ⟨⟨fun l' hl' half ci hci => ?_, fun b hb => ?_, fun il i ht => ?_,
      fun l' hl' half ci ht => ?_⟩, fun _ => Table.set_same ..⟩
    · rw [← h.ptr l' hl' half ci hci]
      exact hslot l' hl' half ci fun heq => by omega
    · have hne : b ≠ .grown l.il idx := fun heq =>
        hnew (h.tensors _ _ (hb _ _ heq))
      rw [← h.bytes b hb]
      exact Function.update_of_ne hne _ _
    · show Table.set c'.tensors l.il idx true il i = true
      rw [Table.set_apply]
      split
      · rfl
      · exact h.tensors _ _ ht
    · by_cases heq : l'.il = l.il ∧ ci = idx
      · obtain ⟨hil, rfl⟩ := heq
        obtain rfl := Shape.layer_eq hl' hl hil
        cases half with
        | key =>
            show (Table.set (Table.set c'.ptr l'.kSlot ci _) l'.vSlot ci _ l'.kSlot ci).isSome = _
            rw [Table.set_ne _ _ (by unfold Layer.kSlot Layer.vSlot; omega), Table.set_same]
            rfl
        | value =>
            show (Table.set (Table.set c'.ptr l'.kSlot ci _) l'.vSlot ci _ l'.vSlot ci).isSome = _
            rw [Table.set_same]
            rfl
      · have hold : c'.tensors l'.il ci = true := by
          have : Table.set c'.tensors l.il idx true l'.il ci = true := ht
          rwa [Table.set_ne _ _ heq] at this
        show (Table.set (Table.set c'.ptr l.kSlot idx _) l.vSlot idx _ (l'.slot half) ci).isSome = _
        rw [hslot l' hl' half ci heq]
        exact h.there l' hl' half ci hold
  · exact ⟨h, fun hf => absurd hf Bool.false_ne_true⟩

theorem growLayerChunk_tensors (l : Layer) (idx : Nat) {il i : Nat}
    (ht : c.tensors il i = true) :
    (MzCache.Unified.growLayerChunk alloc l idx c).1.tensors il i = true := by
  unfold MzCache.Unified.growLayerChunk
  split
  · exact ht
  split
  · exact ht
  split
  · show Table.set c.tensors l.il idx true il i = true
    rw [Table.set_apply]
    split
    · rfl
    · exact ht
  · exact ht

theorem growList_tensors (todo : List (Layer × Nat)) {il i : Nat} : ∀ {c : Cache},
    c.tensors il i = true → (MzCache.Unified.growList alloc todo c).1.tensors il i = true := by
  induction todo with
  | nil => exact fun ht => ht
  | cons e rest ih =>
      intro c ht
      have hstep := @growLayerChunk_tensors c alloc e.1 e.2 il i ht
      unfold MzCache.Unified.growList
      dsimp only
      split
      · exact ih hstep
      · exact hstep

/-- The nested loops, by induction on the chunks left. -/
theorem Cache.Grew.growList (todo : List (Layer × Nat)) : ∀ {c' : Cache}, c.Grew sh c' →
    (∀ e ∈ todo, e.1 ∈ sh.layers ∧ c.nChunksAlloc ≤ e.2) →
    c.Grew sh (growList alloc todo c').1 ∧
      ((MzCache.Unified.growList alloc todo c').2 = true →
        ∀ e ∈ todo, (MzCache.Unified.growList alloc todo c').1.tensors e.1.il e.2 = true) := by
  induction todo with
  | nil => exact fun h _ => ⟨h, fun _ e he => (List.not_mem_nil he).elim⟩
  | cons e rest ih =>
      intro c' h hmem
      obtain ⟨hl, hidx⟩ := hmem e List.mem_cons_self
      obtain ⟨hgrew, hthere⟩ := @Cache.Grew.growLayerChunk sh c c' alloc h e.1 hl e.2 hidx
      obtain ⟨hgrew', hthere'⟩ := ih hgrew fun e' he' => hmem e' (List.mem_cons_of_mem _ he')
      unfold MzCache.Unified.growList
      dsimp only
      split
      · rename_i hok
        refine ⟨hgrew', fun hdone e' he' => ?_⟩
        rcases List.mem_cons.mp he' with rfl | he'
        · exact growList_tensors rest (hthere hok)
        · exact hthere' hdone e' he'
      · rename_i hfail
        exact ⟨hgrew, fun hf => absurd hf hfail⟩

/-- After `mz_grow_chunks` the counted chunks are where they were; if it returned, those for `n`
cells are counted and resident. -/
theorem Cache.Backed.mzGrowChunks (h : c.Backed sh) (n : Nat) :
    c.Grew sh (mzGrowChunks sh alloc n c).1 ∧
      ((MzCache.Unified.mzGrowChunks sh alloc n c).2 = true →
        chunksFor n ≤ (MzCache.Unified.mzGrowChunks sh alloc n c).1.nChunksAlloc ∧
        ∀ l ∈ sh.layers, ∀ half, ∀ ci < chunksFor n,
          ((MzCache.Unified.mzGrowChunks sh alloc n c).1.ptr (l.slot half) ci).isSome = true) := by
  unfold MzCache.Unified.mzGrowChunks
  dsimp only
  split
  · rename_i hle
    exact ⟨h.grew, fun _ => ⟨hle, fun l hl half ci hci => h.counted l hl half ci (by omega)⟩⟩
  split
  · exact ⟨h.grew, fun hf => absurd hf Bool.false_ne_true⟩
  set todo := sh.layers.flatMap fun l =>
    (List.range' c.nChunksAlloc (chunksFor n - c.nChunksAlloc)).map fun idx => (l, idx) with htodo
  have hmem : ∀ e, e ∈ todo ↔ e.1 ∈ sh.layers ∧ c.nChunksAlloc ≤ e.2 ∧
      e.2 < c.nChunksAlloc + (chunksFor n - c.nChunksAlloc) := by
    rintro ⟨l, idx⟩
    simp [htodo, List.mem_range'_1]
  obtain ⟨hgrew, hthere⟩ := @Cache.Grew.growList sh c alloc todo c h.grew fun e he =>
    ⟨((hmem e).mp he).1, ((hmem e).mp he).2.1⟩
  split
  · rename_i hdone
    refine ⟨⟨hgrew.ptr, hgrew.bytes, hgrew.tensors, hgrew.there⟩, fun _ => ⟨le_rfl, ?_⟩⟩
    intro l hl half ci hci
    by_cases hold : ci < c.nChunksAlloc
    · exact (congrArg Option.isSome (hgrew.ptr l hl half ci hold)).trans
        (h.counted l hl half ci hold)
    · refine hgrew.there l hl half ci (hthere hdone (l, ci) ((hmem _).mpr ⟨hl, ?_⟩))
      exact ⟨not_lt.mp hold, by dsimp only; omega⟩
  · rename_i hfail
    exact ⟨hgrew, fun hf => absurd hf hfail⟩

end

end MzCache.Unified
