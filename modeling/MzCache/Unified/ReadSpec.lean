import MzCache.Unified.Growth
import MzCache.Unified.WriteSpec

/-!
# What a restore reads

Every reader takes back what the writer of its part put in front of the stream and leaves
the rest. The records of a whole-cache save fill the cells from the first on.
-/

namespace MzCache.Unified

open MzCache MzCache.Lib

/-! ## Steps -/

theorem bind_ok {α β : Type} {x : Read α} {f : α → Read β} {s s' : Restore} {a : α}
    (h : x s = .ok a s') : (x >>= f) s = f a s' := by
  show EStateM.bind x f s = _
  unfold EStateM.bind
  rw [h]

theorem bind_error {α β : Type} {x : Read α} {f : α → Read β} {s s' : Restore} {e : Stop}
    (h : x s = .error e s') : (x >>= f) s = .error e s' := by
  show EStateM.bind x f s = _
  unfold EStateM.bind
  rw [h]

section

variable {c : Cache} {rest : List UInt8}

theorem readBytes_ok {data : List UInt8} {n : Nat} (h : data.length = n) :
    readBytes n ⟨c, data ++ rest⟩ = .ok data ⟨c, rest⟩ := by
  unfold readBytes
  rw [if_pos (by rw [List.length_append]; omega)]
  dsimp only
  rw [← h, List.take_left, List.drop_left]

theorem readU32_ok {v : Nat} (h : v < 2 ^ 32) :
    readU32 ⟨c, toLe 4 v ++ rest⟩ = .ok v ⟨c, rest⟩ := by
  unfold readU32
  rw [bind_ok (readBytes_ok (toLe_length 4 v)), ofLe_toLe (by omega)]
  rfl

theorem readU64_ok {v : Nat} (h : v < 2 ^ 64) :
    readU64 ⟨c, toLe 8 v ++ rest⟩ = .ok v ⟨c, rest⟩ := by
  unfold readU64
  rw [bind_ok (readBytes_ok (toLe_length 8 v)), ofLe_toLe (by omega)]
  rfl

theorem readI32_ok {x : Int} (h : InI32 x) :
    readI32 ⟨c, toI32 x ++ rest⟩ = .ok x ⟨c, rest⟩ := by
  unfold readI32
  rw [bind_ok (readBytes_ok (toI32_length x)), ofI32_toI32 h]
  rfl

theorem inI32_natCast {n : Nat} (h : n < 2 ^ 31) : InI32 n := by
  unfold InI32
  omega

theorem require_ok {p : Prop} [Decidable p] (h : p) {s : Restore} : require p s = .ok () s :=
  if_pos h

/-! ## Cell records -/

/-- A cell's position and sequences. -/
abbrev Record := Int × List Nat

/-- The bytes of a record. -/
def recordBytes (r : Record) : List UInt8 :=
  toI32 r.1 ++ toLe 4 r.2.length ++ r.2.flatMap fun (s : Nat) => toI32 s

/-- A record that a reader for `nSeqMax` sequences takes. -/
structure Record.Ok (sh : Shape) (r : Record) : Prop where
  pos : InI32 r.1
  count : r.2.length < 2 ^ 32
  ids : ∀ s ∈ r.2, s < sh.nSeqMax

/-- The records written into the cells from `i` on. -/
def fillCells : Nat → List Record → Cells → Cells
  | _, [], c => c
  | i, r :: rs, c => fillCells (i + 1) rs (r.2.foldl (fun c s => c.seqAdd i s) (c.posSet i r.1))

theorem readSeqIds_ok {sh : Shape} {i : Nat} (ids : List Nat) :
    ∀ c : Cache, (∀ s ∈ ids, s < sh.nSeqMax) →
      readSeqIds sh i ids.length ⟨c, (ids.flatMap fun (s : Nat) => toI32 s) ++ rest⟩ =
        .ok () ⟨{ c with cells := ids.foldl (fun c s => c.seqAdd i s) c.cells }, rest⟩ := by
  induction ids with
  | nil => intro c _; rfl
  | cons s ids ih =>
      intro c h
      have hs := h s List.mem_cons_self
      have hlt := sh.nSeqMax_lt
      rw [List.length_cons, readSeqIds, List.flatMap_cons, List.append_assoc,
        bind_ok (readI32_ok (inI32_natCast (by omega))),
        bind_ok (require_ok ⟨by omega, by exact_mod_cast hs⟩)]
      rw [bind_ok (show onCells (fun c => c.seqAdd i (s : Int).toNat) _ = .ok () _ from rfl)]
      rw [Int.toNat_natCast]
      exact ih { c with cells := c.cells.seqAdd i s }
        fun s' hs' => h s' (List.mem_cons_of_mem _ hs')

theorem readCells_ok {sh : Shape} (rs : List Record) :
    ∀ (i : Nat) (c : Cache), (∀ r ∈ rs, r.Ok sh) →
      readCells sh rs.length i ⟨c, rs.flatMap recordBytes ++ rest⟩ =
        .ok () ⟨{ c with cells := fillCells i rs c.cells }, rest⟩ := by
  induction rs with
  | nil => intro i c _; rfl
  | cons r rs ih =>
      intro i c h
      have hr := h r List.mem_cons_self
      rw [List.length_cons, readCells, List.flatMap_cons]
      unfold recordBytes
      rw [List.append_assoc, List.append_assoc, List.append_assoc,
        bind_ok (readI32_ok hr.pos), bind_ok (readU32_ok hr.count)]
      rw [bind_ok (show onCells (fun c => c.posSet i r.1) _ = .ok () _ from rfl)]
      rw [bind_ok (readSeqIds_ok r.2 _ hr.ids)]
      exact ih (i + 1) _ fun r' hr' => h r' (List.mem_cons_of_mem _ hr')

/-- Adding sequences to one cell. -/
theorem foldl_seqAdd (ids : List Nat) (i : Nat) : ∀ c : Cells,
    (ids.foldl (fun c s => c.seqAdd i s) c).pos = c.pos ∧
      (ids.foldl (fun c s => c.seqAdd i s) c).used = c.used ∧
      (ids.foldl (fun c s => c.seqAdd i s) c).size = c.size ∧
      (ids.foldl (fun c s => c.seqAdd i s) c).seq =
        Function.update c.seq i (c.seq i ∪ ids.toFinset) := by
  induction ids with
  | nil =>
      intro c
      refine ⟨rfl, rfl, rfl, ?_⟩
      show c.seq = _
      rw [List.toFinset_nil, Finset.union_empty, Function.update_eq_self]
  | cons s ids ih =>
      intro c
      obtain ⟨h1, h2, h3, h4⟩ := ih (c.seqAdd i s)
      refine ⟨h1, h2, h3, ?_⟩
      show (ids.foldl (fun c s => c.seqAdd i s) (c.seqAdd i s)).seq = _
      rw [h4]
      simp only [Cells.seqAdd, Function.update_self, Function.update_idem]
      rw [List.toFinset_cons, Finset.insert_union, Finset.union_insert]

/-- What the filled cells hold. Induction on the records. -/
theorem fillCells_spec (rs : List Record) : ∀ (i : Nat) (c : Cells),
    (fillCells i rs c).size = c.size ∧
      (fillCells i rs c).used = c.used ∪ Finset.Ico i (i + rs.length) ∧
      (∀ j, j < i ∨ i + rs.length ≤ j →
        (fillCells i rs c).pos j = c.pos j ∧ (fillCells i rs c).seq j = c.seq j) ∧
      ∀ k r, rs[k]? = some r → (fillCells i rs c).pos (i + k) = r.1 ∧
        (fillCells i rs c).seq (i + k) = c.seq (i + k) ∪ r.2.toFinset := by
  induction rs with
  | nil =>
      intro i c
      refine ⟨rfl, ?_, fun _ _ => ⟨rfl, rfl⟩, fun k r h => absurd h (by simp)⟩
      show c.used = _
      simp
  | cons r rs ih =>
      intro i c
      obtain ⟨hp, hu, hs, hq⟩ := foldl_seqAdd r.2 i (c.posSet i r.1)
      obtain ⟨h1, h2, h3, h4⟩ :=
        ih (i + 1) (r.2.foldl (fun c s => c.seqAdd i s) (c.posSet i r.1))
      refine ⟨h1.trans hs, ?_, ?_, ?_⟩
      · show (fillCells (i + 1) rs _).used = _
        rw [h2, hu]
        ext j
        simp only [Cells.posSet, Finset.mem_union, Finset.mem_insert, Finset.mem_Ico,
          List.length_cons]
        by_cases hj : j ∈ c.used
        · simp [hj]
        · simp only [hj, or_false, false_or]
          omega
      · intro j hj
        rw [List.length_cons] at hj
        obtain ⟨hpos, hseq⟩ := h3 j (by omega)
        refine ⟨hpos.trans ?_, hseq.trans ?_⟩
        · rw [hp]
          exact Function.update_of_ne (by omega) _ _
        · rw [hq]
          exact Function.update_of_ne (by omega) _ _
      · intro k r' hk
        cases k with
        | zero =>
            rw [List.getElem?_cons_zero, Option.some.injEq] at hk
            subst hk
            obtain ⟨hpos, hseq⟩ := h3 i (Or.inl (by omega))
            rw [Nat.add_zero]
            refine ⟨hpos.trans ?_, hseq.trans ?_⟩
            · rw [hp]
              exact Function.update_self ..
            · rw [hq]
              exact Function.update_self ..
        | succ k =>
            rw [List.getElem?_cons_succ] at hk
            obtain ⟨hpos, hseq⟩ := h4 k r' hk
            rw [show i + 1 + k = i + (k + 1) by omega] at hpos hseq
            refine ⟨hpos, hseq.trans ?_⟩
            rw [hq, Function.update_of_ne (by omega)]
            rfl

end

end MzCache.Unified
