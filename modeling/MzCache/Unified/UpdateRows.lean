import MzCache.Unified.UpdateSpec

/-!
# The rows of the cells

What the two graphs do to the tensors of one layer, and what that makes of the K and the V
row of a cell. The chunks of a layer lie end to end, as no node writes beyond the first.
-/

namespace MzCache.Unified

open MzCache MzCache.Lib

section

variable {E : Type}

/-! ## One layer at a time -/

/-- What a node does to the K tensor of layer `il`. -/
def Node.onK (rope : Rope E) (size : Nat) (kShift : Nat → Int) (il : Nat) (mem : Nat → E) :
    Node → Nat → E
  | .ropeK l => if l.il = il then ropeRows rope l size kShift mem else mem
  | .copyK l r => if l.il = il then copyRows l.nEmbdKGqa r.i r.id r.nm mem else mem
  | .copyV _ _ => mem

/-- The copy of a run in the V tensor of a layer. -/
def copyValues (sh : Shape) (size : Nat) (l : Layer) (r : MoveRun) (mem : Nat → E) : Nat → E :=
  if sh.vTrans then copyColumns size l.nEmbdVGqa r.i r.id r.nm mem
  else copyRows l.nEmbdVGqa r.i r.id r.nm mem

/-- What a node does to the V tensor of layer `il`. -/
def Node.onV (sh : Shape) (size : Nat) (il : Nat) (mem : Nat → E) : Node → Nat → E
  | .ropeK _ | .copyK _ _ => mem
  | .copyV l r => if l.il = il then copyValues sh size l r mem else mem

theorem Node.run_k (sh : Shape) (rope : Rope E) (size : Nat) (kShift : Nat → Int) (il : Nat)
    (d : Tensors E) (node : Node) :
    (node.run sh rope size kShift d).k il = node.onK rope size kShift il (d.k il) := by
  cases node with
  | ropeK l | copyK l r =>
      simp only [Node.run, Node.onK, Function.update_apply, eq_comm]
      split
      · simp_all
      · rfl
  | copyV l r => rfl

theorem Node.run_v (sh : Shape) (rope : Rope E) (size : Nat) (kShift : Nat → Int) (il : Nat)
    (d : Tensors E) (node : Node) :
    (node.run sh rope size kShift d).v il = node.onV sh size il (d.v il) := by
  cases node with
  | ropeK l | copyK l r => rfl
  | copyV l r =>
      simp only [Node.run, Node.onV, copyValues, Function.update_apply, eq_comm]
      split
      · simp_all
      · rfl

theorem Node.foldl_k (sh : Shape) (rope : Rope E) (size : Nat) (kShift : Nat → Int) (il : Nat)
    (nodes : List Node) (d : Tensors E) : (nodes.foldl (Node.run sh rope size kShift) d).k il =
      nodes.foldl (Node.onK rope size kShift il) (d.k il) :=
  (List.foldl_hom (fun d : Tensors E => d.k il) fun _ node => (node.run_k ..).symm).symm

theorem Node.foldl_v (sh : Shape) (rope : Rope E) (size : Nat) (kShift : Nat → Int) (il : Nat)
    (nodes : List Node) (d : Tensors E) : (nodes.foldl (Node.run sh rope size kShift) d).v il =
      nodes.foldl (Node.onV sh size il) (d.v il) :=
  (List.foldl_hom (fun d : Tensors E => d.v il) fun _ node => (node.run_v ..).symm).symm

/-- A round over the layers acts once on the tensor of each. -/
theorem foldl_layers {M : Type} {l : Layer} (act : Layer → M → M) (ls : List Layer) :
    (ls.map Layer.il).Nodup → l ∈ ls → ∀ m : M,
      ls.foldl (fun m l' => if l'.il = l.il then act l' m else m) m = act l m := by
  have hnone : ∀ ls : List Layer, l.il ∉ ls.map Layer.il → ∀ m : M,
      ls.foldl (fun m l' => if l'.il = l.il then act l' m else m) m = m := by
    intro ls hout m
    induction ls with
    | nil => rfl
    | cons l' ls ih =>
        rw [List.map_cons, List.mem_cons, not_or] at hout
        rw [List.foldl_cons, if_neg (Ne.symm hout.1), ih hout.2]
  induction ls with
  | nil => exact fun _ hmem => absurd hmem List.not_mem_nil
  | cons l' ls ih =>
      intro hnodup hmem m
      rw [List.map_cons, List.nodup_cons] at hnodup
      rw [List.foldl_cons]
      rcases List.mem_cons.mp hmem with rfl | hmem
      · rw [if_pos rfl, hnone ls hnodup.1]
      · have hne : l'.il ≠ l.il := fun heq => hnodup.1 (heq ▸ List.mem_map_of_mem hmem)
        rw [if_neg hne, ih hnodup.2 hmem]

/-- The K-shift turns the K tensor of a layer once. -/
theorem shiftNodes_k (sh : Shape) (rope : Rope E) (size : Nat) (kShift : Nat → Int) {l : Layer}
    (hl : l ∈ sh.layers) (d : Tensors E) :
    ((sh.layers.map Node.ropeK).foldl (Node.run sh rope size kShift) d).k l.il =
      ropeRows rope l size kShift (d.k l.il) := by
  rw [Node.foldl_k, List.foldl_map]
  exact foldl_layers (fun l' => ropeRows rope l' size kShift) sh.layers sh.layers_nodup hl _

theorem shiftNodes_v (sh : Shape) (rope : Rope E) (size : Nat) (kShift : Nat → Int) (il : Nat)
    (d : Tensors E) :
    ((sh.layers.map Node.ropeK).foldl (Node.run sh rope size kShift) d).v il = d.v il := by
  rw [Node.foldl_v, List.foldl_map]
  exact List.foldl_fixed _

/-- The nodes of `build_graph_defrag`. -/
def defragNodes (sh : Shape) (runs : List MoveRun) : List Node :=
  runs.flatMap fun r => sh.layers.flatMap fun l => [.copyK l r, .copyV l r]

theorem defragNodes_k (sh : Shape) (rope : Rope E) (size : Nat) (kShift : Nat → Int) {l : Layer}
    (hl : l ∈ sh.layers) (runs : List MoveRun) (d : Tensors E) :
    ((defragNodes sh runs).foldl (Node.run sh rope size kShift) d).k l.il =
      runs.foldl (fun mem r => copyRows l.nEmbdKGqa r.i r.id r.nm mem) (d.k l.il) := by
  rw [Node.foldl_k, defragNodes, List.foldl_flatMap]
  congr 1
  funext mem r
  rw [List.foldl_flatMap]
  exact foldl_layers (fun l' => copyRows l'.nEmbdKGqa r.i r.id r.nm) sh.layers sh.layers_nodup hl _

theorem defragNodes_v (sh : Shape) (rope : Rope E) (size : Nat) (kShift : Nat → Int) {l : Layer}
    (hl : l ∈ sh.layers) (runs : List MoveRun) (d : Tensors E) :
    ((defragNodes sh runs).foldl (Node.run sh rope size kShift) d).v l.il =
      runs.foldl (fun mem r => copyValues sh size l r mem) (d.v l.il) := by
  rw [Node.foldl_v, defragNodes, List.foldl_flatMap]
  congr 1
  funext mem r
  rw [List.foldl_flatMap]
  exact foldl_layers (fun l' => copyValues sh size l' r) sh.layers sh.layers_nodup hl _

/-! ## Rows -/

/-- Element `j` of the K row of cell `i`. -/
def Tensors.kAt (d : Tensors E) (l : Layer) (i j : Nat) : E := d.k l.il (i * l.nEmbdKGqa + j)

/-- Element `j` of the V row of cell `i`; in a transposed chunk the values of a cell are
`TOKENS_PER_CHUNK` apart. -/
def Tensors.vAt (sh : Shape) (d : Tensors E) (l : Layer) (i j : Nat) : E :=
  if sh.vTrans then
    d.v l.il (i / tokensPerChunk * (tokensPerChunk * l.nEmbdVGqa) + j * tokensPerChunk +
      i % tokensPerChunk)
  else d.v l.il (i * l.nEmbdVGqa + j)

theorem copy_range {M : Type} {c : Cells} {n : Nat} {ids : Nat → Nat} (h : c.PlanOk n ids)
    (copy : MoveRun → M → M) (hsplit : SplitsRuns n copy) (m : M) :
    (defragRuns n ids n 0).foldl (fun m r => copy r m) m =
      (List.range n).foldl (moveOne copy n ids) m := by
  rw [h.runs_eq hsplit n 0 m (by omega), Nat.sub_zero, List.range_eq_range']

/-- After the copies a cell has the K row of its source. -/
theorem defrag_kAt {sh : Shape} {c : Cells} {n : Nat} {ids : Nat → Nat} (h : c.PlanOk n ids)
    (rope : Rope E) (kShift : Nat → Int) (d : Tensors E) {l : Layer} (hl : l ∈ sh.layers)
    {x j : Nat} (hj : j < l.nEmbdKGqa) (hx : x < c.size) :
    ((defragNodes sh (defragRuns n ids n 0)).foldl (Node.run sh rope c.size kShift) d).kAt l x j =
      d.kAt l (sources n ids n x) j := by
  unfold Tensors.kAt
  rw [defragNodes_k sh rope c.size kShift hl,
    copy_range h (fun r mem => copyRows l.nEmbdKGqa r.i r.id r.nm mem)
      (copyRows_splits n l.nEmbdKGqa)]
  exact read_moves (fun r mem => copyRows l.nEmbdKGqa r.i r.id r.nm mem)
    (fun mem x => mem (x * l.nEmbdKGqa + j))
    (fun i id mem x _ => copyRows_one mem hj) (d.k l.il) h.le x hx

/-- After the copies a cell has the V row of its source. -/
theorem defrag_vAt {sh : Shape} {c : Cells} {n : Nat} {ids : Nat → Nat} (h : c.PlanOk n ids)
    (hsize : sh.vTrans = true → c.size = tokensPerChunk)
    (rope : Rope E) (kShift : Nat → Int) (d : Tensors E) {l : Layer} (hl : l ∈ sh.layers)
    {x j : Nat} (hj : j < l.nEmbdVGqa) (hx : x < c.size) :
    ((defragNodes sh (defragRuns n ids n 0)).foldl (Node.run sh rope c.size kShift) d).vAt
      sh l x j = d.vAt sh l (sources n ids n x) j := by
  unfold Tensors.vAt
  rw [defragNodes_v sh rope c.size kShift hl]
  unfold copyValues
  cases htrans : sh.vTrans with
  | false =>
      simp only [Bool.false_eq_true, if_false]
      rw [copy_range h (fun r mem => copyRows l.nEmbdVGqa r.i r.id r.nm mem)
        (copyRows_splits n l.nEmbdVGqa)]
      exact read_moves (fun r mem => copyRows l.nEmbdVGqa r.i r.id r.nm mem)
        (fun mem x => mem (x * l.nEmbdVGqa + j))
        (fun i id mem x _ => copyRows_one mem hj) (d.v l.il) h.le x hx
  | true =>
      have hstride := hsize htrans
      have hsrc := @sources_lt n _ _ ids h.le x hx
      simp only [if_true]
      rw [hstride] at hx hsrc ⊢
      rw [Nat.div_eq_of_lt hx, Nat.mod_eq_of_lt hx, Nat.div_eq_of_lt hsrc, Nat.mod_eq_of_lt hsrc,
        Nat.zero_mul, Nat.zero_add,
        copy_range h (fun r mem => copyColumns tokensPerChunk l.nEmbdVGqa r.i r.id r.nm mem)
          (copyColumns_splits l.nEmbdVGqa (hstride ▸ h.le))]
      exact read_moves
        (fun r mem => copyColumns tokensPerChunk l.nEmbdVGqa r.i r.id r.nm mem)
        (fun mem x => mem (j * tokensPerChunk + x))
        (fun i id mem x hx => copyColumns_one mem hj hx) (d.v l.il) (hstride ▸ h.le) x hx

/-- The K-shift turns the K row of a cell by the shift of the cell. -/
theorem shift_kAt {sh : Shape} (rope : Rope E) {size : Nat} (kShift : Nat → Int) (d : Tensors E)
    {l : Layer} (hl : l ∈ sh.layers) {x j : Nat} (hj : j < l.nEmbdKGqa) (hx : x < size) :
    ((sh.layers.map Node.ropeK).foldl (Node.run sh rope size kShift) d).kAt l x j =
      rope l (kShift x) (fun j => d.kAt l x j) j := by
  unfold Tensors.kAt
  rw [shiftNodes_k sh rope size kShift hl]
  unfold ropeRows
  rw [(row_addr hj).1, (row_addr hj).2, if_pos hx]

theorem shift_vAt {sh : Shape} (rope : Rope E) (size : Nat) (kShift : Nat → Int) (d : Tensors E)
    (l : Layer) (x j : Nat) :
    ((sh.layers.map Node.ropeK).foldl (Node.run sh rope size kShift) d).vAt sh l x j =
      d.vAt sh l x j := by
  unfold Tensors.vAt
  rw [shiftNodes_v]

/-! ## Tokens and their cells -/

/-- What tokens are to the cache: what their cells record, and their rows. The K row depends on
a position. -/
structure Rows (T E : Type) where
  cell : T → Int × Finset Nat
  k : Layer → T → Int → Nat → E
  v : Layer → T → Nat → E

/-- Every cell in use records its token and has the rows of it. The K row is the one for the
position before the shift that is still to be applied. -/
def Rows.Held {T : Type} (rows : Rows T E) (sh : Shape) (token : Nat → T) (s : UpdateState E) :
    Prop :=
  ∀ i, s.cells.cells.pos i ≠ -1 →
    s.cells.cells.cell i = rows.cell (token i) ∧
    ∀ l ∈ sh.layers,
      (∀ j < l.nEmbdKGqa, s.data.kAt l i j =
        rows.k l (token i) (s.cells.cells.pos i - s.cells.shift i) j) ∧
      ∀ j < l.nEmbdVGqa, s.data.vAt sh l i j = rows.v l (token i) j

/-- `rope` turns the K row for a position to the one for the shifted position. -/
def Rows.TurnedBy {T : Type} (rows : Rows T E) (rope : Rope E) : Prop :=
  ∀ l t p shift row, (∀ j < l.nEmbdKGqa, row j = rows.k l t p j) →
    ∀ j < l.nEmbdKGqa, rope l shift row j = rows.k l t (p + shift) j

/-- Without `rope` a K row is the same for every position. -/
def Rows.Fixed {T : Type} (rows : Rows T E) : Prop := ∀ l t p p', rows.k l t p = rows.k l t p'

variable {T : Type} {rows : Rows T E} {sh : Shape} {token : Nat → T} {s : UpdateState E}

/-- The K-shift brings the rows to the recorded positions. -/
theorem Rows.Held.shifted {rope : Rope E} (h : rows.Held sh token s) (htidy : s.cells.cells.Tidy)
    (hrope : rows.TurnedBy rope) (head : Nat) :
    rows.Held sh token ⟨s.cells.resetShift, head,
      (sh.layers.map Node.ropeK).foldl (Node.run sh rope s.cells.cells.size fun i =>
        if s.cells.cells.isEmpty i then 0 else s.cells.shift i) s.data⟩ := by
  intro i hi
  have hi' : s.cells.cells.pos i ≠ -1 := hi
  have hlt := htidy.lt_size hi'
  have hused : s.cells.cells.isEmpty i = false := decide_eq_false hi'
  obtain ⟨hcell, hrows⟩ := h i hi'
  refine ⟨hcell, fun l hl => ⟨fun j hj => ?_, fun j hj => ?_⟩⟩
  · rw [shift_kAt rope _ _ hl hj hlt, hused]
    have hturned := hrope l (token i) (s.cells.cells.pos i - s.cells.shift i) (s.cells.shift i)
      (fun j => s.data.kAt l i j) ((hrows l hl).1) j hj
    rw [Int.sub_add_cancel] at hturned
    simpa [ShiftedCells.resetShift] using hturned
  · rw [shift_vAt]
    exact (hrows l hl).2 j hj

/-- Without `rope` there is nothing to bring. -/
theorem Rows.Held.resetShift (h : rows.Held sh token s) (hfixed : rows.Fixed) :
    rows.Held sh token { s with cells := s.cells.resetShift } := by
  intro i hi
  obtain ⟨hcell, hrows⟩ := h i hi
  refine ⟨hcell, fun l hl => ⟨fun j hj => ?_, (hrows l hl).2⟩⟩
  rw [hfixed l (token i) _ (s.cells.cells.pos i - s.cells.shift i)]
  exact (hrows l hl).1 j hj

/-- The moves and all their copies take the tokens along. -/
theorem Rows.Held.moved {n : Nat} {ids : Nat → Nat} (rope : Rope E) (kShift : Nat → Int)
    (h : rows.Held sh token s) (htidy : s.cells.cells.Tidy) (hplan : s.cells.cells.PlanOk n ids)
    (hsize : sh.vTrans = true → s.cells.cells.size = tokensPerChunk) (head : Nat) :
    rows.Held sh (token ∘ sources n ids n) ⟨(List.range n).foldl (moveShifted n ids) s.cells, head,
      (defragNodes sh (defragRuns n ids n 0)).foldl
        (Node.run sh rope s.cells.cells.size kShift) s.data⟩ := by
  intro i hi
  have hi' : ((List.range n).foldl (moveShifted n ids) s.cells).cells.pos i ≠ -1 := hi
  have hfrom := (moves_carry hplan n).2 i hi'
  have hlt : i < s.cells.cells.size := by
    by_contra hge
    exact hi' (moves_beyond hplan htidy n i (not_lt.mp hge))
  obtain ⟨hcell, hrows⟩ := h _ hfrom.used
  have hpos := congrArg Prod.fst hfrom.cell
  refine ⟨hfrom.cell.trans hcell, fun l hl => ⟨fun j hj => ?_, fun j hj => ?_⟩⟩
  · rw [defrag_kAt hplan rope kShift s.data hl hj hlt, (hrows l hl).1 j hj]
    show _ = rows.k l _ (((List.range n).foldl (moveShifted n ids) s.cells).cells.pos i -
      ((List.range n).foldl (moveShifted n ids) s.cells).shift i) j
    rw [hfrom.shift, show ((List.range n).foldl (moveShifted n ids) s.cells).cells.pos i =
      s.cells.cells.pos (sources n ids n i) from hpos]
    rfl
  · rw [defrag_vAt hplan hsize rope kShift s.data hl hj hlt, (hrows l hl).2 j hj]
    rfl

/-! ## The two parts of `update` -/

/-- The K-shift part counts as done: with nothing to compute, or computed. -/
def shiftDone (ropeNone : Bool) (run : GraphRun) : Bool := ropeNone || run = .done

/-- The K-shift part, for every outcome of its graph. -/
theorem updateShift_spec {rope : Rope E} {ropeNone goesOn updated : Bool} {run : GraphRun}
    {s' : UpdateState E} (h : updateShift sh rope ropeNone run s = some (s', goesOn, updated)) :
    goesOn = shiftDone ropeNone run ∧ s'.head = s.head ∧
      s'.cells = (if shiftDone ropeNone run then s.cells.resetShift else s.cells) := by
  unfold updateShift at h
  cases ropeNone with
  | true =>
      cases h
      exact ⟨rfl, rfl, rfl⟩
  | false =>
      rw [if_neg Bool.false_ne_true] at h
      dsimp only at h
      split at h
      · cases h
      · by_cases hdone : run = .done
        · rw [if_pos hdone] at h
          cases h
          simp [shiftDone, hdone]
        · rw [if_neg hdone] at h
          cases h
          simp [shiftDone, hdone]

/-- The rows after the K-shift part, if its computation does not fail midway. -/
theorem Rows.Held.updateShift {rope : Rope E} {ropeNone goesOn updated : Bool} {run : GraphRun}
    {s' : UpdateState E} (hheld : rows.Held sh token s) (htidy : s.cells.cells.Tidy)
    (hfixed : ropeNone = true → rows.Fixed) (hrope : ropeNone = false → rows.TurnedBy rope)
    (hrun : ropeNone = false → ∀ ran, run = .failed ran → ran = 0)
    (h : updateShift sh rope ropeNone run s = some (s', goesOn, updated)) :
    rows.Held sh token s' := by
  unfold Unified.updateShift at h
  cases ropeNone with
  | true =>
      cases h
      exact hheld.resetShift (hfixed rfl)
  | false =>
      rw [if_neg Bool.false_ne_true] at h
      dsimp only [buildGraphShift] at h
      split at h
      · cases h
      · rename_i nodes hnodes
        split at hnodes
        · cases hnodes
          cases run with
          | notBuilt | notAllocated =>
              cases h
              exact hheld
          | failed ran =>
              cases h
              obtain rfl := hrun rfl ran rfl
              exact hheld
          | done =>
              cases h
              exact hheld.shifted htidy (hrope rfl) s.head
        · cases hnodes

/-- The defragmentation part, for every outcome of its graph. -/
theorem updateDefrag_spec {rope : Rope E} {n : Nat} {ids : Nat → Nat} {run : GraphRun}
    {updated updated' : Bool} {s' : UpdateState E}
    (h : updateDefrag sh rope run n ids updated s = some (s', updated')) :
    s'.cells = (List.range n).foldl (moveShifted n ids) s.cells ∧ s'.head = 0 := by
  unfold updateDefrag at h
  dsimp only at h
  split at h <;> cases h
  exact ⟨rfl, rfl⟩

/-- The rows after the defragmentation part, if its graph is computed. -/
theorem Rows.Held.updateDefrag {rope : Rope E} {n : Nat} {ids : Nat → Nat}
    {updated updated' : Bool} {s' : UpdateState E} (hheld : rows.Held sh token s)
    (htidy : s.cells.cells.Tidy) (hplan : s.cells.cells.PlanOk n ids)
    (hsize : sh.vTrans = true → s.cells.cells.size = tokensPerChunk)
    (h : updateDefrag sh rope .done n ids updated s = some (s', updated')) :
    rows.Held sh (token ∘ sources n ids n) s' := by
  unfold Unified.updateDefrag at h
  dsimp only [buildGraphDefrag] at h
  split at h
  · cases h
  · rename_i nodes hnodes
    split at hnodes
    · cases hnodes
      cases h
      have hmoved := hheld.moved rope (fun _ => 0) htidy hplan hsize 0
      rw [← moves_size (List.range n) s.cells] at hmoved
      exact hmoved
    · cases hnodes

end

end MzCache.Unified
