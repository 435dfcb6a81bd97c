import MzCache.Attention.Kernel

/-!
# What the kernel computes

After any number of tiles the registers of a column hold the two softmax sums over the keys
seen so far, relative to the maximum the lanes agree on (`Column.Holds`). A tile scales them
to its new maximum and adds its own keys, so the last quotient is the average over all keys.
-/

namespace MzCache.Attention

open MzCache.Lib

section

variable {𝕜 : Type*} [Field 𝕜] {c : Config} {a : Args 𝕜}

/-! ## Loops as sums -/

theorem foldl_add_eq_sum (f : Nat → 𝕜) (n : Nat) (acc : 𝕜) :
    (List.range n).foldl (fun s i => s + f i) acc = acc + ∑ i ∈ Finset.range n, f i := by
  induction n with
  | zero => simp
  | succ n ih =>
      rw [List.range_succ, List.foldl_append, List.foldl_cons, List.foldl_nil, ih,
        Finset.sum_range_succ, add_assoc]

/-- A sum taken in blocks of `b`. -/
theorem sum_blocks (f : Nat → 𝕜) (n b : Nat) :
    ∑ s ∈ Finset.range n, ∑ q ∈ Finset.range b, f (s * b + q) =
      ∑ i ∈ Finset.range (n * b), f i := by
  induction n with
  | zero => simp
  | succ n ih => rw [Finset.sum_range_succ, ih, Nat.succ_mul, Finset.sum_range_add]

/-- A sum taken by lanes, each with every `b`-th summand. -/
theorem sum_lanes (f : Nat → 𝕜) (n b : Nat) :
    ∑ lane ∈ Finset.range b, ∑ t ∈ Finset.range n, f (t * b + lane) =
      ∑ i ∈ Finset.range (n * b), f i := by
  rw [Finset.sum_comm, sum_blocks]

theorem accumulateV_eq (hc : c.Valid) (val value : Nat → 𝕜) (acc : 𝕜) :
    accumulateV c val value acc =
      acc + ∑ i ∈ Finset.range c.kqTile, val i * value i := by
  have hstep : ∀ (acc : 𝕜) (s : Nat),
      (List.range c.keysPerStep).foldl
        (fun acc q => acc + value (s * c.keysPerStep + q) * val (s * c.keysPerStep + q)) acc =
      acc + ∑ q ∈ Finset.range c.keysPerStep,
        value (s * c.keysPerStep + q) * val (s * c.keysPerStep + q) :=
    fun acc s => foldl_add_eq_sum _ _ _
  unfold accumulateV
  simp only [hstep, foldl_add_eq_sum]
  rw [sum_blocks fun i => value i * val i, Nat.div_mul_cancel hc.steps]
  simp only [mul_comm]

/-- Eight accumulators over vectors of eight are one sum over the features. -/
theorem reduce8_sum8 (hc : c.Valid) (chunk head row j : Nat) :
    reduce8 (a.sum8 c chunk head row j) =
      ∑ d ∈ Finset.range c.headDim,
        a.kHalf8 chunk head row (d / 8) (d % 8) * a.qHalf8 head j (d / 8) (d % 8) := by
  have hsum : ∀ x, a.sum8 c chunk head row j x =
      ∑ k8 ∈ Finset.range (c.headDim / 8),
        a.kHalf8 chunk head row k8 x * a.qHalf8 head j k8 x := by
    intro x
    unfold Args.sum8
    rw [foldl_add_eq_sum, zero_add]
  have height : ∀ f : Nat → 𝕜, reduce8 f = ∑ x ∈ Finset.range 8, f x := by
    intro f
    simp [reduce8, Finset.sum_range_succ]
  rw [height]
  simp only [hsum]
  rw [Finset.sum_comm, ← Nat.div_mul_cancel hc.vectors,
    ← sum_blocks (fun d => a.kHalf8 chunk head row (d / 8) (d % 8) *
      a.qHalf8 head j (d / 8) (d % 8)) (c.headDim / 8) 8, Nat.div_mul_cancel hc.vectors]
  refine Finset.sum_congr rfl fun k8 _ => Finset.sum_congr rfl fun x hx => ?_
  have hx' := Finset.mem_range.mp hx
  rw [show (k8 * 8 + x) / 8 = k8 by omega, show (k8 * 8 + x) % 8 = x by omega]

end

section

variable {𝕜 : Type*} [Field 𝕜] [LinearOrder 𝕜] {c : Config} {e : Exponential 𝕜} {a : Args 𝕜}

/-! ## A tile -/

/-- The registers of a column after `n` keys: all lanes have one maximum, and with the lanes' sums
added up they hold the softmax sums relative to it. -/
structure Column.Holds (c : Config) (e : Exponential 𝕜) (logit : Nat → WithBot 𝕜)
    (value : Nat → Nat → 𝕜) (n : Nat) (s : Column 𝕜) : Prop where
  max : ∀ lane < c.warp, s.kqmax lane = s.kqmax 0
  sums : ∀ lane < c.warp, ∀ x < c.width,
    SoftmaxSums e logit (value · (c.width * lane + x)) n (s.kqmax 0)
      (∑ l ∈ Finset.range c.warp, s.kqsum l) (s.VKQ lane x)

theorem Column.init_holds (logit : Nat → WithBot 𝕜) (value : Nat → Nat → 𝕜) :
    Column.Holds c e logit value 0 (Column.init : Column 𝕜) := by
  refine ⟨fun _ _ => rfl, fun lane _ x _ => ?_⟩
  have h : ∑ l ∈ Finset.range c.warp, (Column.init : Column 𝕜).kqsum l = 0 :=
    Finset.sum_eq_zero fun _ _ => rfl
  rw [h]
  exact SoftmaxSums.zero _

theorem Column.tile_kqsum (s : Column 𝕜) (logit : Nat → WithBot 𝕜)
    (value : Nat → Nat → Nat → 𝕜) (lane : Nat) :
    (s.tile c e logit value).kqsum lane =
      s.kqsum lane * e (s.kqmax lane - (s.tile c e logit value).kqmax 0) +
        (List.range (c.kqTile / c.warp)).foldl
          (fun sum t => sum +
            e.weight ((s.tile c e logit value).kqmax 0) (logit (t * c.warp + lane))) 0 := rfl

theorem Column.tile_VKQ (s : Column 𝕜) (logit : Nat → WithBot 𝕜)
    (value : Nat → Nat → Nat → 𝕜) (lane x : Nat) :
    (s.tile c e logit value).VKQ lane x =
      accumulateV c (fun i => e.weight ((s.tile c e logit value).kqmax 0) (logit i))
        (fun i => value i lane x)
        (s.VKQ lane x * e (s.kqmax lane - (s.tile c e logit value).kqmax 0)) := rfl

/-- A tile whose logits and values are those of the next keys adds these keys. -/
theorem Column.Holds.tile (hc : c.Valid) {logit : Nat → WithBot 𝕜} {value : Nat → Nat → 𝕜}
    {n : Nat} {s : Column 𝕜} (h : s.Holds c e logit value n) {logit' : Nat → WithBot 𝕜}
    {value' : Nat → Nat → Nat → 𝕜} (hlogit : ∀ i < c.kqTile, logit' i = logit (n + i))
    (hvalue : ∀ i < c.kqTile, ∀ lane < c.warp, ∀ x < c.width,
      value' i lane x = value (n + i) (c.width * lane + x)) :
    (s.tile c e logit' value').Holds c e logit value (n + c.kqTile) := by
  refine ⟨fun _ _ => rfl, fun lane hlane x hx => ?_⟩
  -- whatever the new maximum is
  have hkqsum := fun l => s.tile_kqsum (c := c) (e := e) logit' value' l
  have hVKQ := s.tile_VKQ (c := c) (e := e) logit' value' lane x
  generalize (s.tile c e logit' value').kqmax 0 = newMax at hkqsum hVKQ ⊢
  have hsum : ∑ l ∈ Finset.range c.warp, (s.tile c e logit' value').kqsum l =
      (∑ l ∈ Finset.range c.warp, s.kqsum l) * e (s.kqmax 0 - newMax) +
        ∑ i ∈ Finset.range c.kqTile, e.weight newMax (logit (n + i)) := by
    have hlane : ∀ l ∈ Finset.range c.warp, (s.tile c e logit' value').kqsum l =
        s.kqsum l * e (s.kqmax 0 - newMax) +
          ∑ t ∈ Finset.range (c.kqTile / c.warp),
            e.weight newMax (logit' (t * c.warp + l)) := by
      intro l hl
      rw [hkqsum l, h.max l (Finset.mem_range.mp hl), foldl_add_eq_sum, zero_add]
    rw [Finset.sum_congr rfl hlane, Finset.sum_add_distrib, ← Finset.sum_mul,
      sum_lanes fun i => e.weight newMax (logit' i), Nat.div_mul_cancel hc.lanes]
    refine congrArg _ (Finset.sum_congr rfl fun i hi => ?_)
    rw [hlogit i (Finset.mem_range.mp hi)]
  have hacc : (s.tile c e logit' value').VKQ lane x =
      s.VKQ lane x * e (s.kqmax 0 - newMax) +
        ∑ i ∈ Finset.range c.kqTile,
          e.weight newMax (logit (n + i)) * value (n + i) (c.width * lane + x) := by
    rw [hVKQ, h.max lane hlane, accumulateV_eq hc]
    refine congrArg _ (Finset.sum_congr rfl fun i hi => ?_)
    have hi' := Finset.mem_range.mp hi
    rw [hvalue i hi' lane hlane x hx, hlogit i hi']
  rw [hsum, hacc]
  exact ((h.sums lane hlane x hx).rebase newMax).extend c.kqTile

/-! ## The rows the kernel reads -/

theorem kHalf8_eq (ha : a.Valid) {chunk head row d : Nat} (hrow : row < tokensPerChunk) :
    a.kHalf8 chunk head row (d / 8) (d % 8) = a.kRow head (chunk * tokensPerChunk + row) d := by
  unfold tokensPerChunk at hrow
  obtain ⟨q, hq⟩ := ha.kRows
  have h1 : a.nb11 / 4 / 4 = q := by omega
  have h2 : a.nb11 / 2 = 8 * q := by omega
  unfold Args.kHalf8 Args.kRow tokensPerChunk
  rw [show (chunk * 256 + row) / 256 = chunk by omega,
    show (chunk * 256 + row) % 256 = row by omega, h1, h2]
  congr 1
  have : 8 * (row * q + d / 8) = row * (8 * q) + 8 * (d / 8) := by ring
  omega

theorem qHalf8_eq (ha : a.Valid) {head j d : Nat} (hj : j < a.ne01) :
    a.qHalf8 head j (d / 8) (d % 8) = a.qRow head j d * a.scale := by
  obtain ⟨q, hq⟩ := ha.qRows
  have h1 : a.nb01 / 8 = q := by omega
  have h2 : a.nb01 / 4 = 2 * q := by omega
  unfold Args.qHalf8 Args.qRow
  rw [if_pos hj, mul_one, Nat.min_eq_left (by omega), h1, h2]
  congr 2
  have : 2 * (j * q + 4 * (d / 8)) = j * (2 * q) + 8 * (d / 8) := by ring
  omega

/-- The logit a tile stores is the logit of its key. -/
theorem tileLogit_eq (hc : c.Valid) (ha : a.Valid) {head j chunk row : Nat} (hj : j < a.ne01)
    (hrow : row < tokensPerChunk) :
    a.tileLogit c head j chunk row = a.logit c head j (chunk * tokensPerChunk + row) := by
  unfold Args.tileLogit Args.logit
  rw [reduce8_sum8 hc]
  refine congrArg (fun s => WithBot.map (fun m => s + a.slopef head * m) _) ?_
  refine Finset.sum_congr rfl fun d _ => ?_
  rw [kHalf8_eq ha hrow, qHalf8_eq ha hj, mul_comm]

/-- The value a lane loads is the lane's feature of its key. -/
theorem vHalf_eq (hc : c.Valid) (ha : a.Valid) {head chunk row lane x : Nat}
    (hrow : row < tokensPerChunk) :
    a.vHalf c chunk head row lane x =
      a.vRow head (chunk * tokensPerChunk + row) (c.width * lane + x) := by
  unfold tokensPerChunk at hrow
  obtain ⟨q, hq⟩ := ha.kRows
  unfold Args.vHalf Args.vRow tokensPerChunk
  rw [show (chunk * 256 + row) / 256 = chunk by omega,
    show (chunk * 256 + row) % 256 = row by omega, ha.heads, ha.rows]
  congr 2
  have hmul : c.width * (a.nb11 / (2 * c.width)) = a.nb11 / 2 := by
    rcases (Nat.dvd_prime Nat.prime_two).mp hc.width with h | h <;> rw [h] <;> omega
  rw [Nat.mul_add, Nat.mul_left_comm, hmul, Nat.add_assoc]

/-! ## The loops -/

theorem Column.chunk_holds (hc : c.Valid) (ha : a.Valid) {head j chunk : Nat} (hj : j < a.ne01)
    {s : Column 𝕜}
    (h : s.Holds c e (a.logit c head j) (a.vRow head) (chunk * tokensPerChunk)) :
    (s.chunk c e a head j chunk).Holds c e (a.logit c head j) (a.vRow head)
      ((chunk + 1) * tokensPerChunk) := by
  have hrun : ∀ t ≤ tokensPerChunk / c.kqTile,
      ((List.range t).foldl
        (fun s t =>
          s.tile c e (fun i => a.tileLogit c head j chunk (t * c.kqTile + i))
            (fun i lane x => a.vHalf c chunk head (t * c.kqTile + i) lane x))
        s).Holds c e (a.logit c head j) (a.vRow head)
          (chunk * tokensPerChunk + t * c.kqTile) := by
    intro t ht
    induction t with
    | zero =>
        rw [Nat.zero_mul, Nat.add_zero]
        exact h
    | succ t ih =>
        rw [List.range_succ, List.foldl_append, List.foldl_cons, List.foldl_nil, Nat.succ_mul,
          ← Nat.add_assoc]
        have hin : ∀ i < c.kqTile, t * c.kqTile + i < tokensPerChunk := by
          intro i hi
          have h1 := Nat.mul_le_mul_right c.kqTile ht
          rw [Nat.div_mul_cancel hc.tiles, Nat.succ_mul] at h1
          omega
        refine (ih (by omega)).tile hc (fun i hi => ?_) fun i hi lane _ x _ => ?_
        · rw [tileLogit_eq hc ha hj (hin i hi), Nat.add_assoc]
        · rw [vHalf_eq hc ha (hin i hi), Nat.add_assoc]
  have := hrun _ le_rfl
  rw [Nat.div_mul_cancel hc.tiles, ← Nat.succ_mul] at this
  exact this

/-- At the end a column holds the sums over all keys. -/
theorem Column.run_holds (hc : c.Valid) (ha : a.Valid) (head : Nat) {j : Nat}
    (hj : j < a.ne01) :
    (Column.run c e a head j).Holds c e (a.logit c head j) (a.vRow head) a.ne11 := by
  have hrun : ∀ n, ((List.range n).foldl (Column.chunk c e a head j) Column.init).Holds c e
      (a.logit c head j) (a.vRow head) (n * tokensPerChunk) := by
    intro n
    induction n with
    | zero =>
        rw [Nat.zero_mul]
        exact Column.init_holds _ _
    | succ n ih =>
        rw [List.range_succ, List.foldl_append, List.foldl_cons, List.foldl_nil]
        exact Column.chunk_holds hc ha hj ih
  have := hrun (a.ne11 / tokensPerChunk)
  rwa [Nat.div_mul_cancel ha.keys] at this

end

end MzCache.Attention
