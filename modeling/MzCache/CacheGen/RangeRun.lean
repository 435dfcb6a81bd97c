import MzCache.CacheGen.CoderSpec

/-!
# Runs of the range coder

What holds at every step of the two main loops. The encoder's interval keeps its bounds by
itself. The decoder's also has to contain the code value: a renormalisation keeps the value
inside, but the parts that `base` and `size` give to the symbols leave gaps, so an interval
update keeps it only for a stream that lies in the interval the encoder ends with.
-/

namespace MzCache.CacheGen

open MzCache.Lib

namespace LowRange

/-- The interval ends inside the 32-bit coding range. -/
def Inside (iv : LowRange) : Prop := iv.low + iv.range ≤ 2 ^ 32

/-- An interval after a symbol update. -/
def Updated (iv : LowRange) : Prop := iv.Inside ∧ 2 ^ 14 ≤ iv.range

/-- An interval between symbols. -/
def Wide (iv : LowRange) : Prop := iv.Inside ∧ 2 ^ 30 < iv.range

/-- The code value lies in the interval. -/
def Has (iv : LowRange) (value : ℕ) : Prop := iv.low ≤ value ∧ value < iv.low + iv.range

/-- The encoder's renormalisation loop stays inside and stops above a quarter. -/
def RenormRun : ℕ → LowRange → Prop
  | 0, _ => False
  | fuel + 1, iv => iv.Inside ∧
      match iv.renorm with
      | none => 2 ^ 30 < iv.range
      | some (_, iv') => RenormRun fuel iv'

end LowRange

/-- The encoder's main loop: the interval between symbols, after each update, and along the
renormalisation, which ends. -/
def EncodeRun (fuel : ℕ) (row : ℕ → UInt16) (maxSymbol : ℕ) :
    List ℕ → EncState LowRange → Prop
  | [], e => e.iv.Wide
  | sym :: rest, e =>
      let iv := e.iv.narrow (row sym).toNat (cdfHigh row maxSymbol sym)
      e.iv.Wide ∧ iv.Updated ∧ iv.RenormRun fuel ∧
        ∃ e', encRenormLoop LowRange.coder fuel { e with iv := iv } = .ok e' ∧
          EncodeRun fuel row maxSymbol rest e'

/-- The decoder's renormalisation loop also keeps the value inside. -/
def DecRenormRun : ℕ → DecState LowRange → Prop
  | 0, _ => False
  | fuel + 1, d => d.iv.Inside ∧ d.iv.Has d.value ∧
      match d.iv.decRenorm d.value with
      | none => 2 ^ 30 < d.iv.range
      | some (iv, value) =>
          DecRenormRun fuel ⟨iv, u32 (value <<< 1) ||| d.br.nextBit.1.toNat, d.br.nextBit.2⟩

/-- The decoder before it looks a symbol up: the quotient fits the `uint16_t` it is cast to,
and its numerator the `uint64_t`. -/
structure AtSymbol (d : DecState LowRange) : Prop where
  wide : d.iv.Wide
  has : d.iv.Has d.value
  count : LowRange.count d.iv d.value = ((d.value - d.iv.low + 1) * 2 ^ 16 - 1) / d.iv.range
  count_lt : ((d.value - d.iv.low + 1) * 2 ^ 16 - 1) / d.iv.range < 2 ^ 16

/-- The decoder's main loop over `n` symbols. -/
def DecodeRun (fuel : ℕ) (row : ℕ → UInt16) (binsP1 : ℕ) : ℕ → DecState LowRange → Prop
  | 0, _ => True
  | n + 1, d =>
      let sym := binsearchSymbol row binsP1 (LowRange.count d.iv d.value)
      let iv := d.iv.decNarrow (row sym).toNat (cdfHigh row (binsP1 - 2) sym)
      AtSymbol d ∧ (n ≠ 0 → iv.Updated ∧ iv.Has d.value ∧ DecRenormRun fuel { d with iv := iv } ∧
        ∃ d', decRenormLoop LowRange.coder fuel { d with iv := iv } = .ok d' ∧
          DecodeRun fuel row binsP1 n d')

/-- The coded state of an encoder that started on an empty vector. -/
def EncState.coded (e : EncState LowRange) : Coded :=
  ⟨⟨e.iv.low, e.iv.range⟩, e.out.bits, e.pending⟩

/-- The stream, continued by zeros, lies in the interval that the emitted bits, the pending
count, `low` and `range` denote. -/
def EncState.Denotes (e : EncState LowRange) (x : ℕ → Bool) : Prop :=
  e.coded.NotBelow 30 x ∧ e.coded.NotAbove 30 x

/-! ## Renormalisation -/

theorem LowRange.Rep.inside {iv : LowRange} {w : Window} (h : iv.Rep w) (hw : w.Within 30) :
    iv.Inside := by
  unfold LowRange.Inside
  rw [h.low, h.range]
  exact hw

theorem LowRange.Rep.wide {iv : LowRange} {w : Window} (h : iv.Rep w)
    (hw : Settled rangeScheme w) : iv.Wide :=
  ⟨h.inside hw.within, by rw [h.range]; exact hw.wide⟩

theorem LowRange.Rep.has_iff {iv : LowRange} {w : Window} {v : ℕ} (h : iv.Rep w) :
    iv.Has v ↔ w.low ≤ v ∧ v < w.low + w.size := by
  rw [LowRange.Has, h.low, h.range]

/-- The renormalisation loop of an interval, by what one step does to its window. -/
theorem LowRange.renormRun (fuel : ℕ) {iv : LowRange} {w : Window} (h : iv.Rep w)
    (hin : w.Within 30) (hfuel : 2 ^ 32 < w.size * 2 ^ fuel) : iv.RenormRun fuel := by
  induction fuel generalizing iv w with
  | zero =>
      simp only [Window.Within] at hin
      omega
  | succ fuel ih =>
      rw [LowRange.RenormRun]
      refine ⟨h.inside hin, ?_⟩
      cases hs : iv.renorm with
      | none =>
          rw [h.range]
          exact (LowRange.lawful.renorm_none iv w h hin hs).2
      | some ks =>
          obtain ⟨k, iv'⟩ := ks
          obtain ⟨-, hfit, hrep⟩ := LowRange.lawful.renorm_some iv w k iv' h hin hs
          refine ih hrep hfit.within ?_
          calc 2 ^ 32 < w.size * 2 ^ (fuel + 1) := hfuel
            _ = (w.rescale 30 k).size * 2 ^ fuel := by
                rw [Window.rescale]
                ring

/-- The decoder's loop on the same windows; each step keeps the value inside. -/
theorem decRenormRun (fuel : ℕ) {d : DecState LowRange} {w : Window} (h : d.iv.Rep w)
    (hin : w.Within 30) (hhas : d.iv.Has d.value) (hfuel : 2 ^ 32 < w.size * 2 ^ fuel) :
    DecRenormRun fuel d := by
  induction fuel generalizing d w with
  | zero =>
      simp only [Window.Within] at hin
      omega
  | succ fuel ih =>
      rw [DecRenormRun]
      refine ⟨h.inside hin, hhas, ?_⟩
      cases hs : d.iv.renorm with
      | none =>
          have hnone : d.iv.decRenorm d.value = none :=
            LowRange.lawful.decRenorm_none d.iv d.value hs
          rw [hnone, h.range]
          exact (LowRange.lawful.renorm_none d.iv w h hin hs).2
      | some ks =>
          obtain ⟨k, iv'⟩ := ks
          obtain ⟨hlo, hhi⟩ := h.has_iff.mp hhas
          obtain ⟨-, hfit, hrep⟩ := LowRange.lawful.renorm_some d.iv w k iv' h hin hs
          obtain ⟨v', hdec, hshift⟩ :=
            LowRange.lawful.decRenorm_some d.iv w k iv' d.value h hin hs hlo hhi
          have hdec' : d.iv.decRenorm d.value = some (iv', v') := hdec
          have hbit := d.br.nextBit.1.toNat_lt
          have hor : 2 * (d.value - k.offset 30) ||| d.br.nextBit.1.toNat =
              2 * (d.value - k.offset 30) + d.br.nextBit.1.toNat := by
            have hlt : d.br.nextBit.1.toNat < 2 ^ 1 := hbit
            simpa using (Nat.two_pow_add_eq_or_of_lt hlt (d.value - k.offset 30)).symm
          rw [hdec']
          refine ih hrep hfit.within ?_ ?_
          · have hoff := hfit.1
            rw [hrep.has_iff]
            simp only [hshift, hor, Window.rescale]
            omega
          · calc 2 ^ 32 < w.size * 2 ^ (fuel + 1) := hfuel
              _ = (w.rescale 30 k).size * 2 ^ fuel := by
                  rw [Window.rescale]
                  ring

/-! ## Symbols -/

/-- The quotient of a value inside the interval fits 16 bits. -/
theorem LowRange.Rep.atSymbol {d : DecState LowRange} {w : Window} (h : d.iv.Rep w)
    (hw : Settled rangeScheme w) (hhas : d.iv.Has d.value) : AtSymbol d := by
  obtain ⟨hlo, hhi⟩ := h.has_iff.mp hhas
  have hcount : LowRange.count d.iv d.value = ((d.value - w.low + 1) * 2 ^ 16 - 1) / w.size :=
    LowRange.lawful.count_eq d.iv w d.value h hw hlo hhi
  rw [← h.low, ← h.range] at hcount
  refine ⟨h.wide hw, hhas, hcount, count_lt ?_⟩
  obtain ⟨h1, h2⟩ := hhas
  omega

/-- The bits behind `pre`, the pending count and the interval determine the coded state. -/
theorem Encodes.unique {pre : List Bool} {e : EncState LowRange} {c c' : Coded}
    (h : Encodes LowRange.Rep pre e c) (h' : Encodes LowRange.Rep pre e c') : c = c' := by
  obtain ⟨⟨low, size⟩, bits, pending⟩ := c
  obtain ⟨⟨low', size'⟩, bits', pending'⟩ := c'
  have hlow : low = low' := h.rep.low.symm.trans h'.rep.low
  have hsize : size = size' := h.rep.range.symm.trans h'.rep.range
  have hbits : bits = bits' := List.append_cancel_left (h.bits.symm.trans h'.bits)
  have hpending : pending = pending' := h.pending.symm.trans h'.pending
  rw [hlow, hsize, hbits, hpending]

/-- The coded state of an encoder that started on an empty vector. -/
theorem Encodes.coded {e : EncState LowRange} {c : Coded} (h : Encodes LowRange.Rep [] e c) :
    e.coded = c :=
  @Encodes.unique [] e _ _
    ⟨⟨rfl, rfl, by rw [EncState.coded, h.rep.range]; exact h.rep.pos,
      by rw [EncState.coded, h.rep.range]; exact h.rep.lt⟩, rfl, h.ok, rfl⟩ h

/-! ## Main loops -/

section

variable {row : ℕ → UInt16} {lp fuel : ℕ} {pre : List Bool}

/-- A symbol's part doubles often enough within the fuel. -/
theorem symbol_fuel (hfuel : 32 ≤ fuel) {size : ℕ} (hsize : 2 ^ 14 ≤ size) :
    2 ^ 32 < size * 2 ^ fuel := by
  calc 2 ^ 32 < 2 ^ 14 * 2 ^ 32 := by norm_num
    _ ≤ size * 2 ^ fuel := Nat.mul_le_mul hsize (Nat.pow_le_pow_right (by norm_num) hfuel)

theorem encodeRun (hrise : Rises row (lp - 2)) (hfuel : 32 ≤ fuel) (syms : List ℕ)
    (hsyms : ∀ s ∈ syms, s ≤ lp - 2) {e : EncState LowRange} {c : Coded}
    (he : Encodes LowRange.Rep pre e c) (hw : Settled rangeScheme c.win)
    (hshort : c.shifts + 18 * syms.length + 32 < 2 ^ 31) :
    EncodeRun fuel row (lp - 2) syms e := by
  induction syms generalizing e c with
  | nil => exact he.rep.wide hw
  | cons s syms ih =>
      rw [List.length_cons] at hshort
      obtain ⟨henc1, -, hin1, hsize, -⟩ :=
        he.symbol LowRange.lawful hrise (hsyms s List.mem_cons_self) hw
      have hfuel1 := symbol_fuel hfuel hsize
      obtain ⟨e2, c2, hloop, henc2, hset2, -, hgrow, -, -⟩ :=
        renormLoop_spec LowRange.lawful fuel _ _ henc1 hin1 hfuel1
          ⟨32, symbol_fuel le_rfl hsize, by rw [symbolPart, Coded.shifts_narrow]; omega⟩
      have hbound := rescalings_le hset2.within hgrow hsize
      rw [symbolPart, Coded.shifts_narrow] at hbound
      refine ⟨he.rep.wide hw, ⟨henc1.rep.inside hin1, ?_⟩,
        LowRange.renormRun fuel henc1.rep hin1 hfuel1, e2, hloop,
        ih (fun t ht => hsyms t (List.mem_cons_of_mem _ ht)) henc2 hset2 (by omega)⟩
      have hrange : (LowRange.coder.narrow e.iv (row s).toNat (cdfHigh row (lp - 2) s)).range =
          _ := henc1.rep.range
      exact hsize.trans_eq hrange.symm

/-- The decoder's loop on a stream that lies in the interval the encoder ends with. -/
theorem decodeRun (hlp : 2 ≤ lp) (hrow : CdfRow row (lp - 2)) (hfuel : 32 ≤ fuel)
    (syms : List ℕ) (hsyms : ∀ s ∈ syms, s ≤ lp - 2 ∧ s < 256) {e e' : EncState LowRange}
    {c c' : Coded} (he : Encodes LowRange.Rep pre e c) (hw : Settled rangeScheme c.win)
    (hshort : c.shifts + 18 * syms.length + 32 < 2 ^ 31)
    (hrun : encodeSymbols LowRange.coder fuel row (lp - 2) syms e = .ok e')
    (he' : Encodes LowRange.Rep pre e' c') {base : List UInt8} {len : ℕ}
    (hlo : c'.NotBelow 30 (channelStream base len))
    (hhi : c'.NotAbove 30 (channelStream base len)) {d : DecState LowRange}
    (hd : Follows base len e.iv d c) : DecodeRun fuel row lp syms.length d := by
  induction syms generalizing e c d with
  | nil => trivial
  | cons s syms ih =>
      rw [List.length_cons] at hshort
      obtain ⟨hs, -⟩ := hsyms s List.mem_cons_self
      have hrest := fun t ht => hsyms t (List.mem_cons_of_mem s ht)
      obtain ⟨henc1, hnest1, hin1, hsize, htop⟩ := he.symbol LowRange.lawful hrow.rises hs hw
      have hfuel1 := symbol_fuel hfuel hsize
      obtain ⟨e2, c2, hloop, henc2, hset2, hnest2, hgrow, -, hdec2⟩ :=
        renormLoop_spec LowRange.lawful fuel _ _ henc1 hin1 hfuel1
          ⟨32, symbol_fuel le_rfl hsize, by rw [symbolPart, Coded.shifts_narrow]; omega⟩
      have hbound := rescalings_le hset2.within hgrow hsize
      rw [symbolPart, Coded.shifts_narrow] at hbound
      -- the encoder's end is the one it reaches over the rest
      have hrun2 : encodeSymbols LowRange.coder fuel row (lp - 2) syms e2 = .ok e' := by
        rw [encodeSymbols, hloop] at hrun
        exact hrun
      obtain ⟨e3, c3, hrun3, henc3, -, hnest3, -⟩ :=
        codeSymbols_spec LowRange.lawful hlp hrow.rises hfuel syms hrest e2 c2 henc2 hset2
          (by omega)
      rw [hrun2, Except.ok.injEq] at hrun3
      subst hrun3
      rw [henc3.unique he'] at hnest3
      have hlo2 := hnest3.notBelow hlo
      have hhi2 := hnest3.notAbove hhi
      have hlo1 := hnest2.notBelow hlo2
      have hhi1 := hnest2.notAbove hhi2
      -- so the value lies in the part of the symbol
      have hreads1 : (symbolPart rangeScheme row (lp - 2) s c).Reads 30 (channelStream base len)
          d.value := hd.reads
      have hin := hd.reads.notBelow_iff.mp (hnest1.notBelow hlo1)
      have hin' := hd.reads.notAbove_iff.mp (hnest1.notAbove hhi1)
      have hpart := hreads1.notBelow_iff.mp hlo1
      have hpart' := hreads1.notAbove_iff.mp hhi1
      have hrep : d.iv.Rep c.win := hd.iv ▸ he.rep
      have hsym : binsearchSymbol row lp (LowRange.count d.iv d.value) = s :=
        (decoded_symbol LowRange.lawful hlp hrow hrep hw hin hin' hs).2 hpart (by omega)
      have hnarrow : d.iv.decNarrow (row s).toNat (cdfHigh row (lp - 2) s) =
          LowRange.coder.narrow e.iv (row s).toNat (cdfHigh row (lp - 2) s) := by
        rw [hd.iv]
        exact LowRange.lawful.decNarrow _ _ _ _ he.rep hw (hrow.rises.cdfHigh_gt hs)
          (CdfRow.cdfHigh_le row (lp - 2) s)
      have hhas := henc1.rep.has_iff.mpr ⟨hpart, hpart'⟩
      rw [List.length_cons, DecodeRun]
      simp only [hsym, hnarrow]
      refine ⟨hrep.atSymbol hw (hrep.has_iff.mpr ⟨hin, hin'⟩), fun _ => ⟨⟨henc1.rep.inside hin1, ?_⟩,
        hhas, decRenormRun fuel henc1.rep hin1 hhas hfuel1, ?_⟩⟩
      · exact hsize.trans_eq henc1.rep.range.symm
      · obtain ⟨-, d', hdrun, hfol⟩ := hdec2 base len
          { d with iv := LowRange.coder.narrow e.iv (row s).toNat (cdfHigh row (lp - 2) s) }
          ⟨rfl, hd.reads, hd.br⟩ hlo1 hhi2
        exact ⟨d', hdrun, ih hrest henc2 hset2 (by omega) hrun2 hfol⟩

end

end MzCache.CacheGen
