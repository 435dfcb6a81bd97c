import MzCache.CacheGen.BitIo

/-!
# The bit packer over whole channels

The calls of `append_bit_and_pending` that a channel makes, the final spill, and the reader on
the bytes. A run of pending bits reaches the register through three rules; what the rules
write is the run itself, unless its tail is passed to `add_bits_slow` as an `int` it does not
fit. The shifts of the writer are checked by a second version of it in which a shift by 32
has no value.
-/

namespace MzCache.CacheGen

open MzCache.Lib

/-! ## The calls of a channel -/

/-- Calls of `append_bit_and_pending`, a bit and a pending count each. -/
def appendCalls (calls : List (Bool × ℕ)) (s : BitOut) : BitOut :=
  calls.foldl (fun s c => appendBitAndPending c.1 c.2 s) s

/-- The vector after a channel's calls and the final spill. -/
def packCalls (calls : List (Bool × ℕ)) (out : List UInt8) : List UInt8 :=
  (spillPartialRegToVec (appendCalls calls ⟨0, 0, out⟩)).out

/-- The bits that the calls stand for. -/
def callBits (calls : List (Bool × ℕ)) : List Bool :=
  calls.flatMap fun c => c.1 :: List.replicate c.2 (!c.1)

/-- Bits fed one at a time. -/
def feedBits (l : List Bool) (s : BitOut) : BitOut := l.foldl (fun s b => addBitsSlow b 1 s) s

/-- A run fits when its tail does: with `len` bits in the register the run is first aligned to a
byte, and an empty register then takes whole bytes. -/
def RunFits (len num : ℕ) : Prop := len = 0 ∨ 24 < len ∨ num - (8 - len % 8) % 8 < 2 ^ 31

instance (len num : ℕ) : Decidable (RunFits len num) :=
  inferInstanceAs (Decidable (_ ∨ _ ∨ _))

/-- Every run of pending bits fits the register it meets. -/
def CallsFit : List (Bool × ℕ) → BitOut → Prop
  | [], _ => True
  | c :: calls, s =>
      RunFits ((s.outputRegLen + 1) % 32) c.2 ∧ CallsFit calls (appendBitAndPending c.1 c.2 s)

/-- Counts below `2 ^ 31` fit any register. -/
theorem callsFit_of_lt (calls : List (Bool × ℕ)) (s : BitOut) (h : ∀ c ∈ calls, c.2 < 2 ^ 31) :
    CallsFit calls s := by
  induction calls generalizing s with
  | nil => trivial
  | cons c calls ih =>
      have hc := h c List.mem_cons_self
      exact ⟨.inr (.inr (by omega)), ih _ fun d hd => h d (List.mem_cons_of_mem _ hd)⟩

@[simp] theorem appendCalls_cons (c : Bool × ℕ) (calls : List (Bool × ℕ)) (s : BitOut) :
    appendCalls (c :: calls) s = appendCalls calls (appendBitAndPending c.1 c.2 s) := rfl

@[simp] theorem callBits_cons (c : Bool × ℕ) (calls : List (Bool × ℕ)) :
    callBits (c :: calls) = c.1 :: List.replicate c.2 (!c.1) ++ callBits calls := rfl

/-! ## The phase of the register -/

theorem addBitsRound_len (bit : Bool) (take : ℕ) (s : BitOut) (hs : s.Ok)
    (htake : take ≤ 32 - s.outputRegLen) :
    (addBitsRound bit take s).outputRegLen = (s.outputRegLen + take) % 32 := by
  have hlen := hs.len_lt
  unfold addBitsRound
  split
  · show 0 = _
    omega
  · dsimp only
    split
    · show 0 = _
      omega
    · show s.outputRegLen + take = _
      omega

theorem addBitsLoop_len (bit : Bool) (fuel num : ℕ) (s : BitOut) (hs : s.Ok)
    (hfuel : num ≤ fuel) :
    (addBitsLoop bit fuel num s).outputRegLen = (s.outputRegLen + num) % 32 := by
  induction fuel generalizing num s with
  | zero =>
      have hlen := hs.len_lt
      rw [addBitsLoop]
      omega
  | succ fuel ih =>
      have hlen := hs.len_lt
      rw [addBitsLoop]
      by_cases hz : num = 0
      · rw [if_pos hz]
        omega
      · rw [if_neg hz]
        set take := if num < 32 - s.outputRegLen then num else 32 - s.outputRegLen with ht
        have htake : 1 ≤ take ∧ take ≤ num ∧ take ≤ 32 - s.outputRegLen := by
          split at ht <;> omega
        have hround := addBitsRound_appends bit take s hs htake.2.2
        rw [ih (num - take) _ hround.ok (by omega), addBitsRound_len bit take s hs htake.2.2]
        omega

theorem addBitsSlow_len (bit : Bool) (num : ℕ) (s : BitOut) (hs : s.Ok) :
    (addBitsSlow bit num s).outputRegLen = (s.outputRegLen + num) % 32 :=
  addBitsLoop_len bit num num s hs le_rfl

theorem alignTake_eq (num : ℕ) (s : BitOut) :
    alignTake num s = min num ((8 - s.outputRegLen % 8) % 8) := by
  have hmask : s.outputRegLen &&& 7 = s.outputRegLen % 8 := Nat.and_two_pow_sub_one_eq_mod _ 3
  simp only [alignTake, hmask]
  split_ifs <;> omega

theorem alignRun_len (bit : Bool) (num : ℕ) (s : BitOut) (hs : s.Ok) :
    (alignRun bit num s).outputRegLen = (s.outputRegLen + alignTake num s) % 32 := by
  have hlen := hs.len_lt
  unfold alignRun
  split
  · omega
  · exact addBitsSlow_len bit _ s hs

theorem tailOf_lt_iff (bit : Bool) (num : ℕ) (s : BitOut) (hs : s.Ok) :
    tailOf bit num s < 2 ^ 31 ↔ RunFits s.outputRegLen num := by
  have hlen := hs.len_lt
  have halign := alignTake_eq num s
  rw [tailOf, addBytesBulk_rest, alignRun_len bit num s hs, RunFits]
  split <;> omega

/-- One run: it loses bits exactly when it does not fit. -/
theorem addBitsRun_exact (bit : Bool) (num : ℕ) (s : BitOut) (hs : s.Ok) :
    ∃ m, Appends s (addBitsRun bit num s) (List.replicate m bit) ∧ m ≤ num ∧
      (RunFits s.outputRegLen num → m = num) ∧
      (¬ RunFits s.outputRegLen num → m + 2 ^ 31 ≤ num) := by
  obtain ⟨m, hm, happ⟩ := addBitsRun_appends_tail bit num s hs
  have hle := tailCount_le (tailOf bit num s)
  refine ⟨m, happ, by omega, fun hfit => ?_, fun hfit => ?_⟩
  · have heq := tailCount_of_lt ((tailOf_lt_iff bit num s hs).mpr hfit)
    omega
  · rw [← tailOf_lt_iff bit num s hs, not_lt] at hfit
    have hlossy := tailCount_lossy hfit
    omega

theorem addBitsRun_one (bit : Bool) (s : BitOut) :
    addBitsRun bit 1 s = addBitsSlow bit 1 s := by
  have halign := alignTake_eq 1 s
  have hbulk : ∀ s', addBytesBulk bit 1 s' = (1, s') := fun s' =>
    if_neg fun h => absurd h.1 (by norm_num)
  have hnone : ∀ s', addBytesBulk bit 0 s' = (0, s') := fun s' =>
    if_neg fun h => absurd h.1 (by norm_num)
  rw [addBitsRun, if_neg one_ne_zero]
  by_cases hz : alignTake 1 s = 0
  · simp only [hz, if_true, Nat.sub_zero, hbulk, one_ne_zero, if_false,
      @tailCount_of_lt 1 (by norm_num)]
  · have h1 : alignTake 1 s = 1 := by omega
    simp only [h1, one_ne_zero, if_false, Nat.sub_self, hnone, if_true]

/-- One call. -/
theorem appendBitAndPending_exact (bit : Bool) (pending : ℕ) (s : BitOut) (hs : s.Ok) :
    ∃ m, Appends s (appendBitAndPending bit pending s) (bit :: List.replicate m (!bit)) ∧
      m ≤ pending ∧ (RunFits ((s.outputRegLen + 1) % 32) pending → m = pending) ∧
      (¬ RunFits ((s.outputRegLen + 1) % 32) pending → m + 2 ^ 31 ≤ pending) := by
  have h1 := addBitsSlow_appends bit 1 s hs
  have hlen := addBitsSlow_len bit 1 s hs
  unfold appendBitAndPending
  rw [addBitsRun_one]
  by_cases hz : pending = 0
  · have hfits : RunFits ((s.outputRegLen + 1) % 32) pending := by
      unfold RunFits
      omega
    refine ⟨0, ?_, Nat.zero_le _, fun _ => hz.symm, fun h => absurd hfits h⟩
    simp only [hz, if_true]
    exact h1
  · obtain ⟨m, happ, hle, hfit, hlossy⟩ := addBitsRun_exact (!bit) pending _ h1.ok
    rw [hlen] at hfit hlossy
    simp only [if_neg hz]
    exact ⟨m, h1.trans happ, hle, hfit, hlossy⟩

/-- A channel's calls write their bits, or lose some. -/
theorem appendCalls_exact (calls : List (Bool × ℕ)) (s : BitOut) (hs : s.Ok) :
    ∃ l, Appends s (appendCalls calls s) l ∧ l.length ≤ (callBits calls).length ∧
      (CallsFit calls s → l = callBits calls) ∧
      (¬ CallsFit calls s → l.length + 2 ^ 31 ≤ (callBits calls).length) := by
  induction calls generalizing s with
  | nil => exact ⟨[], Appends.refl hs, le_rfl, fun _ => rfl, fun h => absurd trivial h⟩
  | cons c calls ih =>
      obtain ⟨m, happ, hle, hfit, hlossy⟩ := appendBitAndPending_exact c.1 c.2 s hs
      obtain ⟨l, happ', hle', hfit', hlossy'⟩ := ih _ happ.ok
      refine ⟨_, happ.trans happ', ?_, ?_, ?_⟩
      · rw [callBits_cons, List.length_append, List.length_append, List.length_cons,
          List.length_cons, List.length_replicate, List.length_replicate]
        omega
      · rintro ⟨hrun, hcalls⟩
        rw [hfit hrun, hfit' hcalls, callBits_cons]
      · intro h
        rw [CallsFit, not_and_or] at h
        rw [callBits_cons, List.length_append, List.length_append, List.length_cons,
          List.length_cons, List.length_replicate, List.length_replicate]
        rcases h with h | h
        · have := hlossy h
          omega
        · have := hlossy' h
          omega

theorem feedBits_appends (l : List Bool) (s : BitOut) (hs : s.Ok) :
    Appends s (feedBits l s) l := by
  induction l generalizing s with
  | nil => exact Appends.refl hs
  | cons b l ih =>
      have h1 := addBitsSlow_appends b 1 s hs
      exact h1.trans (ih _ h1.ok)

/-- The final spill packs what was appended behind the bytes that were there. -/
theorem spillPartial_pack {out : List UInt8} {s : BitOut} {l : List Bool}
    (h : Appends ⟨0, 0, out⟩ s l) : (spillPartialRegToVec s).out = out ++ packBits l := by
  obtain ⟨k, hk, hbits⟩ := spillPartial_byteBits s h.ok
  rw [h.bits, BitOut.bits, List.append_assoc] at hbits
  simp only [bitsOf_width_zero, List.append_nil] at hbits
  exact eq_append_packBits hk hbits

theorem packCalls_eq {calls : List (Bool × ℕ)} {out : List UInt8}
    (h : CallsFit calls ⟨0, 0, out⟩) :
    packCalls calls out = out ++ packBits (callBits calls) := by
  obtain ⟨l, happ, -, hfit, -⟩ := appendCalls_exact calls _ (BitOut.ok_empty out)
  rw [hfit h] at happ
  exact spillPartial_pack happ

/-- Where a run does not fit, bytes are missing. -/
theorem packCalls_short {calls : List (Bool × ℕ)} {out : List UInt8}
    (h : ¬ CallsFit calls ⟨0, 0, out⟩) :
    (packCalls calls out).length < (out ++ packBits (callBits calls)).length := by
  obtain ⟨l, happ, -, -, hlossy⟩ := appendCalls_exact calls _ (BitOut.ok_empty out)
  have hlossy := hlossy h
  rw [packCalls, spillPartial_pack happ, List.length_append, List.length_append,
    length_packBits, length_packBits]
  omega

/-! ## Shifts -/

/-- A shift of a `uint32_t`, which has no value from 32 on. -/
def shlChecked (x n : ℕ) : Option ℕ := if n < 32 then some (u32 (x <<< n)) else none

def spillRegChecked (s : BitOut) : Option BitOut := do
  let reg ← shlChecked s.outputReg (32 - s.outputRegLen)
  return ⟨0, 0, s.out ++ pushBytes reg⟩

def spillPartialChecked (s : BitOut) : Option BitOut :=
  if s.outputRegLen = 0 then some s
  else do
    let reg ← shlChecked s.outputReg (32 - s.outputRegLen)
    return ⟨0, 0, s.out ++ spillBytes ((s.outputRegLen + 7) / 8) reg⟩

def addBitsRoundChecked (bit : Bool) (take : ℕ) (s : BitOut) : Option BitOut :=
  if take = 32 then
    -- this shift of the empty register is by 32, and is overwritten unread
    let _dead := shlChecked s.outputReg (32 - s.outputRegLen)
    some ⟨0, 0, s.out ++ pushBytes (if bit then 0xFFFFFFFF else 0)⟩
  else do
    let reg ← shlChecked s.outputReg take
    let reg ← if bit then (shlChecked 1 take).map fun one => reg ||| (one - 1) else some reg
    let s' : BitOut := ⟨reg, s.outputRegLen + take, s.out⟩
    if s'.outputRegLen = 32 then spillRegChecked s' else some s'

def addBitsLoopChecked (bit : Bool) : ℕ → ℕ → BitOut → Option BitOut
  | 0, _, s => some s
  | fuel + 1, num, s =>
      if num = 0 then some s
      else
        let can := 32 - s.outputRegLen
        let take := if num < can then num else can
        (addBitsRoundChecked bit take s).bind (addBitsLoopChecked bit fuel (num - take))

def addBitsSlowChecked (bit : Bool) (num : ℕ) (s : BitOut) : Option BitOut :=
  addBitsLoopChecked bit num num s

def addBitsRunChecked (bit : Bool) (num : ℕ) (s : BitOut) : Option BitOut :=
  if num = 0 then some s
  else
    let take := alignTake num s
    (if take = 0 then some s else addBitsSlowChecked bit take s).bind fun s =>
      let rest := addBytesBulk bit (num - take) s
      if rest.1 = 0 then some rest.2 else addBitsSlowChecked bit (tailCount rest.1) rest.2

def appendBitAndPendingChecked (bit : Bool) (pendingBits : ℕ) (s : BitOut) : Option BitOut := do
  let s ← addBitsRunChecked bit 1 s
  if pendingBits = 0 then some s else addBitsRunChecked (!bit) pendingBits s

/-- `packCalls` with every shift checked. -/
def packCallsChecked (calls : List (Bool × ℕ)) (out : List UInt8) : Option (List UInt8) := do
  let s ← calls.foldlM (fun s c => appendBitAndPendingChecked c.1 c.2 s) ⟨0, 0, out⟩
  let s ← spillPartialChecked s
  return s.out

theorem shlChecked_of_lt (x : ℕ) {n : ℕ} (h : n < 32) : shlChecked x n = some (u32 (x <<< n)) :=
  if_pos h

theorem spillRegChecked_eq {s : BitOut} (h : s.outputRegLen = 32) :
    spillRegChecked s = some (spillRegToVec s) := by
  unfold spillRegChecked spillRegToVec
  rw [shlChecked_of_lt _ (by omega)]
  rfl

theorem spillPartialChecked_eq (s : BitOut) :
    spillPartialChecked s = some (spillPartialRegToVec s) := by
  unfold spillPartialChecked spillPartialRegToVec
  split
  · rfl
  · rw [shlChecked_of_lt _ (by omega)]
    rfl

theorem addBitsRoundChecked_eq (bit : Bool) {take : ℕ} (s : BitOut)
    (htake : take ≤ 32 - s.outputRegLen) :
    addBitsRoundChecked bit take s = some (addBitsRound bit take s) := by
  unfold addBitsRoundChecked addBitsRound
  by_cases h32 : take = 32
  · rw [if_pos h32, if_pos h32]
  · have hone : u32 (1 <<< take) = 1 <<< take := u32_of_lt (by
      rw [Nat.shiftLeft_eq, Nat.one_mul]
      exact Nat.pow_lt_pow_right (by norm_num) (by omega))
    rw [if_neg h32, if_neg h32, shlChecked_of_lt _ (by omega), shlChecked_of_lt _ (by omega),
      hone]
    cases bit with
    | false =>
        simp only [Option.bind_eq_bind, Option.bind_some, Bool.false_eq_true, if_false]
        split
        · exact spillRegChecked_eq ‹_›
        · rfl
    | true =>
        simp only [Option.bind_eq_bind, Option.bind_some, Option.map_some, if_true]
        split
        · exact spillRegChecked_eq ‹_›
        · rfl

theorem addBitsLoopChecked_eq (bit : Bool) (fuel num : ℕ) (s : BitOut) (hs : s.Ok) :
    addBitsLoopChecked bit fuel num s = some (addBitsLoop bit fuel num s) := by
  induction fuel generalizing num s with
  | zero => rfl
  | succ fuel ih =>
      rw [addBitsLoopChecked, addBitsLoop]
      by_cases hz : num = 0
      · rw [if_pos hz, if_pos hz]
      · rw [if_neg hz, if_neg hz]
        set take := if num < 32 - s.outputRegLen then num else 32 - s.outputRegLen with ht
        have htake : take ≤ 32 - s.outputRegLen := by
          split at ht <;> omega
        have hround := addBitsRound_appends bit take s hs htake
        show (addBitsRoundChecked bit take s).bind _ = _
        rw [addBitsRoundChecked_eq bit s htake, Option.bind_some]
        exact ih (num - take) _ hround.ok

theorem addBitsSlowChecked_eq (bit : Bool) (num : ℕ) (s : BitOut) (hs : s.Ok) :
    addBitsSlowChecked bit num s = some (addBitsSlow bit num s) :=
  addBitsLoopChecked_eq bit num num s hs

theorem addBitsGuardChecked_eq (bit : Bool) (k num : ℕ) (s : BitOut) (hs : s.Ok) :
    (if k = 0 then some s else addBitsSlowChecked bit num s) =
      some (if k = 0 then s else addBitsSlow bit num s) := by
  split
  · rfl
  · exact addBitsSlowChecked_eq bit num s hs

theorem addBitsRunChecked_eq (bit : Bool) (num : ℕ) (s : BitOut) (hs : s.Ok) :
    addBitsRunChecked bit num s = some (addBitsRun bit num s) := by
  unfold addBitsRunChecked addBitsRun
  by_cases hz : num = 0
  · rw [if_pos hz, if_pos hz]
  · have halign := addBitsGuard_appends bit (k := alignTake num s) id s hs
    obtain ⟨n, -, hbulk⟩ := addBytesBulk_appends bit (num - alignTake num s) _ halign.ok
    rw [if_neg hz, if_neg hz]
    simp only [addBitsGuardChecked_eq bit _ _ s hs, Option.bind_some]
    exact addBitsGuardChecked_eq bit _ _ _ hbulk.ok

theorem appendBitAndPendingChecked_eq (bit : Bool) (pending : ℕ) (s : BitOut) (hs : s.Ok) :
    appendBitAndPendingChecked bit pending s = some (appendBitAndPending bit pending s) := by
  have h1 := @addBitsRun_appends bit 1 (by norm_num) s hs
  unfold appendBitAndPendingChecked appendBitAndPending
  simp only [addBitsRunChecked_eq bit 1 s hs, Option.bind_eq_bind, Option.bind_some]
  split
  · rfl
  · exact addBitsRunChecked_eq (!bit) pending _ h1.ok

theorem appendCallsChecked_eq (calls : List (Bool × ℕ)) (s : BitOut) (hs : s.Ok) :
    calls.foldlM (fun s c => appendBitAndPendingChecked c.1 c.2 s) s =
      some (appendCalls calls s) := by
  induction calls generalizing s with
  | nil => rfl
  | cons c calls ih =>
      obtain ⟨m, happ, -⟩ := appendBitAndPending_exact c.1 c.2 s hs
      rw [List.foldlM_cons, appendBitAndPendingChecked_eq c.1 c.2 s hs]
      exact ih _ happ.ok

/-- No shift whose result is read is by 32, whatever the calls. -/
theorem packCallsChecked_eq (calls : List (Bool × ℕ)) (out : List UInt8) :
    packCallsChecked calls out = some (packCalls calls out) := by
  unfold packCallsChecked
  rw [appendCallsChecked_eq calls _ (BitOut.ok_empty out)]
  simp only [Option.bind_eq_bind, Option.bind_some, spillPartialChecked_eq]
  rfl

/-! ## Reading -/

/-- The next `n` bits. -/
def readBits : ℕ → BitReader → List Bool
  | 0, _ => []
  | n + 1, r => r.nextBit.1 :: readBits n r.nextBit.2

/-- What a decoder reads of a channel of `len` bytes: the first word and `n` bits. -/
def readChannel (base : List UInt8) (len n : ℕ) : List Bool :=
  bitsOf 32 (loadU32Be base (if len ≥ 4 then 4 else len)) ++
    readBits n (BitReader.start base len 4)

theorem BitReader.At.readBits {base : List UInt8} {len : ℕ} (n : ℕ) {r : BitReader} {i : ℕ}
    (h : r.At base len i) :
    readBits n r = (List.range n).map fun k => channelStream base len (32 + i + k) := by
  induction n generalizing r i with
  | zero => rfl
  | succ n ih =>
      obtain ⟨hbit, hnext⟩ := h.nextBit
      rw [CacheGen.readBits, hbit, ih hnext, List.range_succ_eq_map, List.map_cons, List.map_map]
      refine congrArg₂ List.cons rfl (List.map_congr_left fun k _ => ?_)
      show channelStream base len (32 + (i + 1) + k) = channelStream base len (32 + i + (k + 1))
      congr 1
      omega

/-- A decoder reads the stream of its channel from the first bit on. -/
theorem readChannel_eq (base : List UInt8) (len n : ℕ) :
    readChannel base len n = (List.range (32 + n)).map (channelStream base len) := by
  rw [readChannel, loadU32Be_eq, bitsOf_streamVal, (BitReader.start_at base len).readBits n,
    List.range_add, List.map_append, List.map_map]
  rfl

end MzCache.CacheGen
