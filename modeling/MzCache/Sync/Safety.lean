import MzCache.Sync.CycleWork

/-!
# What a cycle guarantees

The invariant holds in every state of every schedule, so a layer whose promise is set is
restored. What is left to the variant is whether the decode can look at `layer_sync` before it
is rebuilt.
-/

namespace MzCache.Sync

open MzCache MzCache.Lib

/-- What is in memory when a cycle starts. -/
def presentAt (c : Core) : Key → Prop
  | .kv e => c.kv.states e.1 e.2 = .raw
  | .weight l => c.weightLoaded l = true

/-- Every chunk of layer `i` is raw and its weights are loaded. -/
def Restored (c : Core) (s : Sys) (i : ℕ) : Prop :=
  (∀ j < c.kv.numChunksPerTensor, s.states (i, j) = .raw) ∧ s.weightLoaded i = true

/-- Nothing of layer `i` was evicted when the cycle started. -/
def Untouched (c : Core) (i : ℕ) : Prop :=
  (∀ j < c.kv.numChunksPerTensor, c.kv.states i j = .raw) ∧ c.weightLoaded i = true

section

variable {cfg : Config} {workers : CoreType → ℕ} {v : Variant} {w : Work} {c : Core} {s : Sys}

theorem CycleStart.present_iff (h : CycleStart v w c s) (k : Key) :
    s.Present k ↔ presentAt c k := by
  cases k <;> simp [Sys.Present, presentAt, h.states, h.weightLoaded]

/-- The invariant holds in every state of every schedule. -/
theorem cycle_inv (hok : CoreOk cfg c) (hw : WorkOf cfg c w)
    (hs : (cycle cfg workers v w c).Reachable s) : Inv w (presentAt c) s := by
  refine TSys.invariant_of_step ?_ ?_ s hs
  · intro s0 h0
    have hinv := CycleStart.inv h0 (hw.ok hok)
    rwa [show s0.Present = presentAt c from funext fun k => propext (h0.present_iff k)] at hinv
  · rintro s1 s2 h1 ⟨a, ha⟩
    rw [← hw.length_totals] at ha
    exact h1.act ha

/-! ## Restored layers -/

/-- A task that has yet to do its work is counted. -/
theorem Sys.Early.liveCount_pos {r : Restore} (h : s.Early r) : 0 < s.liveCount r.layer := by
  have hin : ∀ l : List Task, .restore r ∈ l → 0 < countIn l r.layer := fun l hl =>
    List.countP_pos_iff.mpr ⟨_, hl, by simp [Task.layer]⟩
  unfold Sys.liveCount
  rcases h with hm | ⟨g, hg⟩ | ⟨pc, hm, hpc⟩
  · have : 0 < progCount s.prog r.layer := hin _ (List.mem_filterMap.mpr ⟨_, hm, rfl⟩)
    omega
  · have : 0 < queueCount s.queue r.layer := by
      have := hin _ hg
      unfold queueCount
      cases g <;> omega
    omega
  · have : 0 < runCount s.running r.layer :=
      List.countP_pos_iff.mpr ⟨_, hm, by simp [Task.layer, hpc.2]⟩
    omega

/-- The evicted parts of layer `i` are items of the cycle. -/
theorem WorkOf.item_or_present (hw : WorkOf cfg c w) (hok : CoreOk cfg c) {i : ℕ}
    (hi : i < cfg.numLayers) :
    (∀ j < c.kv.numChunksPerTensor, presentAt c (.kv (i, j)) ∨
        ∃ r ∈ w.items, r.key = .kv (i, j) ∧ r.layer = i) ∧
      (presentAt c (.weight i) ∨ ∃ r ∈ w.items, r.key = .weight i ∧ r.layer = i) := by
  refine ⟨fun j hj => ?_, ?_⟩
  · cases hst : c.kv.states i j with
    | raw => exact Or.inl hst
    | compressed =>
        have hmem := (hok.ladder.compressed_iff (i, j)).mpr ⟨hi, hj, hst⟩
        exact Or.inr ⟨.kvDecomp (i, j), mem_items.mpr
          (Or.inr (Or.inl ⟨_, hw.decomp ▸ hmem, rfl⟩)), rfl, rfl⟩
    | stored =>
        have hmem := (hok.ladder.stored_iff (i, j)).mpr ⟨hi, hj, hst⟩
        exact Or.inr ⟨.kvRead (i, j), mem_items.mpr
          (Or.inl ⟨_, hw.read ▸ hmem, rfl⟩), rfl, rfl⟩
  · cases hwl : c.weightLoaded i with
    | true => exact Or.inl hwl
    | false =>
        have hlt : c.curLayerIdxToUnload < (i : ℤ) := by
          by_contra hle
          have := (hok.weights i hi).mpr (by omega)
          simp [hwl] at this
        refine Or.inr ⟨.weightRead i, mem_items.mpr (Or.inr (Or.inr ⟨i, ?_, rfl⟩)), rfl, rfl⟩
        rw [hw.weights]
        exact List.mem_filter.mpr ⟨List.mem_range.mpr hi, by simpa using hlt⟩

/-- A counter of zero means that everything of the layer is back. -/
theorem restored_of_liveCount (hok : CoreOk cfg c) (hw : WorkOf cfg c w)
    (h : Inv w (presentAt c) s) {i : ℕ} (hi : i < cfg.numLayers) (hlive : s.liveCount i = 0) :
    Restored c s i := by
  have hback : ∀ r ∈ w.items, r.layer = i → s.Present r.key := by
    intro r hr hri
    refine (h.restored r hr).resolve_right fun he => ?_
    have := he.liveCount_pos
    rw [hri] at this
    omega
  obtain ⟨hkv, hweight⟩ := hw.item_or_present hok hi
  refine ⟨fun j hj => ?_, ?_⟩
  · rcases hkv j hj with hp | ⟨r, hr, hk, hri⟩
    · exact h.kept _ hp
    · have hb := hback r hr hri
      rw [hk] at hb
      exact hb
  · rcases hweight with hp | ⟨r, hr, hk, hri⟩
    · exact h.kept _ hp
    · have hb := hback r hr hri
      rw [hk] at hb
      exact hb

/-- A set promise of this cycle means that the layer is restored. -/
theorem restored_of_sets (hok : CoreOk cfg c) (hw : WorkOf cfg c w) (h : Inv w (presentAt c) s)
    (hclear : .clearSync ∉ s.prog) {i : ℕ} {y : LayerSync} (hy : s.layerSync[i]? = some y)
    (hsets : 0 < y.sets) : Restored c s i := by
  have hsync := h.synced hclear
  obtain ⟨hrem, hset⟩ := hsync.entry i y hy
  have hi : i < cfg.numLayers := by
    have := (List.getElem?_eq_some_iff.mp hy).1
    have := hsync.le
    rw [hw.length_totals] at this
    omega
  refine restored_of_liveCount hok hw h hi ?_
  by_cases hzero : y.remaining = 0
  · omega
  · rw [if_neg hzero] at hset
    omega

/-- Before the tables are rebuilt nothing has come back. -/
theorem not_restored_of_rebuilding (h : Inv w (presentAt c) s) (hre : s.Rebuilding) {i : ℕ}
    (hr : Restored c s i) : Untouched c i := by
  obtain ⟨-, -, hpres, -⟩ := h.quiet hre
  exact ⟨fun j hj => (hpres (.kv (i, j))).mp (hr.1 j hj), (hpres (.weight i)).mp hr.2⟩

/-- What was in memory stays there. -/
theorem Untouched.restored (h : Inv w (presentAt c) s) {i : ℕ} (hu : Untouched c i) :
    Restored c s i :=
  ⟨fun j hj => h.kept (.kv (i, j)) (hu.1 j hj), h.kept (.weight i) hu.2⟩

/-! ## Counters, promises and look-ups -/

/-- What holds of the counters, the promises and the look-ups in one state of a cycle. The
entries of `layer_sync` are those of this cycle once `clearSync` has run. -/
structure LayerSyncSafe (c : Core) (s : Sys) : Prop where
  nonneg : .clearSync ∉ s.prog → ∀ y ∈ s.layerSync, 0 ≤ y.remaining
  once : .clearSync ∉ s.prog → ∀ y ∈ s.layerSync, y.sets ≤ 1
  after : .clearSync ∉ s.prog → ∀ (i : ℕ) (y : LayerSync), s.layerSync[i]? = some y →
    0 < y.sets → Restored c s i
  ready : .clearSync ∉ s.prog → ∀ (i : ℕ) (y : LayerSync), s.layerSync[i]? = some y →
    Untouched c i → y.sets = 1
  lookups : s.aborted = false ∧ ∀ r, (.restore r, .lookup) ∈ s.running →
    (s.allocDone r.key).isSome ∧ .clearAllocs ∉ s.prog

/-- A layer of which nothing was evicted has no tasks. -/
theorem Untouched.no_item {i : ℕ} (hu : Untouched c i) (hok : CoreOk cfg c)
    (hw : WorkOf cfg c w) {r : Restore} (hr : r ∈ w.items) : r.layer ≠ i := by
  rintro rfl
  rcases mem_items.mp hr with ⟨e, he, rfl⟩ | ⟨e, he, rfl⟩ | ⟨l, hl, rfl⟩
  · obtain ⟨-, hj, hst⟩ := (hok.ladder.stored_iff e).mp (hw.read ▸ he)
    have := hu.1 e.2 hj
    simp only [Restore.layer] at this
    rw [hst] at this
    cases this
  · obtain ⟨-, hj, hst⟩ := (hok.ladder.compressed_iff e).mp (hw.decomp ▸ he)
    have := hu.1 e.2 hj
    simp only [Restore.layer] at this
    rw [hst] at this
    cases this
  · rw [hw.weights, List.mem_filter, List.mem_range] at hl
    have := (hok.weights l hl.1).mp hu.2
    simp only [decide_eq_true_eq] at hl
    omega

/-- Counted tasks are items of the cycle. -/
theorem Inv.item_of_count {present : Key → Prop} (h : Inv w present s) {i : ℕ}
    (hno : ∀ r ∈ w.items, r.layer ≠ i) : s.liveCount i = 0 ∧ setCount s.running i = 0 := by
  have hprog : progCount s.prog i = 0 := by
    rw [progCount_eq, List.countP_eq_zero]
    intro r hr
    simpa using hno r (h.items r (mem_restore.mp hr))
  have htask : ∀ t : Task, (∀ r, t = .restore r → r ∈ w.items) → t.layer ≠ some i := by
    intro t ht hl
    cases t with
    | alloc k => cases hl
    | restore r => exact hno r (ht r rfl) (Option.some.inj hl)
  have hqueue : ∀ g, countIn (s.queue g) i = 0 := by
    intro g
    refine List.countP_eq_zero.mpr fun t ht => ?_
    simpa using htask t fun r hr => (h.issued r (Or.inl ⟨g, hr ▸ ht⟩)).1
  have hrun : ∀ x ∈ s.running, x.1.layer ≠ some i := fun x hx =>
    htask x.1 fun r hr => (h.issued r (Or.inr ⟨x.2, by rw [← hr]; exact hx⟩)).1
  refine ⟨?_, List.countP_eq_zero.mpr fun x hx => by simp [hrun x hx]⟩
  have hrunning : runCount s.running i = 0 :=
    List.countP_eq_zero.mpr fun x hx => by simp [hrun x hx]
  simp [Sys.liveCount, hprog, hrunning, queueCount, hqueue]

theorem layerSyncSafe_of_inv (hok : CoreOk cfg c) (hw : WorkOf cfg c w)
    (h : Inv w (presentAt c) s) : LayerSyncSafe c s := by
  have hentry : .clearSync ∉ s.prog → ∀ y ∈ s.layerSync, 0 ≤ y.remaining ∧ y.sets ≤ 1 := by
    intro hclear y hy
    obtain ⟨i, hi⟩ := List.mem_iff_getElem?.mp hy
    obtain ⟨hrem, hset⟩ := (h.synced hclear).entry i y hi
    refine ⟨by omega, ?_⟩
    split at hset <;> omega
  refine ⟨fun hc y hy => (hentry hc y hy).1, fun hc y hy => (hentry hc y hy).2, ?_, ?_, h.safe, ?_⟩
  · exact fun hclear i y hy hsets => restored_of_sets hok hw h hclear hy hsets
  · intro hclear i y hy hu
    obtain ⟨hrem, hset⟩ := (h.synced hclear).entry i y hy
    obtain ⟨hlive, hnone⟩ := h.item_of_count fun r => hu.no_item hok hw
    rw [if_pos (by omega), hnone] at hset
    exact hset
  · intro r hr
    obtain ⟨hitem, hdone⟩ := h.issued r (Or.inr ⟨_, hr⟩)
    exact (h.registered r hitem).resolve_left hdone

/-! ## What a step changes -/

/-- What one step of the main thread changes. -/
structure MainStep (x : Instr) (s s' : Sys) : Prop where
  prog : s.prog = x :: s'.prog
  running : s'.running = s.running
  queue : s'.queue = match x with
    | .enqueue t => Function.update s.queue t.group (s.queue t.group ++ [t])
    | _ => s.queue
  allocDone : s'.allocDone = match x with
    | .clearAllocs => fun _ => none
    | .register k => Function.update s.allocDone k (some false)
    | _ => s.allocDone
  decode : s'.decode = if x = .startDecode then .building else s.decode
  graph : s'.graphSignaled = if x = .resetGraph then false else s.graphSignaled

theorem mainStep_spec {s' : Sys} (hs : mainStep s = some s') : ∃ x, MainStep x s s' := by
  unfold mainStep at hs
  cases hp : s.prog with
  | nil => simp [hp] at hs
  | cons x p =>
      refine ⟨x, ?_⟩
      simp only [hp] at hs
      cases x <;> simp only at hs
      case waitAlloc k =>
        split at hs
        · obtain rfl := Option.some.inj hs
          exact ⟨hp, rfl, rfl, rfl, by simp, by simp⟩
        · split at hs
          · obtain rfl := Option.some.inj hs
            exact ⟨hp, rfl, rfl, rfl, by simp, by simp⟩
          · cases hs
      case waitGraph | joinDecode | waitLayer | waitIdle =>
        split at hs
        · obtain rfl := Option.some.inj hs
          exact ⟨hp, rfl, rfl, rfl, by simp, by simp⟩
        · cases hs
      all_goals
        obtain rfl := Option.some.inj hs
        exact ⟨hp, rfl, rfl, rfl, by simp, by simp⟩

/-- How far a running task is from its end. -/
def Pc.weight : Pc → ℕ
  | .lookup => 6
  | .await => 5
  | .work => 4
  | .taskDone => 3
  | .setValue => 2

/-- What one micro-step of the running task `x` at position `k` changes: it goes on as
`new`, or the process aborts. -/
structure TaskStep (k : ℕ) (x : Task × Pc) (new : List (Task × Pc)) (s s' : Sys) : Prop where
  task : s.running[k]? = some x
  same : ∀ y ∈ new, y.1 = x.1
  lighter : (new.map fun y => y.2.weight).sum < x.2.weight
  running : s'.aborted = false → s'.running = (s.advance k new).running
  prog : s'.prog = s.prog
  queue : s'.queue = s.queue
  allocDone : s'.allocDone = match x.1 with
    | .alloc key => Function.update s.allocDone key ((s.allocDone key).map fun _ => true)
    | .restore _ => s.allocDone
  decode : s'.decode = s.decode
  graph : s'.graphSignaled = s.graphSignaled

theorem taskStep_spec {n k : ℕ} {s' : Sys} (hs : taskStep n k s = some s') :
    ∃ x new, TaskStep k x new s s' := by
  unfold taskStep at hs
  cases hx : s.running[k]? with
  | none => simp [hx] at hs
  | some x =>
      obtain ⟨t, pc⟩ := x
      cases t with
      | alloc key =>
          simp only [hx] at hs
          obtain rfl := Option.some.inj hs
          exact ⟨_, [], hx, by simp, by cases pc <;> simp [Pc.weight], fun _ => rfl, rfl, rfl, rfl,
            rfl, rfl⟩
      | restore r =>
          cases pc with
          | lookup =>
              cases hk : s.allocDone r.key with
              | none =>
                  simp only [hx, hk] at hs
                  obtain rfl := Option.some.inj hs
                  exact ⟨_, [], hx, by simp, by simp [Pc.weight], fun h => by simp at h, rfl, rfl,
                    rfl, rfl, rfl⟩
              | some b =>
                  simp only [hx, hk] at hs
                  obtain rfl := Option.some.inj hs
                  exact ⟨_, [(.restore r, .await)], hx, by simp, by simp [Pc.weight],
                    fun _ => rfl, rfl, rfl, rfl, rfl, rfl⟩
          | await =>
              simp only [hx] at hs
              split at hs
              · obtain rfl := Option.some.inj hs
                exact ⟨_, [(.restore r, .work)], hx, by simp, by simp [Pc.weight], fun _ => rfl,
                  rfl, rfl, rfl, rfl, rfl⟩
              · cases hs
          | work =>
              simp only [hx] at hs
              obtain rfl := Option.some.inj hs
              refine ⟨_, [(.restore r, .taskDone)], hx, by simp, by simp [Pc.weight], fun _ => ?_,
                ?_, ?_, ?_, ?_, ?_⟩ <;> cases r <;> rfl
          | taskDone =>
              simp only [hx] at hs
              obtain rfl := Option.some.inj hs
              unfold Sys.countDown
              split
              · dsimp only
                split
                · exact ⟨_, [(.restore r, .setValue)], hx, by simp, by simp [Pc.weight],
                    fun _ => rfl, rfl, rfl, rfl, rfl, rfl⟩
                · exact ⟨_, [], hx, by simp, by simp [Pc.weight], fun _ => rfl, rfl, rfl, rfl, rfl, rfl⟩
              · exact ⟨_, [], hx, by simp, by simp [Pc.weight], fun _ => rfl, rfl, rfl, rfl, rfl, rfl⟩
          | setValue =>
              simp only [hx] at hs
              obtain rfl := Option.some.inj hs
              exact ⟨_, [], hx, by simp, by simp [Pc.weight], fun _ => rfl, rfl, rfl, rfl, rfl, rfl⟩

/-! ## When the decode runs -/

/-- The decode is started after the tables are rebuilt. -/
structure Guarded (s : Sys) : Prop where
  order : s.prog.Pairwise fun x y => x = .startDecode → y.isInit = false
  started : s.decode = .idle ∨ ¬ s.Rebuilding

theorem act_spec {n : ℕ} {a : Action} {s' : Sys} (hs : act n workers a s = some s') :
    s.aborted = false ∧
      ((∃ x, MainStep x s s') ∨ (∃ g, startTask workers g s = some s') ∨
        (∃ k x new, TaskStep k x new s s') ∨
        (s.decode = .building ∧ s' = { s with decode := .computing, graphSignaled := true }) ∨
        s.decode = .computing ∧ s' = { s with decode := .done }) := by
  have hab : s.aborted = false := by
    by_contra h
    simp [act, h] at hs
  refine ⟨hab, ?_⟩
  rw [act.eq_def, if_neg (by simp [hab])] at hs
  cases a with
  | main => exact Or.inl (mainStep_spec hs)
  | start g => exact Or.inr (Or.inl ⟨g, hs⟩)
  | task k => exact Or.inr (Or.inr (Or.inl ⟨k, taskStep_spec hs⟩))
  | signal =>
      simp only at hs
      split at hs
      · rename_i hd
        exact Or.inr (Or.inr (Or.inr (Or.inl ⟨hd, (Option.some.inj hs).symm⟩)))
      · cases hs
  | finish =>
      simp only at hs
      split at hs
      · rename_i hd
        exact Or.inr (Or.inr (Or.inr (Or.inr ⟨hd, (Option.some.inj hs).symm⟩)))
      · cases hs

/-- What taking a task changes. -/
theorem startTask_spec {g : CoreType} {s' : Sys} (hs : startTask workers g s = some s') :
    ∃ t rest, s.queue g = t :: rest ∧ s' = { s with
      queue := Function.update s.queue g rest
      running := s.running ++ [(t, t.start)] } := by
  unfold startTask at hs
  cases hq : s.queue g with
  | nil => simp [hq] at hs
  | cons t rest =>
      simp only [hq] at hs
      split at hs
      · exact ⟨t, rest, rfl, (Option.some.inj hs).symm⟩
      · cases hs

theorem Guarded.act {n : ℕ} {a : Action} {s' : Sys} (h : Guarded s)
    (hs : MzCache.Sync.act n workers a s = some s') : Guarded s' := by
  obtain ⟨-, ⟨x, hm⟩ | ⟨g, hg⟩ | ⟨k, x, new, ht⟩ | ⟨hd, rfl⟩ | ⟨hd, rfl⟩⟩ := act_spec hs
  · have horder := h.order
    rw [hm.prog, List.pairwise_cons] at horder
    refine ⟨horder.2, ?_⟩
    rw [hm.decode]
    split
    · rename_i hx
      refine Or.inr ?_
      rintro ⟨y, hy, hinit⟩
      simp [horder.1 y hy hx] at hinit
    · refine h.started.imp id fun hre => ?_
      rintro ⟨y, hy, hinit⟩
      exact hre ⟨y, by rw [hm.prog]; exact List.mem_cons_of_mem _ hy, hinit⟩
  · obtain ⟨t, rest, -, rfl⟩ := startTask_spec hg
    exact ⟨h.order, h.started⟩
  · refine ⟨ht.prog ▸ h.order, ?_⟩
    rw [ht.decode, Sys.Rebuilding, ht.prog]
    exact h.started
  · exact ⟨h.order, Or.inr (h.started.resolve_left (by simp [hd]))⟩
  · exact ⟨h.order, Or.inr (h.started.resolve_left (by simp [hd]))⟩

/-- All variants but one start the decode after `initialize_layer_sync`. -/
theorem cycle_guarded (hok : CoreOk cfg c) (hw : WorkOf cfg c w) (hv : v ≠ .noAllocOverlap)
    (hs : (cycle cfg workers v w c).Reachable s) : Guarded s := by
  refine TSys.invariant_of_step ?_ ?_ s hs
  · intro s0 h0
    obtain ⟨b, hprog, hb⟩ := program_shape (hw.ok hok) v
    refine ⟨?_, Or.inl h0.decode⟩
    have hpre : .startDecode ∉ v.prelude := by cases v <;> simp_all [Variant.prelude]
    have hinit : ∀ x ∈ w.initializeLayerSync, x ≠ .startDecode := by
      rintro x hx rfl
      simpa [Instr.isInit] using initializeLayerSync_mem hx
    rw [h0.prog, hprog, List.pairwise_append, List.pairwise_append]
    have hnone : ∀ l : List Instr, (∀ x ∈ l, x ≠ .startDecode) →
        l.Pairwise fun x y => x = .startDecode → y.isInit = false := fun l hl =>
      List.pairwise_of_forall_mem_list fun x hx _ _ h => absurd h (hl x hx)
    have hlate : b.Pairwise fun x y => x = .startDecode → y.isInit = false :=
      List.pairwise_of_forall_mem_list fun _ _ y hy _ => hb.noInit y hy
    exact ⟨hnone _ fun x hx h => hpre (h ▸ hx), ⟨hnone _ hinit, hlate, fun x _ y hy _ =>
      hb.noInit y hy⟩, fun x hx y _ h => absurd hx (h ▸ hpre)⟩
  · rintro s1 s2 h1 ⟨a, ha⟩
    exact h1.act ha

/-- Outside the variant that starts the decode first, a passed layer is restored. -/
theorem restored_of_passes (hok : CoreOk cfg c) (hw : WorkOf cfg c w) (hv : v ≠ .noAllocOverlap)
    (hs : (cycle cfg workers v w c).Reachable s) (hd : s.decode = .computing) {i : ℕ}
    (hi : i < cfg.numLayers) (hp : s.passes i = true) : Restored c s i := by
  have hinv := cycle_inv hok hw hs
  have hre := (cycle_guarded hok hw hv hs).started.resolve_left (by simp [hd])
  have hlen := hinv.full hre
  rw [hw.length_totals] at hlen
  have hy := List.getElem?_eq_getElem (l := s.layerSync) (i := i) (by omega)
  rw [Sys.passes, hy] at hp
  exact restored_of_sets hok hw hinv (Inv.clearSync_done hre) hy (of_decide_eq_true hp)

/-- A first cycle that starts the decode before `initialize_layer_sync`: the decode computes
while `layer_sync` is still empty. -/
theorem noAllocOverlap_computes (cfg : Config) (workers : CoreType → ℕ) (w : Work) (c : Core) :
    ∃ s, (cycle cfg workers .noAllocOverlap w c).Reachable s ∧ s.decode = .computing ∧
      (∀ i, s.passes i = true) ∧ (s.states = fun e => c.kv.states e.1 e.2) ∧
      s.weightLoaded = c.weightLoaded := by
  let s0 : Sys :=
    { prog := w.program .noAllocOverlap
      queue := fun _ => []
      running := []
      allocDone := fun _ => none
      layerSync := []
      states := fun e => c.kv.states e.1 e.2
      weightLoaded := c.weightLoaded
      graphSignaled := false
      decode := .idle
      aborted := false }
  have h0 : (cycle cfg workers .noAllocOverlap w c).Reachable s0 :=
    .start ⟨rfl, rfl, rfl, rfl, rfl, rfl, rfl⟩
  -- the main thread resets the graph and starts the decode, which allocates its graph
  have h1 := h0.next ⟨.main, rfl⟩
  have h2 := h1.next ⟨.main, rfl⟩
  have h3 := h2.next ⟨.signal, rfl⟩
  exact ⟨_, h3, rfl, fun _ => rfl, rfl, rfl⟩

end

end MzCache.Sync
