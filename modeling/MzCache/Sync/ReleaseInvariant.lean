import MzCache.Sync.ReleaseCount

/-!
# The invariant of the releases

A layer's countdown is the number of its `DECOMP` tasks that have not counted down, and its
arenas are on their way to the `FREE` group, or gone, exactly when the countdown has reached zero.
-/

namespace MzCache.Sync

open MzCache MzCache.Lib

/-- `DECOMP` tasks of layer `i` that have not counted down. -/
def Release.pending (r : Release) (i : ℕ) : ℕ :=
  r.sys.decompCount i + r.counting.countP fun c => c.1 = i

/-- The countdown of layer `i` agrees with its tasks and with its releases. -/
structure Countdown (seed : ℕ → ℤ) (r : Release) (i : ℕ) : Prop where
  left : r.compLeft i = r.pending i
  le : r.compLeft i ≤ seed i
  released : r.releases.count i = if r.compLeft i = 0 ∧ 0 < seed i then 1 else 0

/-- The invariant of a cycle with its releases. -/
structure ReleaseInv (v : Variant) (w : Work) (present : Key → Prop) (seed : ℕ → ℤ)
    (arenas₀ : ℕ → List Arena) (r : Release) : Prop where
  base : Inv w present r.sys
  groups : ∀ g, ∀ t ∈ r.sys.queue g, t.group = g
  suffix : r.sys.prog <:+ w.program v
  /-- A group that is no longer waited for is idle. -/
  settled : ∀ g, .waitIdle g ∉ r.sys.prog → r.sys.queue g = [] ∧ r.sys.runningIn g = 0
  quiet : r.sys.Rebuilding → r.counting = [] ∧ r.releases = [] ∧
    ∀ i < w.totals.length, (r.sys.decompCount i : ℤ) = seed i
  counted : .clearSync ∉ r.sys.prog → ∀ i < r.sys.layerSync.length, Countdown seed r i
  waiting : ∀ c, c ∈ r.counting ∨ c ∈ r.handing →
    (.restore (.kvDecomp c), .taskDone) ∈ r.sys.running
  rows : ∀ i ∈ r.releases, i < w.totals.length
  arenas : ∀ i, r.arenas i = if i ∈ r.freed then [] else arenas₀ i
  cleaned : r.cleaning = true → r.sys.prog = [] ∧ r.freeQueue = [] ∧ r.freeRunning = []

section

variable {workers : CoreType → ℕ} {freeWorkers : ℕ} {v : Variant} {w : Work}
  {present : Key → Prop} {seed : ℕ → ℤ} {arenas₀ : ℕ → List Arena} {r r' : Release}
  {s s' : Sys}

/-! ## What else the protocol's steps change -/

theorem mainStep_layerSync (hs : mainStep s = some s') : ∃ x, s.prog = x :: s'.prog ∧
    (s'.layerSync = match x with
      | .clearSync => []
      | .pushSync n => s.layerSync ++ [.new n]
      | _ => s.layerSync) ∧
    ∀ g, x = .waitIdle g → s.queue g = [] ∧ s.runningIn g = 0 := by
  unfold mainStep at hs
  cases hp : s.prog with
  | nil => simp [hp] at hs
  | cons x p =>
      refine ⟨x, ?_⟩
      simp only [hp] at hs
      cases x <;> simp only at hs
      case waitAlloc k =>
        split at hs
        · obtain rfl := Option.some.inj hs
          exact ⟨rfl, rfl, by simp⟩
        · split at hs
          · obtain rfl := Option.some.inj hs
            exact ⟨rfl, rfl, by simp⟩
          · cases hs
      case waitIdle g =>
        split at hs
        · next hidle =>
            obtain rfl := Option.some.inj hs
            refine ⟨rfl, rfl, ?_⟩
            rintro g' h
            obtain rfl := Instr.waitIdle.inj h
            exact hidle
        · cases hs
      case waitGraph | joinDecode | waitLayer =>
        split at hs
        · obtain rfl := Option.some.inj hs
          exact ⟨rfl, rfl, by simp⟩
        · cases hs
      all_goals
        obtain rfl := Option.some.inj hs
        exact ⟨rfl, rfl, by simp⟩

theorem taskStep_length {n k : ℕ} (hs : taskStep n k s = some s') :
    s'.layerSync.length = s.layerSync.length := by
  unfold taskStep at hs
  split at hs
  · cases hs
  · cases hs
    rfl
  · split at hs <;> cases hs <;> rfl
  · split at hs <;> cases hs
    rfl
  · next r _ =>
      cases hs
      cases r <;> rfl
  · next r _ =>
      cases hs
      exact (countDown_keeps s n k r).2.2.2.1
  · cases hs
    exact List.length_modify _ _ _

/-- An idle group stays idle while no task is taken from its queue. -/
theorem TaskStep.idle {k : ℕ} {x : Task × Pc} {new : List (Task × Pc)}
    (h : TaskStep k x new s s') (hsafe : s'.aborted = false) {g : CoreType}
    (hidle : s.runningIn g = 0) : s'.runningIn g = 0 := by
  have hold := List.countP_eq_zero.mp hidle
  refine List.countP_eq_zero.mpr fun y hy => ?_
  rw [h.running hsafe] at hy
  rcases (mem_running_advance h.task).1 hy with hm | hm
  · exact hold y hm
  · have hx := hold x (List.mem_of_getElem? h.task)
    rwa [← h.same y hm] at hx

/-- The tail of every program: what `wait_idle_all` waits for, group by group. -/
def idleWaits : List Instr := [.waitIdle .alloc, .waitIdle .read, .waitIdle .decomp]

theorem idleWaits_suffix (w : Work) (v : Variant) : idleWaits <:+ w.program v := by
  have hfin : idleWaits <:+ w.finishSwapinCycle := ⟨w.waitLayers, rfl⟩
  cases v with
  | generate => exact hfin.trans (List.suffix_append _ _)
  | noPrefillOverlap => exact hfin.trans (List.suffix_append _ _)
  | noAllocOverlap => exact hfin.trans (List.suffix_append _ _)
  | noOverlap => exact hfin.trans (List.suffix_append _ _)

theorem mem_idleWaits (g : CoreType) : .waitIdle g ∈ idleWaits := by
  cases g <;> simp [idleWaits]

/-- Behind the wait for a group nothing is enqueued. -/
theorem not_enqueue_of_settled {p : List Instr} (hp : p <:+ w.program v) {g : CoreType}
    (hg : .waitIdle g ∉ p) (t : Task) : .enqueue t ∉ p := by
  rcases List.suffix_or_suffix_of_suffix hp (idleWaits_suffix w v) with h | h
  · intro hm
    simpa [idleWaits] using h.subset hm
  · exact absurd (h.subset (mem_idleWaits g)) hg

theorem Work.Ok.layer_lt (hw : w.Ok) {x : Restore} (hx : x ∈ w.items) :
    x.layer < w.totals.length := by
  by_contra hge
  have hcount := hw.count x.layer
  rw [List.getD_eq_default _ _ (by omega)] at hcount
  have : 0 < w.items.countP fun y => decide (y.layer = x.layer) :=
    List.countP_pos_iff.mpr ⟨x, hx, by simp⟩
  omega

/-! ## Beside the protocol -/

theorem Release.beside_releases (seed : ℕ → ℤ) (r : Release) (a : Action) :
    (r.beside seed a).releases = r.releases ∧ (r.beside seed a).handing = r.handing ∧
      (r.beside seed a).freeQueue = r.freeQueue ∧
      (r.beside seed a).freeRunning = r.freeRunning ∧ (r.beside seed a).freed = r.freed ∧
      (r.beside seed a).arenas = r.arenas ∧ (r.beside seed a).cleaning = r.cleaning := by
  unfold Release.beside
  split
  · split <;> exact ⟨rfl, rfl, rfl, rfl, rfl, rfl, rfl⟩
  · exact ⟨rfl, rfl, rfl, rfl, rfl, rfl, rfl⟩
  · exact ⟨rfl, rfl, rfl, rfl, rfl, rfl, rfl⟩

theorem Release.beside_main (seed : ℕ → ℤ) (r : Release) {x : Instr} {p : List Instr}
    (hp : r.sys.prog = x :: p) :
    (r.beside seed .main).counting = r.counting ∧
      ∀ i, (∀ n, x = .pushSync n → i ≠ r.sys.layerSync.length) →
        (r.beside seed .main).compLeft i = r.compLeft i := by
  unfold Release.beside
  simp only [hp]
  cases x with
  | pushSync n => exact ⟨rfl, fun i hi => Function.update_of_ne (hi n rfl) _ _⟩
  | _ => exact ⟨rfl, fun _ _ => rfl⟩

theorem Release.beside_push (seed : ℕ → ℤ) (r : Release) {n : ℤ} {p : List Instr}
    (hp : r.sys.prog = .pushSync n :: p) :
    (r.beside seed .main).compLeft r.sys.layerSync.length = seed r.sys.layerSync.length := by
  unfold Release.beside
  simp only [hp, Function.update_self]

theorem Countdown.congr {i : ℕ} (h : Countdown seed r i) (hleft : r'.compLeft i = r.compLeft i)
    (hpending : r'.pending i = r.pending i) (hreleases : r'.releases.count i = r.releases.count i) :
    Countdown seed r' i :=
  ⟨by rw [hleft, hpending, h.left], by rw [hleft]; exact h.le,
    by rw [hreleases, hleft, h.released]⟩

/-! ## Steps of the protocol -/

theorem ReleaseInv.main (h : ReleaseInv v w present seed arenas₀ r)
    (hs : mainStep r.sys = some s') :
    ReleaseInv v w present seed arenas₀ { r.beside seed .main with sys := s' } := by
  obtain ⟨hrel, hhand, hfq, hfr, hfreed, har, hclean⟩ := r.beside_releases seed .main
  obtain ⟨x, hm⟩ := mainStep_spec hs
  obtain ⟨x', hp', hsync, hwait⟩ := mainStep_layerSync hs
  obtain rfl : x' = x := by
    have := hm.prog
    rw [hp'] at this
    exact (List.cons.inj this).1
  obtain ⟨hcounting, hleft⟩ := r.beside_main seed hm.prog
  have hcount := hm.decompCount
  have hbase := h.base.mainStep hs
  have hmem : ∀ y ∈ s'.prog, y ∈ r.sys.prog := fun y hy => by
    rw [hm.prog]
    exact List.mem_cons_of_mem _ hy
  have hpending : ∀ i, ({ r.beside seed .main with sys := s' } : Release).pending i =
      r.pending i := fun i => by
    simp only [Release.pending, hcounting, hcount]
  constructor
  case base => exact hbase
  case groups =>
    intro g t ht
    replace ht : t ∈ s'.queue g := ht
    cases x' with
    | enqueue t' =>
        have hq : s'.queue = Function.update r.sys.queue t'.group (r.sys.queue t'.group ++ [t']) :=
          hm.queue
        rw [hq] at ht
        by_cases hg : g = t'.group
        · subst hg
          rw [Function.update_self, List.mem_append, List.mem_singleton] at ht
          rcases ht with ht | rfl
          · exact h.groups _ t ht
          · rfl
        · rw [Function.update_of_ne hg] at ht
          exact h.groups g t ht
    | _ =>
        have hq : s'.queue = r.sys.queue := hm.queue
        exact h.groups g t (hq ▸ ht)
  case suffix =>
    have hsuf := h.suffix
    rw [hm.prog] at hsuf
    exact (List.suffix_cons _ _).trans hsuf
  case settled =>
    intro g hg
    replace hg : .waitIdle g ∉ s'.prog := hg
    by_cases hx : x' = .waitIdle g
    · subst hx
      obtain ⟨hq, hr⟩ := hwait g rfl
      refine ⟨?_, ?_⟩
      · exact (congrFun hm.queue g).trans hq
      · show s'.runningIn g = 0
        rw [Sys.runningIn, hm.running]
        exact hr
    · have hold : .waitIdle g ∉ r.sys.prog := by
        rw [hm.prog]
        exact fun hmem => (List.mem_cons.mp hmem).elim (fun e => hx e.symm) hg
      obtain ⟨hq, hr⟩ := h.settled g hold
      refine ⟨?_, ?_⟩
      · cases x' with
        | enqueue t =>
            refine absurd ?_ (not_enqueue_of_settled h.suffix hold t)
            rw [hm.prog]
            exact List.mem_cons_self
        | _ => exact (congrFun hm.queue g).trans hq
      · show s'.runningIn g = 0
        rw [Sys.runningIn, hm.running]
        exact hr
  case quiet =>
    rintro ⟨y, hy, hinit⟩
    obtain ⟨h1, h2, h3⟩ := h.quiet ⟨y, hmem y hy, hinit⟩
    refine ⟨hcounting.trans h1, hrel.trans h2, fun i hi => ?_⟩
    rw [show ({ r.beside seed .main with sys := s' } : Release).sys.decompCount i = _ from hcount i]
    exact h3 i hi
  case counted =>
    intro hc i hi
    replace hc : .clearSync ∉ s'.prog := hc
    replace hi : i < s'.layerSync.length := hi
    rw [hsync] at hi
    by_cases hpush : ∃ n, x' = .pushSync n
    · obtain ⟨n, rfl⟩ := hpush
      have hrebuild : r.sys.Rebuilding := ⟨.pushSync n, by rw [hm.prog]; simp, rfl⟩
      obtain ⟨h1, h2, h3⟩ := h.quiet hrebuild
      have hold : .clearSync ∉ r.sys.prog := by
        rw [hm.prog]
        simpa using hc
      have hcl := h.counted hold
      rw [List.length_append, List.length_singleton] at hi
      by_cases hlast : i = r.sys.layerSync.length
      · subst hlast
        have hseed := r.beside_push seed hm.prog
        have hlt : r.sys.layerSync.length < w.totals.length := by
          have := (hbase.synced hc).le
          rw [hsync, List.length_append, List.length_singleton] at this
          omega
        refine ⟨?_, hseed.le, ?_⟩
        · rw [hpending]
          show (r.beside seed .main).compLeft _ = _
          rw [hseed, Release.pending, h1, ← h3 _ hlt]
          simp
        · show (r.beside seed .main).releases.count _ =
          if (r.beside seed .main).compLeft _ = 0 ∧ _ then _ else _
          rw [hrel, h2, hseed, if_neg (by omega)]
          rfl
      · exact (hcl i (by omega)).congr (hleft i fun _ _ => hlast) (hpending i)
          (congrArg (List.count i) hrel)
    · have hkeep : ∀ n, x' ≠ .pushSync n := fun n hn => hpush ⟨n, hn⟩
      have hne : x' ≠ .clearSync := by
        rintro rfl
        exact absurd hi (Nat.not_lt_zero _)
      have hold : .clearSync ∉ r.sys.prog := by
        rw [hm.prog]
        exact fun hmem => (List.mem_cons.mp hmem).elim (fun e => hne e.symm) hc
      have hi' : i < r.sys.layerSync.length := by
        cases x' with
        | clearSync => exact absurd rfl hne
        | pushSync n => exact absurd rfl (hkeep n)
        | _ => exact hi
      exact (h.counted hold i hi').congr (hleft i fun n hn => absurd hn (hkeep n)) (hpending i)
        (congrArg (List.count i) hrel)
  case waiting =>
    intro c hc
    show _ ∈ s'.running
    rw [hm.running]
    refine h.waiting c ?_
    rwa [show ({ r.beside seed .main with sys := s' } : Release).counting = r.counting from hcounting,
      show ({ r.beside seed .main with sys := s' } : Release).handing = r.handing from hhand] at hc
  case rows =>
    intro i hi
    exact h.rows i (hrel ▸ hi)
  case arenas =>
    intro i
    show (r.beside seed .main).arenas i = if i ∈ (r.beside seed .main).freed then _ else _
    rw [har, hfreed]
    exact h.arenas i
  case cleaned =>
    intro hcl
    replace hcl : (r.beside seed .main).cleaning = true := hcl
    rw [hclean] at hcl
    have := (h.cleaned hcl).1
    rw [hm.prog] at this
    cases this

/-- A step that runs, takes or ends tasks, or moves the decode: the program and the tables stay,
and a layer's pending tasks stay as many. -/
theorem ReleaseInv.pool (h : ReleaseInv v w present seed arenas₀ r) {a : Action}
    (hbase : Inv w present s') (hprog : s'.prog = r.sys.prog)
    (hlen : s'.layerSync.length = r.sys.layerSync.length)
    (hgroups : ∀ g, ∀ t ∈ s'.queue g, t ∈ r.sys.queue g)
    (hidle : ∀ g, r.sys.queue g = [] → r.sys.runningIn g = 0 → s'.runningIn g = 0)
    (hquiet : r.sys.Rebuilding → s'.queue = r.sys.queue ∧ s'.running = r.sys.running)
    (hleft : (r.beside seed a).compLeft = r.compLeft)
    (hpending : ∀ i, ({ r.beside seed a with sys := s' } : Release).pending i = r.pending i)
    (hrebuild : r.sys.Rebuilding → (r.beside seed a).counting = r.counting)
    (hwaiting : ∀ c, c ∈ (r.beside seed a).counting ∨ c ∈ r.handing →
      (.restore (.kvDecomp c), .taskDone) ∈ s'.running) :
    ReleaseInv v w present seed arenas₀ { r.beside seed a with sys := s' } := by
  obtain ⟨hrel, hhand, hfq, hfr, hfreed, har, hclean⟩ := r.beside_releases seed a
  have hre : s'.Rebuilding → r.sys.Rebuilding := fun ⟨y, hy, hyi⟩ => ⟨y, hprog ▸ hy, hyi⟩
  constructor
  case base => exact hbase
  case groups => exact fun g t ht => h.groups g t (hgroups g t ht)
  case suffix =>
    show s'.prog <:+ _
    rw [hprog]
    exact h.suffix
  case settled =>
    intro g hg
    replace hg : .waitIdle g ∉ s'.prog := hg
    obtain ⟨hq, hr⟩ := h.settled g (hprog ▸ hg)
    refine ⟨List.eq_nil_iff_forall_not_mem.mpr fun t ht => ?_, hidle g hq hr⟩
    have := hgroups g t ht
    rw [hq] at this
    exact List.not_mem_nil this
  case quiet =>
    intro hs'
    obtain ⟨h1, h2, h3⟩ := h.quiet (hre hs')
    obtain ⟨hq, hr⟩ := hquiet (hre hs')
    refine ⟨(hrebuild (hre hs')).trans h1, hrel.trans h2, fun i hi => ?_⟩
    show (s'.decompCount i : ℤ) = seed i
    rw [Sys.decompCount, hprog, hq, hr]
    exact h3 i hi
  case counted =>
    intro hc i hi
    refine (h.counted (hprog ▸ hc) i (hlen ▸ hi)).congr (congrFun hleft i) (hpending i) ?_
    exact congrArg (List.count i) hrel
  case waiting =>
    intro c hc
    exact hwaiting c (hc.imp_right fun hm => hhand ▸ hm)
  case rows => exact fun i hi => h.rows i (hrel ▸ hi)
  case arenas =>
    intro i
    show (r.beside seed a).arenas i = if i ∈ (r.beside seed a).freed then _ else _
    rw [har, hfreed]
    exact h.arenas i
  case cleaned =>
    intro hcl
    obtain ⟨h1, h2, h3⟩ := h.cleaned (hclean ▸ hcl)
    exact ⟨hprog.trans h1, hfq.trans h2, hfr.trans h3⟩

theorem ReleaseInv.start (h : ReleaseInv v w present seed arenas₀ r) {g : CoreType}
    (hs : startTask workers g r.sys = some s') :
    ReleaseInv v w present seed arenas₀ { r.beside seed (.start g) with sys := s' } := by
  have hcount := decompCount_startTask hs (h.groups g)
  have hbase := h.base.startTask hs
  obtain ⟨t, rest, hq, rfl⟩ := startTask_spec hs
  have htg : t.group = g := h.groups g t (by rw [hq]; exact List.mem_cons_self)
  have hnot : ¬ r.sys.Rebuilding := h.base.rebuilt (.inr ⟨g, by simp [hq]⟩)
  refine h.pool hbase rfl rfl ?_ ?_ (fun hre => absurd hre hnot) rfl ?_ (fun _ => rfl) ?_
  · intro g' t' ht'
    by_cases hg : g' = g
    · subst hg
      simp only [Function.update_self] at ht'
      rw [hq]
      exact List.mem_cons_of_mem _ ht'
    · simpa only [Function.update_of_ne hg] using ht'
  · intro g' hq' hr'
    have hne : t.group ≠ g' := by
      rintro rfl
      rw [htg, hq] at hq'
      cases hq'
    simp only [Sys.runningIn, List.countP_append, List.countP_singleton] at hr' ⊢
    rw [hr', if_neg (by simpa using hne)]
  · intro i
    simp only [Release.pending, hcount]
    rfl
  · intro c hc
    exact List.mem_append_left _ (h.waiting c hc)

theorem ReleaseInv.task (h : ReleaseInv v w present seed arenas₀ r) {k : ℕ}
    (hs : taskStep w.totals.length k r.sys = some s') (hblocks : r.blocks (.task k) = false) :
    ReleaseInv v w present seed arenas₀ { r.beside seed (.task k) with sys := s' } := by
  have hbase := h.base.taskStep hs
  have hcount := decompCount_taskStep hs hbase.safe
  obtain ⟨x, new, ht⟩ := taskStep_spec hs
  have hnot : ¬ r.sys.Rebuilding :=
    h.base.rebuilt (.inl (List.ne_nil_of_mem (List.mem_of_getElem? ht.task)))
  refine h.pool hbase ht.prog (taskStep_length hs) (fun g t hm => ht.queue ▸ hm)
    (fun g _ hr => ht.idle hbase.safe hr) (fun hre => absurd hre hnot) rfl ?_
    (fun hre => absurd hre hnot) ?_
  · intro i
    have := hcount i
    show s'.decompCount i + (r.counting ++ (r.sys.decompresses k).toList).countP _ = r.pending i
    rw [Release.pending, List.countP_append]
    cases hd : r.sys.decompresses k with
    | none =>
        simp only [hd, Option.map_none, reduceCtorEq, if_false] at this
        simp only [Option.toList_none, List.countP_nil]
        omega
    | some c =>
        simp only [hd, Option.map_some, Option.some.injEq] at this
        simp only [Option.toList_some, List.countP_singleton, decide_eq_true_eq]
        omega
  · intro c hc
    rw [show (r.beside seed (.task k)).counting =
      r.counting ++ (r.sys.decompresses k).toList from rfl, List.mem_append, or_assoc] at hc
    have hkeep : c ∈ r.counting ∨ c ∈ r.handing →
        (.restore (.kvDecomp c), .taskDone) ∈ s'.running := by
      intro hm
      rw [ht.running hbase.safe]
      refine ((mem_running_advance ht.task).2 (h.waiting c hm)).resolve_left fun hx => ?_
      have htask := ht.task
      rw [← hx] at htask
      simp [Release.blocks, htask, hm] at hblocks
    rcases hc with hm | hm | hm
    · exact hkeep (.inl hm)
    · -- the task that has just decompressed
      have hd : r.sys.decompresses k = some c := by simpa using hm
      exact taskStep_decompresses hs hd
    · exact hkeep (.inr hm)

/-- Every step of the protocol keeps the invariant. -/
theorem ReleaseInv.sysStep (h : ReleaseInv v w present seed arenas₀ r) {a : Action}
    (hs : act w.totals.length workers a r.sys = some s') (hblocks : r.blocks a = false) :
    ReleaseInv v w present seed arenas₀ { r.beside seed a with sys := s' } := by
  have hbase := h.base.act hs
  have hact := hs
  rw [act.eq_def, if_neg (by simp [h.base.safe])] at hs
  cases a with
  | main => exact h.main hs
  | start g => exact h.start hs
  | task k => exact h.task hs hblocks
  | signal | finish =>
      simp only at hs
      split at hs
      · obtain rfl := Option.some.inj hs
        exact h.pool hbase rfl rfl (fun _ _ hm => hm) (fun _ _ hr => hr) (fun _ => ⟨rfl, rfl⟩) rfl
          (fun _ => rfl) (fun _ => rfl) h.waiting
      · cases hs

/-! ## Steps of the release -/

/-- Taking an entry out of a list. -/
theorem eraseIdx_perm {α : Type*} {l : List α} {k : ℕ} {x : α} (h : l[k]? = some x) :
    l.Perm (x :: l.eraseIdx k) := by
  obtain ⟨hk, rfl⟩ := List.getElem?_eq_some_iff.mp h
  exact (List.getElem_cons_eraseIdx_perm hk).symm

/-- A waiting task is an item of the cycle. -/
theorem ReleaseInv.row_lt (h : ReleaseInv v w present seed arenas₀ r) (hw : w.Ok) {c : Cell}
    (hc : c ∈ r.counting ∨ c ∈ r.handing) : c.1 < w.totals.length :=
  hw.layer_lt (h.base.issued _ (.inr ⟨_, h.waiting c hc⟩)).1

theorem ReleaseInv.not_rebuilding_of_waiting (h : ReleaseInv v w present seed arenas₀ r)
    {c : Cell} (hc : c ∈ r.counting ∨ c ∈ r.handing) : ¬ r.sys.Rebuilding :=
  h.base.rebuilt (.inl (List.ne_nil_of_mem (h.waiting c hc)))

/-- While a task waits to hand over, its group is still waited for. -/
theorem ReleaseInv.waitIdle_mem (h : ReleaseInv v w present seed arenas₀ r) {c : Cell}
    (hc : c ∈ r.counting ∨ c ∈ r.handing) : .waitIdle .decomp ∈ r.sys.prog := by
  by_contra hnot
  have hidle := List.countP_eq_zero.mp (h.settled .decomp hnot).2 _ (h.waiting c hc)
  simp [Task.group] at hidle

/-- A step that leaves the protocol and the countdowns alone. -/
theorem ReleaseInv.own (h : ReleaseInv v w present seed arenas₀ r) (hsys : r'.sys = r.sys)
    (hleft : r'.compLeft = r.compLeft) (hcounting : r'.counting = r.counting)
    (hperm : r'.releases.Perm r.releases) (hhanding : ∀ c ∈ r'.handing, c ∈ r.handing)
    (harenas : ∀ i, r'.arenas i = if i ∈ r'.freed then [] else arenas₀ i)
    (hcleaned : r'.cleaning = true → r'.sys.prog = [] ∧ r'.freeQueue = [] ∧ r'.freeRunning = []) :
    ReleaseInv v w present seed arenas₀ r' := by
  constructor
  case base => exact hsys ▸ h.base
  case groups => exact hsys ▸ h.groups
  case suffix => exact hsys ▸ h.suffix
  case settled => exact hsys ▸ h.settled
  case quiet =>
    intro hre
    obtain ⟨h1, h2, h3⟩ := h.quiet (hsys ▸ hre)
    refine ⟨hcounting.trans h1, List.Perm.eq_nil (h2 ▸ hperm), fun i hi => ?_⟩
    rw [hsys]
    exact h3 i hi
  case counted =>
    intro hc i hi
    refine (h.counted (hsys ▸ hc) i (hsys ▸ hi)).congr (congrFun hleft i) ?_ (hperm.count_eq i)
    rw [Release.pending, Release.pending, hsys, hcounting]
  case waiting =>
    intro c hc
    rw [hsys]
    exact h.waiting c (hc.imp (fun hm => hcounting ▸ hm) (hhanding c))
  case rows => exact fun i hi => h.rows i (hperm.mem_iff.mp hi)
  case arenas => exact harenas
  case cleaned => exact hcleaned

/-- `comp_left[layer].fetch_sub(1)`: the task that takes the countdown to zero is the only one
that goes on to hand over. -/
theorem ReleaseInv.countDown (h : ReleaseInv v w present seed arenas₀ r) (hw : w.Ok) {k : ℕ}
    {c : Cell} (hk : r.counting[k]? = some c) :
    ReleaseInv v w present seed arenas₀ { r with
      counting := r.counting.eraseIdx k
      compLeft := Function.update r.compLeft c.1 (r.compLeft c.1 - 1)
      handing := if r.compLeft c.1 = 1 then r.handing ++ [c] else r.handing } := by
  have hmem : c ∈ r.counting := List.mem_of_getElem? hk
  have hnot := h.not_rebuilding_of_waiting (.inl hmem)
  have hperm := eraseIdx_perm hk
  have hhand : ∀ d, d ∈ (if r.compLeft c.1 = 1 then r.handing ++ [c] else r.handing) →
      d ∈ r.counting ∨ d ∈ r.handing := by
    intro d hd
    split at hd
    · rcases List.mem_append.mp hd with hd | hd
      · exact .inr hd
      · rw [List.mem_singleton.mp hd]
        exact .inl hmem
    · exact .inr hd
  constructor
  case base => exact h.base
  case groups => exact h.groups
  case suffix => exact h.suffix
  case settled => exact h.settled
  case quiet => exact fun hre => absurd hre hnot
  case counted =>
    intro hc i hi
    have hcd := h.counted hc i hi
    have hcount := hperm.countP_eq fun d => decide (d.1 = i)
    rw [List.countP_cons] at hcount
    have hleft := hcd.left
    have hrel := hcd.released
    rw [Release.pending] at hleft
    by_cases hci : c.1 = i
    · subst hci
      simp only [decide_true, if_true] at hcount
      refine ⟨?_, ?_, ?_⟩
      · simp only [Function.update_self, Release.pending]
        omega
      · have := hcd.le
        simp only [Function.update_self]
        omega
      · simp only [Function.update_self, Release.releases]
        have hle := hcd.le
        by_cases hlast : r.compLeft c.1 = 1
        · rw [if_pos hlast, if_pos (by omega)]
          rw [if_neg (by omega)] at hrel
          simp only [Release.releases, List.count_append, List.map_append, List.map_cons,
            List.map_nil, List.count_singleton_self] at hrel ⊢
          omega
        · rw [if_neg hlast, if_neg (by omega)]
          rw [if_neg (by omega)] at hrel
          exact hrel
    · simp only [hci, decide_false, Bool.false_eq_true, if_false, Nat.add_zero] at hcount
      refine hcd.congr (Function.update_of_ne (Ne.symm hci) _ _) ?_ ?_
      · simp only [Release.pending]
        omega
      · simp only [Release.releases, List.count_append]
        split
        · rw [List.map_append, List.count_append]
          simp [hci]
        · rfl
  case waiting =>
    intro d hd
    refine h.waiting d ?_
    rcases hd with hd | hd
    · exact .inl (List.mem_of_mem_eraseIdx hd)
    · exact hhand d hd
  case rows =>
    intro i hi
    simp only [Release.releases, List.mem_append, List.mem_map, or_assoc] at hi
    rcases hi with ⟨d, hd, rfl⟩ | hi
    · exact h.row_lt hw (hhand d hd)
    · refine h.rows i ?_
      simp only [Release.releases, List.mem_append, or_assoc]
      exact .inr hi
  case arenas => exact h.arenas
  case cleaned => exact h.cleaned

/-- Every step keeps the invariant. -/
theorem ReleaseInv.act (h : ReleaseInv v w present seed arenas₀ r) (hw : w.Ok) {a : RAction}
    (hs : releaseAct w.totals.length workers freeWorkers seed a r = some r') :
    ReleaseInv v w present seed arenas₀ r' := by
  cases a with
  | sys b =>
      simp only [releaseAct] at hs
      split at hs
      · cases hs
      · next hb =>
          obtain ⟨s, hact, rfl⟩ := Option.map_eq_some_iff.mp hs
          exact h.sysStep hact (by simpa using hb)
  | countDown k =>
      simp only [releaseAct] at hs
      split at hs
      · cases hs
      · next c hk =>
          obtain rfl := Option.some.inj hs
          exact h.countDown hw hk
  | handOff k =>
      simp only [releaseAct] at hs
      split at hs
      · cases hs
      · next c hk =>
          obtain rfl := Option.some.inj hs
          refine h.own rfl rfl rfl ?_ (fun d hd => List.mem_of_mem_eraseIdx hd) h.arenas ?_
          · refine List.perm_iff_count.mpr fun i => ?_
            have hp := ((eraseIdx_perm hk).map Prod.fst).count_eq i
            simp only [List.map_cons, List.count_cons] at hp
            simp only [Release.releases, List.count_append, List.count_cons, List.count_nil]
            omega
          · intro hcl
            have hwait := h.waitIdle_mem (.inr (List.mem_of_getElem? hk))
            rw [(h.cleaned hcl).1] at hwait
            cases hwait
  | startFree =>
      simp only [releaseAct] at hs
      split at hs
      · cases hs
      · next l rest hq =>
          split at hs
          · obtain rfl := Option.some.inj hs
            refine h.own rfl rfl rfl ?_ (fun d hd => hd) h.arenas ?_
            · refine List.perm_iff_count.mpr fun i => ?_
              simp only [Release.releases, hq, List.count_append, List.count_cons, List.count_nil]
              omega
            · intro hcl
              rw [(h.cleaned hcl).2.1] at hq
              cases hq
          · cases hs
  | finishFree k =>
      simp only [releaseAct] at hs
      split at hs
      · cases hs
      · next l hk =>
          obtain rfl := Option.some.inj hs
          refine h.own rfl rfl rfl ?_ (fun d hd => hd) ?_ ?_
          · refine List.perm_iff_count.mpr fun i => ?_
            have hp := (eraseIdx_perm hk).count_eq i
            rw [List.count_cons] at hp
            simp only [Release.releases, List.count_append, List.count_cons, List.count_nil]
            omega
          · intro i
            simp only [List.mem_append, List.mem_singleton]
            by_cases hil : i = l
            · subst hil
              rw [Function.update_self, if_pos (.inr rfl)]
            · rw [Function.update_of_ne hil, h.arenas i]
              simp only [hil, or_false]
          · intro hcl
            rw [(h.cleaned hcl).2.2] at hk
            cases hk
  | waitFree =>
      simp only [releaseAct] at hs
      split at hs
      · next hidle =>
          obtain rfl := Option.some.inj hs
          exact h.own rfl rfl rfl (List.Perm.refl _) (fun d hd => hd) h.arenas
            fun _ => ⟨hidle.1, hidle.2.1, hidle.2.2.1⟩
      · cases hs

end

end MzCache.Sync
