import MzCache.Sync.Model

/-!
# The invariant of a swapin cycle

A layer's counter equals the number of its restoring tasks that have not called
`taskDone` yet, wherever they are: still to be enqueued, queued, or running. Everything a
cycle guarantees follows from this count. What the main thread does in which order enters
through one relation on its instructions, `MayPrecede`.
-/

namespace MzCache.Sync

open MzCache MzCache.Lib

/-! ## Order of the instructions -/

/-- Instructions that rebuild the tables of a cycle. -/
def Instr.isInit : Instr → Bool
  | .clearAllocs | .clearSync | .pushSync _ => true
  | _ => false

/-- Instructions that register or enqueue something. -/
def Instr.issues : Instr → Bool
  | .register _ | .enqueue _ => true
  | _ => false

def Instr.task : Instr → Option Task
  | .enqueue t => some t
  | _ => none

def Instr.push : Instr → Option ℤ
  | .pushSync n => some n
  | _ => none

/-- `x` may stand before `y`: the tables are rebuilt before anything is issued, the counters
are pushed after the one clear, and a future is registered before its restoring task is
enqueued and before the main thread waits for it. -/
structure MayPrecede (x y : Instr) : Prop where
  issue : y.isInit → x.issues = false
  clear : y = .clearSync → x ≠ .clearSync ∧ x.push = none
  register : ∀ r, x = .enqueue (.restore r) → y ≠ .register r.key
  await : ∀ k, x = .waitAlloc k → y ≠ .register k

/-- The restoring tasks of a cycle. -/
def Work.items (w : Work) : List Restore :=
  w.read.map .kvRead ++ w.decomp.map .kvDecomp ++ w.weights.map .weightRead

/-! ## Counting tasks -/

/-- Tasks of layer `i` in a list. -/
def countIn (l : List Task) (i : ℕ) : ℕ := l.countP fun t => t.layer = some i

def progCount (p : List Instr) (i : ℕ) : ℕ := countIn (p.filterMap Instr.task) i

def queueCount (q : CoreType → List Task) (i : ℕ) : ℕ :=
  countIn (q .alloc) i + countIn (q .read) i + countIn (q .decomp) i

/-- Running tasks of layer `i` that have not decremented its counter. -/
def runCount (l : List (Task × Pc)) (i : ℕ) : ℕ :=
  l.countP fun x => x.2 ≠ .setValue ∧ x.1.layer = some i

/-- Running tasks about to set the promise of layer `i`. -/
def setCount (l : List (Task × Pc)) (i : ℕ) : ℕ :=
  l.countP fun x => x.2 = .setValue ∧ x.1.layer = some i

/-- All tasks of layer `i` that have not decremented its counter. -/
def Sys.liveCount (s : Sys) (i : ℕ) : ℕ :=
  progCount s.prog i + queueCount s.queue i + runCount s.running i

/-- The restoring task `r` has yet to do its work. -/
def Sys.Early (s : Sys) (r : Restore) : Prop :=
  .enqueue (.restore r) ∈ s.prog ∨ (∃ g, .restore r ∈ s.queue g) ∨
    ∃ pc, (.restore r, pc) ∈ s.running ∧ pc ≠ .taskDone ∧ pc ≠ .setValue

/-- The restoring task `r` is queued or running. -/
def Sys.Issued (s : Sys) (r : Restore) : Prop :=
  (∃ g, .restore r ∈ s.queue g) ∨ ∃ pc, (.restore r, pc) ∈ s.running

/-- The chunk is raw, or the layer's weights are loaded. -/
def Sys.Present (s : Sys) : Key → Prop
  | .kv c => s.states c = .raw
  | .weight l => s.weightLoaded l = true

/-- An instruction that rebuilds a table is left. -/
def Sys.Rebuilding (s : Sys) : Prop := ∃ x ∈ s.prog, x.isInit

/-- `layer_sync` of this cycle is not cleared yet, or agrees with the tasks. -/
structure Synced (w : Work) (s : Sys) : Prop where
  le : s.layerSync.length ≤ w.totals.length
  entry : ∀ (i : ℕ) (y : LayerSync), s.layerSync[i]? = some y → y.remaining = s.liveCount i ∧
    y.sets + setCount s.running i = if y.remaining = 0 then 1 else 0

/-- The invariant of a cycle that started with `present` in memory. -/
structure Inv (w : Work) (present : Key → Prop) (s : Sys) : Prop where
  safe : s.aborted = false
  order : s.prog.Pairwise MayPrecede
  /-- Nothing moves before the tables are rebuilt. -/
  quiet : s.Rebuilding → s.queue = (fun _ => []) ∧ s.running = [] ∧
    (∀ k, s.Present k ↔ present k) ∧ ∀ i, (progCount s.prog i : ℤ) = w.totals.getD i 0
  pushes : s.prog.filterMap Instr.push =
    if .clearSync ∈ s.prog then w.totals else w.totals.drop s.layerSync.length
  synced : .clearSync ∉ s.prog → Synced w s
  registered : ∀ r ∈ w.items, .register r.key ∈ s.prog ∨
    (s.allocDone r.key).isSome ∧ .clearAllocs ∉ s.prog
  items : ∀ r, .enqueue (.restore r) ∈ s.prog → r ∈ w.items
  waits : ∀ k, .waitAlloc k ∈ s.prog → ∃ r ∈ w.items, r.key = k
  issued : ∀ r, s.Issued r → r ∈ w.items ∧ .register r.key ∉ s.prog
  restored : ∀ r ∈ w.items, s.Present r.key ∨ s.Early r
  kept : ∀ k, present k → s.Present k

/-! ## Count lemmas -/

theorem countIn_append (l m : List Task) (i : ℕ) :
    countIn (l ++ m) i = countIn l i + countIn m i := List.countP_append

theorem countIn_cons (t : Task) (l : List Task) (i : ℕ) :
    countIn (t :: l) i = countIn l i + if t.layer = some i then 1 else 0 := by
  simp [countIn, List.countP_cons]

theorem progCount_cons (x : Instr) (p : List Instr) (i : ℕ) :
    progCount (x :: p) i = progCount p i + countIn x.task.toList i := by
  cases hx : x.task with
  | none => simp [progCount, hx, countIn]
  | some t =>
      simp only [progCount, List.filterMap_cons, hx, Option.toList_some, countIn_cons]
      simp [countIn]

theorem queueCount_update (q : CoreType → List Task) (g : CoreType) (l : List Task) (i : ℕ) :
    queueCount (Function.update q g l) i + countIn (q g) i = queueCount q i + countIn l i := by
  cases g <;> simp [queueCount, Function.update] <;> omega

theorem runCount_append (l m : List (Task × Pc)) (i : ℕ) :
    runCount (l ++ m) i = runCount l i + runCount m i := List.countP_append

theorem setCount_append (l m : List (Task × Pc)) (i : ℕ) :
    setCount (l ++ m) i = setCount l i + setCount m i := List.countP_append

/-- Replacing the running task at position `k`. -/
theorem advance_split {s : Sys} {k : ℕ} {x : Task × Pc} (h : s.running[k]? = some x) :
    s.running = s.running.take k ++ [x] ++ s.running.drop (k + 1) := by
  obtain ⟨hk, hx⟩ := List.getElem?_eq_some_iff.mp h
  rw [List.append_assoc, List.singleton_append, ← hx, ← List.drop_eq_getElem_cons hk,
    List.take_append_drop]

theorem runCount_advance {s : Sys} {k : ℕ} {x : Task × Pc} (h : s.running[k]? = some x)
    (new : List (Task × Pc)) (i : ℕ) :
    runCount (s.advance k new).running i + runCount [x] i =
      runCount s.running i + runCount new i := by
  have hs := congrArg (runCount · i) (advance_split h)
  simp only [runCount_append] at hs
  simp only [Sys.advance, runCount_append]
  omega

theorem setCount_advance {s : Sys} {k : ℕ} {x : Task × Pc} (h : s.running[k]? = some x)
    (new : List (Task × Pc)) (i : ℕ) :
    setCount (s.advance k new).running i + setCount [x] i =
      setCount s.running i + setCount new i := by
  have hs := congrArg (setCount · i) (advance_split h)
  simp only [setCount_append] at hs
  simp only [Sys.advance, setCount_append]
  omega

theorem mem_running_advance {s : Sys} {k : ℕ} {x y : Task × Pc} {new : List (Task × Pc)}
    (h : s.running[k]? = some x) :
    (y ∈ (s.advance k new).running → y ∈ s.running ∨ y ∈ new) ∧
      (y ∈ s.running → y = x ∨ y ∈ (s.advance k new).running) := by
  have hs := advance_split h
  constructor
  · intro hy
    simp only [Sys.advance, List.mem_append] at hy
    rw [hs]
    simp only [List.mem_append]
    tauto
  · intro hy
    rw [hs] at hy
    simp only [Sys.advance, List.mem_append, List.mem_singleton] at hy ⊢
    tauto

/-! ## Steps of the main thread -/

section Steps

variable {w : Work} {present : Key → Prop} {s : Sys} {x : Instr} {p : List Instr}

theorem Inv.head (h : Inv w present s) (hp : s.prog = x :: p) :
    (∀ y ∈ p, MayPrecede x y) ∧ p.Pairwise MayPrecede := by
  have := h.order
  rw [hp] at this
  exact List.pairwise_cons.mp this

/-- Once something is issued nothing is rebuilt any more. -/
theorem Inv.not_rebuilding (h : Inv w present s) (hp : s.prog = x :: p) (hx : x.issues = true) :
    ∀ y ∈ p, y.isInit = false := by
  intro y hy
  by_contra hinit
  have := ((h.head hp).1 y hy).issue (by simpa using hinit)
  simp [hx] at this

theorem Sys.present_congr {s s' : Sys} (hst : s'.states = s.states)
    (hwl : s'.weightLoaded = s.weightLoaded) (k : Key) : s'.Present k ↔ s.Present k := by
  cases k <;> simp [Sys.Present, hst, hwl]

/-- An instruction that issues nothing: only the tables may change, and the statements about
them are left to show. -/
theorem Inv.next (h : Inv w present s) (hp : s.prog = x :: p) (hiss : x.issues = false)
    {s' : Sys} (hprog : s'.prog = p) (hq : s'.queue = s.queue) (hr : s'.running = s.running)
    (hst : s'.states = s.states) (hwl : s'.weightLoaded = s.weightLoaded)
    (hab : s'.aborted = s.aborted)
    (hpush : p.filterMap Instr.push =
      if .clearSync ∈ p then w.totals else w.totals.drop s'.layerSync.length)
    (hsync : .clearSync ∉ p → (∀ i, s'.liveCount i = s.liveCount i) → Synced w s')
    (hreg : ∀ r ∈ w.items, .register r.key ∈ p ∨
      (s'.allocDone r.key).isSome ∧ .clearAllocs ∉ p) : Inv w present s' := by
  have htask : x.task = none := by cases x <;> simp_all [Instr.issues, Instr.task]
  have hcount : ∀ i, progCount s.prog i = progCount p i := fun i => by
    rw [hp, progCount_cons, htask]
    rfl
  have hpres := Sys.present_congr hst hwl
  have hmem : ∀ y ∈ p, y ∈ s.prog := fun y hy => by
    rw [hp]
    exact List.mem_cons_of_mem _ hy
  constructor
  case safe => rw [hab, h.safe]
  case order => rw [hprog]; exact (h.head hp).2
  case quiet =>
    rintro ⟨y, hy, hyi⟩
    rw [hprog] at hy
    obtain ⟨h1, h2, h3, h4⟩ := h.quiet ⟨y, hmem y hy, hyi⟩
    exact ⟨hq.trans h1, hr.trans h2, fun k => (hpres k).trans (h3 k), fun i => by
      rw [hprog, ← hcount]; exact h4 i⟩
  case pushes => rw [hprog]; exact hpush
  case synced =>
    intro hc
    rw [hprog] at hc
    exact hsync hc fun i => by simp only [Sys.liveCount, hprog, hq, hr, hcount]
  case registered => rw [hprog]; exact hreg
  case items => exact fun r he => h.items r (hmem _ (hprog ▸ he))
  case waits => exact fun k hk => h.waits k (hmem _ (hprog ▸ hk))
  case issued =>
    intro r he
    have he' : s.Issued r := by simpa only [Sys.Issued, hq, hr] using he
    exact ⟨(h.issued r he').1, fun hm => (h.issued r he').2 (hmem _ (hprog ▸ hm))⟩
  case restored =>
    intro r he
    refine (h.restored r he).imp (hpres r.key).mpr ?_
    simp only [Sys.Early, hq, hr, hprog]
    rintro (hm | hm | hm)
    · rw [hp, List.mem_cons] at hm
      refine Or.inl (hm.resolve_left ?_)
      rintro rfl
      simp [Instr.issues] at hiss
    · exact Or.inr (Or.inl hm)
    · exact Or.inr (Or.inr hm)
  case kept => exact fun k hk => (hpres k).mpr (h.kept k hk)

/-- What a non-issuing instruction other than the rebuilding ones leaves alone. -/
theorem Inv.skip (h : Inv w present s) (hp : s.prog = x :: p) (hinit : x.isInit = false)
    (hiss : x.issues = false) (g : Bool) (d : Decode) :
    Inv w present { s with prog := p, graphSignaled := g, decode := d } := by
  have hcs : x ≠ .clearSync := by rintro rfl; simp [Instr.isInit] at hinit
  have hca : x ≠ .clearAllocs := by rintro rfl; simp [Instr.isInit] at hinit
  have hx : x.push = none := by cases x <;> simp_all [Instr.isInit, Instr.push]
  refine h.next hp hiss rfl rfl rfl rfl rfl rfl ?_ ?_ ?_
  · have := h.pushes
    rw [hp] at this
    simpa [List.filterMap_cons, hx, hcs.symm] using this
  · intro hc hlive
    have := h.synced (by rw [hp]; simp [hcs.symm, hc])
    exact ⟨this.le, fun i y hy => by rw [hlive]; exact this.entry i y hy⟩
  · intro r hr
    have := h.registered r hr
    rw [hp] at this
    have hne : Instr.register r.key ≠ x := by
      rintro rfl
      simp [Instr.issues] at hiss
    simpa [hne, hca.symm] using this

theorem Inv.clearAllocs (h : Inv w present s) (hp : s.prog = .clearAllocs :: p) :
    Inv w present { s with prog := p, allocDone := fun _ => none } := by
  refine h.next hp rfl rfl rfl rfl rfl rfl rfl ?_ ?_ ?_
  · have := h.pushes
    rw [hp] at this
    simpa [List.filterMap_cons, Instr.push] using this
  · intro hc hlive
    have := h.synced (by rw [hp]; simpa using hc)
    exact ⟨this.le, fun i y hy => by rw [hlive]; exact this.entry i y hy⟩
  · -- an entry that counts as registered would stand after this clear
    intro r hr
    have := h.registered r hr
    rw [hp] at this
    simpa using this

theorem Inv.clearSync (h : Inv w present s) (hp : s.prog = .clearSync :: p) :
    Inv w present { s with prog := p, layerSync := [] } := by
  have hnone : Instr.clearSync ∉ p := fun hm => (((h.head hp).1 _ hm).clear rfl).1 rfl
  refine h.next hp rfl rfl rfl rfl rfl rfl rfl ?_ ?_ ?_
  · have := h.pushes
    rw [hp] at this
    simpa [List.filterMap_cons, Instr.push, hnone] using this
  · exact fun _ _ => ⟨Nat.zero_le _, fun i y hy => by simp at hy⟩
  · intro r hr
    have := h.registered r hr
    rw [hp] at this
    simpa using this

/-- The pushed counter is the number of the layer's tasks, all of which are still to be
enqueued. -/
theorem Inv.pushSync (h : Inv w present s) {n : ℤ} (hp : s.prog = .pushSync n :: p) :
    Inv w present { s with prog := p, layerSync := s.layerSync ++ [.new n] } := by
  have hnone : Instr.clearSync ∉ p := fun hm => by
    have := (((h.head hp).1 _ hm).clear rfl).2
    simp [Instr.push] at this
  have hcs : Instr.clearSync ∉ s.prog := by
    rw [hp]
    simp [hnone]
  have hpushes := h.pushes
  rw [if_neg hcs, hp] at hpushes
  simp only [List.filterMap_cons, Instr.push] at hpushes
  have hlt : s.layerSync.length < w.totals.length := by
    by_contra hge
    rw [List.drop_eq_nil_of_le (by omega)] at hpushes
    cases hpushes
  rw [List.drop_eq_getElem_cons hlt, List.cons.injEq] at hpushes
  obtain ⟨hn, hrest⟩ := hpushes
  obtain ⟨hq, hr, -, htotal⟩ := h.quiet ⟨.pushSync n, by rw [hp]; simp, rfl⟩
  refine h.next hp rfl rfl rfl rfl rfl rfl rfl ?_ ?_ ?_
  · rw [if_neg hnone, List.length_append]
    exact hrest
  · intro _ hlive
    refine ⟨by simpa using hlt, fun i y hy => ?_⟩
    rw [hlive]
    rcases Nat.lt_or_ge i s.layerSync.length with hi | hi
    · rw [List.getElem?_append_left hi] at hy
      exact (h.synced hcs).entry i y hy
    · rw [List.getElem?_append_right hi, List.getElem?_singleton] at hy
      split at hy
      · obtain rfl : i = s.layerSync.length := by omega
        obtain rfl := Option.some.inj hy
        have hrem : n = s.liveCount s.layerSync.length := by
          have := htotal s.layerSync.length
          rw [List.getD_eq_getElem _ _ hlt, ← hn] at this
          rw [← this]
          simp [Sys.liveCount, hq, hr, queueCount, countIn, runCount]
        refine ⟨hrem, ?_⟩
        simp only [hr, setCount, List.countP_nil, Nat.add_zero]
        rfl
      · cases hy
  · intro r hr
    have := h.registered r hr
    rw [hp] at this
    simpa using this

theorem Inv.register (h : Inv w present s) {k : Key} (hp : s.prog = .register k :: p) :
    Inv w present { s with
      prog := p, allocDone := Function.update s.allocDone k (some false) } := by
  have hinit := h.not_rebuilding hp rfl
  have hca : Instr.clearAllocs ∉ p := fun hm => by simpa [Instr.isInit] using hinit _ hm
  have hcs : Instr.clearSync ∉ p := fun hm => by simpa [Instr.isInit] using hinit _ hm
  have hcount : ∀ i, progCount s.prog i = progCount p i := fun i => by
    rw [hp, progCount_cons]
    rfl
  have hmem : ∀ y ∈ p, y ∈ s.prog := fun y hy => by
    rw [hp]
    exact List.mem_cons_of_mem _ hy
  constructor
  case safe => exact h.safe
  case order => exact (h.head hp).2
  case quiet =>
    rintro ⟨y, hy, hyi⟩
    rw [hinit y hy] at hyi
    cases hyi
  case pushes =>
    have := h.pushes
    rw [hp] at this
    simpa [List.filterMap_cons, Instr.push] using this
  case synced =>
    intro _
    have := h.synced (by rw [hp]; simpa using hcs)
    refine ⟨this.le, fun i y hy => ?_⟩
    have hy' := this.entry i y hy
    simpa only [Sys.liveCount, hcount] using hy'
  case registered =>
    intro r hr
    by_cases hk : r.key = k
    · exact Or.inr ⟨by simp [hk], hca⟩
    · have := h.registered r hr
      rw [hp] at this
      simpa [hk] using this
  case items => exact fun r hr => h.items r (hmem _ hr)
  case waits => exact fun k hk => h.waits k (hmem _ hk)
  case issued => exact fun r hr => ⟨(h.issued r hr).1, fun hm => (h.issued r hr).2 (hmem _ hm)⟩
  case restored =>
    intro r hr
    refine (h.restored r hr).imp id ?_
    rintro (hm | hm | hm)
    · rw [hp] at hm
      exact Or.inl (by simpa using hm)
    · exact Or.inr (Or.inl hm)
    · exact Or.inr (Or.inr hm)
  case kept => exact h.kept

/-- A task moves from the program to its queue. -/
theorem Inv.enqueue (h : Inv w present s) {t : Task} (hp : s.prog = .enqueue t :: p) :
    Inv w present { s with
      prog := p, queue := Function.update s.queue t.group (s.queue t.group ++ [t]) } := by
  have hinit := h.not_rebuilding hp rfl
  have hcs : Instr.clearSync ∉ p := fun hm => by simpa [Instr.isInit] using hinit _ hm
  have hlive : ∀ i, ({ s with
      prog := p
      queue := Function.update s.queue t.group (s.queue t.group ++ [t]) } : Sys).liveCount i =
      s.liveCount i := fun i => by
    have h1 := queueCount_update s.queue t.group (s.queue t.group ++ [t]) i
    rw [countIn_append] at h1
    simp only [Sys.liveCount, hp, progCount_cons, Instr.task, Option.toList_some]
    omega
  have hmem : ∀ y ∈ p, y ∈ s.prog := fun y hy => by
    rw [hp]
    exact List.mem_cons_of_mem _ hy
  have hqueue : ∀ g u, u ∈ Function.update s.queue t.group (s.queue t.group ++ [t]) g →
      u ∈ s.queue g ∨ u = t := fun g u hu => by
    by_cases hg : g = t.group
    · subst hg
      simpa using hu
    · exact Or.inl (by simpa [hg] using hu)
  have hqueue' : ∀ g u, u ∈ s.queue g →
      u ∈ Function.update s.queue t.group (s.queue t.group ++ [t]) g := fun g u hu => by
    by_cases hg : g = t.group
    · subst hg
      simp [hu]
    · simpa [hg] using hu
  constructor
  case safe => exact h.safe
  case order => exact (h.head hp).2
  case quiet =>
    rintro ⟨y, hy, hyi⟩
    rw [hinit y hy] at hyi
    cases hyi
  case pushes =>
    have := h.pushes
    rw [hp] at this
    simpa [List.filterMap_cons, Instr.push] using this
  case synced =>
    intro _
    have := h.synced (by rw [hp]; simpa using hcs)
    exact ⟨this.le, fun i y hy => by rw [hlive]; exact this.entry i y hy⟩
  case registered =>
    intro r hr
    have := h.registered r hr
    rw [hp] at this
    simpa using this
  case items => exact fun r hr => h.items r (hmem _ hr)
  case waits => exact fun k hk => h.waits k (hmem _ hk)
  case issued =>
    have hold : ∀ r, s.Issued r → r ∈ w.items ∧ Instr.register r.key ∉ p := fun r hr =>
      ⟨(h.issued r hr).1, fun hm => (h.issued r hr).2 (hmem _ hm)⟩
    rintro r (⟨g, hg⟩ | hrun)
    · rcases hqueue g _ hg with hg | rfl
      · exact hold r (Or.inl ⟨g, hg⟩)
      · -- its future has been registered before
        exact ⟨h.items r (by rw [hp]; simp), fun hm => ((h.head hp).1 _ hm).register r rfl rfl⟩
    · exact hold r (Or.inr hrun)
  case restored =>
    intro r hr
    refine (h.restored r hr).imp id ?_
    rintro (hm | ⟨g, hg⟩ | hm)
    · rw [hp, List.mem_cons] at hm
      rcases hm with hm | hm
      · obtain rfl := Instr.enqueue.inj hm
        exact Or.inr (Or.inl ⟨(Task.restore r).group, by simp⟩)
      · exact Or.inl hm
    · exact Or.inr (Or.inl ⟨g, hqueue' g _ hg⟩)
    · exact Or.inr (Or.inr hm)
  case kept => exact h.kept

/-- The main thread waits for registered futures only. -/
theorem Inv.waitAlloc_isSome (h : Inv w present s) {k : Key} (hp : s.prog = .waitAlloc k :: p) :
    (s.allocDone k).isSome := by
  obtain ⟨r, hr, rfl⟩ := h.waits k (by rw [hp]; simp)
  have hreg := h.registered r hr
  have hnot : Instr.register r.key ∉ p := fun hm => ((h.head hp).1 _ hm).await _ rfl rfl
  rw [hp] at hreg
  simp only [List.mem_cons, hnot, or_false, reduceCtorEq, false_or] at hreg
  exact hreg.1

/-- Every instruction of the main thread keeps the invariant. -/
theorem Inv.mainStep {s' : Sys} (h : Inv w present s)
    (hs : MzCache.Sync.mainStep s = some s') : Inv w present s' := by
  unfold MzCache.Sync.mainStep at hs
  cases hp : s.prog with
  | nil => simp [hp] at hs
  | cons x p =>
      simp only [hp] at hs
      cases x with
      | resetGraph => exact Option.some.inj hs ▸ h.skip hp rfl rfl false s.decode
      | clearAllocs => exact Option.some.inj hs ▸ h.clearAllocs hp
      | clearSync => exact Option.some.inj hs ▸ h.clearSync hp
      | pushSync n => exact Option.some.inj hs ▸ h.pushSync hp
      | register k => exact Option.some.inj hs ▸ h.register hp
      | enqueue t => exact Option.some.inj hs ▸ h.enqueue hp
      | startDecode => exact Option.some.inj hs ▸ h.skip hp rfl rfl s.graphSignaled .building
      | waitGraph =>
          simp only at hs
          split at hs
          · exact Option.some.inj hs ▸ h.skip hp rfl rfl s.graphSignaled s.decode
          · cases hs
      | joinDecode =>
          simp only at hs
          split at hs
          · exact Option.some.inj hs ▸ h.skip hp rfl rfl s.graphSignaled s.decode
          · cases hs
      | waitAlloc k =>
          obtain ⟨ready, hk⟩ := Option.isSome_iff_exists.mp (h.waitAlloc_isSome hp)
          simp only [hk] at hs
          split at hs
          · exact Option.some.inj hs ▸ h.skip hp rfl rfl s.graphSignaled s.decode
          · cases hs
      | waitLayer i =>
          simp only at hs
          split at hs
          · exact Option.some.inj hs ▸ h.skip hp rfl rfl s.graphSignaled s.decode
          · cases hs
      | waitIdle g =>
          simp only at hs
          split at hs
          · exact Option.some.inj hs ▸ h.skip hp rfl rfl s.graphSignaled s.decode
          · cases hs

/-! ## Steps of the pool -/

/-- With a task queued or running nothing is being rebuilt. -/
theorem Inv.rebuilt (h : Inv w present s) (hbusy : s.running ≠ [] ∨ ∃ g, s.queue g ≠ []) :
    ¬ s.Rebuilding := by
  intro hre
  obtain ⟨hq, hr, -, -⟩ := h.quiet hre
  rcases hbusy with hb | ⟨g, hb⟩
  · exact hb hr
  · exact hb (congrFun hq g)

theorem Inv.clearSync_done (h : ¬ s.Rebuilding) : Instr.clearSync ∉ s.prog :=
  fun hm => h ⟨_, hm, rfl⟩

/-- With nothing being rebuilt every layer has its counter. -/
theorem Inv.full (h : Inv w present s) (hre : ¬ s.Rebuilding) :
    s.layerSync.length = w.totals.length := by
  have hcs := Inv.clearSync_done hre
  have hpush := h.pushes
  rw [if_neg hcs] at hpush
  have hnil : s.prog.filterMap Instr.push = [] := by
    rw [List.filterMap_eq_nil_iff]
    intro x hx
    cases x with
    | pushSync n => exact absurd ⟨_, hx, rfl⟩ hre
    | _ => rfl
  rw [hnil, eq_comm, List.drop_eq_nil_iff] at hpush
  exact le_antisymm (h.synced hcs).le hpush

/-- A step of the pool: the program stays, and nothing is being rebuilt. -/
theorem Inv.poolStep (h : Inv w present s) (hre : ¬ s.Rebuilding) {s' : Sys}
    (hprog : s'.prog = s.prog) (hab : s'.aborted = false)
    (hlen : s'.layerSync.length = s.layerSync.length)
    (hsync : Synced w s → Synced w s')
    (hreg : ∀ k, (s.allocDone k).isSome → (s'.allocDone k).isSome)
    (hissued : ∀ r, s'.Issued r → s.Issued r)
    (hearly : ∀ r, s.Early r → s'.Present r.key ∨ s'.Early r)
    (hpres : ∀ k, s.Present k → s'.Present k) : Inv w present s' := by
  constructor
  case safe => exact hab
  case order => rw [hprog]; exact h.order
  case quiet =>
    rintro ⟨y, hy, hyi⟩
    exact absurd ⟨y, hprog ▸ hy, hyi⟩ hre
  case pushes => rw [hprog, hlen]; exact h.pushes
  case synced => exact fun hc => hsync (h.synced (hprog ▸ hc))
  case registered =>
    intro r hr
    rw [hprog]
    exact (h.registered r hr).imp id fun ⟨h1, h2⟩ => ⟨hreg _ h1, h2⟩
  case items => rw [hprog]; exact h.items
  case waits => rw [hprog]; exact h.waits
  case issued =>
    intro r hr
    rw [hprog]
    exact h.issued r (hissued r hr)
  case restored =>
    intro r hr
    rcases h.restored r hr with hp | he
    · exact Or.inl (hpres _ hp)
    · exact hearly r he
  case kept => exact fun k hk => hpres k (h.kept k hk)

/-- A worker takes the oldest task of its queue. -/
theorem Inv.startTask {workers : CoreType → ℕ} {g : CoreType} {s' : Sys} (h : Inv w present s)
    (hs : MzCache.Sync.startTask workers g s = some s') : Inv w present s' := by
  unfold MzCache.Sync.startTask at hs
  cases hq : s.queue g with
  | nil => simp [hq] at hs
  | cons t rest =>
      simp only [hq] at hs
      split at hs
      · obtain rfl := Option.some.inj hs
        have hre := h.rebuilt (Or.inr ⟨g, by simp [hq]⟩)
        have hpc : t.start ≠ .setValue ∧ t.start ≠ .taskDone := by
          cases t <;> simp [Task.start]
        have hqueue : ∀ g' u, u ∈ Function.update s.queue g rest g' → u ∈ s.queue g' := by
          intro g' u hu
          by_cases hg : g' = g
          · subst hg
            rw [hq]
            exact List.mem_cons_of_mem _ (by simpa using hu)
          · simpa [hg] using hu
        have hqueue' : ∀ g' u, u ∈ s.queue g' →
            u = t ∨ u ∈ Function.update s.queue g rest g' := by
          intro g' u hu
          by_cases hg : g' = g
          · subst hg
            rw [hq] at hu
            simpa using hu
          · exact Or.inr (by simpa [hg] using hu)
        refine h.poolStep hre rfl h.safe rfl ?_ (fun _ hk => hk) ?_ ?_ (fun _ hk => hk)
        · intro hsync
          refine ⟨hsync.le, fun i y hy => ?_⟩
          have hlive : ({ s with
              queue := Function.update s.queue g rest
              running := s.running ++ [(t, t.start)] } : Sys).liveCount i = s.liveCount i := by
            have h1 := queueCount_update s.queue g rest i
            rw [hq, countIn_cons] at h1
            have h2 : runCount [(t, t.start)] i = if t.layer = some i then 1 else 0 := by
              simp [runCount, hpc.1, List.countP_cons]
            simp only [Sys.liveCount, runCount_append, h2]
            omega
          have hset : setCount (s.running ++ [(t, t.start)]) i = setCount s.running i := by
            rw [setCount_append]
            simp [setCount, hpc.1]
          rw [hlive, hset]
          exact hsync.entry i y hy
        · rintro r (⟨g', hg'⟩ | ⟨pc, hpc'⟩)
          · exact Or.inl ⟨g', hqueue g' _ hg'⟩
          · rcases List.mem_append.mp hpc' with hm | hm
            · exact Or.inr ⟨pc, hm⟩
            · obtain ⟨rfl, -⟩ := Prod.mk.inj (List.mem_singleton.mp hm)
              exact Or.inl ⟨g, by rw [hq]; simp⟩
        · rintro r (hm | ⟨g', hg'⟩ | ⟨pc, hm, hpc'⟩)
          · exact Or.inr (Or.inl hm)
          · rcases hqueue' g' _ hg' with rfl | hg'
            · exact Or.inr (Or.inr (Or.inr ⟨_, List.mem_append_right _ (by simp), hpc.2, hpc.1⟩))
            · exact Or.inr (Or.inr (Or.inl ⟨g', hg'⟩))
          · exact Or.inr (Or.inr (Or.inr ⟨pc, List.mem_append_left _ hm, hpc'⟩))
      · cases hs

/-- A step of one running task that leaves `layer_sync` alone. -/
theorem Synced.advance {s' : Sys} {k : ℕ} {x : Task × Pc} (h : Synced w s)
    (new : List (Task × Pc)) (hx : s.running[k]? = some x) (hprog : s'.prog = s.prog)
    (hq : s'.queue = s.queue) (hsync : s'.layerSync = s.layerSync)
    (hr : s'.running = (s.advance k new).running)
    (hrun : ∀ i, runCount [x] i = runCount new i) (hset : ∀ i, setCount [x] i = setCount new i) :
    Synced w s' := by
  refine ⟨hsync ▸ h.le, fun i y hy => ?_⟩
  have h1 := runCount_advance hx new i
  have h2 := setCount_advance hx new i
  have hrun' := hrun i
  have hset' := hset i
  obtain ⟨h3, h4⟩ := h.entry i y (hsync ▸ hy)
  have hlive : s'.liveCount i = s.liveCount i := by
    simp only [Sys.liveCount, hprog, hq, hr]
    omega
  have hcount : setCount s'.running i = setCount s.running i := by
    rw [hr]
    omega
  rw [hlive, hcount]
  exact ⟨h3, h4⟩

theorem Sys.Issued.of_advance {s' : Sys} {k : ℕ} {x : Task × Pc} {new : List (Task × Pc)}
    (hx : s.running[k]? = some x) (hnew : ∀ y ∈ new, y.1 = x.1) (hq : s'.queue = s.queue)
    (hr : s'.running = (s.advance k new).running) {r : Restore} (h : s'.Issued r) :
    s.Issued r := by
  rcases h with ⟨g, hg⟩ | ⟨pc, hpc⟩
  · exact Or.inl ⟨g, hq ▸ hg⟩
  · rw [hr] at hpc
    rcases (mem_running_advance hx).1 hpc with hm | hm
    · exact Or.inr ⟨pc, hm⟩
    · refine Or.inr ⟨x.2, ?_⟩
      have : Task.restore r = x.1 := hnew _ hm
      rw [this]
      exact List.mem_of_getElem? hx

/-- Another task's early work stays; the moving task's own may be finished. -/
theorem Sys.Early.advance {s' : Sys} {k : ℕ} {x : Task × Pc} {new : List (Task × Pc)}
    (hx : s.running[k]? = some x) (hprog : s'.prog = s.prog) (hq : s'.queue = s.queue)
    (hr : s'.running = (s.advance k new).running) {r : Restore}
    (hown : x.1 = .restore r → x.2 ≠ .taskDone → x.2 ≠ .setValue → s'.Present r.key ∨ s'.Early r)
    (h : s.Early r) : s'.Present r.key ∨ s'.Early r := by
  rcases h with hm | ⟨g, hg⟩ | ⟨pc, hm, hpc⟩
  · exact Or.inr (Or.inl (hprog ▸ hm))
  · exact Or.inr (Or.inr (Or.inl ⟨g, hq ▸ hg⟩))
  · rcases (mem_running_advance hx).2 hm with heq | hm'
    · subst heq
      exact hown rfl hpc.1 hpc.2
    · exact Or.inr (Or.inr (Or.inr ⟨pc, hr ▸ hm', hpc⟩))

theorem Sys.bringBack_present {r : Restore} {k : Key} (h : s.Present k ∨ k = r.key) :
    (s.bringBack r).Present k := by
  cases r <;> cases k <;>
    simp_all [Sys.bringBack, Sys.Present, Restore.key, Function.update_apply] <;> tauto

theorem runCount_single (t : Task) (pc : Pc) (i : ℕ) :
    runCount [(t, pc)] i = if pc ≠ .setValue ∧ t.layer = some i then 1 else 0 := by
  simp [runCount, List.countP_cons]

theorem setCount_single (t : Task) (pc : Pc) (i : ℕ) :
    setCount [(t, pc)] i = if pc = .setValue ∧ t.layer = some i then 1 else 0 := by
  simp [setCount, List.countP_cons]

@[simp] theorem runCount_nil (i : ℕ) : runCount [] i = 0 := rfl

@[simp] theorem setCount_nil (i : ℕ) : setCount [] i = 0 := rfl

/-- A step of one running task that changes the entry of its layer. -/
theorem Synced.modify {s' : Sys} {k : ℕ} {r : Restore} {pc : Pc} (h : Synced w s)
    (new : List (Task × Pc)) (f : LayerSync → LayerSync) (hx : s.running[k]? = some (.restore r, pc))
    (hprog : s'.prog = s.prog) (hq : s'.queue = s.queue)
    (hsync : s'.layerSync = s.layerSync.modify r.layer f)
    (hr : s'.running = (s.advance k new).running) (hnew : ∀ y ∈ new, y.1 = .restore r)
    (hown : ∀ y, s.layerSync[r.layer]? = some y → (f y).remaining = s'.liveCount r.layer ∧
      (f y).sets + setCount s'.running r.layer = if (f y).remaining = 0 then 1 else 0) :
    Synced w s' := by
  refine ⟨by rw [hsync, List.length_modify]; exact h.le, fun i y hy => ?_⟩
  rw [hsync, List.getElem?_modify] at hy
  cases hy0 : s.layerSync[i]? with
  | none => simp [hy0] at hy
  | some y0 =>
      simp only [hy0, Option.map_eq_map, Option.map_some, Option.some.injEq] at hy
      by_cases hi : r.layer = i
      · subst hi
        rw [if_pos rfl] at hy
        subst hy
        exact hown y0 hy0
      · rw [if_neg hi] at hy
        subst hy
        -- the other layers see no change
        have hother : ∀ l : List (Task × Pc), (∀ z ∈ l, z.1 = .restore r) →
            runCount l i = 0 ∧ setCount l i = 0 := by
          intro l hl
          simp only [runCount, setCount, List.countP_eq_zero]
          constructor <;> intro z hz <;> simp [hl z hz, Task.layer, hi]
        have h1 := runCount_advance hx new i
        have h2 := setCount_advance hx new i
        obtain ⟨hx1, hx2⟩ := hother [(.restore r, pc)] (by simp)
        obtain ⟨hn1, hn2⟩ := hother new hnew
        obtain ⟨h3, h4⟩ := h.entry i y0 hy0
        have hlive : s'.liveCount i = s.liveCount i := by
          simp only [Sys.liveCount, hprog, hq, hr]
          omega
        have hset : setCount s'.running i = setCount s.running i := by
          rw [hr]
          omega
        rw [hlive, hset]
        exact ⟨h3, h4⟩

/-- Facts about the entry of the moving task's own layer. -/
theorem own_counts {k : ℕ} {r : Restore} {pc : Pc}
    (hx : s.running[k]? = some (.restore r, pc)) (new : List (Task × Pc)) :
    runCount (s.advance k new).running r.layer + (if pc = .setValue then 0 else 1) =
        runCount s.running r.layer + runCount new r.layer ∧
      setCount (s.advance k new).running r.layer + (if pc = .setValue then 1 else 0) =
        setCount s.running r.layer + setCount new r.layer := by
  have h1 := runCount_advance hx new r.layer
  have h2 := setCount_advance hx new r.layer
  rw [runCount_single] at h1
  rw [setCount_single] at h2
  constructor
  · rw [← h1]
    by_cases hpc : pc = .setValue <;> simp [hpc, Task.layer]
  · rw [← h2]
    by_cases hpc : pc = .setValue <;> simp [hpc, Task.layer]

/-- `taskDone`: the counter and the number of outstanding tasks go down together, and the
last task goes on to set the promise. -/
theorem Synced.countDown {k : ℕ} {r : Restore} (h : Synced w s)
    (hx : s.running[k]? = some (.restore r, .taskDone)) :
    Synced w (s.countDown s.layerSync.length k r) ∧
      ∃ new, (∀ y ∈ new, y.1 = .restore r) ∧
        (s.countDown s.layerSync.length k r).running = (s.advance k new).running := by
  set old := ((s.layerSync[r.layer]?).getD ⟨0, 0⟩).remaining with hold
  let dec : LayerSync → LayerSync := fun y => { y with remaining := y.remaining - 1 }
  by_cases hlast : old = 1
  · have hs' : s.countDown s.layerSync.length k r =
        { s with layerSync := s.layerSync.modify r.layer dec }.advance k
          [(.restore r, .setValue)] := by
      simp only [Sys.countDown, if_true, ← hold, if_pos hlast]
      rfl
    rw [hs']
    refine ⟨h.modify [(.restore r, .setValue)] dec hx rfl rfl rfl rfl (by simp)
      fun y hy => ?_, _, by simp, rfl⟩
    obtain ⟨h3, h4⟩ := h.entry _ y hy
    obtain ⟨h5, h6⟩ := own_counts hx [(.restore r, .setValue)]
    rw [runCount_single] at h5
    rw [setCount_single] at h6
    rw [hy, Option.getD_some] at hold
    rw [if_neg (by omega)] at h4
    have hnew : ({ s with layerSync := s.layerSync.modify r.layer dec }.advance k
        [(.restore r, .setValue)]).running = (s.advance k [(.restore r, .setValue)]).running := rfl
    simp only [Sys.liveCount] at h3
    simp [Task.layer] at h5 h6
    simp only [dec, Sys.liveCount, hnew]
    refine ⟨?_, ?_⟩
    · show y.remaining - 1 = ((progCount s.prog r.layer + queueCount s.queue r.layer +
        runCount (s.advance k [(.restore r, .setValue)]).running r.layer : ℕ) : ℤ)
      omega
    · rw [if_pos (by omega)]
      omega
  · have hs' : s.countDown s.layerSync.length k r =
        { s with layerSync := s.layerSync.modify r.layer dec }.advance k [] := by
      simp only [Sys.countDown, if_true, ← hold, if_neg hlast]
      rfl
    rw [hs']
    refine ⟨h.modify [] dec hx rfl rfl rfl rfl (by simp)
      fun y hy => ?_, [], by simp, rfl⟩
    obtain ⟨h3, h4⟩ := h.entry _ y hy
    obtain ⟨h5, h6⟩ := own_counts hx []
    rw [hy, Option.getD_some] at hold
    have hnew : ({ s with layerSync := s.layerSync.modify r.layer dec }.advance k
        []).running = (s.advance k []).running := rfl
    simp only [Sys.liveCount] at h3
    simp only [runCount_nil, setCount_nil, reduceCtorEq, if_false, Nat.add_zero] at h5 h6
    rw [if_neg (by omega)] at h4
    simp only [dec, Sys.liveCount, hnew]
    refine ⟨?_, ?_⟩
    · show y.remaining - 1 = ((progCount s.prog r.layer + queueCount s.queue r.layer +
        runCount (s.advance k []).running r.layer : ℕ) : ℤ)
      omega
    · rw [if_neg (by omega)]
      omega

theorem countDown_keeps (s : Sys) (n k : ℕ) (r : Restore) :
    (s.countDown n k r).prog = s.prog ∧ (s.countDown n k r).queue = s.queue ∧
      (s.countDown n k r).aborted = s.aborted ∧
      (s.countDown n k r).layerSync.length = s.layerSync.length ∧
      (s.countDown n k r).allocDone = s.allocDone ∧ (s.countDown n k r).states = s.states ∧
      (s.countDown n k r).weightLoaded = s.weightLoaded := by
  unfold Sys.countDown
  split
  · dsimp only
    split <;> simp [Sys.advance]
  · simp [Sys.advance]

theorem Synced.setValue {k : ℕ} {r : Restore} (h : Synced w s)
    (hx : s.running[k]? = some (.restore r, .setValue)) :
    Synced w ({ s with layerSync :=
      s.layerSync.modify r.layer fun y => { y with sets := y.sets + 1 } }.advance k []) := by
  refine h.modify [] (fun y => { y with sets := y.sets + 1 }) hx rfl rfl rfl rfl
    (by simp) fun y hy => ?_
  obtain ⟨h3, h4⟩ := h.entry _ y hy
  obtain ⟨h5, h6⟩ := own_counts hx []
  simp only [runCount_nil, setCount_nil, if_true, Nat.add_zero] at h5 h6
  refine ⟨?_, ?_⟩
  · rw [h3]
    show ((progCount s.prog r.layer + queueCount s.queue r.layer +
      runCount s.running r.layer : ℕ) : ℤ) = ((progCount s.prog r.layer +
        queueCount s.queue r.layer + runCount (s.advance k []).running r.layer : ℕ) : ℤ)
    rw [h5]
  · show y.sets + 1 + setCount (s.advance k []).running r.layer = if y.remaining = 0 then 1 else 0
    rw [← h4]
    omega

/-- The fields that a step of the running task at `k` leaves alone, whatever it does to the
tables. -/
theorem Inv.runStep {k : ℕ} {x : Task × Pc} {s' : Sys} (h : Inv w present s)
    (new : List (Task × Pc)) (hx : s.running[k]? = some x) (hnew : ∀ y ∈ new, y.1 = x.1)
    (hprog : s'.prog = s.prog) (hq : s'.queue = s.queue)
    (hr : s'.running = (s.advance k new).running) (hab : s'.aborted = s.aborted)
    (hlen : s'.layerSync.length = s.layerSync.length)
    (hsync : Synced w s → Synced w s')
    (hreg : ∀ k, (s.allocDone k).isSome → (s'.allocDone k).isSome)
    (hpres : ∀ k, s.Present k → s'.Present k)
    (hown : ∀ r, x.1 = .restore r → x.2 ≠ .taskDone → x.2 ≠ .setValue →
      s'.Present r.key ∨ s'.Early r) : Inv w present s' := by
  have hre := h.rebuilt (Or.inl (by rintro h0; simp [h0] at hx))
  exact h.poolStep hre hprog (hab.trans h.safe) hlen hsync hreg
    (fun r hi => hi.of_advance hx hnew hq hr)
    (fun r he => he.advance hx hprog hq hr (hown r)) hpres

theorem early_of_running {r : Restore} {pc : Pc} (h : (.restore r, pc) ∈ s.running)
    (hpc : pc ≠ .taskDone ∧ pc ≠ .setValue) : s.Early r := Or.inr (Or.inr ⟨pc, h, hpc⟩)

theorem mem_advance {k : ℕ} {x : Task × Pc} : x ∈ (s.advance k [x]).running := by
  simp [Sys.advance]

theorem Inv.taskStep {k : ℕ} {s' : Sys} (h : Inv w present s)
    (hs : MzCache.Sync.taskStep w.totals.length k s = some s') : Inv w present s' := by
  unfold MzCache.Sync.taskStep at hs
  cases hx : s.running[k]? with
  | none => simp [hx] at hs
  | some x =>
      obtain ⟨t, pc⟩ := x
      cases t with
      | alloc key =>
          simp only [hx] at hs
          obtain rfl := Option.some.inj hs
          refine h.runStep [] hx (by simp) rfl rfl rfl rfl rfl ?_ ?_ (fun k hk => ?_)
            (by simp)
          · exact fun hsync => hsync.advance [] hx rfl rfl rfl rfl
              (by simp [runCount_single, Task.layer]) (by simp [setCount_single, Task.layer])
          · intro k' hk'
            by_cases hkk : k' = key
            · subst hkk
              simpa [Sys.advance] using hk'
            · simpa [Sys.advance, Function.update_apply, hkk] using hk'
          · exact (Sys.present_congr rfl rfl k).mpr hk
      | restore r =>
          cases pc with
          | lookup =>
              -- the future was registered before the task was enqueued
              have hmem : s.Issued r := Or.inr ⟨_, List.mem_of_getElem? hx⟩
              obtain ⟨hitem, hdone⟩ := h.issued r hmem
              obtain ⟨b, hb⟩ := Option.isSome_iff_exists.mp
                ((h.registered r hitem).resolve_left hdone).1
              simp only [hx, hb] at hs
              obtain rfl := Option.some.inj hs
              refine h.runStep [(.restore r, .await)] hx (by simp) rfl rfl rfl rfl rfl ?_
                (fun _ hk => hk) (fun _ hk => hk) ?_
              · exact fun hsync => hsync.advance _ hx rfl rfl rfl rfl
                  (by simp [runCount_single]) (by simp [setCount_single])
              · rintro r' hr' - -
                obtain rfl := Task.restore.inj hr'
                exact Or.inr (early_of_running mem_advance (by simp))
          | await =>
              simp only [hx] at hs
              split at hs
              · obtain rfl := Option.some.inj hs
                refine h.runStep [(.restore r, .work)] hx (by simp) rfl rfl rfl rfl rfl ?_
                  (fun _ hk => hk) (fun _ hk => hk) ?_
                · exact fun hsync => hsync.advance _ hx rfl rfl rfl rfl
                    (by simp [runCount_single]) (by simp [setCount_single])
                · rintro r' hr' - -
                  obtain rfl := Task.restore.inj hr'
                  exact Or.inr (early_of_running mem_advance (by simp))
              · cases hs
          | work =>
              simp only [hx] at hs
              obtain rfl := Option.some.inj hs
              have hb : (s.bringBack r).running = s.running ∧ (s.bringBack r).prog = s.prog ∧
                  (s.bringBack r).queue = s.queue ∧ (s.bringBack r).aborted = s.aborted ∧
                  (s.bringBack r).layerSync = s.layerSync ∧
                  (s.bringBack r).allocDone = s.allocDone := by cases r <;> simp [Sys.bringBack]
              obtain ⟨hb1, hb2, hb3, hb4, hb5, hb6⟩ := hb
              have hrun : ((s.bringBack r).advance k [(.restore r, .taskDone)]).running =
                  (s.advance k [(.restore r, .taskDone)]).running := by
                simp only [Sys.advance, hb1]
              have hpres : ∀ k', ((s.bringBack r).advance k [(.restore r, .taskDone)]).Present k' ↔
                  (s.bringBack r).Present k' := Sys.present_congr rfl rfl
              refine h.runStep [(.restore r, .taskDone)] hx (by simp) hb2 hb3 hrun hb4
                (congrArg _ hb5) ?_ ?_ ?_ ?_
              · exact fun hsync => hsync.advance _ hx hb2 hb3 hb5 hrun
                  (by simp [runCount_single]) (by simp [setCount_single])
              · exact fun k' hk' => by simpa [Sys.advance, hb6] using hk'
              · exact fun k' hk' => (hpres k').mpr (Sys.bringBack_present (Or.inl hk'))
              · rintro r' hr' - -
                obtain rfl := Task.restore.inj hr'
                exact Or.inl ((hpres _).mpr (Sys.bringBack_present (Or.inr rfl)))
          | taskDone =>
              have hre := h.rebuilt (Or.inl (by rintro h0; simp [h0] at hx))
              have hfull := h.full hre
              simp only [hx] at hs
              obtain rfl := Option.some.inj hs
              rw [← hfull]
              have hsync := h.synced (Inv.clearSync_done hre)
              obtain ⟨hdown, new, hnew, hrun⟩ := hsync.countDown hx
              have hkeep := countDown_keeps s s.layerSync.length k r
              refine h.runStep new hx hnew hkeep.1 hkeep.2.1 hrun hkeep.2.2.1 hkeep.2.2.2.1
                (fun _ => hdown) (fun k' hk' => ?_) (fun k' hk' => ?_) (by simp)
              · rw [hkeep.2.2.2.2.1]
                exact hk'
              · exact (Sys.present_congr hkeep.2.2.2.2.2.1 hkeep.2.2.2.2.2.2 k').mpr hk'
          | setValue =>
              simp only [hx] at hs
              obtain rfl := Option.some.inj hs
              refine h.runStep [] hx (by simp) rfl rfl rfl rfl (by simp [Sys.advance])
                (fun hsync => hsync.setValue hx) (fun _ hk => hk)
                (fun k hk => (Sys.present_congr rfl rfl k).mpr hk) (by simp)

/-- The decode thread touches nothing the invariant speaks of. -/
theorem Inv.decodeStep (h : Inv w present s) (g : Bool) (d : Decode) :
    Inv w present { s with graphSignaled := g, decode := d } :=
  ⟨h.safe, h.order, h.quiet, h.pushes, fun hc => ⟨(h.synced hc).le, (h.synced hc).entry⟩,
    h.registered, h.items, h.waits, h.issued, h.restored, h.kept⟩

/-- Every step of the schedule keeps the invariant. -/
theorem Inv.act {workers : CoreType → ℕ} {a : Action} {s' : Sys} (h : Inv w present s)
    (hs : MzCache.Sync.act w.totals.length workers a s = some s') : Inv w present s' := by
  rw [MzCache.Sync.act.eq_def, if_neg (by simp [h.safe])] at hs
  cases a with
  | main => exact h.mainStep hs
  | start g => exact h.startTask hs
  | task k => exact h.taskStep hs
  | signal =>
      simp only at hs
      split at hs
      · exact Option.some.inj hs ▸ h.decodeStep _ _
      · cases hs
  | finish =>
      simp only at hs
      split at hs
      · exact Option.some.inj hs ▸ h.decodeStep s.graphSignaled _
      · cases hs

end Steps

end MzCache.Sync
