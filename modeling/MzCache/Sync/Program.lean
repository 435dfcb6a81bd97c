import MzCache.Sync.Invariant

/-!
# The programs of the variants

The four programs share their shape: some waiting instructions, `initialize_layer_sync`,
and a body that registers, allocates and restores every item of the cycle once. `Body` says
what the invariant needs of the last part, and each variant has one lemma that gives it.
-/

namespace MzCache.Sync

open MzCache MzCache.Lib

/-- The restoring task that an instruction enqueues. -/
def Instr.restore : Instr → Option Restore
  | .enqueue (.restore r) => some r
  | _ => none

/-- Instructions that only wait, or start the decode. -/
def Instr.free : Instr → Bool
  | .resetGraph | .startDecode | .waitGraph | .joinDecode | .waitLayer _ | .waitIdle _ => true
  | _ => false

/-- No item is restored twice, the counters count the items, and the walks that only allocate
run over the same chunks as those that restore. -/
structure Work.Ok (w : Work) : Prop where
  nodup : (w.items.map Restore.key).Nodup
  count : ∀ i, (w.items.countP fun r => r.layer = i : ℤ) = w.totals.getD i 0
  kvKeys : ∀ k, k ∈ w.kvKeys ↔ k ∈ (w.read ++ w.decomp).map Key.kv

/-- What the instructions after `initialize_layer_sync` do. -/
structure Body (w : Work) (b : List Instr) : Prop where
  noInit : ∀ x ∈ b, x.isInit = false
  order : b.Pairwise MayPrecede
  registers : ∀ r ∈ w.items, .register r.key ∈ b
  tasks : (b.filterMap Instr.restore).Perm w.items
  waits : ∀ k, .waitAlloc k ∈ b → ∃ r ∈ w.items, r.key = k

/-! ## Order -/

section Order

variable {x y : Instr}

theorem MayPrecede.of_late (hy : y.isInit = false)
    (hreg : ∀ r, x = .enqueue (.restore r) → y ≠ .register r.key)
    (hawait : ∀ k, x = .waitAlloc k → y ≠ .register k) : MayPrecede x y := by
  refine ⟨fun hinit => ?_, fun hclear => ?_, hreg, hawait⟩
  · simp [hy] at hinit
  · subst hclear
    simp [Instr.isInit] at hy

theorem MayPrecede.of_free (hx : x.free = true) : MayPrecede x y := by
  refine ⟨fun _ => ?_, fun _ => ?_, ?_, ?_⟩
  · cases x <;> simp_all [Instr.free, Instr.issues]
  · cases x <;> simp_all [Instr.free, Instr.push]
  · rintro r rfl
    simp [Instr.free] at hx
  · rintro k rfl
    simp [Instr.free] at hx

theorem MayPrecede.of_not_register (hy : y.isInit = false) (hr : ∀ k, y ≠ .register k) :
    MayPrecede x y := .of_late hy (fun r _ => hr r.key) fun k _ => hr k

theorem isInit_of_free (hx : x.free = true) : x.isInit = false := by
  cases x <;> simp_all [Instr.free, Instr.isInit]

theorem not_register_of_free (hx : x.free = true) (k : Key) : x ≠ .register k := by
  rintro rfl
  simp [Instr.free] at hx

theorem restore_of_free (hx : x.free = true) : x.restore = none := by
  cases x <;> simp_all [Instr.free, Instr.restore]

end Order

theorem initializeLayerSync_mem {w : Work} {x : Instr} (h : x ∈ w.initializeLayerSync) :
    x.isInit = true := by
  simp only [Work.initializeLayerSync, List.mem_cons, List.mem_map] at h
  rcases h with rfl | rfl | ⟨n, -, rfl⟩ <;> rfl

theorem initializeLayerSync_order (w : Work) : w.initializeLayerSync.Pairwise MayPrecede := by
  have hleft : ∀ {x y : Instr}, x.isInit = true → y ≠ .clearSync → MayPrecede x y := by
    intro x y hx hy
    refine ⟨fun _ => ?_, fun h => absurd h hy, ?_, ?_⟩
    · cases x <;> simp_all [Instr.isInit, Instr.issues]
    · rintro r rfl
      simp [Instr.isInit] at hx
    · rintro k rfl
      simp [Instr.isInit] at hx
  refine List.pairwise_cons.mpr ⟨fun y hy => ?_, List.pairwise_cons.mpr ⟨fun y hy => ?_, ?_⟩⟩
  · refine ⟨fun _ => rfl, fun _ => ⟨by simp, rfl⟩, by simp, by simp⟩
  · obtain ⟨n, -, rfl⟩ := List.mem_map.mp hy
    exact hleft rfl (by simp)
  · rw [List.pairwise_map]
    exact List.pairwise_of_forall fun _ _ => hleft rfl (by simp)

theorem initializeLayerSync_push (w : Work) :
    w.initializeLayerSync.filterMap Instr.push = w.totals := by
  simp [Work.initializeLayerSync, List.filterMap_cons, Instr.push, List.filterMap_map,
    Function.comp_def]

/-- Tasks of layer `i` that a program enqueues, counted on the restoring ones. -/
theorem progCount_eq (p : List Instr) (i : ℕ) :
    progCount p i = (p.filterMap Instr.restore).countP fun r => r.layer = i := by
  induction p with
  | nil => rfl
  | cons x p ih =>
      rw [progCount_cons, ih]
      cases x with
      | enqueue t =>
          cases t <;>
            simp [Instr.task, Instr.restore, countIn, Task.layer, List.countP_cons,
              List.filterMap_cons]
      | _ => simp [Instr.task, Instr.restore, countIn, List.filterMap_cons]

theorem mem_restore {p : List Instr} {r : Restore} :
    r ∈ p.filterMap Instr.restore ↔ .enqueue (.restore r) ∈ p := by
  rw [List.mem_filterMap]
  constructor
  · rintro ⟨x, hx, hr⟩
    cases x with
    | enqueue t =>
        cases t with
        | alloc k => simp [Instr.restore] at hr
        | restore r' =>
            obtain rfl := Option.some.inj hr
            exact hx
    | _ => simp [Instr.restore] at hr
  · exact fun h => ⟨_, h, rfl⟩

section Start

variable {w : Work} {pre b : List Instr} {s : Sys}

/-- A cycle whose program has this shape starts in the invariant, whatever the tables of the
previous cycle hold. -/
theorem Body.inv (hb : Body w b) (hw : w.Ok) (hpre : ∀ x ∈ pre, x.free = true)
    (hprog : s.prog = pre ++ (w.initializeLayerSync ++ b)) (hq : s.queue = fun _ => [])
    (hr : s.running = []) (hab : s.aborted = false) : Inv w s.Present s := by
  have hmem : ∀ x ∈ b, x ∈ s.prog := fun x hx => by simp [hprog, hx]
  have hback : ∀ x ∈ s.prog, x.isInit = false → x.free = false → x ∈ b := by
    intro x hx h1 h2
    rw [hprog, List.mem_append, List.mem_append] at hx
    rcases hx with hx | hx | hx
    · simp [hpre x hx] at h2
    · simp [initializeLayerSync_mem hx] at h1
    · exact hx
  have hcs : Instr.clearSync ∈ s.prog := by simp [hprog, Work.initializeLayerSync]
  have hrestore : s.prog.filterMap Instr.restore = b.filterMap Instr.restore := by
    have h1 : pre.filterMap Instr.restore = [] :=
      List.filterMap_eq_nil_iff.mpr fun x hx => restore_of_free (hpre x hx)
    have h2 : w.initializeLayerSync.filterMap Instr.restore = [] := by
      refine List.filterMap_eq_nil_iff.mpr fun x hx => ?_
      have := initializeLayerSync_mem hx
      cases x <;> simp_all [Instr.isInit, Instr.restore]
    rw [hprog, List.filterMap_append, List.filterMap_append, h1, h2, List.nil_append,
      List.nil_append]
  constructor
  case safe => exact hab
  case order =>
    rw [hprog, List.pairwise_append, List.pairwise_append]
    refine ⟨?_, ⟨initializeLayerSync_order w, hb.order, fun x hx y hy => ?_⟩, fun x hx y _ =>
      .of_free (hpre x hx)⟩
    · exact List.pairwise_of_forall_mem_list fun x hx _ _ => .of_free (hpre x hx)
    · have hinit := initializeLayerSync_mem hx
      refine .of_late (hb.noInit y hy) ?_ ?_
      · rintro r rfl
        simp [Instr.isInit] at hinit
      · rintro k rfl
        simp [Instr.isInit] at hinit
  case quiet =>
    refine fun _ => ⟨hq, hr, fun _ => Iff.rfl, fun i => ?_⟩
    rw [progCount_eq, hrestore, hb.tasks.countP_eq]
    exact hw.count i
  case pushes =>
    have h1 : pre.filterMap Instr.push = [] := by
      refine List.filterMap_eq_nil_iff.mpr fun x hx => ?_
      have := hpre x hx
      cases x <;> simp_all [Instr.free, Instr.push]
    have h2 : b.filterMap Instr.push = [] := by
      refine List.filterMap_eq_nil_iff.mpr fun x hx => ?_
      have := hb.noInit x hx
      cases x <;> simp_all [Instr.isInit, Instr.push]
    rw [if_pos hcs, hprog, List.filterMap_append, List.filterMap_append, h1, h2,
      initializeLayerSync_push, List.nil_append, List.append_nil]
  case synced => exact fun h => absurd hcs h
  case registered => exact fun r hr => Or.inl (hmem _ (hb.registers r hr))
  case items => exact fun r h => hb.tasks.mem_iff.mp (mem_restore.mpr (hback _ h rfl rfl))
  case waits => exact fun k h => hb.waits k (hback _ h rfl rfl)
  case issued =>
    rintro r (⟨g, hg⟩ | ⟨pc, hpc⟩)
    · simp [hq] at hg
    · simp [hr] at hpc
  case restored =>
    exact fun r hr => Or.inr (Or.inl (hmem _ (mem_restore.mp (hb.tasks.mem_iff.mpr hr))))
  case kept => exact fun _ h => h

end Start

/-! ## The bodies -/

theorem mem_restoreAll {rs : List Restore} {x : Instr} :
    x ∈ Work.restoreAll rs ↔ ∃ r ∈ rs, x = .register r.key ∨ x = .enqueue (.alloc r.key) ∨
      x = .enqueue (.restore r) := by
  simp [Work.restoreAll]

theorem restoreAll_order {rs : List Restore} (h : (rs.map Restore.key).Nodup) :
    (Work.restoreAll rs).Pairwise MayPrecede := by
  induction rs with
  | nil => exact List.Pairwise.nil
  | cons r rs ih =>
      rw [List.map_cons, List.nodup_cons] at h
      have hsplit : Work.restoreAll (r :: rs) = .register r.key :: .enqueue (.alloc r.key) ::
          .enqueue (.restore r) :: Work.restoreAll rs := rfl
      have hlate : ∀ y ∈ Work.restoreAll rs, y.isInit = false := by
        intro y hy
        obtain ⟨r', -, rfl | rfl | rfl⟩ := mem_restoreAll.mp hy <;> rfl
      -- a later item has another key
      have hother : ∀ y ∈ Work.restoreAll rs, MayPrecede (.enqueue (.restore r)) y := by
        intro y hy
        refine .of_late (hlate y hy) (fun r' hr' => ?_) (by simp)
        obtain rfl := Task.restore.inj (Instr.enqueue.inj hr')
        rintro rfl
        obtain ⟨r', hr', hk | hk | hk⟩ := mem_restoreAll.mp hy
        · exact h.1 (Instr.register.inj hk ▸ List.mem_map_of_mem hr')
        · cases hk
        · cases hk
      rw [hsplit]
      refine List.pairwise_cons.mpr ⟨fun y hy => ?_, List.pairwise_cons.mpr ⟨fun y hy => ?_,
        List.pairwise_cons.mpr ⟨hother, ih h.2⟩⟩⟩
      · refine .of_late ?_ (by simp) (by simp)
        simp only [List.mem_cons] at hy
        rcases hy with rfl | rfl | hy
        · rfl
        · rfl
        · exact hlate y hy
      · refine .of_late ?_ (by simp) (by simp)
        simp only [List.mem_cons] at hy
        rcases hy with rfl | hy
        · rfl
        · exact hlate y hy

theorem restore_restoreAll (rs : List Restore) :
    (Work.restoreAll rs).filterMap Instr.restore = rs := by
  induction rs with
  | nil => rfl
  | cons r rs ih =>
      show r :: (Work.restoreAll rs).filterMap Instr.restore = r :: rs
      rw [ih]

theorem restoreAll_items (w : Work) :
    w.enqueueDecompLoadChunks ++ w.reloadWLayers = Work.restoreAll w.items := by
  simp [Work.enqueueDecompLoadChunks, Work.reloadWLayers, Work.restoreAll, Work.items,
    List.flatMap_append]

section Bodies

variable {w : Work} {pre post b : List Instr}

/-- Waiting instructions before and after a body do no harm. -/
theorem Body.surround (hb : Body w b) (pre : List Instr) (hpre : ∀ x ∈ pre, x.free = true)
    (hpost : ∀ x ∈ post, x.free = true) : Body w (pre ++ b ++ post) := by
  have hnone : ∀ l : List Instr, (∀ x ∈ l, x.free = true) → l.filterMap Instr.restore = [] :=
    fun l hl => List.filterMap_eq_nil_iff.mpr fun x hx => restore_of_free (hl x hx)
  have hfree : ∀ l : List Instr, (∀ x ∈ l, x.free = true) → l.Pairwise MayPrecede := fun l hl =>
    List.pairwise_of_forall_mem_list fun x hx _ _ => .of_free (hl x hx)
  constructor
  case noInit =>
    intro x hx
    rw [List.mem_append, List.mem_append] at hx
    rcases hx with (hx | hx) | hx
    · exact isInit_of_free (hpre x hx)
    · exact hb.noInit x hx
    · exact isInit_of_free (hpost x hx)
  case order =>
    rw [List.pairwise_append, List.pairwise_append]
    refine ⟨⟨hfree pre hpre, hb.order, fun x hx y _ => .of_free (hpre x hx)⟩, hfree post hpost,
      fun x _ y hy => ?_⟩
    exact .of_not_register (isInit_of_free (hpost y hy)) (not_register_of_free (hpost y hy))
  case registers => exact fun r hr => by simp [hb.registers r hr]
  case tasks =>
    rw [List.filterMap_append, List.filterMap_append, hnone pre hpre, hnone post hpost,
      List.nil_append, List.append_nil]
    exact hb.tasks
  case waits =>
    intro k hk
    rw [List.mem_append, List.mem_append] at hk
    rcases hk with (hk | hk) | hk
    · simpa [Instr.free] using hpre _ hk
    · exact hb.waits k hk
    · simpa [Instr.free] using hpost _ hk

/-- Registration, allocation and restoring task, item by item. -/
theorem body_restoreAll (hw : w.Ok) : Body w (Work.restoreAll w.items) where
  noInit := by
    intro y hy
    obtain ⟨r, -, rfl | rfl | rfl⟩ := mem_restoreAll.mp hy <;> rfl
  order := restoreAll_order hw.nodup
  registers := fun r hr => mem_restoreAll.mpr ⟨r, hr, Or.inl rfl⟩
  tasks := by rw [restore_restoreAll]
  waits := by
    intro k hk
    obtain ⟨r, -, h | h | h⟩ := mem_restoreAll.mp hk <;> cases h

theorem waitLayers_free (w : Work) : ∀ x ∈ w.waitLayers, x.free = true := by
  intro x hx
  obtain ⟨i, -, rfl⟩ := List.mem_map.mp hx
  rfl

theorem finishSwapinCycle_free (w : Work) : ∀ x ∈ w.finishSwapinCycle, x.free = true := by
  intro x hx
  rcases List.mem_append.mp hx with hx | hx
  · exact waitLayers_free w x hx
  · simp only [List.mem_cons, List.not_mem_nil, or_false] at hx
    rcases hx with rfl | rfl | rfl <;> rfl

theorem mem_allocAll {ks : List Key} {x : Instr} :
    x ∈ Work.allocAll ks ↔ ∃ k ∈ ks, x = .register k ∨ x = .enqueue (.alloc k) := by
  simp [Work.allocAll]

/-- Registration and allocation may precede everything that is not rebuilt. -/
theorem MayPrecede.of_allocAll {ks : List Key} {x y : Instr} (hx : x ∈ Work.allocAll ks)
    (hy : y.isInit = false) : MayPrecede x y := by
  obtain ⟨k, -, rfl | rfl⟩ := mem_allocAll.mp hx <;> exact .of_late hy (by simp) (by simp)

/-- A list whose instructions neither rebuild nor register. -/
def Tame (l : List Instr) : Prop := ∀ x ∈ l, x.isInit = false ∧ ∀ k, x ≠ .register k

theorem Tame.order {l : List Instr} (h : Tame l) : l.Pairwise MayPrecede :=
  List.pairwise_of_forall_mem_list fun _ _ y hy => .of_not_register (h y hy).1 (h y hy).2

theorem Tame.append {l m : List Instr} (hl : Tame l) (hm : Tame m) : Tame (l ++ m) :=
  fun x hx => (List.mem_append.mp hx).elim (hl x) (hm x)

/-- Nothing keeps a list that neither rebuilds nor registers from following. -/
theorem pairwise_append_tame {l m : List Instr} (hl : l.Pairwise MayPrecede) (hm : Tame m) :
    (l ++ m).Pairwise MayPrecede :=
  List.pairwise_append.mpr
    ⟨hl, hm.order, fun _ _ y hy => .of_not_register (hm y hy).1 (hm y hy).2⟩

theorem tame_waitAllocs (ks : List Key) : Tame (Work.waitAllocs ks) := by
  intro x hx
  obtain ⟨k, -, rfl⟩ := List.mem_map.mp hx
  exact ⟨rfl, by simp⟩

theorem tame_enqueue {α : Type*} (l : List α) (f : α → Task) :
    Tame (l.map fun a => .enqueue (f a)) := by
  intro x hx
  obtain ⟨a, -, rfl⟩ := List.mem_map.mp hx
  exact ⟨rfl, by simp⟩

theorem allocAll_order (ks : List Key) : (Work.allocAll ks).Pairwise MayPrecede := by
  have hlate : ∀ y ∈ Work.allocAll ks, y.isInit = false := by
    intro y hy
    obtain ⟨k, -, rfl | rfl⟩ := mem_allocAll.mp hy <;> rfl
  exact List.pairwise_of_forall_mem_list fun _ hx y hy => .of_allocAll hx (hlate y hy)

theorem restore_allocAll (ks : List Key) : (Work.allocAll ks).filterMap Instr.restore = [] := by
  refine List.filterMap_eq_nil_iff.mpr fun x hx => ?_
  obtain ⟨k, -, rfl | rfl⟩ := mem_allocAll.mp hx <;> rfl

theorem restore_waitAllocs (ks : List Key) :
    (Work.waitAllocs ks).filterMap Instr.restore = [] := by
  refine List.filterMap_eq_nil_iff.mpr fun x hx => ?_
  obtain ⟨k, -, rfl⟩ := List.mem_map.mp hx
  rfl

/-- The weights are allocated and waited for before the chunks are. -/
theorem allocOnly_order (w : Work) :
    (w.reloadWLayersAllocOnly ++ w.enqueueKvAllocOnly).Pairwise MayPrecede := by
  have hkv := pairwise_append_tame (allocAll_order w.kvKeys) (tame_waitAllocs w.kvKeys)
  have hweight := pairwise_append_tame (allocAll_order w.weightKeys) (tame_waitAllocs w.weightKeys)
  refine List.pairwise_append.mpr ⟨hweight, hkv, fun x hx y hy => ?_⟩
  have hy' : y.isInit = false ∧ ∀ l, y ≠ .register (.weight l) := by
    rcases List.mem_append.mp hy with hy | hy
    · obtain ⟨k, hk, rfl | rfl⟩ := mem_allocAll.mp hy
      · obtain ⟨c, -, rfl⟩ := List.mem_map.mp hk
        exact ⟨rfl, by simp⟩
      · exact ⟨rfl, by simp⟩
    · obtain ⟨hi, hr⟩ := tame_waitAllocs _ y hy
      exact ⟨hi, fun l => hr _⟩
  rcases List.mem_append.mp hx with hx | hx
  · exact .of_allocAll hx hy'.1
  · obtain ⟨k, hk, rfl⟩ := List.mem_map.mp hx
    obtain ⟨l, -, rfl⟩ := List.mem_map.mp hk
    refine .of_late hy'.1 (by simp) ?_
    rintro k' hk'
    obtain rfl := Instr.waitAlloc.inj hk'
    exact hy'.2 l

/-- What the instructions of `allocThenRestore` after the two allocating walks are. -/
theorem tame_afterAlloc (w : Work) :
    Tame (Work.waitAllocs w.weightKeys ++ Work.waitAllocs w.kvKeys ++
      w.enqueueKvDecompReadOnly ++ w.reloadWLayersReloadOnly) := by
  refine (((tame_waitAllocs _).append (tame_waitAllocs _)).append ?_).append ?_
  · exact (tame_enqueue _ _).append (tame_enqueue _ _)
  · refine (tame_enqueue _ _).append ?_
    intro x hx
    obtain rfl := List.mem_singleton.mp hx
    exact ⟨rfl, by simp⟩

theorem allocThenRestore_eq (w : Work) :
    w.allocThenRestore = (w.reloadWLayersAllocOnly ++ w.enqueueKvAllocOnly) ++
      (Work.waitAllocs w.weightKeys ++ Work.waitAllocs w.kvKeys ++ w.enqueueKvDecompReadOnly ++
        w.reloadWLayersReloadOnly) := by
  simp [Work.allocThenRestore]

theorem mem_items {r : Restore} :
    r ∈ w.items ↔ (∃ c ∈ w.read, r = .kvRead c) ∨ (∃ c ∈ w.decomp, r = .kvDecomp c) ∨
      ∃ l ∈ w.weights, r = .weightRead l := by
  simp only [Work.items, List.mem_append, List.mem_map, or_assoc, eq_comm]

/-- The keys of the allocating walks are those of the items. -/
theorem Work.Ok.mem_keys (hw : w.Ok) (k : Key) :
    k ∈ w.weightKeys ++ w.kvKeys ↔ ∃ r ∈ w.items, r.key = k := by
  rw [List.mem_append, hw.kvKeys, Work.weightKeys]
  simp only [Work.items, List.mem_append, List.mem_map, List.map_append]
  constructor
  · rintro (⟨l, hl, rfl⟩ | ⟨c, hc, rfl⟩ | ⟨c, hc, rfl⟩)
    · exact ⟨_, Or.inr ⟨l, hl, rfl⟩, rfl⟩
    · exact ⟨_, Or.inl (Or.inl ⟨c, hc, rfl⟩), rfl⟩
    · exact ⟨_, Or.inl (Or.inr ⟨c, hc, rfl⟩), rfl⟩
  · rintro ⟨r, (⟨c, hc, rfl⟩ | ⟨c, hc, rfl⟩) | ⟨l, hl, rfl⟩, rfl⟩
    · exact Or.inr (Or.inl ⟨c, hc, rfl⟩)
    · exact Or.inr (Or.inr ⟨c, hc, rfl⟩)
    · exact Or.inl ⟨l, hl, rfl⟩

/-- The two allocating walks, the waits, and the tasks. -/
theorem body_allocThenRestore (hw : w.Ok) : Body w w.allocThenRestore := by
  rw [allocThenRestore_eq]
  have htame := tame_afterAlloc w
  constructor
  case noInit =>
    intro x hx
    rcases List.mem_append.mp hx with hx | hx
    · simp only [Work.reloadWLayersAllocOnly, Work.enqueueKvAllocOnly, List.mem_append] at hx
      rcases hx with (hx | hx) | hx | hx
      · obtain ⟨k, -, rfl | rfl⟩ := mem_allocAll.mp hx <;> rfl
      · exact (tame_waitAllocs _ x hx).1
      · obtain ⟨k, -, rfl | rfl⟩ := mem_allocAll.mp hx <;> rfl
      · exact (tame_waitAllocs _ x hx).1
    · exact (htame x hx).1
  case order => exact pairwise_append_tame (allocOnly_order w) htame
  case registers =>
    intro r hr
    have hk := (hw.mem_keys r.key).mpr ⟨r, hr, rfl⟩
    simp only [Work.reloadWLayersAllocOnly, Work.enqueueKvAllocOnly, List.mem_append]
    rcases List.mem_append.mp hk with hk | hk
    · exact Or.inl (Or.inl (Or.inl (mem_allocAll.mpr ⟨_, hk, Or.inl rfl⟩)))
    · exact Or.inl (Or.inr (Or.inl (mem_allocAll.mpr ⟨_, hk, Or.inl rfl⟩)))
  case tasks =>
    have henq : ∀ {α : Type} (l : List α) (f : α → Restore),
        (l.map fun a => Instr.enqueue (.restore (f a))).filterMap Instr.restore = l.map f := by
      intro α l f
      rw [List.filterMap_map]
      exact congrFun List.filterMap_eq_map l
    simp only [Work.reloadWLayersAllocOnly, Work.enqueueKvAllocOnly, Work.enqueueKvDecompReadOnly,
      Work.reloadWLayersReloadOnly, List.filterMap_append, restore_allocAll, restore_waitAllocs,
      henq, List.nil_append]
    refine (List.perm_append_comm.append_right _).trans ?_
    simp [Work.items, Instr.restore, List.filterMap_cons]
  case waits =>
    intro k hk
    refine (hw.mem_keys k).mp ?_
    have hwait : ∀ ks : List Key, .waitAlloc k ∈ Work.waitAllocs ks → k ∈ ks := fun ks h => by
      simpa [Work.waitAllocs] using h
    have halloc : ∀ ks : List Key, .waitAlloc k ∉ Work.allocAll ks := fun ks h => by
      obtain ⟨k', -, h | h⟩ := mem_allocAll.mp h <;> cases h
    simp only [Work.reloadWLayersAllocOnly, Work.enqueueKvAllocOnly, Work.enqueueKvDecompReadOnly,
      Work.reloadWLayersReloadOnly, List.mem_append, halloc, false_or] at hk
    rw [List.mem_append]
    rcases hk with (hk | hk) | ((hk | hk) | hk | hk) | hk | hk
    · exact Or.inl (hwait _ hk)
    · exact Or.inr (hwait _ hk)
    · exact Or.inl (hwait _ hk)
    · exact Or.inr (hwait _ hk)
    · simp at hk
    · simp at hk
    · simp at hk
    · simp at hk

/-! ## The shape of the programs -/

/-- What stands before `initialize_layer_sync`. -/
def Variant.prelude : Variant → List Instr
  | .generate => [.resetGraph]
  | .noAllocOverlap => [.resetGraph, .startDecode, .waitGraph]
  | .noPrefillOverlap | .noOverlap => []

theorem Variant.prelude_free (v : Variant) : ∀ x ∈ v.prelude, x.free = true := by
  cases v <;> simp [Variant.prelude, Instr.free]

/-- Every program is a prelude, the rebuilding of the tables, and a body. -/
theorem program_shape (hw : w.Ok) (v : Variant) :
    ∃ b, w.program v = v.prelude ++ (w.initializeLayerSync ++ b) ∧ Body w b := by
  have hfin := finishSwapinCycle_free w
  have hlay := waitLayers_free w
  have hjoin : ∀ x ∈ Instr.joinDecode :: w.finishSwapinCycle, x.free = true := by
    simpa [Instr.free] using hfin
  have hlate : ∀ x ∈ w.waitLayers ++ ([.startDecode, .joinDecode] ++ w.finishSwapinCycle),
      x.free = true := by
    intro x hx
    rw [List.mem_append, List.mem_append] at hx
    rcases hx with hx | hx | hx
    · exact hlay x hx
    · simp only [List.mem_cons, List.not_mem_nil, or_false] at hx
      rcases hx with rfl | rfl <;> rfl
    · exact hfin x hx
  cases v with
  | generate =>
      refine ⟨_, ?_, (body_restoreAll hw).surround [.startDecode, .waitGraph]
        (by simp [Instr.free]) hjoin⟩
      simp [Work.program, Work.swapinGenerate, Variant.prelude, ← restoreAll_items]
  | noPrefillOverlap =>
      refine ⟨_, ?_, (body_restoreAll hw).surround [] (by simp) hlate⟩
      simp [Work.program, Work.swapinGenerateNoPrefillOverlap, Variant.prelude,
        ← restoreAll_items]
  | noAllocOverlap =>
      refine ⟨_, ?_, (body_allocThenRestore hw).surround [] (by simp) hjoin⟩
      simp [Work.program, Work.swapinGenerateNoAllocOverlap, Variant.prelude]
  | noOverlap =>
      refine ⟨_, ?_, (body_allocThenRestore hw).surround [] (by simp) hlate⟩
      simp [Work.program, Work.swapinGenerateNoOverlap, Variant.prelude]

end Bodies

/-- Every variant starts in the invariant. -/
theorem CycleStart.inv {v : Variant} {w : Work} {c : Core} {s : Sys} (h : CycleStart v w c s)
    (hw : w.Ok) : Inv w s.Present s := by
  obtain ⟨b, hprog, hb⟩ := program_shape hw v
  exact hb.inv hw v.prelude_free (h.prog.trans hprog) h.queue h.running h.aborted

end MzCache.Sync
