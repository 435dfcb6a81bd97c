import Mathlib

/-!
# Stacks of bump arenas

A client appends records to the last of a list of arenas and takes them back in the
opposite order. Only the arenas' tops matter here: a record is a `Span` of one arena,
and `Stacked` says that every span lies below the top of its arena and that each span
stands over all those pushed before it. Pushing and truncating keep `Stacked`, and
spans of a stack never overlap.
-/

namespace MzCache.Lib

/-- A half-open range of one arena. -/
structure Span where
  stack : Nat
  off : Nat
  stop : Nat
deriving DecidableEq, Repr

/-- The range lies below the top of its arena. -/
structure Span.In (tops : List Nat) (a : Span) : Prop where
  le : a.off ≤ a.stop
  below : ∃ top, tops[a.stack]? = some top ∧ a.stop ≤ top

/-- `a` lies in a later arena than `b`, or behind it in the same one. -/
def Span.Over (a b : Span) : Prop :=
  b.stack < a.stack ∨ (b.stack = a.stack ∧ b.stop ≤ a.off)

/-- No byte belongs to both ranges. -/
def Span.Disjoint (a b : Span) : Prop :=
  a.stack ≠ b.stack ∨ a.stop ≤ b.off ∨ b.stop ≤ a.off

theorem Span.Over.disjoint {a b : Span} (h : a.Over b) : a.Disjoint b := by
  rcases h with h | ⟨_, h⟩
  · exact Or.inl (by omega)
  · exact Or.inr (Or.inr h)

theorem Span.Disjoint.symm {a b : Span} (h : a.Disjoint b) : b.Disjoint a := by
  unfold Span.Disjoint at *
  omega

/-- The spans pushed so far, the last one first. -/
structure Stacked (tops : List Nat) (l : List Span) : Prop where
  inside : ∀ a ∈ l, a.In tops
  order : l.Pairwise Span.Over

/-- Tops may only grow under a stack. -/
def TopsLe (tops tops' : List Nat) : Prop :=
  ∀ (i top : Nat), tops[i]? = some top → ∃ top', tops'[i]? = some top' ∧ top ≤ top'

section

variable {tops tops' : List Nat} {a : Span} {l : List Span}

theorem Span.In.mono (h : a.In tops) (hle : TopsLe tops tops') : a.In tops' := by
  obtain ⟨top, hget, hstop⟩ := h.below
  obtain ⟨top', hget', hle'⟩ := hle _ _ hget
  exact ⟨h.le, top', hget', hstop.trans hle'⟩

theorem Stacked.nil : Stacked tops [] := ⟨fun _ h => absurd h (by simp), .nil⟩

/-- What was pushed and not taken back is still stacked. -/
theorem Stacked.sublist {l' : List Span} (h : Stacked tops l) (hs : l'.Sublist l) :
    Stacked tops l' :=
  ⟨fun a ha => h.inside a (hs.subset ha), h.order.sublist hs⟩

/-- A span at or behind every top goes on the stack. -/
theorem Stacked.push (h : Stacked tops l) (hle : TopsLe tops tops') (ha : a.In tops')
    (hover : ∀ (i top : Nat), tops[i]? = some top → i < a.stack ∨ (i = a.stack ∧ top ≤ a.off)) :
    Stacked tops' (a :: l) := by
  refine ⟨?_, List.pairwise_cons.mpr ⟨?_, h.order⟩⟩
  · intro b hb
    rcases List.mem_cons.mp hb with rfl | hb
    · exact ha
    · exact (h.inside b hb).mono hle
  · intro b hb
    obtain ⟨top, hget, hstop⟩ := (h.inside b hb).below
    rcases hover _ _ hget with hlt | ⟨heq, hle'⟩
    · exact Or.inl hlt
    · exact Or.inr ⟨heq, hstop.trans hle'⟩

/-- Bump allocation: arenas may be added, then the last one takes `n` bytes more. -/
theorem Stacked.append {more : List Nat} (h : Stacked tops l) (hmore : tops <+: more)
    (hne : more ≠ []) (n : Nat) :
    Stacked (more.dropLast ++ [more.getLast hne + n])
      (⟨more.length - 1, more.getLast hne, more.getLast hne + n⟩ :: l) := by
  have hpos : 0 < more.length := List.length_pos_iff.mpr hne
  have hdl : more.dropLast.length = more.length - 1 := List.length_dropLast
  have hlast : (more.dropLast ++ [more.getLast hne + n])[more.length - 1]? =
      some (more.getLast hne + n) := by
    rw [List.getElem?_append_right (by omega), hdl, Nat.sub_self]
    rfl
  -- a top of the old stack is one of `more`, and the last one only grows
  have hold : ∀ (i top : Nat), tops[i]? = some top → more[i]? = some top := by
    intro i top hget
    obtain ⟨rest, rfl⟩ := hmore
    rw [List.getElem?_append_left (List.getElem?_eq_some_iff.mp hget).1, hget]
  refine h.push ?_ ⟨by simp, _, hlast, le_rfl⟩ ?_
  · intro i top hget
    have hm := hold i top hget
    have hlt : i < more.length := (List.getElem?_eq_some_iff.mp hm).1
    by_cases hi : i = more.length - 1
    · subst hi
      rw [← List.getLast?_eq_getElem?, List.getLast?_eq_some_getLast hne, Option.some.injEq] at hm
      exact ⟨_, hlast, by omega⟩
    · refine ⟨top, ?_, le_rfl⟩
      rw [List.getElem?_append_left (by omega), List.getElem?_dropLast, if_pos (by omega), hm]
  · intro i top hget
    have hm := hold i top hget
    have hlt : i < more.length := (List.getElem?_eq_some_iff.mp hm).1
    show i < more.length - 1 ∨ (i = more.length - 1 ∧ top ≤ more.getLast hne)
    by_cases hi : i = more.length - 1
    · subst hi
      rw [← List.getLast?_eq_getElem?, List.getLast?_eq_some_getLast hne, Option.some.injEq] at hm
      exact Or.inr ⟨rfl, hm.ge⟩
    · exact Or.inl (by omega)

/-- The tops cut down to what the newest span needs. -/
def truncate (tops : List Nat) (a : Span) : List Nat :=
  (tops.take (a.stack + 1)).set a.stack a.stop

theorem truncate_self (ha : a.In tops) : (truncate tops a)[a.stack]? = some a.stop := by
  obtain ⟨top, hget, _⟩ := ha.below
  have hlt : a.stack < tops.length := (List.getElem?_eq_some_iff.mp hget).1
  unfold truncate
  rw [List.getElem?_set_self (by rw [List.length_take]; omega)]

theorem truncate_lower {i : Nat} (hi : i < a.stack) : (truncate tops a)[i]? = tops[i]? := by
  unfold truncate
  rw [List.getElem?_set_ne (by omega), List.getElem?_take_of_lt (by omega)]

/-- Cutting the tops down to the newest span keeps the stack. -/
theorem Stacked.truncate (h : Stacked tops (a :: l)) :
    Stacked (truncate tops a) (a :: l) := by
  have ha := h.inside a List.mem_cons_self
  refine ⟨?_, h.order⟩
  intro b hb
  rcases List.mem_cons.mp hb with rfl | hmem
  · exact ⟨ha.le, b.stop, truncate_self ha, le_rfl⟩
  · have hb' := h.inside b hb
    rcases List.rel_of_pairwise_cons h.order hmem with hlt | ⟨heq, hle⟩
    · obtain ⟨top, hget, hstop⟩ := hb'.below
      exact ⟨hb'.le, top, (truncate_lower hlt).trans hget, hstop⟩
    · have hstop : b.stop ≤ a.stop := hle.trans ha.le
      exact ⟨hb'.le, a.stop, by rw [heq]; exact truncate_self ha, hstop⟩

/-- Two positions of a stack never share a byte. -/
theorem Stacked.disjoint (h : Stacked tops l) : l.Pairwise Span.Disjoint :=
  h.order.imp Span.Over.disjoint

end

end MzCache.Lib
