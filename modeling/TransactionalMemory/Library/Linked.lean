import Mathlib.Data.List.Nodup
import Mathlib.Logic.Function.Basic

/-!
# Chains of cells

A linked list in memory: a pointer leads to a cell, the cell holds the pointer to the next one.
-/

namespace Concurrency

variable {N C : Type*} (next : C → Option N) (heap : N → Option C)

inductive Linked : Option N → List (N × C) → Prop where
  | nil : Linked none []
  | cons {n : N} {c : C} {rest : List (N × C)} (hcell : heap n = some c)
      (hrest : Linked (next c) rest) : Linked (some n) ((n, c) :: rest)

variable {next heap} {head : Option N} {cells : List (N × C)}

theorem Linked.cell (h : Linked next heap head cells) {n : N} {c : C} (hmem : (n, c) ∈ cells) :
    heap n = some c := by
  induction h with
  | nil => simp at hmem
  | cons hcell _ ih =>
      rcases List.mem_cons.mp hmem with heq | hmem
      · obtain ⟨rfl, rfl⟩ := Prod.mk.inj heq
        exact hcell
      · exact ih hmem

/-- Only the cells of a chain matter to it. -/
theorem Linked.frame {heap' : N → Option C} (h : Linked next heap head cells)
    (hsame : ∀ e ∈ cells, heap' e.1 = heap e.1) : Linked next heap' head cells := by
  induction h with
  | nil => exact .nil
  | cons hcell _ ih =>
      refine .cons ((hsame _ List.mem_cons_self).trans hcell) (ih fun e he => ?_)
      exact hsame e (List.mem_cons_of_mem _ he)

theorem Linked.head_cell (h : Linked next heap head cells) {n : N} {c : C} (hhead : head = some n)
    (hcell : heap n = some c) :
    ∃ rest, cells = (n, c) :: rest ∧ Linked next heap (next c) rest := by
  cases h with
  | nil => cases hhead
  | @cons n' c' rest hcell' hrest =>
      cases hhead
      obtain rfl : c' = c := by simpa [hcell'] using hcell
      exact ⟨rest, rfl, hrest⟩

theorem Linked.unique {cells' : List (N × C)} (h : Linked next heap head cells)
    (h' : Linked next heap head cells') : cells = cells' := by
  induction h generalizing cells' with
  | nil => cases h'; rfl
  | cons hcell _ ih =>
      obtain ⟨rest, rfl, hrest⟩ := h'.head_cell rfl hcell
      rw [ih hrest]

theorem Linked.head_of_nil (h : Linked next heap head []) : head = none := by
  cases h
  rfl

theorem Linked.head_of_cons {n : N} {c : C} {post : List (N × C)}
    (h : Linked next heap head ((n, c) :: post)) : head = some n := by
  cases h
  rfl

/-- **Rewriting the end of a chain**: what comes before it must not be touched. -/
theorem Linked.splice {heap' : N → Option C} {pre : List (N × C)} {n : N} {c : C}
    {post post' : List (N × C)} (h : Linked next heap head (pre ++ (n, c) :: post))
    (hsame : ∀ e ∈ pre, heap' e.1 = heap e.1) (hpost : Linked next heap' (some n) post') :
    Linked next heap' head (pre ++ post') := by
  induction pre generalizing head with
  | nil =>
      cases h
      exact hpost
  | cons e pre ih =>
      cases h with
      | cons hcell hrest =>
          refine .cons ((hsame _ List.mem_cons_self).trans hcell) (ih hrest fun e he => ?_)
          exact hsame e (List.mem_cons_of_mem _ he)

/-- What a chain leads to from one of its cells on. -/
theorem Linked.suffix {pre post : List (N × C)} {n : N} {c : C}
    (h : Linked next heap head (pre ++ (n, c) :: post)) :
    heap n = some c ∧ Linked next heap (next c) post := by
  induction pre generalizing head with
  | nil =>
      cases h with
      | cons hcell hrest => exact ⟨hcell, hrest⟩
  | cons e pre ih =>
      cases h with
      | cons _ hrest => exact ih hrest

/-- A cell of a list without repetitions is none of those around it. -/
theorem ne_of_nodup_cells {pre post : List (N × C)} {n : N} {c : C}
    (h : ((pre ++ (n, c) :: post).map Prod.fst).Nodup) : ∀ e ∈ pre ++ post, e.1 ≠ n := by
  intro e he heq
  rw [List.map_append, List.map_cons, List.nodup_middle, List.nodup_cons, ← List.map_append] at h
  exact h.1 (List.mem_map.mpr ⟨e, he, heq⟩)

/-- A cell is rewritten and keeps its link. -/
theorem Linked.rewrite [DecidableEq N] {pre post : List (N × C)} {n : N} {c c' : C}
    (h : Linked next heap head (pre ++ (n, c) :: post))
    (hnodup : ((pre ++ (n, c) :: post).map Prod.fst).Nodup) (hnext : next c' = next c) :
    Linked next (Function.update heap n (some c')) head (pre ++ (n, c') :: post) := by
  have hne := ne_of_nodup_cells hnodup
  refine h.splice (fun e he => ?_) (.cons (Function.update_self ..) ?_)
  · exact Function.update_of_ne (hne e (List.mem_append_left _ he)) ..
  · rw [hnext]
    refine h.suffix.2.frame fun e he => ?_
    exact Function.update_of_ne (hne e (List.mem_append_right _ he)) ..

end Concurrency
