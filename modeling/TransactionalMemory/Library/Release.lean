import Mathlib.Data.List.Nodup

/-!
# Blocks released one after another

A heap is the set of its allocated blocks, and a run of releases keeps the blocks released so far.
Releasing a block that is not allocated, or was released before, has no result.
-/

namespace Concurrency

variable {B : Type*} [DecidableEq B] (allocated : B → Bool)

def release (freed : List B) (b : B) : Option (List B) :=
  if allocated b = true ∧ b ∉ freed then some (freed ++ [b]) else none

def releaseAll (freed blocks : List B) : Option (List B) := blocks.foldlM (release allocated) freed

variable {allocated} {freed freed' blocks blocks' : List B} {b : B}

@[simp]
theorem releaseAll_nil : releaseAll allocated freed [] = some freed := rfl

@[simp]
theorem releaseAll_cons : releaseAll allocated freed (b :: blocks) =
    (release allocated freed b).bind fun freed => releaseAll allocated freed blocks := rfl

theorem releaseAll_append : releaseAll allocated freed (blocks ++ blocks') =
    (releaseAll allocated freed blocks).bind fun freed => releaseAll allocated freed blocks' := by
  simp only [releaseAll, List.foldlM_append]
  rfl

theorem releaseAll_singleton :
    releaseAll allocated freed [b] = release allocated freed b := by
  simp

/-- **Exactly once.** A run of releases goes through when its blocks are allocated, distinct and not
released before. -/
theorem releaseAll_eq (freed : List B) (hallocated : ∀ b ∈ blocks, allocated b = true)
    (hnodup : (freed ++ blocks).Nodup) :
    releaseAll allocated freed blocks = some (freed ++ blocks) := by
  induction blocks generalizing freed with
  | nil => simp
  | cons b blocks ih =>
      have hnew : b ∉ freed := fun hmem =>
        (List.nodup_append.mp hnodup).2.2 b hmem b List.mem_cons_self rfl
      have hsplit : freed ++ b :: blocks = freed ++ [b] ++ blocks := by simp
      rw [hsplit] at hnodup ⊢
      have hfirst : release allocated freed b = some (freed ++ [b]) :=
        if_pos ⟨hallocated b List.mem_cons_self, hnew⟩
      rw [releaseAll_cons, hfirst]
      exact ih _ (fun b hb => hallocated b (List.mem_cons_of_mem _ hb)) hnodup

end Concurrency
