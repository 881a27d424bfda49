import Mathlib.Data.List.Nodup
import Mathlib.Logic.Function.Basic

/-!
# Slots in circulation

The bookkeeping under an allocator of numbered slots. Slots below a growing bound are each in
exactly one place: on the free list, claimed by one agent, or in use. An agent claims a slot from
the free list or at the bound, and puts it to use or gives it back; a slot in use is retired to the
free list.
-/

namespace Concurrency

structure Circulation {Tid : Type*} (bound : Nat) (free : List Nat) (claim : Tid → Option Nat)
    (used : Nat → Prop) : Prop where
  free_nodup : free.Nodup
  free_lt : ∀ x ∈ free, x < bound
  claim_lt : ∀ t x, claim t = some x → x < bound
  used_lt : ∀ x, used x → x < bound
  claim_inj : ∀ t t' x, claim t = some x → claim t' = some x → t = t'
  free_unclaimed : ∀ x ∈ free, ∀ t, claim t ≠ some x
  free_unused : ∀ x ∈ free, ¬ used x
  claim_unused : ∀ t x, claim t = some x → ¬ used x
  total : ∀ x, x < bound → x ∈ free ∨ (∃ t, claim t = some x) ∨ used x

namespace Circulation

variable {Tid : Type*} {bound : Nat} {free : List Nat} {claim : Tid → Option Nat}
  {used used' : Nat → Prop} {t : Tid} {x : Nat}

theorem congr (h : Circulation bound free claim used) (hused : ∀ y, used' y ↔ used y) :
    Circulation bound free claim used' := by
  obtain rfl : used' = used := funext fun y => propext (hused y)
  exact h

/-- **Exactly one place.** -/
theorem exactly_one (h : Circulation bound free claim used) (hlt : x < bound) :
    ((∃! t, claim t = some x) ∧ ¬ used x ∧ x ∉ free) ∨
      ((∀ t, claim t ≠ some x) ∧ used x ∧ x ∉ free) ∨
      ((∀ t, claim t ≠ some x) ∧ ¬ used x ∧ free.count x = 1) := by
  rcases h.total x hlt with hfree | ⟨t, ht⟩ | hused
  · exact Or.inr (Or.inr ⟨h.free_unclaimed x hfree, h.free_unused x hfree,
      List.count_eq_one_of_mem h.free_nodup hfree⟩)
  · refine Or.inl ⟨⟨t, ht, fun t' ht' => h.claim_inj t' t x ht' ht⟩, h.claim_unused t x ht, ?_⟩
    exact fun hfree => h.free_unclaimed x hfree t ht
  · refine Or.inr (Or.inl ⟨fun t ht => h.claim_unused t x ht hused, hused, ?_⟩)
    exact fun hfree => h.free_unused x hfree hused

variable [DecidableEq Tid]

/-- Taking the head of the free list. -/
theorem take (h : Circulation bound (x :: free) claim used) (hidle : claim t = none) :
    Circulation bound free (Function.update claim t (some x)) used := by
  have hnodup := List.nodup_cons.mp h.free_nodup
  have hother : ∀ t' y, Function.update claim t (some x) t' = some y →
      (t' = t ∧ y = x) ∨ (t' ≠ t ∧ claim t' = some y) := by
    intro t' y hy
    by_cases heq : t' = t
    · subst heq
      exact Or.inl ⟨rfl, by simpa using hy.symm⟩
    · exact Or.inr ⟨heq, by simpa [heq] using hy⟩
  refine ⟨hnodup.2, fun y hy => h.free_lt y (List.mem_cons_of_mem _ hy), fun t' y hy => ?_,
    h.used_lt, fun t₁ t₂ y h₁ h₂ => ?_, fun y hy t' hclaim => ?_,
    fun y hy => h.free_unused y (List.mem_cons_of_mem _ hy), fun t' y hy => ?_, fun y hlt => ?_⟩
  · rcases hother t' y hy with ⟨-, rfl⟩ | ⟨-, hy⟩
    · exact h.free_lt y List.mem_cons_self
    · exact h.claim_lt t' y hy
  · rcases hother t₁ y h₁ with ⟨rfl, rfl⟩ | ⟨-, hold₁⟩ <;>
      rcases hother t₂ _ h₂ with ⟨rfl, heq⟩ | ⟨-, hold₂⟩
    · rfl
    · exact absurd hold₂ (h.free_unclaimed y List.mem_cons_self t₂)
    · exact absurd (heq ▸ hold₁) (h.free_unclaimed x List.mem_cons_self t₁)
    · exact h.claim_inj t₁ t₂ y hold₁ hold₂
  · rcases hother t' y hclaim with ⟨-, rfl⟩ | ⟨-, hclaim⟩
    · exact hnodup.1 hy
    · exact h.free_unclaimed y (List.mem_cons_of_mem _ hy) t' hclaim
  · rcases hother t' y hy with ⟨-, rfl⟩ | ⟨-, hy⟩
    · exact h.free_unused y List.mem_cons_self
    · exact h.claim_unused t' y hy
  · rcases h.total y hlt with hfree | ⟨t', ht'⟩ | hused
    · rcases List.mem_cons.mp hfree with rfl | hfree
      · exact Or.inr (Or.inl ⟨t, by simp⟩)
      · exact Or.inl hfree
    · have hne : t' ≠ t := by rintro rfl; simp [hidle] at ht'
      exact Or.inr (Or.inl ⟨t', by simpa [hne] using ht'⟩)
    · exact Or.inr (Or.inr hused)

/-- Taking a slot that never circulated. -/
theorem grow (h : Circulation bound free claim used) (hidle : claim t = none) :
    Circulation (bound + 1) free (Function.update claim t (some bound)) used := by
  have hopen : Circulation (bound + 1) (bound :: free) claim used := by
    refine ⟨List.nodup_cons.mpr
        ⟨fun hmem => absurd (h.free_lt bound hmem) (Nat.lt_irrefl _), h.free_nodup⟩,
      fun y hy => ?_, fun t' y hy => Nat.lt_succ_of_lt (h.claim_lt t' y hy),
      fun y hy => Nat.lt_succ_of_lt (h.used_lt y hy), h.claim_inj, fun y hy t' ht' => ?_,
      fun y hy hused => ?_, h.claim_unused, fun y hlt => ?_⟩
    · rcases List.mem_cons.mp hy with rfl | hy
      · exact Nat.lt_succ_self _
      · exact Nat.lt_succ_of_lt (h.free_lt y hy)
    · rcases List.mem_cons.mp hy with rfl | hy
      · exact absurd (h.claim_lt t' y ht') (Nat.lt_irrefl _)
      · exact h.free_unclaimed y hy t' ht'
    · rcases List.mem_cons.mp hy with rfl | hy
      · exact absurd (h.used_lt y hused) (Nat.lt_irrefl _)
      · exact h.free_unused y hy hused
    · rcases Nat.lt_succ_iff_lt_or_eq.mp hlt with hlt | rfl
      · exact (h.total y hlt).imp_left (List.mem_cons_of_mem _)
      · exact Or.inl List.mem_cons_self
  exact hopen.take hidle

/-- An agent that lets go of its slot. -/
theorem drop (h : Circulation bound free claim used) (hclaim : claim t = some x) :
    (∀ t' y, Function.update claim t none t' = some y → claim t' = some y ∧ y ≠ x) ∧
      ∀ t' y, claim t' = some y → y ≠ x → Function.update claim t none t' = some y := by
  refine ⟨fun t' y hy => ?_, fun t' y hy hne => ?_⟩
  · have hne : t' ≠ t := by rintro rfl; simp at hy
    rw [Function.update_of_ne hne] at hy
    refine ⟨hy, ?_⟩
    rintro rfl
    exact hne (h.claim_inj t' t y hy hclaim)
  · have hne' : t' ≠ t := by
      rintro rfl
      exact hne (by simpa [hclaim] using hy.symm)
    rwa [Function.update_of_ne hne']

theorem give (h : Circulation bound free claim used) (hclaim : claim t = some x) :
    Circulation bound (x :: free) (Function.update claim t none) used := by
  obtain ⟨hold, hkeep⟩ := h.drop hclaim
  refine ⟨List.nodup_cons.mpr ⟨fun hmem => h.free_unclaimed x hmem t hclaim, h.free_nodup⟩,
    fun y hy => ?_, fun t' y hy => h.claim_lt t' y (hold t' y hy).1, h.used_lt,
    fun t₁ t₂ y h₁ h₂ => h.claim_inj t₁ t₂ y (hold t₁ y h₁).1 (hold t₂ y h₂).1,
    fun y hy t' ht' => ?_,
    fun y hy => ?_, fun t' y hy => h.claim_unused t' y (hold t' y hy).1, fun y hlt => ?_⟩
  · rcases List.mem_cons.mp hy with rfl | hy
    · exact h.claim_lt t y hclaim
    · exact h.free_lt y hy
  · obtain ⟨hbefore, hne⟩ := hold t' y ht'
    rcases List.mem_cons.mp hy with rfl | hy
    · exact hne rfl
    · exact h.free_unclaimed y hy t' hbefore
  · rcases List.mem_cons.mp hy with rfl | hy
    · exact h.claim_unused t y hclaim
    · exact h.free_unused y hy
  · by_cases heq : y = x
    · exact Or.inl (heq ▸ List.mem_cons_self)
    · rcases h.total y hlt with hfree | ⟨t', ht'⟩ | hused
      · exact Or.inl (List.mem_cons_of_mem _ hfree)
      · exact Or.inr (Or.inl ⟨t', hkeep t' y ht' heq⟩)
      · exact Or.inr (Or.inr hused)

theorem use (h : Circulation bound free claim used) (hclaim : claim t = some x) :
    Circulation bound free (Function.update claim t none) fun y => used y ∨ y = x := by
  obtain ⟨hold, hkeep⟩ := h.drop hclaim
  refine ⟨h.free_nodup, h.free_lt, fun t' y hy => h.claim_lt t' y (hold t' y hy).1, ?_,
    fun t₁ t₂ y h₁ h₂ => h.claim_inj t₁ t₂ y (hold t₁ y h₁).1 (hold t₂ y h₂).1,
    fun y hy t' ht' => h.free_unclaimed y hy t' (hold t' y ht').1, ?_, ?_, fun y hlt => ?_⟩
  · rintro y (hused | rfl)
    · exact h.used_lt y hused
    · exact h.claim_lt t y hclaim
  · rintro y hy (hused | rfl)
    · exact h.free_unused y hy hused
    · exact h.free_unclaimed y hy t hclaim
  · rintro t' y hy (hused | rfl)
    · exact h.claim_unused t' y (hold t' y hy).1 hused
    · exact (hold t' y hy).2 rfl
  · by_cases heq : y = x
    · exact Or.inr (Or.inr (Or.inr heq))
    · rcases h.total y hlt with hfree | ⟨t', ht'⟩ | hused
      · exact Or.inl hfree
      · exact Or.inr (Or.inl ⟨t', hkeep t' y ht' heq⟩)
      · exact Or.inr (Or.inr (Or.inl hused))

omit [DecidableEq Tid] in
theorem retire (h : Circulation bound free claim used) (hused : used x) :
    Circulation bound (x :: free) claim fun y => used y ∧ y ≠ x := by
  refine ⟨List.nodup_cons.mpr ⟨fun hmem => h.free_unused x hmem hused, h.free_nodup⟩,
    fun y hy => ?_,
    h.claim_lt, fun y hy => h.used_lt y hy.1, h.claim_inj, fun y hy t' ht' => ?_, fun y hy => ?_,
    fun t' y hy hstill => h.claim_unused t' y hy hstill.1, fun y hlt => ?_⟩
  · rcases List.mem_cons.mp hy with rfl | hy
    · exact h.used_lt y hused
    · exact h.free_lt y hy
  · rcases List.mem_cons.mp hy with rfl | hy
    · exact h.claim_unused t' y ht' hused
    · exact h.free_unclaimed y hy t' ht'
  · rcases List.mem_cons.mp hy with rfl | hy
    · simp
    · exact fun hstill => h.free_unused y hy hstill.1
  · by_cases heq : y = x
    · exact Or.inl (heq ▸ List.mem_cons_self)
    · rcases h.total y hlt with hfree | hclaim | hused'
      · exact Or.inl (List.mem_cons_of_mem _ hfree)
      · exact Or.inr (Or.inl hclaim)
      · exact Or.inr (Or.inr ⟨hused', heq⟩)

end Circulation

end Concurrency
