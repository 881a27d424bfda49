import Mathlib.Data.BitVec
import Mathlib.Data.Fintype.Card
import Mathlib.Data.Finset.Card

/-!
# Counting parties

Many parties stand each at a point of its own, and a shared counter is to say how many stand at
points of some kind. A move of one party changes that number by at most one.
-/

namespace Concurrency

variable {ι α : Type*} [Fintype ι]

def census (p : α → Prop) [DecidablePred p] (point : ι → α) : Nat :=
  (Finset.univ.filter fun i => p (point i)).card

variable (p : α → Prop) [DecidablePred p] {point : ι → α}

theorem census_le (point : ι → α) : census p point ≤ Fintype.card ι := Finset.card_filter_le _ _

theorem census_eq_zero : census p point = 0 ↔ ∀ i, ¬ p (point i) := by
  simp [census, Finset.filter_eq_empty_iff]

theorem census_eq_card : census p point = Fintype.card ι ↔ ∀ i, p (point i) := by
  rw [census, ← Finset.card_univ, Finset.card_filter_eq_iff]
  simp

theorem census_pos : 0 < census p point ↔ ∃ i, p (point i) := by
  rw [Nat.pos_iff_ne_zero, ne_eq, census_eq_zero]
  push Not
  rfl

variable [DecidableEq ι]

/-- **A move of one party**: the number changes by what the party was and has become. -/
theorem census_update (point : ι → α) (i : ι) (x : α) :
    census p (Function.update point i x) + (if p (point i) then 1 else 0) =
      census p point + (if p x then 1 else 0) := by
  have hothers : (Finset.univ.filter fun j => p (Function.update point i x j)).erase i =
      (Finset.univ.filter fun j => p (point j)).erase i := by
    ext j
    by_cases hj : j = i
    · simp [hj]
    · simp [hj, Function.update_of_ne]
  have hsplit : ∀ f : ι → α, census p f =
      ((Finset.univ.filter fun j => p (f j)).erase i).card + (if p (f i) then 1 else 0) := by
    intro f
    by_cases hi : p (f i)
    · rw [if_pos hi, census, Finset.card_erase_add_one (by simp [hi])]
    · rw [if_neg hi, census, Finset.erase_eq_of_notMem (by simp [hi]), Nat.add_zero]
  rw [hsplit (Function.update point i x), hsplit point, hothers, Function.update_self]
  omega

variable {p} {i : ι} {x : α}

theorem census_enter (hold : ¬ p (point i)) (hnew : p x) :
    census p (Function.update point i x) = census p point + 1 := by
  simpa [hold, hnew] using census_update p point i x

theorem census_leave (hold : p (point i)) (hnew : ¬ p x) :
    census p (Function.update point i x) + 1 = census p point := by
  simpa [hold, hnew] using census_update p point i x

theorem census_first (hnone : ∀ j, ¬ p (point j)) (hnew : p x) :
    census p (Function.update point i x) = 1 := by
  rw [census_enter (hnone i) hnew, (census_eq_zero p).mpr hnone]

theorem census_keep (h : p (point i) ↔ p x) :
    census p (Function.update point i x) = census p point := by
  have hupdate := census_update p point i x
  by_cases hx : p x <;> simpa [h, hx] using hupdate

omit [DecidableEq ι]

/-- The only one: nobody else is at a point with `p`. -/
theorem forall_not_of_census_one (hi : p (point i)) (h : census p point = 1) :
    ∀ j, j ≠ i → ¬ p (point j) := by
  obtain ⟨k, hk⟩ := Finset.card_eq_one.mp h
  have honly : ∀ j, p (point j) → j = k := by
    intro j hj
    have hmem : j ∈ Finset.univ.filter fun j => p (point j) := by simp [hj]
    rw [hk] at hmem
    exact Finset.mem_singleton.mp hmem
  intro j hj hp
  exact hj ((honly j hp).trans (honly i hi).symm)

theorem census_not (p : α → Prop) [DecidablePred p] (point : ι → α) :
    census p point + census (fun a => ¬ p a) point = Fintype.card ι :=
  Finset.card_filter_add_card_filter_not _

/-- The last one: everyone else is at a point with `p` already. -/
theorem forall_of_census_add_one (hi : ¬ p (point i)) (h : census p point + 1 = Fintype.card ι) :
    ∀ j, j ≠ i → p (point j) := by
  have hone : census (fun a => ¬ p a) point = 1 := by
    have hsum := census_not p point
    omega
  intro j hj
  exact not_not.mp (forall_not_of_census_one (p := fun a => ¬ p a) hi hone j hj)

/-! ### A counter of `w` bits -/

section Counter

variable {w : Nat}

theorem ofNat_add_one (c : Nat) : BitVec.ofNat w c + 1 = BitVec.ofNat w (c + 1) := by
  simp [BitVec.ofNat_add]

theorem ofNat_add_one_sub (c : Nat) : BitVec.ofNat w (c + 1) - 1 = BitVec.ofNat w c := by
  rw [← ofNat_add_one, BitVec.add_sub_cancel]

theorem ofNat_inj {c d : Nat} (hc : c < 2 ^ w) (hd : d < 2 ^ w) :
    BitVec.ofNat w c = BitVec.ofNat w d ↔ c = d := by
  constructor
  · intro h
    have hnat := congrArg BitVec.toNat h
    rwa [BitVec.toNat_ofNat, BitVec.toNat_ofNat, Nat.mod_eq_of_lt hc, Nat.mod_eq_of_lt hd] at hnat
  · rintro rfl
    rfl

end Counter

end Concurrency
