import Mathlib.Logic.Relation

/-!
# Blocks of steps

A block is a program that works on data, one step after another, until it has a result. Its steps
need not be determined. A block is totally correct when it comes to a result whatever it does, and
the result is as specified; then it is never stuck on the way.
-/

namespace Concurrency

structure Blocks (π δ β : Type*) where
  step : π × δ → π × δ → Prop
  result : π → Option β
  /-- A program that has a result is over. -/
  halted : ∀ {x y}, step x y → result x.1 = none

namespace Blocks

variable {π δ β : Type*} (B : Blocks π δ β)

def Runs : π × δ → π × δ → Prop := Relation.ReflTransGen B.step

inductive Total (post : β → δ → Prop) : π × δ → Prop where
  | result {x : π × δ} {b : β} (hresult : B.result x.1 = some b) (hpost : post b x.2) : Total post x
  | step {x : π × δ} (hmove : ∃ y, B.step x y) (hnext : ∀ y, B.step x y → Total post y) :
      Total post x

def Quiet (p : π) : Prop := ∀ d y, B.Runs (p, d) y → y.2 = d

variable {B} {post post' : β → δ → Prop} {x y : π × δ} {b : β}

/-! ### What is known on the way -/

theorem Total.of_step (h : B.Total post x) (hstep : B.step x y) : B.Total post y := by
  cases h with
  | result hresult _ =>
      rw [B.halted hstep] at hresult
      cases hresult
  | step _ hnext => exact hnext y hstep

theorem Total.of_runs (h : B.Total post x) (hruns : B.Runs x y) : B.Total post y := by
  induction hruns with
  | refl => exact h
  | tail _ hstep ih => exact ih.of_step hstep

theorem Total.post_of (h : B.Total post x) (hresult : B.result x.1 = some b) : post b x.2 := by
  cases h with
  | result hresult' hpost =>
      rw [hresult] at hresult'
      obtain rfl := Option.some.inj hresult'
      exact hpost
  | step hmove _ =>
      obtain ⟨y, hstep⟩ := hmove
      rw [B.halted hstep] at hresult
      cases hresult

/-- The block is never stuck. -/
theorem Total.move (h : B.Total post x) (hresult : B.result x.1 = none) : ∃ y, B.step x y := by
  cases h with
  | result hresult' _ =>
      rw [hresult] at hresult'
      cases hresult'
  | step hmove _ => exact hmove

theorem Total.ends (h : B.Total post x) :
    ∃ y b, B.Runs x y ∧ B.result y.1 = some b ∧ post b y.2 := by
  induction h with
  | @result x b hresult hpost => exact ⟨x, b, .refl, hresult, hpost⟩
  | step hmove _ ih =>
      obtain ⟨y, hstep⟩ := hmove
      obtain ⟨z, b, hruns, hresult, hpost⟩ := ih y hstep
      exact ⟨z, b, .head hstep hruns, hresult, hpost⟩

/-! ### How it is proved -/

theorem Total.mono (h : B.Total post x) (hle : ∀ b d, post b d → post' b d) : B.Total post' x := by
  induction h with
  | result hresult hpost => exact .result hresult (hle _ _ hpost)
  | step hmove _ ih => exact .step hmove ih

/-- The first step is determined. -/
theorem Total.next (hstep : B.step x y) (honly : ∀ z, B.step x z → z = y) (h : B.Total post y) :
    B.Total post x :=
  .step ⟨y, hstep⟩ fun z hz => honly z hz ▸ h

/-- What a program is before and after each step, and what it does to the data. -/
theorem Quiet.of_kept (P : π → Prop)
    (hstep : ∀ p d y, P p → B.step (p, d) y → P y.1 ∧ y.2 = d) {p : π} (hp : P p) : B.Quiet p := by
  intro d y hruns
  have hkept : P y.1 ∧ y.2 = d := by
    induction hruns with
    | refl => exact ⟨hp, rfl⟩
    | @tail y z _ hlast ih =>
        obtain ⟨hz, hdata⟩ := hstep y.1 y.2 z ih.1 hlast
        exact ⟨hz, hdata.trans ih.2⟩
  exact hkept.2

end Blocks

end Concurrency
