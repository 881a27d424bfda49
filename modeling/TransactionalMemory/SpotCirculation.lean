import TransactionalMemory.Proof.FreeList
import TransactionalMemory.Proof.Schedules

/-!
# Spots of segments

Every index below `va_n` is in exactly one place, with a `tm_alloc` in progress, under a live
segment or on the free list, as long as the calls of `tm_alloc` that fail push their spots back
alone. That push takes no lock, so two of them can lose a spot.
-/

namespace TransactionalMemory

open Concurrency

variable {V Tid : Type}

def SpotsOnce (s : State Tid V) : Prop :=
  ∃ cells, Linked EmptySpot.next s.tm.node s.tm.emptySpots cells ∧ ∀ spot < s.tm.vaN,
    let free := cells.map fun e => e.2.index
    ((∃! tid, (s.thread tid).claim = some spot) ∧ ¬ s.tm.Live spot ∧ spot ∉ free) ∨
      ((∀ tid, (s.thread tid).claim ≠ some spot) ∧ s.tm.Live spot ∧ spot ∉ free) ∨
      ((∀ tid, (s.thread tid).claim ≠ some spot) ∧ ¬ s.tm.Live spot ∧ free.count spot = 1)

/-- The spot of a `tm_alloc` in progress is its own, and no live segment is there. -/
def ClaimsApart (s : State Tid V) : Prop :=
  ∀ tid spot, (s.thread tid).claim = some spot → spot < s.tm.vaN ∧ ¬ s.tm.Live spot ∧
    ∀ tid', (s.thread tid').claim = some spot → tid' = tid

/-- **Spot uniqueness.** In every run in which failed allocations push their spots back alone, each
index below `va_n` is in exactly one place and each `tm_alloc` has its spot for itself. -/
theorem spots_once [Zero V] [DecidableEq Tid] {platform : Platform V} {s : State Tid V}
    (h : ((system Tid platform).restrict PushesAlone).Reachable s) :
    SpotsOnce s ∧ ClaimsApart s := by
  obtain ⟨cells, hinv⟩ := spotsInv (fun _ _ _ hok => hok) h
  have hcirculation := hinv.circulation
  refine ⟨⟨cells, hinv.linked, fun spot hlt => hcirculation.exactly_one hlt⟩,
    fun tid spot htid => ?_⟩
  exact ⟨hcirculation.claim_lt tid spot htid, hcirculation.claim_unused tid spot htid,
    fun tid' htid' => hcirculation.claim_inj tid' tid spot htid' htid⟩

def pushesAlone (s : State Bool Nat) (l : Label Bool Nat) : Bool :=
  match s.thread l.tid with
  | .allocating _ _ (.pushStore _ n) =>
      (s.tm.node n).all (fun c => c.next = s.tm.emptySpots) &&
        !(s.thread true).popping && !(s.thread false).popping
  | _ => true

theorem pushesAlone_sound (s : State Bool Nat) (l : Label Bool Nat) (h : pushesAlone s l = true) :
    PushesAlone s l := by
  intro t size spot n hthread
  simp only [pushesAlone, hthread, Bool.and_eq_true, Bool.not_eq_true'] at h
  refine ⟨fun c hc => by simpa [hc] using h.1.1, fun tid => ?_⟩
  cases tid with
  | true => exact h.1.2
  | false => exact h.2

/-- One call fails and pushes its spot back, and the next call takes it, beside a call of another
thread that has a new spot. -/
def retriedAlloc : Schedule Bool Nat :=
  calls true (.begin false) 3 ++ calls false (.begin false) 3 ++ calls true (.alloc 8) 5 ++
    [(true, { mallocs := [false] })] ++ calls false (.alloc 8) 4 ++ steps true 3 ++
    calls true (.alloc 8) 8

theorem spots_once_of_retry : ∃ s : State Bool Nat, s.tm.vaN = 3 ∧
    (s.thread true).claim = some 1 ∧ (s.thread false).claim = some 2 ∧ SpotsOnce s ∧
      ClaimsApart s := by
  let test : State Bool Nat × Unit → Bool := fun p =>
    decide (p.1.tm.vaN = 3) && decide ((p.1.thread true).claim = some 1) &&
      decide ((p.1.thread false).claim = some 2)
  have hrun : ∃ p, (((system Bool (Platform.x86 Nat)).restrict PushesAlone).observe ()
      fun _ _ _ => ()).Reachable p ∧ test p = true :=
    exists_of_schedule pushesAlone pushesAlone_sound
      (State.fresh_init_words 1 (by decide) (by decide)) retriedAlloc test (by decide +kernel)
  obtain ⟨p, hreach, htest⟩ := hrun
  simp only [test, Bool.and_eq_true, decide_eq_true_eq] at htest
  obtain ⟨⟨hvaN, htrue⟩, hfalse⟩ := htest
  exact ⟨p.1, hvaN, htrue, hfalse, spots_once hreach.of_observe⟩

/-- Two calls fail and fill in their nodes before either stores the new head. -/
def racingPushes : Schedule Bool Nat :=
  calls true (.begin false) 3 ++ calls false (.begin false) 3 ++
    calls true (.alloc 8) 5 ++ [(true, { mallocs := [false] })] ++ steps true 1 ++
    calls false (.alloc 8) 5 ++ [(false, { mallocs := [false] })] ++ steps false 1 ++
    steps true 2 ++ steps false 2

/-- The spot pushed first drops off the list. -/
theorem spots_lost : ¬ ∀ s : State Bool Nat,
    (system Bool (Platform.x86 Nat)).Reachable s → SpotsOnce s := by
  intro hclaim
  let test : State Bool Nat × Unit → Bool := fun p =>
    decide (p.1.tm.vaN = 3) && decide (p.1.tm.emptySpots = some 1) &&
      decide (p.1.tm.node 1 = some ⟨none, 2⟩) && decide (p.1.tm.vaArr 1 = .segment 1) &&
      decide (p.1.tm.segment 1 = some ⟨0, 0, .broken⟩) &&
      decide ((p.1.thread true).claim = none) && decide ((p.1.thread false).claim = none)
  have hrun : ∃ p, (((system Bool (Platform.x86 Nat)).restrict fun _ _ => True).observe ()
      fun _ _ _ => ()).Reachable p ∧ test p = true :=
    exists_of_schedule (fun _ _ => true) (fun _ _ _ => trivial)
      (State.fresh_init_words 1 (by decide) (by decide)) racingPushes test (by decide +kernel)
  obtain ⟨p, hreach, htest⟩ := hrun
  simp only [test, Bool.and_eq_true, decide_eq_true_eq] at htest
  obtain ⟨⟨⟨⟨⟨⟨hvaN, hhead⟩, hnode⟩, hvaArr⟩, hseg⟩, htrue⟩, hfalse⟩ := htest
  obtain ⟨cells, hlinked, honce⟩ := hclaim p.1 hreach.of_restrict_observe.of_observe
  have hcells : cells = [(1, ⟨none, 2⟩)] :=
    hlinked.unique (hhead ▸ .cons hnode .nil)
  have hlive : ¬ p.1.tm.Live 1 := by
    rintro ⟨s, g, hs, hg, hready⟩
    obtain rfl : 1 = s := by simpa [hvaArr] using hs
    obtain rfl : (⟨0, 0, .broken⟩ : Segment) = g := by simpa [hseg] using hg
    cases hready
  have hclaims : ∀ tid, (p.1.thread tid).claim ≠ some 1 := by
    intro tid
    cases tid with
    | true => simp [htrue]
    | false => simp [hfalse]
  rcases honce 1 (by omega) with ⟨⟨tid, htid, -⟩, -, -⟩ | ⟨-, hlive', -⟩ | ⟨-, -, hcount⟩
  · exact hclaims tid htid
  · exact hlive hlive'
  · simp [hcells] at hcount

end TransactionalMemory
