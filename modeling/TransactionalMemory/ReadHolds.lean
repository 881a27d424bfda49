import TransactionalMemory.Proof.Holds
import TransactionalMemory.Proof.Schedules

/-!
# Read holds and live transactions

A recorder reads off the return values which threads have a live transaction, and counts the calls
of `tm_begin` in which an allocation failed. The read holds are those of the live transactions
exactly as long as that count is zero: a `tm_begin` that returns `invalid_tx` never unlocks
`cleanup_lock`.
-/

namespace TransactionalMemory

open Concurrency

variable {V : Type}

def Thread.starves (thread : Thread V) (choice : Choice V) : Bool :=
  match thread with
  | .beginning isRo .body =>
      !choice.mallocOk 0 || !choice.mallocOk 1 || (!isRo && !choice.mallocOk 2)
  | _ => false

structure OpenRecord (Tid : Type) where
  /-- `tm_begin` returned a transaction, and no later call of it ended it. -/
  live : Tid → Bool
  /-- How many calls of `tm_begin` had an allocation fail. -/
  starved : Nat

variable {Tid : Type} [DecidableEq Tid]

def recordOpen (s : State Tid V) (l : Label Tid V) (r : OpenRecord Tid) : OpenRecord Tid where
  live :=
    match l.event with
    | .ret answer => Function.update r.live l.tid answer.continues
    | _ => r.live
  starved := if (s.thread l.tid).starves l.choice then r.starved + 1 else r.starved

def openMachine [Zero V] (Tid : Type) [DecidableEq Tid] (platform : Platform V) :
    Machine (State Tid V × OpenRecord Tid) (Label Tid V) :=
  (system Tid platform).observe ⟨fun _ => false, 0⟩ recordOpen

def Quiescent (s : State Tid V) : Prop :=
  ∀ tid, s.thread tid = .idle ∨ ∃ t, s.thread tid = .live t

def Thread.opened : Thread V → Bool
  | .idle | .beginning _ _ | .returning (.begin _) _ => false
  | _ => true

def Thread.refused : Thread V → Bool
  | .returning (.begin false) _ => true
  | _ => false

section Moves

variable {platform : Platform V} {tm : Tm V} {choice : Choice V} {thread thread' : Thread V}
  {event : Event V}

inductive OpenMove (choice : Choice V) (thread : Thread V) (event : Event V) (thread' : Thread V) :
    Prop where
  | quiet (hret : ∀ r, event ≠ .ret r) (hopened : thread'.opened = thread.opened)
      (hrefused : thread'.refused = thread.refused) (hstarves : thread.starves choice = false)
  | starved (hret : ∀ r, event ≠ .ret r) (hopened : thread'.opened = thread.opened)
      (hrefused : thread'.refused = true) (hstarves : thread.starves choice = true)
  | returned {r : Ret V} (hevent : event = .ret r) (hopened : thread'.opened = r.continues)
      (hbefore : thread.refused = true ↔ event = .ret (.begin false))
      (hafter : thread'.refused = false) (hstarves : thread.starves choice = false)

theorem ThreadMove.openMove (hanswers : thread.Answers)
    (h : ThreadMove platform tm choice thread event thread') :
    OpenMove choice thread event thread' := by
  cases h with
  | begin h =>
      cases h with
      | rdlock => exact .quiet (by simp) rfl rfl rfl
      | noStruct hmalloc => exact .starved (by simp) rfl rfl (by simp [Thread.starves, hmalloc])
      | noSets hmalloc =>
          refine .starved (by simp) rfl rfl ?_
          rcases hmalloc with hmalloc | ⟨rfl, hmalloc⟩ <;> simp [Thread.starves, hmalloc]
      | started hstruct hreads hwrites =>
          refine .quiet (by simp) rfl rfl ?_
          rcases hwrites with hro | hwrites
          · simp [Thread.starves, hstruct, hreads, hro]
          · simp [Thread.starves, hstruct, hreads, hwrites]
  | @cleanup t r =>
      cases r with
      | begin valid => exact absurd rfl (hanswers.2.2 valid)
      | _ => exact .quiet (by simp) rfl rfl rfl
  | @retIdle r =>
      refine .returned rfl hanswers ?_ rfl rfl
      cases r with
      | begin valid => cases valid <;> simp [Thread.refused]
      | _ => simp [Thread.refused]
  | @retLive r t =>
      refine .returned rfl hanswers ?_ rfl rfl
      cases r with
      | begin valid => cases valid <;> simp [Thread.refused]
      | _ => simp [Thread.refused]
  | finish h =>
      cases h with
      | copied =>
          refine .quiet (by simp) ?_ ?_ rfl
          · split <;> rfl
          · split <;> rfl
      | _ => exact .quiet (by simp) rfl rfl rfl
  | call h | read h | roRead h | write h | alloc h | free h =>
      cases h <;> exact .quiet (by simp) rfl rfl rfl
  | start => exact .quiet (by simp) rfl rfl rfl

end Moves

section Invariant

variable [Zero V] {platform : Platform V} {s s' : State Tid V} {l : Label Tid V}

structure OpenInv (s : State Tid V) (r : OpenRecord Tid) (holders : Finset Tid) (lost : Nat) :
    Prop where
  holds : HoldsInv s holders lost
  live : ∀ tid, r.live tid = (s.thread tid).opened
  starved : r.starved = 0 ↔ lost = 0 ∧ ∀ tid, (s.thread tid).refused = false

theorem OpenInv.step {r : OpenRecord Tid} {holders : Finset Tid} {lost : Nat}
    (h : OpenInv s r holders lost) (hanswers : (s.thread l.tid).Answers)
    (hstep : (system Tid platform).step s l s') :
    ∃ holders', OpenInv s' (recordOpen s l r) holders' (lostNext l.event lost) := by
  obtain ⟨holders', hholds⟩ := h.holds.step hanswers hstep
  obtain ⟨hthread, -, hother⟩ := system_step_move hstep
  refine ⟨holders', hholds, fun tid => ?_, ?_⟩
  · cases hthread.openMove hanswers with
    | quiet hret hopened | starved hret hopened =>
        have hlive : (recordOpen s l r).live = r.live := by
          simp only [recordOpen]
        rw [hlive, thread_keep hother hopened]
        exact h.live tid
    | @returned answer hevent hopened =>
        have hlive : (recordOpen s l r).live = Function.update r.live l.tid answer.continues := by
          simp only [recordOpen, hevent]
        rw [hlive]
        by_cases heq : tid = l.tid
        · rw [heq, Function.update_self, hopened]
        · rw [Function.update_of_ne heq, hother tid heq]
          exact h.live tid
  · cases hthread.openMove hanswers with
    | quiet hret hopened hrefused hstarves =>
        have hlost : lostNext l.event lost = lost := by
          unfold lostNext
          split
          · exact absurd ‹_› (hret _)
          · rfl
        simp only [recordOpen, hstarves, hlost, thread_keep hother hrefused]
        exact h.starved
    | starved hret hopened hrefused hstarves =>
        simp only [recordOpen, hstarves, if_true, Nat.add_eq_zero_iff, one_ne_zero, and_false,
          false_iff, not_and, not_forall]
        exact fun _ => ⟨l.tid, by simp [hrefused]⟩
    | returned hevent hopened hbefore hafter hstarves =>
        have hrecord : (recordOpen s l r).starved = r.starved := by simp [recordOpen, hstarves]
        rw [hrecord, h.starved]
        by_cases hlost : l.event = .ret (.begin false)
        · have hrefused := hbefore.mpr hlost
          simp only [lostNext, hlost, Nat.add_eq_zero_iff, one_ne_zero, and_false, false_and,
            iff_false, not_and, not_forall]
          exact fun _ => ⟨l.tid, by simp [hrefused]⟩
        · have hsame : lostNext l.event lost = lost := by
            unfold lostNext
            split
            · contradiction
            · rfl
          have hrefused : (s.thread l.tid).refused = false := by
            by_contra hne
            exact hlost (hbefore.mp (by simpa using hne))
          rw [hsame]
          simp only [thread_keep hother (hafter.trans hrefused.symm)]

theorem openInv {p : State Tid V × OpenRecord Tid} (h : (openMachine Tid platform).Reachable p) :
    ∃ holders lost, OpenInv p.1 p.2 holders lost := by
  refine h.invariant (P := fun p => ∃ holders lost, OpenInv p.1 p.2 holders lost)
    (fun p hp => ?_) fun p l p' hreach ih hstep => ?_
  · refine ⟨∅, 0, HoldsInv.init (show (system Tid platform).init p.1 from hp.1), ?_, ?_⟩
    · simp [hp.2, hp.1.1, Thread.opened]
    · simp [hp.2, hp.1.1, Thread.refused]
  · obtain ⟨holders, lost, hinv⟩ := ih
    obtain ⟨hs, hrecord⟩ := hstep
    obtain ⟨holders', hinv'⟩ := hinv.step (threadAnswers hreach.of_observe l.tid) hs
    exact ⟨holders', _, by rw [hrecord]; exact hinv'⟩

/-- **Read holds.** Between calls the read holds are one for each live transaction exactly when no
allocation has failed inside a `tm_begin`. -/
theorem read_holds_eq_live_iff {p : State Tid V × OpenRecord Tid}
    (h : (openMachine Tid platform).Reachable p) (hquiet : Quiescent p.1) :
    (∃ live : Finset Tid, (∀ tid, tid ∈ live ↔ p.2.live tid = true) ∧
      p.1.tm.readers = live.card) ↔ p.2.starved = 0 := by
  obtain ⟨holders, lost, hinv⟩ := openInv h
  have hmem : ∀ tid, tid ∈ holders ↔ p.2.live tid = true := by
    intro tid
    rw [hinv.holds.mem tid, hinv.live tid]
    rcases hquiet tid with hidle | ⟨t, hlive⟩
    · simp [hidle, Thread.holds, Thread.opened]
    · simp [hlive, Thread.holds, Thread.opened]
  have hrefused : ∀ tid, (p.1.thread tid).refused = false := by
    intro tid
    rcases hquiet tid with hidle | ⟨t, hlive⟩
    · rw [hidle]; rfl
    · rw [hlive]; rfl
  constructor
  · rintro ⟨live, hlive, hreaders⟩
    obtain rfl : live = holders := Finset.ext fun tid => (hlive tid).trans (hmem tid).symm
    have hlost := hinv.holds.readers
    exact hinv.starved.mpr ⟨by omega, hrefused⟩
  · intro hstarved
    obtain ⟨hlost, -⟩ := hinv.starved.mp hstarved
    exact ⟨holders, hmem, by rw [hinv.holds.readers, hlost]; rfl⟩

end Invariant

def Thread.isLive : Thread V → Bool
  | .live _ => true
  | _ => false

theorem quiescent_of_unit {s : State Unit V}
    (h : ((s.thread ()).isIdle || (s.thread ()).isLive) = true) : Quiescent s := by
  intro tid
  cases hthread : s.thread tid <;> simp_all [Thread.isIdle, Thread.isLive]

theorem read_holds_of_begin : ∃ p : State Unit Nat × OpenRecord Unit, p.1.tm.readers = 1 ∧
    ((∃ live : Finset Unit, (∀ tid, tid ∈ live ↔ p.2.live tid = true) ∧
      p.1.tm.readers = live.card) ↔ p.2.starved = 0) := by
  have hrun : ∃ p, (((system Unit (Platform.x86 Nat)).restrict fun _ _ => True).observe
      ⟨fun _ => false, 0⟩ recordOpen).Reachable p ∧
      (decide (p.1.tm.readers = 1) && (p.1.thread ()).isLive) = true :=
    exists_of_schedule (fun _ _ => true) (fun _ _ _ => trivial)
      (State.fresh_init_words 1 (by decide) (by decide))
      (calls () (.begin false) 3) (fun p => decide (p.1.tm.readers = 1) && (p.1.thread ()).isLive)
      (by decide +kernel)
  obtain ⟨p, hreach, htest⟩ := hrun
  simp only [Bool.and_eq_true, decide_eq_true_eq] at htest
  exact ⟨p, htest.1, read_holds_eq_live_iff hreach.of_restrict_observe
    (quiescent_of_unit (by simp [htest.2]))⟩

/-- A `tm_begin` whose first `malloc` fails leaves a read hold behind that no transaction owns. -/
theorem read_holds_not_live : ¬ ∀ p : State Unit Nat × OpenRecord Unit,
    (openMachine Unit (Platform.x86 Nat)).Reachable p → Quiescent p.1 →
      ∃ live : Finset Unit, (∀ tid, tid ∈ live ↔ p.2.live tid = true) ∧
        p.1.tm.readers = live.card := by
  intro hclaim
  have hrun : ∃ p, (((system Unit (Platform.x86 Nat)).restrict fun _ _ => True).observe
      ⟨fun _ => false, 0⟩ recordOpen).Reachable p ∧
      (decide (p.1.tm.readers = 1) && (p.1.thread ()).isIdle && !p.2.live ()) = true :=
    exists_of_schedule (fun _ _ => true) (fun _ _ _ => trivial)
      (State.fresh_init_words 1 (by decide) (by decide))
      (calls () (.begin false) 1 ++ [((), { mallocs := [false] })] ++ steps () 1)
      (fun p : State Unit Nat × OpenRecord Unit =>
        decide (p.1.tm.readers = 1) && (p.1.thread ()).isIdle && !p.2.live ())
      (by decide +kernel)
  obtain ⟨p, hreach, htest⟩ := hrun
  simp only [Bool.and_eq_true, decide_eq_true_eq, Bool.not_eq_true'] at htest
  obtain ⟨⟨hreaders, hidle⟩, hlive⟩ := htest
  obtain ⟨live, hmem, hcard⟩ := hclaim p hreach.of_restrict_observe
    (quiescent_of_unit (by simp [hidle]))
  have hempty : live = ∅ := Finset.eq_empty_of_forall_notMem fun tid htid => by
    simpa [hlive] using (hmem tid).mp htid
  simp [hempty, hreaders] at hcard

end TransactionalMemory
