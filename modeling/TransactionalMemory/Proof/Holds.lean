import TransactionalMemory.Proof.LifecycleMoves
import Mathlib.Data.Finset.Card

/-!
# Holds on `cleanup_lock`

Every open transaction has one read hold, taken in `tm_begin` and given back on its way out. A
`tm_begin` that could not allocate keeps the hold it took, so the count of read holds is that of the
open transactions plus one for each such call. While a batch deletion has the write lock, nobody has
a read hold.
-/

namespace TransactionalMemory

open Concurrency

variable {V : Type}

/-- Whether the thread's transaction has a read hold. A failed `tm_begin` has one until it
returns. -/
def Thread.holds : Thread V → Bool
  | .idle | .beginning _ .rdlock => false
  | .ending _ .checkBatch | .ending _ .wrlock | .ending _ (.drain _) | .ending _ .wrunlock => false
  | .returning (.begin false) none => true
  | .returning _ t => t.isSome
  | _ => true

def Thread.drains : Thread V → Bool
  | .ending _ (.drain _) | .ending _ .wrunlock => true
  | _ => false

def Ret.continues : Ret V → Bool
  | .begin valid => valid
  | .read target => target.isSome
  | .write ok | .free ok => ok
  | .alloc _ => true
  | .finish _ => false

def Ret.aborts : Ret V → Bool
  | .read none | .write false | .free false | .finish false => true
  | _ => false

def Thread.Answers : Thread V → Prop
  | .aborting _ r => r.continues = false ∧ r ≠ .finish true ∧ ∀ valid, r ≠ .begin valid
  | .returning r t => t.isSome = r.continues
  | _ => True

inductive HoldMove [Zero V] (tm : Tm V) (thread : Thread V) (event : Event V)
    (thread' : Thread V) : Prop where
  | quiet (hreaders : (tm.after event).readers = tm.readers)
      (hwriter : (tm.after event).writer = tm.writer) (hholds : thread'.holds = thread.holds)
      (hdrains : thread'.drains = thread.drains) (hret : event ≠ .ret (.begin false))
  | rdlock (hevent : event = .op .rdlock) (hwriter : tm.writer = false)
      (hbefore : thread.holds = false) (hafter : thread'.holds = true)
      (hdrains : thread'.drains = thread.drains)
  | rdunlock (hevent : event = .op .rdunlock) (hbefore : thread.holds = true)
      (hafter : thread'.holds = false) (hdrains : thread'.drains = thread.drains)
  | lost (hevent : event = .ret (.begin false)) (hbefore : thread.holds = true)
      (hafter : thread'.holds = false) (hdrains : thread'.drains = thread.drains)
  | wrlock (hevent : event = .op .wrlock) (hwriter : tm.writer = false) (hreaders : tm.readers = 0)
      (hholds : thread'.holds = thread.holds) (hbefore : thread.drains = false)
      (hafter : thread'.drains = true)
  | wrunlock (hevent : event = .op .wrunlock) (hholds : thread'.holds = thread.holds)
      (hbefore : thread.drains = true) (hafter : thread'.drains = false)

section Moves

variable [Zero V] {platform : Platform V} {tm : Tm V} {choice : Choice V}
  {thread thread' : Thread V} {event : Event V}

omit [Zero V] in
theorem Tm.deleteSegment_holds (tm : Tm V) (spot : Int) :
    (tm.deleteSegment spot).readers = tm.readers ∧ (tm.deleteSegment spot).writer = tm.writer := by
  unfold Tm.deleteSegment
  split <;> exact ⟨rfl, rfl⟩

omit [Zero V] in
theorem ThreadMove.answers (hanswers : thread.Answers)
    (h : ThreadMove platform tm choice thread event thread') : thread'.Answers := by
  cases h with
  | cleanup => exact hanswers.1.symm
  | read h | roRead h | write h =>
      cases h <;> first | trivial | exact ⟨rfl, by simp, by simp⟩
  | free h =>
      cases h with
      | first => exact ⟨rfl, by simp, by simp⟩
      | queued => simp [Thread.Answers, Ret.continues]
  | finish h =>
      cases h <;> first | trivial | exact ⟨rfl, by simp, by simp⟩
  | call h | begin h | alloc h => cases h <;> trivial
  | _ => trivial

theorem TmEndMove.holdMove {t : Tx V} {pc : EndPc}
    (h : TmEndMove platform tm t pc event thread') : HoldMove tm (.ending t pc) event thread' := by
  cases h with
  | early hempty => exact .rdunlock rfl rfl rfl rfl
  | unlockCleanup => exact .rdunlock rfl rfl rfl rfl
  | wrlock hwriter hreaders => exact .wrlock rfl hwriter hreaders rfl rfl rfl
  | wrunlock => exact .wrunlock rfl rfl rfl rfl
  | drain | drainNull =>
      obtain ⟨hreaders, hwriter⟩ := tm.deleteSegment_holds _
      exact .quiet hreaders hwriter rfl rfl (by simp)
  | copied =>
      refine .quiet rfl rfl ?_ ?_ (by simp)
      · split <;> rfl
      · split <;> rfl
  | _ => exact .quiet rfl rfl rfl rfl (by simp)

theorem ThreadMove.holdMove (hanswers : thread.Answers)
    (h : ThreadMove platform tm choice thread event thread') :
    HoldMove tm thread event thread' := by
  cases h with
  | begin h =>
      cases h with
      | rdlock hwriter => exact .rdlock rfl hwriter rfl rfl rfl
      | _ => exact .quiet rfl rfl rfl rfl (by simp)
  | @cleanup t r =>
      refine .rdunlock rfl rfl ?_ rfl
      cases r with
      | begin valid => exact absurd rfl (hanswers.2.2 valid)
      | _ => rfl
  | finish h => exact h.holdMove
  | @retIdle r =>
      cases r with
      | begin valid =>
          cases valid with
          | false => exact .lost rfl rfl rfl rfl
          | true => cases hanswers
      | _ => exact .quiet rfl rfl rfl rfl (by simp)
  | @retLive r t =>
      cases r with
      | begin valid =>
          cases valid with
          | false => cases hanswers
          | true => exact .quiet rfl rfl rfl rfl (by simp)
      | _ => exact .quiet rfl rfl rfl rfl (by simp)
  | call h | read h | roRead h | write h | alloc h | free h =>
      cases h <;> exact .quiet rfl rfl rfl rfl (by simp)
  | start => exact .quiet rfl rfl rfl rfl (by simp)

end Moves

/-! ### The count of holds -/

structure HoldsInv {Tid : Type} (s : State Tid V) (holders : Finset Tid) (lost : Nat) : Prop where
  mem : ∀ tid, tid ∈ holders ↔ (s.thread tid).holds = true
  readers : s.tm.readers = holders.card + lost
  exclusive : s.tm.writer = true → s.tm.readers = 0
  drains : ∀ tid, (s.thread tid).drains = true → s.tm.writer = true
  unique : ∀ tid tid', (s.thread tid).drains = true → (s.thread tid').drains = true → tid = tid'

/-- The calls of `tm_begin` that returned `invalid_tx`, counted one step further. -/
def lostNext (event : Event V) (lost : Nat) : Nat :=
  match event with
  | .ret (.begin false) => lost + 1
  | _ => lost

namespace HoldsInv

variable [Zero V] {Tid : Type} [DecidableEq Tid] {platform : Platform V} {s s' : State Tid V}
  {l : Label Tid V} {holders : Finset Tid} {lost : Nat}

theorem init (h : (system Tid platform).init s) : HoldsInv s ∅ 0 := by
  obtain ⟨hidle, choice, size, align, -, -, -, -, hcreate⟩ := h
  obtain ⟨-, -, htm⟩ := tmCreate_eq hcreate
  refine ⟨fun tid => ?_, ?_, ?_, fun tid hdrains => ?_, fun tid tid' hdrains => ?_⟩
  · simp [hidle tid, Thread.holds]
  · simp [htm, Tm.created, Tm.bare]
  · simp [htm, Tm.created, Tm.bare]
  · simp [hidle tid, Thread.drains] at hdrains
  · simp [hidle tid, Thread.drains] at hdrains

omit [Zero V] [DecidableEq Tid] in
theorem readers_pos (h : HoldsInv s holders lost) (tid : Tid)
    (hholds : (s.thread tid).holds = true) : 0 < s.tm.readers := by
  have := Finset.card_pos.mpr ⟨tid, (h.mem tid).mpr hholds⟩
  rw [h.readers]
  omega

omit [Zero V] [DecidableEq Tid] in
/-- **Exclusion.** During a batch deletion no thread has a read hold. -/
theorem not_holds_of_drains (h : HoldsInv s holders lost) {tid : Tid}
    (hdrains : (s.thread tid).drains = true) (tid' : Tid) : (s.thread tid').holds = false := by
  by_contra hholds
  have hpos := h.readers_pos tid' (by simpa using hholds)
  have := h.exclusive (h.drains tid hdrains)
  omega

omit [Zero V] in
theorem mem_erase (h : HoldsInv s holders lost) (hother : ∀ tid, tid ≠ l.tid →
    s'.thread tid = s.thread tid) (hafter : (s'.thread l.tid).holds = false) (tid : Tid) :
    tid ∈ holders.erase l.tid ↔ (s'.thread tid).holds = true := by
  by_cases heq : tid = l.tid
  · simp [heq, hafter]
  · rw [Finset.mem_erase, hother tid heq, ← h.mem tid]
    simp [heq]

section Moves

variable (h : HoldsInv s holders lost)
  (hother : ∀ tid, tid ≠ l.tid → s'.thread tid = s.thread tid)
include h hother
omit [Zero V]

omit [DecidableEq Tid] in
theorem of_quiet (hreaders : s'.tm.readers = s.tm.readers) (hwriter : s'.tm.writer = s.tm.writer)
    (hholds : (s'.thread l.tid).holds = (s.thread l.tid).holds)
    (hdrains : (s'.thread l.tid).drains = (s.thread l.tid).drains) :
    HoldsInv s' holders lost := by
  refine ⟨fun tid => ?_, ?_, ?_, ?_, ?_⟩
  · rw [thread_keep hother hholds]
    exact h.mem tid
  · rw [hreaders]
    exact h.readers
  · rw [hreaders, hwriter]
    exact h.exclusive
  · simp only [thread_keep hother hdrains, hwriter]
    exact h.drains
  · simp only [thread_keep hother hdrains]
    exact h.unique

theorem of_rdlock (hreaders : s'.tm.readers = s.tm.readers + 1) (hwriter : s.tm.writer = false)
    (hwriter' : s'.tm.writer = s.tm.writer) (hbefore : (s.thread l.tid).holds = false)
    (hafter : (s'.thread l.tid).holds = true)
    (hdrains : (s'.thread l.tid).drains = (s.thread l.tid).drains) :
    HoldsInv s' (insert l.tid holders) lost := by
  have hnew : l.tid ∉ holders := by simp [h.mem, hbefore]
  refine ⟨fun tid => ?_, ?_, fun htaken => ?_, fun tid hdrain => ?_, ?_⟩
  · by_cases heq : tid = l.tid
    · simp [heq, hafter]
    · rw [Finset.mem_insert, hother tid heq, ← h.mem tid]
      simp [heq]
  · simp only [hreaders, h.readers, Finset.card_insert_of_notMem hnew]
    omega
  · rw [hwriter', hwriter] at htaken
    cases htaken
  · rw [thread_keep hother hdrains] at hdrain
    rw [hwriter']
    exact h.drains tid hdrain
  · simp only [thread_keep hother hdrains]
    exact h.unique

/-- The mover gives its hold up, or loses it. -/
theorem of_released {lost' : Nat} (hbefore : (s.thread l.tid).holds = true)
    (hafter : (s'.thread l.tid).holds = false)
    (hdrains : (s'.thread l.tid).drains = (s.thread l.tid).drains)
    (hreaders : s'.tm.readers + (lost + 1) = s.tm.readers + lost')
    (hle : s'.tm.readers ≤ s.tm.readers) (hwriter : s'.tm.writer = s.tm.writer) :
    HoldsInv s' (holders.erase l.tid) lost' := by
  refine ⟨h.mem_erase hother hafter, ?_, fun htaken => ?_, ?_, ?_⟩
  · have hmem := (h.mem l.tid).mpr hbefore
    have hpos := Finset.card_pos.mpr ⟨_, hmem⟩
    have hcount := h.readers
    rw [Finset.card_erase_of_mem hmem]
    omega
  · have hzero := h.exclusive (hwriter ▸ htaken)
    omega
  · simp only [thread_keep hother hdrains, hwriter]
    exact h.drains
  · simp only [thread_keep hother hdrains]
    exact h.unique

theorem of_wrlock (hwriter : s.tm.writer = false) (hreaders : s.tm.readers = 0)
    (hreaders' : s'.tm.readers = s.tm.readers) (hwriter' : s'.tm.writer = true)
    (hholds : (s'.thread l.tid).holds = (s.thread l.tid).holds) :
    HoldsInv s' holders lost := by
  have hnone : ∀ tid, (s.thread tid).drains = false := by
    intro tid
    by_contra hdrain
    simp [h.drains tid (by simpa using hdrain)] at hwriter
  have honly : ∀ tid, (s'.thread tid).drains = true → tid = l.tid := by
    intro tid hdrain
    by_contra heq
    simp [hother tid heq, hnone tid] at hdrain
  refine ⟨fun tid => ?_, ?_, fun _ => ?_, fun _ _ => hwriter', fun tid tid' hdrain hdrain' => ?_⟩
  · rw [thread_keep hother hholds]
    exact h.mem tid
  · rw [hreaders']
    exact h.readers
  · rw [hreaders', hreaders]
  · rw [honly tid hdrain, honly tid' hdrain']

theorem of_wrunlock (hreaders : s'.tm.readers = s.tm.readers) (hwriter : s'.tm.writer = false)
    (hholds : (s'.thread l.tid).holds = (s.thread l.tid).holds)
    (hbefore : (s.thread l.tid).drains = true) (hafter : (s'.thread l.tid).drains = false) :
    HoldsInv s' holders lost := by
  have hnone : ∀ tid, (s'.thread tid).drains = false := by
    intro tid
    by_cases heq : tid = l.tid
    · rw [heq, hafter]
    · rw [hother tid heq]
      by_contra hdrain
      exact heq (h.unique tid l.tid (by simpa using hdrain) hbefore)
  refine ⟨fun tid => ?_, ?_, fun htaken => ?_, fun tid hdrain => ?_, fun tid _ hdrain => ?_⟩
  · rw [thread_keep hother hholds]
    exact h.mem tid
  · rw [hreaders]
    exact h.readers
  · rw [hwriter] at htaken
    cases htaken
  · simp [hnone tid] at hdrain
  · simp [hnone tid] at hdrain

end Moves

theorem step (h : HoldsInv s holders lost) (hanswers : (s.thread l.tid).Answers)
    (hstep : (system Tid platform).step s l s') :
    ∃ holders', HoldsInv s' holders' (lostNext l.event lost) := by
  obtain ⟨hthread, htm, hother⟩ := system_step_move hstep
  cases hthread.holdMove hanswers with
  | quiet hreaders hwriter hholds hdrains hret =>
      have hlost : lostNext l.event lost = lost := by
        unfold lostNext
        split
        · contradiction
        · rfl
      rw [← htm] at hreaders hwriter
      rw [hlost]
      exact ⟨_, h.of_quiet hother hreaders hwriter hholds hdrains⟩
  | rdlock hevent hwriter hbefore hafter hdrains =>
      rw [hevent] at htm ⊢
      exact ⟨_, h.of_rdlock hother (by rw [htm]; rfl) hwriter (by rw [htm]; rfl) hbefore hafter
        hdrains⟩
  | rdunlock hevent hbefore hafter hdrains =>
      rw [hevent] at htm ⊢
      have hpos := h.readers_pos l.tid hbefore
      have hreaders : s'.tm.readers = s.tm.readers - 1 := by rw [htm]; rfl
      exact ⟨_, h.of_released hother hbefore hafter hdrains (by simp only [lostNext]; omega)
        (by omega) (by rw [htm]; rfl)⟩
  | lost hevent hbefore hafter hdrains =>
      rw [hevent] at htm ⊢
      have hreaders : s'.tm.readers = s.tm.readers := by rw [htm]; rfl
      exact ⟨_, h.of_released hother hbefore hafter hdrains (by simp only [lostNext]; omega)
        (by omega) (by rw [htm]; rfl)⟩
  | wrlock hevent hwriter hreaders hholds hbefore hafter =>
      rw [hevent] at htm ⊢
      exact ⟨_, h.of_wrlock hother hwriter hreaders (by rw [htm]; rfl) (by rw [htm]; rfl) hholds⟩
  | wrunlock hevent hholds hbefore hafter =>
      rw [hevent] at htm ⊢
      exact ⟨_, h.of_wrunlock hother (by rw [htm]; rfl) (by rw [htm]; rfl) hholds hbefore hafter⟩

end HoldsInv

section Reachable

variable [Zero V] {Tid : Type} [DecidableEq Tid] {platform : Platform V} {s : State Tid V}

theorem threadAnswers (h : (system Tid platform).Reachable s) : ∀ tid, (s.thread tid).Answers :=
  thread_invariant trivial (fun _ _ _ _ _ hmove hanswers => hmove.answers hanswers) h

theorem holdsInv (h : (system Tid platform).Reachable s) :
    ∃ holders lost, HoldsInv s holders lost := by
  refine h.invariant (P := fun s => ∃ holders lost, HoldsInv s holders lost)
    (fun s hs => ⟨∅, 0, HoldsInv.init hs⟩) fun s l s' hreach ih hstep => ?_
  obtain ⟨holders, lost, hinv⟩ := ih
  obtain ⟨holders', hinv'⟩ := hinv.step (threadAnswers hreach l.tid) hstep
  exact ⟨holders', _, hinv'⟩

end Reachable

end TransactionalMemory
