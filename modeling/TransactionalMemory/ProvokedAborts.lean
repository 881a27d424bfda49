import TransactionalMemory.Proof.Conflicts
import TransactionalMemory.Proof.Schedules

/-!
# Provoked aborts

An operation answers false, and its transaction aborts, only because of another transaction: one
whose `tm_end` has the lock of a word that the aborted transaction reads or writes, or took a step
with that lock after the aborted transaction had sampled the clock. Its own locks, its own sets and
transactions that were over before it began abort nothing. A lock can be in the way of many
transactions while its owner takes no step at all, so the step cannot be dated after the sample.
-/

namespace TransactionalMemory

open Concurrency

variable {V Tid : Type} [Zero V] [DecidableEq Tid] {platform : Platform V}

/-- **No abort without a rival.** In every run whose ranges `int` can hold, a transaction that an
operation has aborted was in conflict with a `tm_end` of another thread. -/
theorem provoked_of_aborted (hbit : ∀ pos, platform.bit pos ≠ 0#64)
    {p : State Tid V × ConflictRecord Tid}
    (h : (conflictMachine Tid platform ConflictsOk).Reachable p) {tid : Tid} {r : Ret V}
    (hthread : p.1.thread tid = .returning r none) (haborts : r.aborts = true)
    (hfree : r ≠ .free false) : Provoked p.1 p.2 tid := by
  have hguarded := (conflictInv (fun _ _ h => h) hbit h).thread tid
  rw [hthread] at hguarded
  exact hguarded haborts hfree

def conflictsOk (s : State Tid V) (l : Label Tid V) : Bool :=
  versionsBounded s l && accessOk s l && roReadsFit s l

omit [Zero V] [DecidableEq Tid] in
theorem conflictsOk_sound (s : State Tid V) (l : Label Tid V) (h : conflictsOk s l = true) :
    ConflictsOk s l := by
  simp only [conflictsOk, Bool.and_eq_true] at h
  obtain ⟨⟨hbounded, haccess⟩, hroReads⟩ := h
  exact ⟨versionsBounded_sound s l hbounded, accessOk_sound s l haccess,
    roReadsFit_sound s l hroReads⟩

/-- A `tm_end` takes the lock of the first word and stops there. Another transaction begins and
reads the word. -/
def readBehindLock : Schedule Bool Nat :=
  calls true (.begin false) 3 ++ calls true (.write [7] 8 (vaFromIndex 0 0)) 3 ++
    calls true .finish 3 ++ calls false (.begin false) 3 ++
      calls false (.read (vaFromIndex 0 0) 8) 3

def Thread.refusedRead : Thread V → Bool
  | .returning (.read none) none => true
  | _ => false

omit [Zero V] in
theorem Thread.eq_of_refusedRead {thread : Thread V} (h : thread.refusedRead = true) :
    thread = .returning (.read none) none := by
  unfold Thread.refusedRead at h
  split at h
  · rfl
  · cases h

theorem exists_refusedRead : ∃ p : State Bool Nat × ConflictRecord Bool,
    (conflictMachine Bool (Platform.x86 Nat) ConflictsOk).Reachable p ∧
      p.1.thread false = .returning (.read none) none ∧ p.2.rivals false = [] := by
  let test : State Bool Nat × ConflictRecord Bool → Bool := fun p =>
    (p.1.thread false).refusedRead && (p.2.rivals false).isEmpty
  have hrun : ∃ p, (conflictMachine Bool (Platform.x86 Nat) ConflictsOk).Reachable p ∧
      test p = true :=
    exists_of_schedule conflictsOk conflictsOk_sound
      (State.fresh_init_words 1 (by decide) (by decide)) readBehindLock test (by decide +kernel)
  obtain ⟨p, hreach, htest⟩ := hrun
  simp only [test, Bool.and_eq_true, List.isEmpty_iff] at htest
  exact ⟨p, hreach, Thread.eq_of_refusedRead htest.1, htest.2⟩

theorem provoked_of_refusedRead : ∃ (s : State Bool Nat) (r : ConflictRecord Bool),
    s.thread false = .returning (.read none) none ∧ Provoked s r false := by
  obtain ⟨p, hreach, hthread, -⟩ := exists_refusedRead
  exact ⟨p.1, p.2, hthread,
    provoked_of_aborted (Platform.x86_bit Nat) hreach hthread rfl (by simp)⟩

/-- **A lock whose owner stands still** aborts a transaction too, without any step of that `tm_end`
after the sample. -/
theorem aborted_without_step : ¬ ∀ p : State Bool Nat × ConflictRecord Bool,
    (conflictMachine Bool (Platform.x86 Nat) ConflictsOk).Reachable p → ∀ tid r,
      p.1.thread tid = .returning r none → r.aborts = true → r ≠ .free false →
        ∃ w ∈ p.2.touched tid, p.2.Rivaled tid w := by
  intro hall
  obtain ⟨p, hreach, hthread, hrivals⟩ := exists_refusedRead
  obtain ⟨w, -, u, -, hmem⟩ := hall p hreach false _ hthread rfl (by simp)
  rw [hrivals] at hmem
  cases hmem

end TransactionalMemory
