import TransactionalMemory.Proof.Commits
import TransactionalMemory.Proof.LockWords
import TransactionalMemory.Proof.Schedules

/-!
# Aborted transactions

Beside the region a recorder keeps, for each thread, the region that there would be without the
steps of the thread's transaction: what all other operations since the call of `tm_begin` make of
the region found there. Before its decision a transaction differs from that only by the locks it has
taken and by its read hold, and it gives back both before it returns false. What it has drawn from
the clock stays drawn, and what its calls of `tm_alloc` have built stays built.
-/

namespace TransactionalMemory

open Concurrency

variable {V Tid : Type}

/-! ### Locks and a read hold on top of a region -/

/-- The region with these locks taken, and one more read hold if `hold`. -/
def Tm.under (tm : Tm V) (held : List Word) (hold : Bool) : Tm V :=
  { tm with
    readers := tm.readers + hold.toNat
    lock := fun w => if w ∈ held then vlTaken (tm.lock w) else tm.lock w }

@[simp]
theorem Tm.under_nil_false (tm : Tm V) : tm.under [] false = tm := by
  simp [Tm.under]

def Event.Spares (tm : Tm V) (held : List Word) : Event V → Prop
  | .op (.casLock w _ true) | .op (.fetchSubLock w) | .op (.storeLock w _) => w ∉ held
  | .op (.readySegment g _) => ∀ w ∈ held, w.seg ≠ g
  | .op .rdunlock => 0 < tm.readers
  | _ => True

section Under

variable [Zero V] {tm without : Tm V} {event : Event V} {held : List Word} {hold : Bool} {w : Word}

theorem Tm.lock_after_of_spares (h : event.Spares tm held) (hw : w ∈ held) :
    (tm.after event).lock w = tm.lock w := by
  have hne : ∀ {w' : Word}, w' ∉ held → w ≠ w' := by
    rintro w' hw' rfl
    exact hw' hw
  cases event with
  | op o =>
      cases o with
      | casLock w' expected success =>
          cases success with
          | false => rfl
          | true => exact Function.update_of_ne (hne h) _ _
      | fetchSubLock w' | storeLock w' value => exact Function.update_of_ne (hne h) _ _
      | readySegment g size => simp [Tm.after, Tm.apply, h w hw]
      | deleteSegment spot => exact congrFun (tm.deleteSegment_words spot).1 w
      | _ => rfl
  | _ => rfl

/-- **What spares the locks does the same to the region under them.** -/
theorem Tm.under_after (h : event.Spares tm held) :
    (tm.under held hold).after event = (tm.after event).under held hold := by
  have hupdate : ∀ {w : Word} {value : Int}, w ∉ held →
      Function.update (fun w => if w ∈ held then vlTaken (tm.lock w) else tm.lock w) w value =
        fun w' => if w' ∈ held then vlTaken (Function.update tm.lock w value w')
          else Function.update tm.lock w value w' := by
    intro w value hw
    funext w'
    by_cases heq : w' = w
    · subst heq
      simp [hw]
    · simp [heq]
  cases event with
  | op o =>
      cases o with
      | rdlock => simp [Tm.after, Tm.apply, Tm.under, Nat.add_right_comm]
      | rdunlock =>
          have hpos : 0 < tm.readers := h
          simp only [Tm.after, Tm.apply, Tm.under, Tm.mk.injEq, true_and, and_true]
          omega
      | casLock w expected success =>
          cases success with
          | false => rfl
          | true =>
              have hw : w ∉ held := h
              simp [Tm.after, Tm.apply, Tm.under, hupdate hw]
      | fetchSubLock w =>
          have hw : w ∉ held := h
          simp [Tm.after, Tm.apply, Tm.under, hw, hupdate hw]
      | storeLock w value =>
          have hw : w ∉ held := h
          simp [Tm.after, Tm.apply, Tm.under, hupdate hw]
      | readySegment g size =>
          have hheld : ∀ w ∈ held, w.seg ≠ g := h
          simp only [Tm.after, Tm.apply, Tm.under, Tm.setSegment, Tm.mk.injEq, true_and, and_true]
          funext w
          by_cases hw : w ∈ held
          · simp [hw, hheld w hw]
          · simp [hw]
      | deleteSegment spot =>
          simp only [Tm.after, Tm.apply, Tm.deleteSegment, Tm.under]
          split <;> rfl
      | _ => rfl
  | _ => rfl

structure Tm.Hides (tm without : Tm V) (held : List Word) (hold : Bool) : Prop where
  eq : tm = without.under held hold
  free : ∀ w ∈ held, vlLocked (without.lock w) = false
  range : ∀ w ∈ held, -2 ^ 31 ≤ without.lock w ∧ without.lock w < 2 ^ 31

namespace Tm.Hides

omit [Zero V] in
theorem refl (tm : Tm V) : tm.Hides tm [] false :=
  ⟨(Tm.under_nil_false tm).symm, by simp, by simp⟩

theorem after (h : tm.Hides without held hold) (hspares : event.Spares without held) :
    (tm.after event).Hides (without.after event) held hold := by
  refine ⟨by rw [h.eq, Tm.under_after hspares], fun w hw => ?_, fun w hw => ?_⟩
  · rw [Tm.lock_after_of_spares hspares hw]
    exact h.free w hw
  · rw [Tm.lock_after_of_spares hspares hw]
    exact h.range w hw

/-- The lock that the transaction takes was free without it too. -/
theorem take (h : tm.Hides without held hold) (hfree : vlLocked (tm.lock w) = false)
    (hrange : -2 ^ 31 ≤ tm.lock w ∧ tm.lock w < 2 ^ 31) (hnew : w ∉ held) :
    (tm.after (.op (.casLock w (tm.lock w) true))).Hides without (held ++ [w]) hold := by
  have hlock : tm.lock w = without.lock w := by
    rw [h.eq]
    exact if_neg hnew
  refine ⟨?_, fun w' hw' => ?_, fun w' hw' => ?_⟩
  · rw [hlock, h.eq]
    simp only [Tm.after, Tm.apply, Tm.under, Tm.mk.injEq, true_and, and_true]
    funext w'
    by_cases heq : w' = w
    · subst heq
      simp
    · simp [heq]
  · rcases List.mem_append.mp hw' with hw' | hw'
    · exact h.free w' hw'
    · rw [List.mem_singleton.mp hw', ← hlock]
      exact hfree
  · rcases List.mem_append.mp hw' with hw' | hw'
    · exact h.range w' hw'
    · rw [List.mem_singleton.mp hw', ← hlock]
      exact hrange

/-- The lock that the transaction gives back is as it would be without it. -/
theorem give (h : tm.Hides without (w :: held) hold) (hnew : w ∉ held) :
    (tm.after (.op (.fetchSubLock w))).Hides without held hold := by
  obtain ⟨hlo, hhi⟩ := h.range w List.mem_cons_self
  have hback := vlUnlock_vlTaken (h.free w List.mem_cons_self) hlo hhi
  refine ⟨?_, fun w' hw' => h.free w' (List.mem_cons_of_mem _ hw'),
    fun w' hw' => h.range w' (List.mem_cons_of_mem _ hw')⟩
  rw [h.eq]
  simp only [Tm.after, Tm.apply, Tm.under, Tm.mk.injEq, true_and, and_true, List.mem_cons, true_or,
    if_true, hback]
  funext w'
  by_cases heq : w' = w
  · subst heq
    simp [hnew]
  · simp [heq]

end Tm.Hides

end Under

/-! ### The recorder -/

def Thread.allocates : Thread V → Bool
  | .allocating _ _ _ => true
  | _ => false

def drawsClock (_ : State Tid V) (l : Label Tid V) : Bool :=
  match l.event with
  | .op (.fetchAddClock _) => true
  | _ => false

/-- The steps of a transaction that an abort does not undo. -/
def drawsOrAllocates (s : State Tid V) (l : Label Tid V) : Bool :=
  drawsClock s l || (s.thread l.tid).allocates

variable [Zero V] [DecidableEq Tid]

/-- The region without the steps of each thread's transaction, those that `keep` keeps apart. -/
def recordWithout (keep : State Tid V → Label Tid V → Bool) (s : State Tid V) (l : Label Tid V)
    (without : Tid → Tm V) : Tid → Tm V :=
  fun tid =>
    if tid = l.tid then
      match l.event with
      | .call (.begin _) => s.tm
      | event => if keep s l then (without tid).after event else without tid
    else (without tid).after l.event

/-- What is recorded at the start is never looked at. -/
def traceMachine (Tid : Type) [DecidableEq Tid] (platform : Platform V)
    (keep : State Tid V → Label Tid V → Bool) :
    Machine (State Tid V × (Tid → Tm V)) (Label Tid V) :=
  (system Tid platform).observe (fun _ => Tm.bare 0 true) (recordWithout keep)

/-! ### One step -/

section Step

variable {platform : Platform V} {s s' : State Tid V} {l : Label Tid V} {without : Tid → Tm V}

def TracesInv (s : State Tid V) (without : Tid → Tm V) : Prop :=
  ∀ tid, (s.thread tid).undecided = true →
    s.tm.Hides (without tid) (s.thread tid).held (s.thread tid).holds

omit [Zero V] [DecidableEq Tid] in
/-- Two holds count twice. -/
theorem HoldsInv.two_le {holders : Finset Tid} {lost : Nat} (h : HoldsInv s holders lost)
    {tid tid' : Tid} (hne : tid ≠ tid') (hholds : (s.thread tid).holds = true)
    (hholds' : (s.thread tid').holds = true) : 2 ≤ s.tm.readers := by
  classical
  have hsubset : ({tid, tid'} : Finset Tid) ⊆ holders := by
    intro t ht
    rw [Finset.mem_insert, Finset.mem_singleton] at ht
    rcases ht with rfl | rfl
    · exact (h.mem _).mpr hholds
    · exact (h.mem _).mpr hholds'
  have hcard := Finset.card_le_card hsubset
  rw [Finset.card_pair hne] at hcard
  rw [h.readers]
  omega

omit [Zero V] [DecidableEq Tid] in
theorem ThreadMove.holds_of_rdunlock {tm : Tm V} {choice : Choice V} {thread thread' : Thread V}
    {event : Event V} (h : ThreadMove platform tm choice thread event thread')
    (hevent : event = .op .rdunlock) : thread.holds = true := by
  cases h with
  | call h | begin h | read h | roRead h | write h | alloc h | free h => cases h <;> cases hevent
  | finish h => cases h <;> first | rfl | cases hevent
  | cleanup => rfl
  | start | retIdle | retLive => cases hevent

/-- Another thread's step spares a transaction's locks and its hold. -/
theorem spares_of_step (hreach : (system Tid platform).Reachable s)
    (hstep : (system Tid platform).step s l s') {tid : Tid} (hne : tid ≠ l.tid)
    (hinv : s.tm.Hides (without tid) (s.thread tid).held (s.thread tid).holds) :
    l.event.Spares (without tid) (s.thread tid).held := by
  have hlocks := lockWordsInv hreach
  obtain ⟨hmove, -, -⟩ := system_step_move hstep
  have hword := hmove.wordMove (threadWf hreach l.tid)
  cases hevent : l.event with
  | op o =>
      cases o with
      | casLock w expected success =>
          cases success with
          | false => trivial
          | true =>
              cases hword with
              | locked hevent' hvalid hpass =>
                  rw [hevent] at hevent'
                  cases hevent'
                  simp only [vlTryLockRefuses, Bool.or_eq_false_iff] at hpass
                  intro hmem
                  simp [hlocks.taken tid w hmem] at hpass
              | quiet hstore => simp [hevent, storeAction] at hstore
              | _ => simp_all
      | fetchSubLock w =>
          cases hword with
          | unlocked hevent' hvalid hheld =>
              rw [hevent] at hevent'
              cases hevent'
              exact fun hmem => hne (hlocks.unique tid l.tid w hmem (by simp [hheld]))
          | quiet hstore => simp [hevent, storeAction] at hstore
          | _ => simp_all
      | storeLock w value =>
          cases hword with
          | released hevent' hvalid hheld =>
              rw [hevent] at hevent'
              cases hevent'
              exact fun hmem => hne (hlocks.unique tid l.tid w hmem (by simp [hheld]))
          | quiet hstore => simp [hevent, storeAction] at hstore
          | _ => simp_all
      | readySegment g size =>
          intro w hmem heq
          cases hword with
          | readied hevent' hbuilding =>
              rw [hevent] at hevent'
              cases hevent'
              have hunopened := (segmentsInv hreach).unopened_of_building hbuilding
              exact hlocks.opened tid w hmem (heq ▸ hunopened)
          | quiet hstore hlock =>
              have hlocked := hlocks.taken tid w hmem
              rw [← hlock, hevent] at hlocked
              simp [Tm.after, Tm.apply, heq, vlInit, vlLocked] at hlocked
          | _ => simp_all
      | rdunlock =>
          obtain ⟨holders, lost, hholds⟩ := holdsInv hreach
          have hmover := hmove.holds_of_rdunlock hevent
          have hreaders : s.tm.readers = (without tid).readers + (s.thread tid).holds.toNat := by
            rw [hinv.eq]
            rfl
          cases hmine : (s.thread tid).holds with
          | false =>
              have hpos := hholds.readers_pos l.tid hmover
              rw [hmine] at hreaders
              simp only [Event.Spares]
              simpa [hreaders] using hpos
          | true =>
              have htwo := hholds.two_le hne hmine hmover
              rw [hmine] at hreaders
              simp only [Event.Spares]
              simp only [Bool.toNat_true] at hreaders
              omega
      | _ => trivial
  | _ => trivial

omit [DecidableEq Tid] in
/-- A move that acts on no lock keeps what is held. -/
theorem WordMove.held_eq {tm : Tm V} {thread thread' : Thread V} {event : Event V}
    (h : WordMove tm thread event thread') (hstore : storeAction event = none) :
    thread'.held = thread.held := by
  cases h with
  | quiet hstore' hlock hdata hclock hheld => exact hheld
  | filled hevent hbuilding hheld | readied hevent hbuilding hheld => exact hheld
  | locked hevent | unlocked hevent | drew hevent | decided hevent | put hevent | released hevent
    | returned hevent => simp [hevent, storeAction] at hstore

/-- **One step of the transaction's own thread.** -/
theorem hides_of_move (hreach : (system Tid platform).Reachable s)
    (hstep : (system Tid platform).step s l s') (h : TracesInv s without)
    (hafter : (s'.thread l.tid).undecided = true) :
    s'.tm.Hides (recordWithout drawsOrAllocates s l without l.tid) (s'.thread l.tid).held
      (s'.thread l.tid).holds := by
  have hlocks := lockWordsInv hreach
  have hinv := h l.tid
  have hanswers := threadAnswers hreach l.tid
  have hnodup := hlocks.nodup l.tid
  have htaken := hlocks.taken l.tid
  obtain ⟨hmove, htm, -⟩ := system_step_move hstep
  have hword := hmove.wordMove (threadWf hreach l.tid)
  rw [htm]
  unfold recordWithout drawsOrAllocates drawsClock
  rw [if_pos rfl]
  generalize s.thread l.tid = thread, l.event = event, s'.thread l.tid = thread' at *
  cases hmove with
  | start => exact Tm.Hides.refl s.tm
  | call hcall => cases hcall <;> exact hinv rfl
  | begin hbegin =>
      cases hbegin with
      | rdlock =>
          obtain ⟨heq, -, -⟩ := hinv rfl
          refine ⟨?_, by simp [Thread.held], by simp [Thread.held]⟩
          rw [heq]
          simp [Tm.after, Tm.apply, Tm.under, Thread.held, Thread.holds, Thread.allocates]
      | started => exact hinv rfl
      | _ => cases hafter
  | read hread => cases hread <;> exact hinv rfl
  | roRead hread => cases hread <;> exact hinv rfl
  | write hwrite => cases hwrite <;> exact hinv rfl
  | free hfree => cases hfree <;> exact hinv rfl
  | alloc halloc => cases halloc <;> exact (hinv rfl).after (by simp [Event.Spares, Thread.held])
  | @finish t pc event thread' hfinish =>
      cases hfinish with
      | early => cases hafter
      | commit => cases hafter
      | cas hi hvalid hprev =>
          subst hprev
          cases hword with
          | locked hevent _ hpass hheld =>
              cases hevent
              simp only [vlTryLockRefuses, Bool.or_eq_false_iff] at hpass
              rw [hheld]
              refine (hinv rfl).take hpass.1 (hlocks.range _) fun hmem => ?_
              simp [htaken _ hmem] at hpass
          | quiet hstore => cases hstore
          | _ => simp_all
      | rollback | undo =>
          cases hword with
          | unlocked hevent _ hheld =>
              cases hevent
              rw [hheld, List.nodup_cons] at hnodup
              have hhides := hinv rfl
              rw [hheld] at hhides
              exact hhides.give hnodup.1
          | quiet hstore => cases hstore
          | _ => simp_all
      | fetchAdd | fetchAddSkip => exact (hinv rfl).after trivial
      | locked | rolledBack | undone =>
          rw [hword.held_eq rfl]
          exact hinv rfl
      | sort | refused | tryLoad | casLost | validateDone | validateErased | validateFailed
        | validate => exact hinv rfl
      | copied =>
          split at hafter <;> cases hafter
      | _ => cases hafter
  | @cleanup t r =>
      obtain ⟨heq, -, -⟩ := hinv rfl
      have hholds : (Thread.returning r none : Thread V).holds = false := by
        cases r with
        | begin valid => exact absurd rfl (hanswers.2.2 valid)
        | _ => rfl
      rw [hholds, heq]
      simpa [Tm.after, Tm.apply, Tm.under, Thread.held, Thread.holds, Thread.allocates] using
        Tm.Hides.refl (without l.tid)
  | retIdle => cases hafter
  | @retLive r t =>
      cases r with
      | begin valid =>
          cases valid with
          | true => exact hinv rfl
          | false => cases hanswers
      | finish committed => cases hanswers
      | _ => exact hinv rfl

theorem TracesInv.step (hreach : (system Tid platform).Reachable s)
    (hstep : (system Tid platform).step s l s') (h : TracesInv s without) :
    TracesInv s' (recordWithout drawsOrAllocates s l without) := by
  obtain ⟨-, htm, hother⟩ := system_step_move hstep
  intro tid hundecided
  by_cases heq : tid = l.tid
  · subst heq
    exact hides_of_move hreach hstep h hundecided
  · rw [hother tid heq] at hundecided ⊢
    have hinv := h tid hundecided
    have hwithout : recordWithout drawsOrAllocates s l without tid = (without tid).after l.event :=
      if_neg heq
    rw [hwithout, htm]
    exact hinv.after (spares_of_step hreach hstep heq hinv)

end Step

/-- **An aborted transaction leaves no trace but its calls of `tm_alloc`.** When an operation of the
transaction is about to return false, the region is exactly what the steps of all other threads
since the call of `tm_begin` make of the region found there, together with the transaction's draw
from the clock and with its calls of `tm_alloc`. -/
theorem aborted_leaves_allocations {platform : Platform V} {p : State Tid V × (Tid → Tm V)}
    (h : (traceMachine Tid platform drawsOrAllocates).Reachable p) {tid : Tid} {r : Ret V}
    (hreturns : p.1.thread tid = .returning r none) (haborts : r.aborts = true) :
    p.1.tm = p.2 tid := by
  have hinv : TracesInv p.1 p.2 := by
    refine h.invariant (P := fun p => TracesInv p.1 p.2) (fun p hp tid hundecided => ?_)
      fun p l p' hreach ih hstep => ?_
    · rw [hp.1.1 tid] at hundecided
      cases hundecided
    · rw [hstep.2]
      exact ih.step hreach.of_observe hstep.1
  have hhides := hinv tid
  rw [hreturns] at hhides
  have hundecided : (Thread.returning r none : Thread V).undecided = true ∧
      (Thread.returning r none : Thread V).holds = false := by
    cases r with
    | begin valid => cases haborts
    | finish committed =>
        cases committed with
        | true => cases haborts
        | false => exact ⟨rfl, rfl⟩
    | _ => exact ⟨rfl, rfl⟩
  obtain ⟨heq, -, -⟩ := hhides hundecided.1
  rw [hundecided.2] at heq
  simpa [Thread.held] using heq

def Thread.abortedWith : Thread V → Option (Ret V)
  | .returning r none => if r.aborts then some r else none
  | _ => none

omit [Zero V] [DecidableEq Tid] in
theorem Thread.of_abortedWith {thread : Thread V} (h : thread.abortedWith.isSome = true) :
    ∃ r, thread = .returning r none ∧ r.aborts = true := by
  unfold Thread.abortedWith at h
  split at h
  · split at h
    · exact ⟨_, rfl, ‹_›⟩
    · cases h
  · cases h

/-- `tm_end` has locked the first of two words, finds the second locked by another transaction, and
gives the first one back. -/
theorem aborted_leaves_allocations_of_conflict : ∃ p : State Bool Nat × (Bool → Tm Nat),
    (∃ r, p.1.thread true = .returning r none ∧ r.aborts = true) ∧ p.1.tm.lock ⟨0, 1⟩ = 1 ∧
      p.1.tm = p.2 true := by
  let test : State Bool Nat × (Bool → Tm Nat) → Bool := fun p =>
    (p.1.thread true).abortedWith.isSome && decide (p.1.tm.lock ⟨0, 1⟩ = 1)
  have hrun : ∃ p, (((system Bool (Platform.x86 Nat)).restrict fun _ _ => True).observe
      (fun _ => Tm.bare 0 true) (recordWithout drawsOrAllocates)).Reachable p ∧ test p = true :=
    exists_of_schedule (fun _ _ => true) (fun _ _ _ => trivial)
      (State.fresh_init_words 2 (by decide) (by decide))
      (calls true (.begin false) 3 ++ calls true (.write [1, 2] 16 (vaFromIndex 0 0)) 4 ++
        calls false (.begin false) 3 ++ calls false (.write [3] 8 (vaFromIndex 0 8)) 3 ++
        calls false .finish 3 ++ calls true .finish 7)
      test (by decide +kernel)
  obtain ⟨p, hreach, htest⟩ := hrun
  simp only [test, Bool.and_eq_true, decide_eq_true_eq] at htest
  obtain ⟨r, hreturns, haborts⟩ := Thread.of_abortedWith htest.1
  exact ⟨p, ⟨r, hreturns, haborts⟩, htest.2,
    aborted_leaves_allocations hreach.of_restrict_observe hreturns haborts⟩

/-- Words, locks and the queue of frees are as without the transaction, and no segment of it is
left. -/
structure Tm.Traceless (tm without : Tm V) : Prop where
  lock : tm.lock = without.lock
  data : tm.data = without.data
  toFree : tm.toFree = without.toFree
  segments : ∀ spot g, tm.vaArr spot = .segment g → without.vaArr spot = .segment g

/-- `tm_free` of the first segment aborts, and the segment that the transaction allocated stays. -/
theorem allocation_left : ¬ ∀ p : State Unit Nat × (Unit → Tm Nat),
    (traceMachine Unit (Platform.x86 Nat) drawsClock).Reachable p → ∀ tid r,
      p.1.thread tid = .returning r none → r.aborts = true → p.1.tm.Traceless (p.2 tid) := by
  intro hclaim
  let test : State Unit Nat × (Unit → Tm Nat) → Bool := fun p =>
    (p.1.thread ()).abortedWith.isSome && decide (p.1.tm.vaArr 1 = .segment 1) &&
      decide ((p.2 ()).vaArr 1 = .garbage)
  have hrun : ∃ p, (((system Unit (Platform.x86 Nat)).restrict fun _ _ => True).observe
      (fun _ => Tm.bare 0 true) (recordWithout drawsClock)).Reachable p ∧ test p = true :=
    exists_of_schedule (fun _ _ => true) (fun _ _ _ => trivial)
      (State.fresh_init_words 1 (by decide) (by decide))
      (calls () (.begin false) 3 ++ calls () (.alloc 8) 8 ++ calls () (.free (vaFromIndex 0 0)) 2)
      test (by decide +kernel)
  obtain ⟨p, hreach, htest⟩ := hrun
  simp only [test, Bool.and_eq_true, decide_eq_true_eq] at htest
  obtain ⟨⟨haborted, hsegment⟩, hwithout⟩ := htest
  obtain ⟨r, hreturns, haborts⟩ := Thread.of_abortedWith haborted
  have hleft := (hclaim p hreach.of_restrict_observe () r hreturns haborts).segments 1 1 hsegment
  rw [hwithout] at hleft
  cases hleft

end TransactionalMemory
