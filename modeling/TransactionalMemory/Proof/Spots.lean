import TransactionalMemory.Library.Circulation
import TransactionalMemory.Proof.Holds
import TransactionalMemory.Proof.Table

/-!
# Spots of `va_arr`

Who has a spot at which program point of `tm_alloc`, what a call in progress knows about the free
list, and the invariant of the free list under the pops, the two kinds of push and the batch
deletions. The pops exclude each other by `virtual_memory_lock` and the batch deletions exclude all
of `tm_alloc` by `cleanup_lock`. Nothing excludes the push of a failed `tm_alloc`; it is kept apart
by a condition on runs.
-/

namespace TransactionalMemory

open Concurrency

variable {V : Type}

namespace AllocPc

def inMutex : AllocPc → Bool
  | .check | .popIndex | .popTmp _ | .popNext _ _ | .popStore _ _ _ | .popFree _ _ | .counter
  | .unlock _ => true
  | _ => false

/-- Between the first use of the free-list head and the store that takes it off. -/
def popping : AllocPc → Bool
  | .popTmp _ | .popNext _ _ | .popStore _ _ _ => true
  | _ => false

/-- The spot that the call has taken and neither put to use nor given back. -/
def claim : AllocPc → Option Nat
  | .popFree spot _ | .unlock spot | .initStruct spot | .initData spot _ | .initLocks spot _
  | .pushNode spot | .pushStore spot _ => some spot
  | _ => none

def node : AllocPc → Option NodeId
  | .popFree _ tmp => some tmp
  | .pushStore _ n => some n
  | _ => none

def Facts (tm : Tm V) : AllocPc → Prop
  | .popTmp spot => ∃ n c, tm.emptySpots = some n ∧ tm.node n = some c ∧ c.index = spot
  | .popNext spot tmp => tm.emptySpots = some tmp ∧ ∃ c, tm.node tmp = some c ∧ c.index = spot
  | .popStore spot tmp next => tm.emptySpots = some tmp ∧ tm.node tmp = some ⟨next, spot⟩
  | .pushStore spot n => ∃ next, tm.node n = some ⟨next, spot⟩
  | .initData spot s | .initLocks spot s => tm.vaArr spot = .segment s
  | _ => True

theorem Facts.frame {tm tm' : Tm V} {pc : AllocPc} (h : pc.Facts tm)
    (hhead : pc.popping = true → tm'.emptySpots = tm.emptySpots)
    (hnode : ∀ n, tm.node n ≠ none → pc.node = some n ∨ pc.popping = true → tm'.node n = tm.node n)
    (hvaArr : ∀ spot, pc.claim = some spot → tm'.vaArr spot = tm.vaArr spot) : pc.Facts tm' := by
  cases pc with
  | popTmp spot =>
      obtain ⟨n, c, hn, hc, hindex⟩ := h
      exact ⟨n, c, (hhead rfl).trans hn, (hnode n (by simp [hc]) (Or.inr rfl)).trans hc, hindex⟩
  | popNext spot tmp =>
      obtain ⟨hn, c, hc, hindex⟩ := h
      exact ⟨(hhead rfl).trans hn, c, (hnode tmp (by simp [hc]) (Or.inr rfl)).trans hc, hindex⟩
  | popStore spot tmp next =>
      obtain ⟨hn, hc⟩ := h
      exact ⟨(hhead rfl).trans hn, (hnode tmp (by simp [hc]) (Or.inr rfl)).trans hc⟩
  | pushStore spot n =>
      obtain ⟨next, hc⟩ := h
      exact ⟨next, (hnode n (by simp [hc]) (Or.inl rfl)).trans hc⟩
  | initData spot s => exact (hvaArr spot rfl).trans h
  | initLocks spot s => exact (hvaArr spot rfl).trans h
  | _ => trivial

theorem inMutex_of_popping {pc : AllocPc} (h : pc.popping = true) : pc.inMutex = true := by
  cases pc <;> first | rfl | cases h

end AllocPc

namespace Thread

def allocPc : Thread V → Option AllocPc
  | .allocating _ _ pc => some pc
  | _ => none

theorem eq_of_allocPc {thread : Thread V} {pc : AllocPc} (h : thread.allocPc = some pc) :
    ∃ t size, thread = .allocating t size pc := by
  unfold allocPc at h
  split at h
  · cases h
    exact ⟨_, _, rfl⟩
  · cases h

def claim (thread : Thread V) : Option Nat := thread.allocPc.bind AllocPc.claim

def node (thread : Thread V) : Option NodeId := thread.allocPc.bind AllocPc.node

def inMutex (thread : Thread V) : Bool := thread.allocPc.any AllocPc.inMutex

def popping (thread : Thread V) : Bool := thread.allocPc.any AllocPc.popping

theorem holds_of_allocPc {thread : Thread V} {pc : AllocPc} (h : thread.allocPc = some pc) :
    thread.holds = true := by
  unfold Thread.allocPc at h
  split at h
  · rfl
  · cases h

theorem allocPc_of_drains {thread : Thread V} (h : thread.drains = true) :
    thread.allocPc = none := by
  unfold Thread.drains at h
  split at h
  · rfl
  · rfl
  · cases h

end Thread

inductive SpotMove [Zero V] (tm : Tm V) (choice : Choice V) (thread : Thread V) (event : Event V)
    (thread' : Thread V) : Prop where
  | quiet (hmutex : (tm.after event).virtualMemoryLock = tm.virtualMemoryLock)
      (hhead : (tm.after event).emptySpots = tm.emptySpots)
      (hnode : (tm.after event).node = tm.node) (hvaN : (tm.after event).vaN = tm.vaN)
      (hvaArr : (tm.after event).vaArr = tm.vaArr)
      (hsegment : (tm.after event).segment = tm.segment) (hbefore : thread.allocPc = none)
      (hafter : thread'.allocPc = none ∨ thread'.allocPc = some .lock)
  | alloc {t : Tx V} {size : Nat} {pc : AllocPc} (hbefore : thread = .allocating t size pc)
      (hmove : TmAllocMove tm choice t size pc event thread')
  | deleted {spot : Int} {s : SegId} {g : Segment} (hevent : event = .op (.deleteSegment spot))
      (hdrains : thread.drains = true) (hafter : thread'.allocPc = none)
      (hspot : tm.vaArr spot.toNat = .segment s) (hseg : tm.segment s = some g)
      (hready : g.state = .ready)

section Moves

variable [Zero V] {platform : Platform V} {tm : Tm V} {choice : Choice V}
  {thread thread' : Thread V} {event : Event V}

theorem TmEndMove.spotMove {t : Tx V} {pc : EndPc}
    (h : TmEndMove platform tm t pc event thread') :
    SpotMove tm choice (.ending t pc) event thread' := by
  cases h with
  | drain hi hspot hseg hg hready => exact .deleted rfl rfl rfl hseg hg hready
  | @drainNull i spot hi hspot hnull =>
      have hsame : tm.deleteSegment spot = tm := by simp [Tm.deleteSegment, hnull]
      refine .quiet ?_ ?_ ?_ ?_ ?_ ?_ rfl (Or.inl rfl) <;> simp [Tm.after, Tm.apply, hsame]
  | copied => exact .quiet rfl rfl rfl rfl rfl rfl rfl (Or.inl (by split <;> rfl))
  | _ => exact .quiet rfl rfl rfl rfl rfl rfl rfl (Or.inl rfl)

theorem ThreadMove.spotMove (h : ThreadMove platform tm choice thread event thread') :
    SpotMove tm choice thread event thread' := by
  cases h with
  | call h =>
      cases h with
      | alloc => exact .quiet rfl rfl rfl rfl rfl rfl rfl (Or.inr rfl)
      | _ => exact .quiet rfl rfl rfl rfl rfl rfl rfl (Or.inl rfl)
  | alloc h => exact .alloc rfl h
  | finish h => exact h.spotMove
  | begin h | read h | roRead h | write h | free h =>
      cases h <;> exact .quiet rfl rfl rfl rfl rfl rfl rfl (Or.inl rfl)
  | _ => exact .quiet rfl rfl rfl rfl rfl rfl rfl (Or.inl rfl)

end Moves

/-! ### The mutex -/

variable {Tid : Type}

inductive MutexMove [Zero V] (tm : Tm V) (thread : Thread V) (event : Event V)
    (thread' : Thread V) : Prop where
  | quiet (hmutex : (tm.after event).virtualMemoryLock = tm.virtualMemoryLock)
      (hkeep : thread'.inMutex = thread.inMutex)
  | locked (hevent : event = .op .lockVirtualMemory) (hfree : tm.virtualMemoryLock = false)
  | unlocked (hevent : event = .op .unlockVirtualMemory) (hbefore : thread.inMutex = true)
      (hafter : thread'.inMutex = false)

theorem SpotMove.mutexMove [Zero V] {tm : Tm V} {choice : Choice V} {thread thread' : Thread V}
    {event : Event V} (h : SpotMove tm choice thread event thread') :
    MutexMove tm thread event thread' := by
  cases h with
  | quiet hmutex hhead hnode hvaN hvaArr hsegment hbefore hafter =>
      refine .quiet hmutex ?_
      rcases hafter with hafter | hafter
      · simp [Thread.inMutex, hbefore, hafter]
      · simp [Thread.inMutex, hbefore, hafter, AllocPc.inMutex]
  | alloc hbefore hmove =>
      subst hbefore
      cases hmove with
      | lock hfree => exact .locked rfl hfree
      | unlock => exact .unlocked rfl rfl rfl
      | _ => exact .quiet rfl rfl
  | @deleted spot s g hevent hdrains hafter hspot =>
      have hbefore := Thread.allocPc_of_drains hdrains
      subst hevent
      refine .quiet ?_ (by rw [Thread.inMutex, Thread.inMutex, hbefore, hafter])
      simp [Tm.after, Tm.apply, Tm.deleteSegment, hspot]

structure MutexInv (s : State Tid V) : Prop where
  locked : ∀ tid, (s.thread tid).inMutex = true → s.tm.virtualMemoryLock = true
  unique : ∀ tid tid', (s.thread tid).inMutex = true → (s.thread tid').inMutex = true → tid = tid'

/-- While one call is inside the mutex, no other takes a head off. -/
theorem MutexInv.not_popping {s : State Tid V} (h : MutexInv s) {u tid : Tid} {pc : AllocPc}
    (hin : (s.thread u).inMutex = true) (hne : tid ≠ u) (hpc : (s.thread tid).allocPc = some pc) :
    pc.popping = false := by
  by_contra hpop
  have hother : (s.thread tid).inMutex = true := by
    simp [Thread.inMutex, hpc, AllocPc.inMutex_of_popping (by simpa using hpop)]
  exact hne (h.unique tid u hother hin)

section Reachable

variable [Zero V] [DecidableEq Tid] {platform : Platform V} {s : State Tid V}

theorem mutexInv (h : (system Tid platform).Reachable s) : MutexInv s := by
  refine h.invariant (P := MutexInv) (fun s hs => ?_) fun s l s' _ ih hstep => ?_
  · have hnone : ∀ tid, (s.thread tid).inMutex = false := fun tid => by rw [hs.1 tid]; rfl
    exact ⟨fun tid htid => by simp [hnone tid] at htid,
      fun tid _ htid => by simp [hnone tid] at htid⟩
  · obtain ⟨hmove, htm, hother⟩ := system_step_move hstep
    cases hmove.spotMove.mutexMove with
    | quiet hmutex hkeep =>
        have hsame := thread_keep hother hkeep
        refine ⟨?_, ?_⟩
        · simp only [hsame, htm, hmutex]
          exact ih.locked
        · simp only [hsame]
          exact ih.unique
    | locked hevent hfree =>
        have honly : ∀ tid, (s'.thread tid).inMutex = true → tid = l.tid := by
          intro tid htid
          by_contra hne
          rw [hother tid hne] at htid
          simp [ih.locked tid htid] at hfree
        refine ⟨fun tid _ => by rw [htm, hevent]; rfl, fun tid tid' htid htid' => ?_⟩
        rw [honly tid htid, honly tid' htid']
    | unlocked hevent hbefore hafter =>
        have hnone : ∀ tid, (s'.thread tid).inMutex = false := by
          intro tid
          by_cases heq : tid = l.tid
          · rw [heq, hafter]
          · rw [hother tid heq]
            by_contra htid
            exact heq (ih.unique tid l.tid (by simpa using htid) hbefore)
        exact ⟨fun tid htid => by simp [hnone tid] at htid,
          fun tid _ htid => by simp [hnone tid] at htid⟩

end Reachable

end TransactionalMemory
