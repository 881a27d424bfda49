import TransactionalMemory.Proof.Schedules

/-!
# Who holds a versioned lock

A recorder notes, from the events alone, which thread has taken which lock and not given it back,
and what each lock that the current `tm_end` gave back was before it was taken and after.
-/

namespace TransactionalMemory

open Concurrency

structure GivenLock where
  word : Word
  /-- The lock word before the lock was taken; `none` if it was not taken. -/
  before : Option Int
  /-- The lock word after the lock was given back. -/
  after : Int
deriving DecidableEq

structure LockRecord (Tid : Type) where
  /-- The lock word before `vl_try_lock` succeeded, until `vl_unlock` or `vl_unlock_update`. -/
  taken : Tid → Word → Option Int
  /-- The locks that the current `tm_end` has given back. -/
  given : Tid → List GivenLock

variable {V : Type} [Zero V] {Tid : Type} [DecidableEq Tid]

def LockRecord.start : LockRecord Tid where
  taken _ _ := none
  given _ := []

def LockRecord.take (r : LockRecord Tid) (tid : Tid) (w : Word) (prev : Int) : LockRecord Tid :=
  { r with taken := Function.update r.taken tid (Function.update (r.taken tid) w (some prev)) }

def LockRecord.give (r : LockRecord Tid) (tid : Tid) (w : Word) (after : Int) : LockRecord Tid :=
  { taken := Function.update r.taken tid (Function.update (r.taken tid) w none)
    given := Function.update r.given tid (r.given tid ++ [⟨w, r.taken tid w, after⟩]) }

def recordLocks (s : State Tid V) (l : Label Tid V) (r : LockRecord Tid) : LockRecord Tid :=
  match l.event with
  | .call .finish => { r with given := Function.update r.given l.tid [] }
  | .op (.casLock w prev true) => r.take l.tid w prev
  | .op (.fetchSubLock w) => r.give l.tid w ((s.tm.after l.event).lock w)
  | .op (.storeLock w value) => r.give l.tid w value
  | _ => r

def lockMachine (Tid : Type) [DecidableEq Tid] (platform : Platform V) :
    Machine (State Tid V × LockRecord Tid) (Label Tid V) :=
  ((system Tid platform).restrict VersionsBounded).observe .start recordLocks

/-- Standing in a `tm_end` that may still return false, or on the way out of one that does. -/
def Thread.failing : Thread V → Bool
  | .ending _ (.start) | .ending _ (.tryLoad _) | .ending _ (.tryCas _ _)
  | .ending _ (.rollback _ _) | .ending _ .fetchAdd | .ending _ (.validate _ _)
  | .ending _ (.undo _ _) | .ending _ (.validated _) | .aborting _ (.finish false)
  | .returning (.finish false) _ => true
  | _ => false

section Moves

variable {platform : Platform V} {tm : Tm V} {choice : Choice V} {thread thread' : Thread V}
  {event : Event V}

omit [Zero V] in
/-- Only a call of `tm_end` makes a thread failing, and writing back ends it. -/
theorem ThreadMove.failing (h : ThreadMove platform tm choice thread event thread')
    (hfailing : thread'.failing = true) :
    (thread.failing = true ∧ ∀ w value, event ≠ .op (.storeLock w value)) ∨
      event = .call .finish := by
  cases h with
  | call h => cases h <;> first | exact Or.inr rfl | cases hfailing
  | finish h =>
      cases h with
      | copied =>
          split at hfailing <;> cases hfailing
      | _ => first | exact Or.inl ⟨rfl, by simp⟩ | cases hfailing
  | @cleanup t r =>
      cases r with
      | finish ok =>
          cases ok with
          | false => exact Or.inl ⟨rfl, by simp⟩
          | true => cases hfailing
      | _ => cases hfailing
  | begin h | read h | roRead h | write h | alloc h | free h => cases h <;> cases hfailing
  | start | retIdle | retLive => cases hfailing

end Moves

structure LocksInv (s : State Tid V) (r : LockRecord Tid) (store : Store Tid Word V) : Prop where
  taken : ∀ tid w, r.taken tid w =
    if store.owner w = some tid then some (lockWord (store.version w) false) else none
  given : ∀ tid, (s.thread tid).failing = true → ∀ g ∈ r.given tid, g.before = some g.after

section Invariant

variable {platform : Platform V} {s s' : State Tid V} {l : Label Tid V} {r : LockRecord Tid}
  {store : Store Tid Word V}

theorem recordLocks_given_other {tid : Tid} (hne : tid ≠ l.tid) :
    (recordLocks s l r).given tid = r.given tid := by
  unfold recordLocks
  split <;> simp [LockRecord.take, LockRecord.give, hne]

theorem recordLocks_eq (hcas : ∀ w prev, l.event ≠ .op (.casLock w prev true))
    (hsub : ∀ w, l.event ≠ .op (.fetchSubLock w))
    (hstore : ∀ w value, l.event ≠ .op (.storeLock w value)) :
    (recordLocks s l r).taken = r.taken ∧ (l.event ≠ .call .finish → recordLocks s l r = r) ∧
      (l.event = .call .finish → (recordLocks s l r).given l.tid = []) := by
  unfold recordLocks
  split
  · simp_all
  · simp_all
  · simp_all
  · simp_all
  · exact ⟨rfl, fun _ => rfl, fun h => absurd h ‹_›⟩

namespace LocksInv

/-- A step that takes and gives back no lock keeps the record. -/
theorem of_quiet {store' : Store Tid Word V} (h : LocksInv s r store)
    (hstep : (system Tid platform).step s l s')
    (hcas : ∀ w prev, l.event ≠ .op (.casLock w prev true))
    (hsub : ∀ w, l.event ≠ .op (.fetchSubLock w))
    (hstore : ∀ w value, l.event ≠ .op (.storeLock w value))
    (howner : store'.owner = store.owner) (hversion : store'.version = store.version) :
    LocksInv s' (recordLocks s l r) store' := by
  obtain ⟨hmove, -, hother⟩ := system_step_move hstep
  obtain ⟨htaken, hsame, hreset⟩ := recordLocks_eq (s := s) (r := r) hcas hsub hstore
  refine ⟨fun tid w => ?_, fun tid hfailing => ?_⟩
  · rw [htaken, howner, hversion]
    exact h.taken tid w
  · by_cases heq : tid = l.tid
    · subst heq
      by_cases hcall : l.event = .call .finish
      · simp [hreset hcall]
      · rw [hsame hcall]
        rcases hmove.failing hfailing with ⟨hbefore, -⟩ | hcall'
        · exact h.given l.tid hbefore
        · exact absurd hcall' hcall
    · rw [recordLocks_given_other heq]
      exact h.given tid (hother tid heq ▸ hfailing)

/-- A step that gives back a lock its thread owns. -/
theorem of_give {store' : Store Tid Word V} (w : Word) (after : Int) (h : LocksInv s r store)
    (hstep : (system Tid platform).step s l s')
    (hrecord : recordLocks s l r = r.give l.tid w after)
    (howned : store.owner w = some l.tid)
    (howner : store'.owner = Function.update store.owner w none)
    (hversion : ∀ w', w' ≠ w → store'.version w' = store.version w')
    (hafter : (s'.thread l.tid).failing = true →
      (s.thread l.tid).failing = true ∧ after = lockWord (store.version w) false) :
    LocksInv s' (recordLocks s l r) store' := by
  obtain ⟨-, -, hother⟩ := system_step_move hstep
  refine ⟨fun tid w' => ?_, fun tid hfailing => ?_⟩
  · rw [hrecord, howner]
    by_cases hw : w' = w
    · subst hw
      by_cases heq : tid = l.tid
      · simp [LockRecord.give, heq]
      · simp [LockRecord.give, heq, h.taken tid w', howned, Ne.symm heq]
    · rw [hversion w' hw]
      by_cases heq : tid = l.tid
      · simp [LockRecord.give, heq, hw, h.taken l.tid w']
      · simp [LockRecord.give, heq, hw, h.taken tid w']
  · by_cases heq : tid = l.tid
    · subst heq
      obtain ⟨hbefore, rfl⟩ := hafter hfailing
      rw [hrecord]
      intro g hg
      simp only [LockRecord.give, Function.update_self, List.mem_append, List.mem_singleton] at hg
      rcases hg with hg | rfl
      · exact h.given l.tid hbefore g hg
      · simp [h.taken l.tid w, howned]
    · rw [recordLocks_given_other heq]
      exact h.given tid (hother tid heq ▸ hfailing)

theorem step (hwords : WordsInv s store) (hwf : (s.thread l.tid).Wf) (h : LocksInv s r store)
    (hstep : (system Tid platform).step s l s') :
    LocksInv s' (recordLocks s l r) (recordStore s l store) := by
  obtain ⟨hthread, htm, hother⟩ := system_step_move hstep
  have hmove := hthread.wordMove hwf
  have hen : ∀ action, storeAction l.event = some action → store.Enabled l.tid action :=
    fun _ => hwords.enabled hmove
  cases hmove with
  | quiet hstore =>
      simp only [recordStore, hstore, Option.elim_none]
      refine h.of_quiet hstep ?_ ?_ ?_ rfl rfl
      · intro w prev hevent
        simp [hevent, storeAction] at hstore
      · intro w hevent
        simp [hevent, storeAction] at hstore
      · intro w value hevent
        simp [hevent, storeAction] at hstore
  | filled hevent | readied hevent =>
      simp only [recordStore, hevent, storeAction, Option.elim_none]
      exact h.of_quiet hstep (by simp [hevent]) (by simp [hevent]) (by simp [hevent]) rfl rfl
  | drew hevent | decided hevent | put hevent | returned hevent =>
      simp only [recordStore, hevent, storeAction, Option.elim_some]
      exact h.of_quiet hstep (by simp [hevent]) (by simp [hevent]) (by simp [hevent]) rfl rfl
  | @locked w rv hevent hvalid hpass hheld hbefore hafter =>
      have haction : storeAction l.event = some (.lock w) := by rw [hevent]; rfl
      have hfree := (hen _ haction).1
      have hlock : s.tm.lock w = lockWord (store.version w) false := by simp [hwords.lock, hfree]
      have hrecord : recordLocks s l r = r.take l.tid w (s.tm.lock w) := by
        simp [recordLocks, hevent]
      simp only [recordStore, haction, Option.elim_some]
      refine ⟨fun tid w' => ?_, fun tid hfailing => ?_⟩
      · rw [hrecord]
        by_cases hw : w' = w
        · subst hw
          by_cases heq : tid = l.tid
          · simp [LockRecord.take, Store.apply, heq, hlock]
          · simp [LockRecord.take, Store.apply, heq, Ne.symm heq, h.taken tid w', hfree]
        · by_cases heq : tid = l.tid
          · simp [LockRecord.take, Store.apply, heq, hw, h.taken l.tid w']
          · simp [LockRecord.take, Store.apply, heq, hw, h.taken tid w']
      · have hgiven : (recordLocks s l r).given tid = r.given tid := by
          simp [hrecord, LockRecord.take]
        rw [hgiven]
        by_cases heq : tid = l.tid
        · subst heq
          rcases hthread.failing hfailing with ⟨hbefore', -⟩ | hcall
          · exact h.given l.tid hbefore'
          · simp [hevent] at hcall
        · exact h.given tid (hother tid heq ▸ hfailing)
  | @unlocked w hevent hvalid hheld hbefore hafter =>
      have haction : storeAction l.event = some (.unlock w) := by rw [hevent]; rfl
      have howned := (hen _ haction).1
      have hlt : store.version w < 2 ^ 30 := (hwords.inv.version_le w).trans_lt hwords.bound
      simp only [recordStore, haction, Option.elim_some]
      refine of_give w ((s.tm.after l.event).lock w) h hstep
        (by simp [recordLocks, hevent]) howned rfl (fun _ _ => rfl) fun hfailing => ?_
      rcases hthread.failing hfailing with ⟨hbefore', -⟩ | hcall
      · refine ⟨hbefore', ?_⟩
        simp [hevent, Tm.after, Tm.apply, hwords.lock, howned, vlUnlock_lockWord hlt]
      · simp [hevent] at hcall
  | @released wv writes w hevent hvalid hheld hbefore hafter =>
      have haction : storeAction l.event = some (.release w) := by rw [hevent]; rfl
      have howned := (hen _ haction).1
      simp only [recordStore, haction, Option.elim_some]
      refine of_give w (vlUnlockUpdate wv) h hstep (by simp [recordLocks, hevent])
        howned rfl (fun w' hw => by simp [Store.apply, hw]) fun hfailing => ?_
      rcases hthread.failing hfailing with ⟨-, hstore⟩ | hcall
      · exact absurd hevent (hstore w _)
      · simp [hevent] at hcall

omit [Zero V] in
theorem taken_isSome_iff (h : LocksInv s r store) {tid : Tid} {w : Word} :
    (r.taken tid w).isSome ↔ store.owner w = some tid := by
  rw [h.taken tid w]
  split <;> simp_all

end LocksInv

theorem locksInv {p : State Tid V × LockRecord Tid} (h : (lockMachine Tid platform).Reachable p) :
    ∃ store, WordsInv p.1 store ∧ LocksInv p.1 p.2 store := by
  refine h.invariant (P := fun p => ∃ store, WordsInv p.1 store ∧ LocksInv p.1 p.2 store)
    (fun p hp => ?_) fun p l p' hreach ih hstep => ?_
  · refine ⟨_, WordsInv.init (show (system Tid platform).init p.1 from hp.1), ?_⟩
    rw [hp.2]
    refine ⟨fun tid w => rfl, fun tid hfailing => ?_⟩
    simp [hp.1.1 tid, Thread.failing] at hfailing
  · obtain ⟨store, hwords, hlocks⟩ := ih
    have hsys := hreach.of_observe.of_restrict
    have hwf := threadWf hsys l.tid
    obtain ⟨⟨hok, hs⟩, hrecord⟩ := hstep
    rw [hrecord]
    exact ⟨_, hwords.step (segmentsInv hsys) hwf hok hs, hlocks.step hwords hwf hs⟩

omit [Zero V] [DecidableEq Tid] in
theorem Thread.writes_of_stage {thread : Thread V} {wv : Int} {writes : List (Word × V)}
    {written : Option Word} (h : thread.stage = .committed wv writes written) :
    ∃ t, thread.tx = some t ∧ writes = t.writes := by
  cases thread with
  | ending t pc =>
      refine ⟨t, rfl, ?_⟩
      cases pc <;> simp_all [Thread.stage, EndPc.stage]
  | _ => simp [Thread.stage] at h

theorem WordMove.of_copyIn {tm : Tm V} {thread thread' : Thread V} {event : Event V} {w : Word}
    {x : V} (h : WordMove tm thread event thread') (hevent : event = .op (.copyIn w x)) :
    ∃ wv writes, thread.stage = .committed wv writes none ∧ (w, x) ∈ writes := by
  cases h with
  | put hevent' hvalid howned hmem hheld hbefore =>
      rw [hevent'] at hevent
      cases hevent
      exact ⟨_, _, hbefore, hmem⟩
  | quiet hstore => simp [hevent, storeAction] at hstore
  | _ => simp_all

omit [Zero V] in
/-- Cells of the store change by `memcpy` into them only. -/
theorem exists_copyIn {w : Word} (h : (recordStore s l store).cell w ≠ store.cell w) :
    ∃ x, l.event = .op (.copyIn w x) := by
  unfold recordStore at h
  cases haction : storeAction l.event with
  | none => simp [haction] at h
  | some action =>
      rw [haction, Option.elim_some] at h
      cases action with
      | put w' x =>
          have hw : w = w' := by
            by_contra hne
            simp [Store.apply, hne] at h
          subst hw
          refine ⟨x, ?_⟩
          unfold storeAction at haction
          split at haction <;> simp_all
      | _ => exact absurd rfl h

/-- **Lock ownership.** In every reachable state the low bit of a lock is set exactly when one
thread has taken it and not given it back, and no two threads ever have. In every step from there:
only a thread that has taken a lock gives it back; data changes only under the lock, for a word of
the write set; `tm_end` returns with no lock held; and one that returns false has given back every
lock at the value it had before. -/
theorem lock_ownership {p : State Tid V × LockRecord Tid}
    (h : (lockMachine Tid platform).Reachable p) :
    (∀ w, vlLocked (p.1.tm.lock w) = true ↔ ∃! tid, (p.2.taken tid w).isSome) ∧
      (∀ w tid tid', (p.2.taken tid w).isSome → (p.2.taken tid' w).isSome → tid = tid') ∧
      ∀ l p', (lockMachine Tid platform).step p l p' →
        (∀ w, (l.event = .op (.fetchSubLock w) ∨ ∃ value, l.event = .op (.storeLock w value)) →
          (p.2.taken l.tid w).isSome) ∧
        (∀ w, p'.1.tm.data w ≠ p.1.tm.data w → (p.2.taken l.tid w).isSome ∧
          ∃ t, (p.1.thread l.tid).tx = some t ∧ w ∈ t.ws.map WsItem.rawAddr) ∧
        (∀ ok, l.event = .ret (.finish ok) → ∀ w, p.2.taken l.tid w = none) ∧
        (l.event = .ret (.finish false) → ∀ g ∈ p.2.given l.tid, g.before = some g.after) := by
  obtain ⟨store, hwords, hlocks⟩ := locksInv h
  have hsys := h.of_observe.of_restrict
  have hunique : ∀ w tid tid', (p.2.taken tid w).isSome → (p.2.taken tid' w).isSome →
      tid = tid' := by
    intro w tid tid' htid htid'
    rw [hlocks.taken_isSome_iff] at htid htid'
    simpa [htid] using htid'
  refine ⟨fun w => ?_, hunique, fun l p' hstep => ?_⟩
  · rw [hwords.lock, vlLocked_lockWord, Option.isSome_iff_exists]
    simp only [hlocks.taken_isSome_iff, ExistsUnique]
    constructor
    · rintro ⟨tid, htid⟩
      exact ⟨tid, htid, fun tid' htid' => by simpa [htid] using htid'.symm⟩
    · rintro ⟨tid, htid, -⟩
      exact ⟨tid, htid⟩
  · obtain ⟨⟨hok, hs⟩, -⟩ := hstep
    obtain ⟨hthread, -, -⟩ := system_step_move hs
    have hmove := hthread.wordMove (threadWf hsys l.tid)
    have hen : ∀ action, storeAction l.event = some action → store.Enabled l.tid action :=
      fun _ => hwords.enabled hmove
    refine ⟨?_, fun w hdata => ?_, ?_, ?_⟩
    · rintro w (hevent | ⟨value, hevent⟩)
      · exact hlocks.taken_isSome_iff.mpr (hen (.unlock w) (by rw [hevent]; rfl)).1
      · exact hlocks.taken_isSome_iff.mpr (hen (.release w) (by rw [hevent]; rfl)).1
    · have hafter := (hwords.step (segmentsInv hsys) (threadWf hsys l.tid) hok hs).data w
      rw [hafter, hwords.data] at hdata
      obtain ⟨x, hput⟩ := exists_copyIn hdata
      refine ⟨hlocks.taken_isSome_iff.mpr (hen (.put w x) (by rw [hput]; rfl)).1, ?_⟩
      obtain ⟨wv, writes, hstage, hmem⟩ := hmove.of_copyIn hput
      obtain ⟨t, ht, rfl⟩ := Thread.writes_of_stage hstage
      obtain ⟨item, hitem, heq⟩ := List.mem_map.mp hmem
      exact ⟨t, ht, List.mem_map.mpr ⟨item, hitem, (Prod.mk.inj heq).1⟩⟩
    · rintro ok hevent w
      have hfinish := hen .finish (by rw [hevent]; rfl)
      have := hlocks.taken l.tid w
      simpa [hfinish w] using this
    · intro hevent
      rcases hthread.of_ret hevent with ⟨t, ht, -⟩ | ⟨ht, -⟩ <;>
        exact hlocks.given l.tid (by rw [ht]; rfl)

end Invariant

/-- The lock of a word that a `tm_end` has just taken. -/
theorem lock_ownership_of_taken : ∃ p : State Nat Nat × LockRecord Nat,
    vlLocked (p.1.tm.lock ⟨0, 0⟩) = true ∧ ∃! tid, (p.2.taken tid ⟨0, 0⟩).isSome := by
  have hrun : ∃ p, (lockMachine Nat (Platform.x86 Nat)).Reachable p ∧
      vlLocked (p.1.tm.lock ⟨0, 0⟩) = true :=
    exists_of_schedule versionsBounded versionsBounded_sound
      (State.fresh_init_words 2 (by decide) (by decide))
      (calls 0 (.begin false) 3 ++ calls 0 (.write [7] 8 (vaFromIndex 0 0)) 3 ++ calls 0 .finish 3)
      (fun p => vlLocked (p.1.tm.lock ⟨0, 0⟩)) (by decide +kernel)
  obtain ⟨p, hreach, hlocked⟩ := hrun
  exact ⟨p, hlocked, ((lock_ownership hreach).1 _).mp hlocked⟩

end TransactionalMemory
