import TransactionalMemory.Proof.Installed
import TransactionalMemory.Proof.Schedules

/-!
# Reclamation

While a transaction has its read hold, no segment that is installed at some moment is taken away, so
the pointers to locks and words that the transaction keeps in its sets stay good until it lets go,
whatever the other transactions free and whoever runs the batch deletion.
-/

namespace TransactionalMemory

open Concurrency

variable {V Tid : Type}

def Op.word : Op V → Option Word
  | .loadLock w _ | .casLock w _ _ | .fetchSubLock w | .storeLock w _ | .copyOut w _
  | .copyIn w _ =>
      some w
  | _ => none

/-- Locks and words are reached under a hold, through the sets or in the segment of the call. -/
theorem ThreadMove.accessed {platform : Platform V} {tm : Tm V} {choice : Choice V}
    {thread thread' : Thread V} {event : Event V}
    (h : ThreadMove platform tm choice thread event thread') {o : Op V} {w : Word}
    (hevent : event = .op o) (hw : o.word = some w) : thread.holds = true ∧
      ((∃ t, thread.tx = some t ∧ t.Points w) ∨ thread.seg = some w.seg) := by
  have hseg : ∀ {g : SegId} {k : Int} {x : Word}, tm.wordAt g k = some x → x.seg = g := by
    intro g k x hx
    obtain ⟨-, -, rfl⟩ := Tm.wordAt_eq_some hx
    rfl
  cases h with
  | @read t c _ _ _ h =>
      cases h with
      | refused hx | loaded hx | copied hx | changed hx | confirmed hx =>
          cases hevent
          obtain rfl := Option.some.inj hw
          exact ⟨rfl, Or.inr (by rw [hseg hx]; rfl)⟩
      | _ => cases hevent; cases hw
  | @roRead t c _ _ _ h =>
      cases h with
      | preLocked hi hx | pre hi hx | changed hi hx | newer hi hx | recorded hi hx
        | notRecorded hi hx =>
          cases hevent
          obtain rfl := Option.some.inj hw
          exact ⟨rfl, Or.inr (by rw [hseg hx]; rfl)⟩
      | copied =>
          cases hevent
          obtain rfl := Option.some.inj hw
          exact ⟨rfl, Or.inr rfl⟩
      | stale hrs hk | revalidated hrs hk =>
          cases hevent
          obtain rfl := Option.some.inj hw
          exact ⟨rfl, Or.inl ⟨t, rfl, Or.inl ⟨_, _, hrs, List.mem_of_getElem? hk, rfl⟩⟩⟩
      | _ => cases hevent; cases hw
  | @write t c _ _ _ h =>
      cases h with
      | refused hi hx | overwritten hi hx | appended hi hx | noMemory hi hx =>
          cases hevent
          obtain rfl := Option.some.inj hw
          exact ⟨rfl, Or.inr (by rw [hseg hx]; rfl)⟩
      | _ => cases hevent; cases hw
  | @finish t _ _ _ h =>
      cases h with
      | refused hi | tryLoad hi | cas hi | casLost hi | undo hi | release hi =>
          cases hevent
          obtain rfl := Option.some.inj hw
          exact ⟨rfl, Or.inl ⟨t, rfl, Or.inr ⟨_, List.mem_of_getElem? hi, Or.inl rfl⟩⟩⟩
      | rollback hij hi =>
          cases hevent
          obtain rfl := Option.some.inj hw
          exact ⟨rfl, Or.inl ⟨t, rfl, Or.inr ⟨_, List.mem_of_getElem? hi, Or.inl rfl⟩⟩⟩
      | copy hi =>
          cases hevent
          obtain rfl := Option.some.inj hw
          exact ⟨rfl, Or.inl ⟨t, rfl, Or.inr ⟨_, List.mem_of_getElem? hi, Or.inr rfl⟩⟩⟩
      | validateFailed hrs hi | validate hrs hi =>
          cases hevent
          obtain rfl := Option.some.inj hw
          exact ⟨rfl, Or.inl ⟨t, rfl, Or.inl ⟨_, _, hrs, List.mem_of_getElem? hi, rfl⟩⟩⟩
      | _ => cases hevent; cases hw
  | call h | begin h | alloc h | free h => cases h <;> cases hevent <;> cases hw
  | cleanup => cases hevent; cases hw
  | start | retIdle | retLive => cases hevent

variable [Zero V] [DecidableEq Tid] {platform : Platform V} {s : State Tid V}

/-- A run along which the thread keeps its hold: the last step may be the one that gives it back. -/
theorem installed_run {tid : Tid} {ls : List (Label Tid V)} {s' : State Tid V}
    (h : ((system Tid platform).restrict NoFailure).Reachable s)
    (hrun : (((system Tid platform).restrict NoFailure).restrict
      fun u _ => (u.thread tid).holds = true).Run s ls s') {spot : Nat} {g : SegId} {seg : Segment}
    (hinst : s.tm.InstalledAt spot g seg) : s'.tm.InstalledAt spot g seg := by
  induction hrun with
  | refl => exact hinst
  | snoc run step ih => exact installed_step (h.run run.of_restrict) step.2.2 step.1 ih

/-- **Reclamation safety.** In every run without allocation failures, a segment that is installed
while a thread has its read hold stays at its spot with its arrays until the hold is given back. So
every pointer in the sets of the thread's transaction is to a word of an installed segment, and
every lock and word that any step goes to is in one. -/
theorem reclamation_safe (h : ((system Tid platform).restrict NoFailure).Reachable s) :
    (∀ tid ls s', (((system Tid platform).restrict NoFailure).restrict
        fun u _ => (u.thread tid).holds = true).Run s ls s' →
      ∀ spot g seg, s.tm.InstalledAt spot g seg → s'.tm.InstalledAt spot g seg) ∧
    (∀ tid t w, (s.thread tid).holds = true → (s.thread tid).tx = some t → t.Points w →
      s.tm.InstalledWord w) ∧
    ∀ l s' o w, (system Tid platform).step s l s' → l.event = .op o → o.word = some w →
      (s.thread l.tid).holds = true ∧ s.tm.Installed w.seg := by
  have hpointers := pointersInv h
  refine ⟨fun tid ls s' hrun spot g seg hinst => installed_run h hrun hinst,
    fun tid t w hheld htx hw => (hpointers tid hheld).1 t w htx hw,
    fun l s' o w hstep hevent hw => ?_⟩
  obtain ⟨hmove, -, -⟩ := system_step_move hstep
  obtain ⟨hheld, haccess⟩ := hmove.accessed hevent hw
  obtain ⟨hpoints, hsegs⟩ := hpointers l.tid hheld
  refine ⟨hheld, ?_⟩
  rcases haccess with ⟨t, htx, hpoint⟩ | hseg
  · exact (hpoints t w htx hpoint).2
  · exact hsegs w.seg hseg

theorem reclamation_safe_of_write : ∃ (s : State Unit Nat) (t : Tx Nat),
    (s.thread ()).tx = some t ∧ t.Points ⟨0, 0⟩ ∧ s.tm.InstalledWord ⟨0, 0⟩ := by
  let test : State Unit Nat × Unit → Bool := fun p => (p.1.thread ()).holds &&
    (p.1.thread ()).tx.any fun t => t.ws.any fun item => item.versionedLock = ⟨0, 0⟩
  have hrun : ∃ p, (((system Unit (Platform.x86 Nat)).restrict NoFailure).observe ()
      fun _ _ _ => ()).Reachable p ∧ test p = true :=
    exists_of_schedule noFailure noFailure_sound (State.fresh_init_words 1 (by decide) (by decide))
      (calls () (.begin false) 3 ++ calls () (.write [7] 8 (vaFromIndex 0 0)) 3) test
      (by decide +kernel)
  obtain ⟨p, hreach, htest⟩ := hrun
  simp only [test, Bool.and_eq_true, Option.any_eq_true, List.any_eq_true,
    decide_eq_true_eq] at htest
  obtain ⟨hheld, t, htx, item, hmem, hitem⟩ := htest
  have hpoints : t.Points ⟨0, 0⟩ := Or.inr ⟨item, hmem, Or.inl hitem⟩
  exact ⟨p.1, t, htx, hpoints,
    (reclamation_safe hreach.of_observe).2.1 () t ⟨0, 0⟩ hheld htx hpoints⟩

end TransactionalMemory
