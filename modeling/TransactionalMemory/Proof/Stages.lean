import TransactionalMemory.Proof.OpenTx
import TransactionalMemory.Proof.Segments
import TransactionalMemory.Library.VersionedStore

/-!
# The stages of a commit

What a thread holds and how far its commit has come, read off its program point, and the part each
move plays in the versioned store: taking a cell, giving it back, drawing a version, deciding to
write, writing a cell, releasing it at the new version, ending.
-/

namespace TransactionalMemory

open Concurrency

variable {V : Type}

/-! ### Holdings and stages -/

def EndPc.held (t : Tx V) : EndPc → List Word
  | .tryLoad i | .tryCas i _ => t.locks.take i
  | .rollback i j => (t.locks.take i).drop j
  | .fetchAdd | .validate _ _ | .validated _ => t.locks
  | .undo _ j => t.locks.drop j
  | .copy _ i | .release _ i => t.locks.drop i
  | _ => []

def Thread.held : Thread V → List Word
  | .ending t pc => pc.held t
  | _ => []

inductive Stage (V : Type) where
  /-- No version drawn. -/
  | early
  | drawn (wv : Int)
  /-- Bound to write these values; `written` is the cell written last and not released yet. -/
  | committed (wv : Int) (writes : List (Word × V)) (written : Option Word)
  /-- On the way out. -/
  | late

def EndPc.stage (t : Tx V) : EndPc → Stage V
  | .start | .tryLoad _ | .tryCas _ _ | .rollback _ _ | .fetchAdd => .early
  | .validate wv _ | .undo wv _ | .validated wv => .drawn wv
  | .copy wv _ => .committed wv t.writes none
  | .release wv i => .committed wv t.writes (t.locks[i]?)
  | _ => .late

def Thread.stage : Thread V → Stage V
  | .ending t pc => pc.stage t
  | .aborting _ _ | .returning _ _ => .late
  | _ => .early

/-- The action on the versioned store that an event stands for. -/
def storeAction : Event V → Option (StoreAction Word V)
  | .op (.casLock w _ true) => some (.lock w)
  | .op (.fetchSubLock w) => some (.unlock w)
  | .op (.fetchAddClock _) => some .draw
  | .op (.commit _ writes) => some (.commit fun w => writes.lookup w)
  | .op (.copyIn w x) => some (.put w x)
  | .op (.storeLock w _) => some (.release w)
  | .ret _ => some .finish
  | _ => none

/-- What a move does to locks, words and clock. -/
inductive WordMove [Zero V] (tm : Tm V) (thread : Thread V) (event : Event V)
    (thread' : Thread V) : Prop where
  | quiet (hstore : storeAction event = none)
      (hlock : (tm.after event).lock = tm.lock) (hdata : (tm.after event).data = tm.data)
      (hclock : (tm.after event).globalVersion = tm.globalVersion)
      (hheld : thread'.held = thread.held)
      (hstage : thread'.stage = thread.stage ∨ thread'.stage = .late)
  | filled {s : SegId} {numWords : Int} (hevent : event = .op (.fillSegment s numWords))
      (hbuilding : thread.building = some (s, .raw)) (hheld : thread'.held = thread.held)
      (hstage : thread'.stage = thread.stage)
  | readied {s : SegId} {size : Nat} (hevent : event = .op (.readySegment s size))
      (hbuilding : thread.building = some (s, .filled)) (hheld : thread'.held = thread.held)
      (hstage : thread'.stage = thread.stage ∨ thread'.stage = .late)
  | locked {w : Word} {rv : Int} (hevent : event = .op (.casLock w (tm.lock w) true))
      (hvalid : tm.valid w = true) (hpass : vlTryLockRefuses (tm.lock w) rv = false)
      (hheld : thread'.held = thread.held ++ [w])
      (hbefore : thread.stage = .early) (hafter : thread'.stage = .early)
  | unlocked {w : Word} (hevent : event = .op (.fetchSubLock w)) (hvalid : tm.valid w = true)
      (hheld : thread.held = w :: thread'.held)
      (hbefore : thread.stage = .early ∨ ∃ wv, thread.stage = .drawn wv)
      (hafter : thread'.stage = thread.stage)
  | drew {wv : Int} (hevent : event = .op (.fetchAddClock tm.globalVersion))
      (hwv : checkedInt (tm.globalVersion + 1) = some wv) (hheld : thread'.held = thread.held)
      (hbefore : thread.stage = .early) (hafter : thread'.stage = .drawn wv)
  | decided {wv : Int} {writes : List (Word × V)} (hevent : event = .op (.commit wv writes))
      (hkeys : thread.held = writes.map Prod.fst) (hheld : thread'.held = thread.held)
      (hbefore : thread.stage = .drawn wv) (hafter : thread'.stage = .committed wv writes none)
  | put {wv : Int} {writes : List (Word × V)} {w : Word} {x : V}
      (hevent : event = .op (.copyIn w x))
      (hvalid : tm.valid w = true) (howned : w ∈ thread.held) (hmem : (w, x) ∈ writes)
      (hheld : thread'.held = thread.held) (hbefore : thread.stage = .committed wv writes none)
      (hafter : thread'.stage = .committed wv writes (some w))
  | released {wv : Int} {writes : List (Word × V)} {w : Word}
      (hevent : event = .op (.storeLock w (vlUnlockUpdate wv))) (hvalid : tm.valid w = true)
      (hheld : thread.held = w :: thread'.held)
      (hbefore : thread.stage = .committed wv writes (some w))
      (hafter : thread'.stage = .committed wv writes none)
  | returned {r : Ret V} (hevent : event = .ret r) (hbefore : thread.held = [])
      (hheld : thread'.held = []) (hafter : thread'.stage = .early)

section WordMoves

variable [Zero V] {platform : Platform V} {tm : Tm V} {choice : Choice V}
  {thread thread' : Thread V} {event : Event V}

omit [Zero V] in
theorem Tm.deleteSegment_words (tm : Tm V) (spot : Int) :
    (tm.deleteSegment spot).lock = tm.lock ∧ (tm.deleteSegment spot).data = tm.data ∧
      (tm.deleteSegment spot).globalVersion = tm.globalVersion := by
  unfold Tm.deleteSegment
  split <;> exact ⟨rfl, rfl, rfl⟩

omit [Zero V] in
theorem Tx.locks_getElem? {t : Tx V} {i : Nat} {item : WsItem V} (h : t.ws[i]? = some item) :
    t.locks[i]? = some item.versionedLock := by
  simp [Tx.locks, h]

omit [Zero V] in
theorem Tx.locks_drop {t : Tx V} {i : Nat} {item : WsItem V} (h : t.ws[i]? = some item) :
    t.locks.drop i = item.versionedLock :: t.locks.drop (i + 1) := by
  obtain ⟨hlt, hget⟩ := List.getElem?_eq_some_iff.mp (Tx.locks_getElem? h)
  rw [List.drop_eq_getElem_cons hlt, hget]

omit [Zero V] in
theorem Tx.locks_take {t : Tx V} {i : Nat} {item : WsItem V} (h : t.ws[i]? = some item) :
    t.locks.take (i + 1) = t.locks.take i ++ [item.versionedLock] := by
  rw [List.take_add_one, Tx.locks_getElem? h]
  rfl

omit [Zero V] in
theorem Tx.locks_length_le {t : Tx V} {i : Nat} (h : t.ws[i]? = none) : t.locks.length ≤ i := by
  simpa [Tx.locks] using h

omit [Zero V] in
theorem Tx.writes_keys {t : Tx V} (hwf : ∀ item ∈ t.ws, item.rawAddr = item.versionedLock) :
    t.writes.map Prod.fst = t.locks := by
  rw [Tx.writes, Tx.locks, List.map_map]
  exact List.map_congr_left hwf

theorem TmEndMove.wordMove {t : Tx V} {pc : EndPc} (hwf : (Thread.ending t pc).Wf)
    (h : TmEndMove platform tm t pc event thread') : WordMove tm (.ending t pc) event thread' := by
  have hsame := hwf.sameWord t rfl
  cases h with
  | sort hrw hne => exact .quiet rfl rfl rfl rfl rfl (Or.inl rfl)
  | locked hi =>
      refine .quiet rfl rfl rfl rfl ?_ (Or.inl rfl)
      exact (List.take_of_length_le (Tx.locks_length_le hi)).symm
  | @cas i item prev hi hvalid hprev =>
      subst hprev
      exact .locked rfl hvalid (hwf.passed t i _ rfl) (Tx.locks_take hi) rfl rfl
  | @rollback i j item hij hj hvalid =>
      refine .unlocked rfl hvalid ?_ (Or.inl rfl) rfl
      have hget : (t.locks.take i)[j]? = some item.versionedLock := by
        rw [List.getElem?_take_of_lt hij, Tx.locks_getElem? hj]
      obtain ⟨hlt, hget⟩ := List.getElem?_eq_some_iff.mp hget
      change (t.locks.take i).drop j = _
      rw [List.drop_eq_getElem_cons hlt, hget]
      rfl
  | rolledBack hij =>
      refine .quiet rfl rfl rfl rfl ?_ (Or.inr rfl)
      exact (List.drop_eq_nil_of_le (by simp; omega)).symm
  | fetchAddSkip hwv hskip => exact .drew rfl hwv rfl rfl rfl
  | fetchAdd hwv hskip => exact .drew rfl hwv rfl rfl rfl
  | undo hj hvalid => exact .unlocked rfl hvalid (Tx.locks_drop hj) (Or.inr ⟨_, rfl⟩) rfl
  | undone hj =>
      refine .quiet rfl rfl rfl rfl ?_ (Or.inr rfl)
      exact (List.drop_eq_nil_of_le (Tx.locks_length_le hj)).symm
  | commit => exact .decided rfl (Tx.writes_keys hsame).symm rfl rfl rfl
  | @copy wv i item hi hvalid =>
      have hmem : item ∈ t.ws := List.mem_of_getElem? hi
      refine .put rfl hvalid ?_ (List.mem_map.mpr ⟨item, hmem, rfl⟩) rfl rfl ?_
      · rw [hsame item hmem]
        change item.versionedLock ∈ t.locks.drop i
        rw [Tx.locks_drop hi]
        exact List.mem_cons_self
      · rw [hsame item hmem, ← Tx.locks_getElem? hi]
        rfl
  | copied hi =>
      refine .quiet rfl rfl rfl rfl ?_ ?_
      · have hnil := List.drop_eq_nil_of_le (Tx.locks_length_le hi)
        split <;> exact hnil.symm
      · right
        split <;> rfl
  | @release wv i item hi hvalid =>
      refine .released rfl hvalid (Tx.locks_drop hi) ?_ rfl
      change Stage.committed wv t.writes t.locks[i]? = _
      rw [Tx.locks_getElem? hi]
  | drain | drainNull =>
      obtain ⟨hlock, hdata, hclock⟩ := tm.deleteSegment_words _
      exact .quiet rfl hlock hdata hclock rfl (Or.inr rfl)
  | refused | casLost | tryLoad | validateDone | validateErased | validateFailed | validate =>
      exact .quiet rfl rfl rfl rfl rfl (Or.inl rfl)
  | _ => exact .quiet rfl rfl rfl rfl rfl (Or.inr rfl)

theorem TmAllocMove.wordMove {t : Tx V} {size : Nat} {pc : AllocPc}
    (h : TmAllocMove tm choice t size pc event thread') :
    WordMove tm (.allocating t size pc) event thread' := by
  cases h with
  | initData => exact .filled rfl rfl rfl rfl
  | initLocks => exact .readied rfl rfl rfl (Or.inr rfl)
  | pushStore => exact .quiet rfl rfl rfl rfl rfl (Or.inr rfl)
  | _ => exact .quiet rfl rfl rfl rfl rfl (Or.inl rfl)

theorem ThreadMove.wordMove (hwf : thread.Wf)
    (h : ThreadMove platform tm choice thread event thread') :
    WordMove tm thread event thread' := by
  cases h with
  | call h => cases h <;> exact .quiet rfl rfl rfl rfl rfl (Or.inl rfl)
  | begin h =>
      cases h with
      | rdlock => exact .quiet rfl rfl rfl rfl rfl (Or.inl rfl)
      | _ => exact .quiet rfl rfl rfl rfl rfl (Or.inr rfl)
  | read h =>
      cases h <;> exact .quiet rfl rfl rfl rfl rfl (by first | exact Or.inl rfl | exact Or.inr rfl)
  | roRead h =>
      cases h <;> exact .quiet rfl rfl rfl rfl rfl (by first | exact Or.inl rfl | exact Or.inr rfl)
  | write h =>
      cases h <;> exact .quiet rfl rfl rfl rfl rfl (by first | exact Or.inl rfl | exact Or.inr rfl)
  | alloc h => exact h.wordMove
  | free h => cases h <;> exact .quiet rfl rfl rfl rfl rfl (Or.inr rfl)
  | finish h => exact h.wordMove hwf
  | retIdle => exact .returned rfl rfl rfl rfl
  | retLive => exact .returned rfl rfl rfl rfl
  | cleanup => exact .quiet rfl rfl rfl rfl rfl (Or.inr rfl)
  | start => exact .quiet rfl rfl rfl rfl rfl (Or.inl rfl)

end WordMoves

end TransactionalMemory
