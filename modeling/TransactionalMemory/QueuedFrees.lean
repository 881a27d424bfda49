import TransactionalMemory.Proof.Queue
import TransactionalMemory.Proof.Schedules

/-!
# Frees of committed transactions

A recorder collects the spots that committed transactions passed to `tm_free` and the spots handed
to `delete_segment`. They balance with the queue as long as no transaction that frees ends with an
empty write set: `tm_end` answers true for such a transaction and drops its frees.
-/

namespace TransactionalMemory

open Concurrency

variable {V : Type} {Tid : Type} [DecidableEq Tid]

structure FreeRecord (Tid : Type) where
  /-- The spot of the call of `tm_free` in progress. -/
  asked : Tid → Int
  /-- The spots that the open transaction passed to `tm_free`. -/
  freed : Tid → List Int
  /-- The spots freed by transactions whose `tm_end` returned true. -/
  committed : List Int
  /-- The spots handed to `delete_segment`. -/
  deleted : List Int

def recordFrees (_ : State Tid V) (l : Label Tid V) (r : FreeRecord Tid) : FreeRecord Tid where
  asked := Function.update r.asked l.tid (askedNext l.event (r.asked l.tid))
  freed := Function.update r.freed l.tid (freedNext l.event (r.freed l.tid) (r.asked l.tid))
  committed :=
    match l.event with
    | .ret (.finish true) => r.committed ++ r.freed l.tid
    | _ => r.committed
  deleted :=
    match l.event with
    | .op (.deleteSegment spot) => r.deleted ++ [spot]
    | _ => r.deleted

/-- A transaction that reaches `tm_end` with an empty write set has freed nothing. -/
def FreesWithWrites (s : State Tid V) (l : Label Tid V) : Prop :=
  ∀ t, s.thread l.tid = .ending t .start → t.ws = [] → t.toFree = []

def Thread.inEnd : Thread V → Bool
  | .ending _ _ | .aborting _ (.finish _) | .returning (.finish _) _ => true
  | _ => false

def freeMachine [Zero V] (Tid : Type) [DecidableEq Tid] (platform : Platform V)
    (ok : State Tid V → Label Tid V → Prop) :
    Machine (State Tid V × FreeRecord Tid) (Label Tid V) :=
  ((system Tid platform).restrict ok).observe ⟨fun _ => 0, fun _ => [], [], []⟩ recordFrees

/-- The balance of the queue: `pushedBy` is what commits that have not returned have put into it,
and `k` how far the running batch deletion has come. -/
structure FreesInv (s : State Tid V) (r : FreeRecord Tid) (pushedBy : List (Tid × Int)) (k : Nat) :
    Prop where
  freed : ∀ tid, (s.thread tid).Freed (r.freed tid) (r.asked tid)
  pushed : ∀ tid, (pushedBy.filter fun e => e.1 = tid).map Prod.snd =
    (s.thread tid).pushed (r.freed tid)
  drained : ∀ tid i, (s.thread tid).drained = some i → i = k
  undrained : (∀ tid, (s.thread tid).drained = none) → k = 0
  balance : (s.tm.toFree.drop k ++ r.deleted).Perm (r.committed ++ pushedBy.map Prod.snd)

section Invariant

variable [Zero V] {platform : Platform V} {s s' : State Tid V} {l : Label Tid V}
  {r : FreeRecord Tid} {pushedBy : List (Tid × Int)} {k : Nat}

omit [Zero V] in
theorem Thread.drains_of_drained {thread : Thread V} {i : Nat} (h : thread.drained = some i) :
    thread.drains = true := by
  unfold Thread.drained at h
  split at h
  · rfl
  · cases h

/-! ### The balance -/

section Balance

variable {queue deleted committed pushed total : List Int} {spot : Int}

theorem balance_push (h : (queue ++ deleted).Perm (committed ++ pushed)) :
    (queue ++ [spot] ++ deleted).Perm (committed ++ (pushed ++ [spot])) := by
  have hmove : (queue ++ [spot] ++ deleted).Perm (queue ++ deleted ++ [spot]) := by
    rw [List.append_assoc, List.append_assoc]
    exact List.perm_append_comm.append_left _
  rw [← List.append_assoc]
  exact hmove.trans (h.append_right _)

theorem balance_delete (h : (spot :: queue ++ deleted).Perm total) :
    (queue ++ (deleted ++ [spot])).Perm total := by
  have hmove : (queue ++ (deleted ++ [spot])).Perm (spot :: queue ++ deleted) := by
    rw [← List.append_assoc, List.cons_append]
    exact List.perm_append_singleton _ _
  exact hmove.trans h

end Balance

/-! ### Steps -/

namespace FreesInv

/-- The recorder's view of each thread follows the thread. -/
theorem freed_step (h : FreesInv s r pushedBy k) (hstep : (system Tid platform).step s l s')
    (tid : Tid) : (s'.thread tid).Freed ((recordFrees s l r).freed tid)
      ((recordFrees s l r).asked tid) := by
  obtain ⟨hthread, -, hother⟩ := system_step_move hstep
  by_cases heq : tid = l.tid
  · subst heq
    simp only [recordFrees, Function.update_self]
    exact hthread.freed (h.freed l.tid)
  · simp only [recordFrees, Function.update_of_ne heq, hother tid heq]
    exact h.freed tid

theorem pushed_other (h : FreesInv s r pushedBy k) (hstep : (system Tid platform).step s l s')
    {tid : Tid} (hne : tid ≠ l.tid) :
    (s'.thread tid).pushed ((recordFrees s l r).freed tid) =
      (pushedBy.filter fun e => e.1 = tid).map Prod.snd := by
  obtain ⟨-, -, hother⟩ := system_step_move hstep
  simp only [recordFrees, Function.update_of_ne hne, hother tid hne]
  exact (h.pushed tid).symm

theorem pushed_own (hstep : (system Tid platform).step s l s') :
    (s'.thread l.tid).pushed ((recordFrees s l r).freed l.tid) =
      (s'.thread l.tid).pushed (r.freed l.tid) := by
  obtain ⟨hthread, -, -⟩ := system_step_move hstep
  simp only [recordFrees, Function.update_self]
  exact hthread.pushed_freedNext

/-- A step that leaves the queue and the pushes alone. -/
theorem of_quiet (h : FreesInv s r pushedBy k) (hstep : (system Tid platform).step s l s')
    (hqueue : s'.tm.toFree = s.tm.toFree)
    (hpushed : (s'.thread l.tid).pushed (r.freed l.tid) = (s.thread l.tid).pushed (r.freed l.tid))
    (hdrained : (s'.thread l.tid).drained = (s.thread l.tid).drained)
    (hdelete : ∀ spot, l.event ≠ .op (.deleteSegment spot)) (hret : l.event ≠ .ret (.finish true)) :
    FreesInv s' (recordFrees s l r) pushedBy k := by
  obtain ⟨-, -, hother⟩ := system_step_move hstep
  have hsame := thread_keep hother hdrained
  refine ⟨h.freed_step hstep, fun tid => ?_, ?_, ?_, ?_⟩
  · by_cases heq : tid = l.tid
    · rw [heq, pushed_own hstep, hpushed, h.pushed]
    · rw [h.pushed_other hstep heq]
  · simp only [hsame]
    exact h.drained
  · simp only [hsame]
    exact h.undrained
  · have hcommitted : (recordFrees s l r).committed = r.committed := by
      simp only [recordFrees]
    have hdeleted : (recordFrees s l r).deleted = r.deleted := by
      simp only [recordFrees]
    rw [hqueue, hcommitted, hdeleted]
    exact h.balance

/-- A step on which the thread's own pushes change to `pushedBy'`. -/
theorem of_own (h : FreesInv s r pushedBy k) (hstep : (system Tid platform).step s l s')
    (pushedBy' : List (Tid × Int)) (k' : Nat)
    (hown : (pushedBy'.filter fun e => e.1 = l.tid).map Prod.snd =
      (s'.thread l.tid).pushed (r.freed l.tid))
    (hkeep : ∀ tid, tid ≠ l.tid →
      pushedBy'.filter (fun e => e.1 = tid) = pushedBy.filter fun e => e.1 = tid)
    (hdrained : ∀ tid i, (s'.thread tid).drained = some i → i = k')
    (hundrained : (∀ tid, (s'.thread tid).drained = none) → k' = 0)
    (hbalance : (s'.tm.toFree.drop k' ++ (recordFrees s l r).deleted).Perm
      ((recordFrees s l r).committed ++ pushedBy'.map Prod.snd)) :
    FreesInv s' (recordFrees s l r) pushedBy' k' := by
  refine ⟨h.freed_step hstep, fun tid => ?_, hdrained, hundrained, hbalance⟩
  by_cases heq : tid = l.tid
  · rw [heq, pushed_own hstep, hown]
  · rw [h.pushed_other hstep heq, hkeep tid heq]

/-- The same when no other thread drains: the mover tells how far the deletion has come. -/
theorem of_own_alone (h : FreesInv s r pushedBy k) (hstep : (system Tid platform).step s l s')
    (pushedBy' : List (Tid × Int)) (k' : Nat)
    (hown : (pushedBy'.filter fun e => e.1 = l.tid).map Prod.snd =
      (s'.thread l.tid).pushed (r.freed l.tid))
    (hkeep : ∀ tid, tid ≠ l.tid →
      pushedBy'.filter (fun e => e.1 = tid) = pushedBy.filter fun e => e.1 = tid)
    (halone : ∀ tid, tid ≠ l.tid → (s.thread tid).drained = none)
    (hmover : (s'.thread l.tid).drained = some k' ∨ (s'.thread l.tid).drained = none ∧ k' = 0)
    (hbalance : (s'.tm.toFree.drop k' ++ (recordFrees s l r).deleted).Perm
      ((recordFrees s l r).committed ++ pushedBy'.map Prod.snd)) :
    FreesInv s' (recordFrees s l r) pushedBy' k' := by
  obtain ⟨-, -, hother⟩ := system_step_move hstep
  refine h.of_own hstep pushedBy' k' hown hkeep (fun tid i hi => ?_) (fun hall => ?_) hbalance
  · by_cases heq : tid = l.tid
    · rw [heq] at hi
      rcases hmover with hsome | ⟨hnone, -⟩
      · exact Option.some.inj (hi.symm.trans hsome)
      · rw [hnone] at hi
        cases hi
    · rw [hother tid heq, halone tid heq] at hi
      cases hi
  · rcases hmover with hsome | ⟨-, hzero⟩
    · rw [hall l.tid] at hsome
      cases hsome
    · exact hzero

omit [Zero V] in
theorem undrained_of (h : FreesInv s r pushedBy k) (hno : ∀ tid, ¬ (s.thread tid).drains = true) :
    (∀ tid, (s.thread tid).drained = none) ∧ k = 0 := by
  have hidle : ∀ tid, (s.thread tid).drained = none := by
    intro tid
    by_contra hsome
    obtain ⟨j, hj⟩ := Option.ne_none_iff_exists'.mp hsome
    exact hno tid (Thread.drains_of_drained hj)
  exact ⟨hidle, h.undrained hidle⟩

omit [Zero V] [DecidableEq Tid] in
/-- No batch deletion runs beside this one. -/
theorem undrained_beside {holders : Finset Tid} {lost : Nat} (hholds : HoldsInv s holders lost)
    {tid tid' : Tid} (hdrains : (s.thread tid').drains = true) (hne : tid ≠ tid') :
    (s.thread tid).drained = none := by
  by_contra hsome
  obtain ⟨j, hj⟩ := Option.ne_none_iff_exists'.mp hsome
  exact hne (hholds.unique tid tid' (Thread.drains_of_drained hj) hdrains)

section Moves

variable {holders : Finset Tid} {lost i : Nat} {t : Tx V} {spot capacity : Int}

/-- The early exit drops what the transaction freed, which is nothing here. -/
theorem of_early (h : FreesInv s r pushedBy k) (hstep : (system Tid platform).step s l s')
    (hwf : (s.thread l.tid).Wf) (hok : FreesWithWrites s l)
    (hbefore : s.thread l.tid = .ending t .start) (hempty : t.isRo = true ∨ t.ws = [])
    (hevent : l.event = .op .rdunlock)
    (hafter : s'.thread l.tid = .returning (.finish true) none) :
    FreesInv s' (recordFrees s l r) pushedBy k := by
  obtain ⟨-, htm, -⟩ := system_step_move hstep
  have hfreed := h.freed l.tid
  rw [hbefore] at hfreed
  have hnothing : t.toFree = [] := by
    rcases hempty with hro | hws
    · exact hwf.readOnly t (by rw [hbefore]; rfl) hro
    · exact hok t hbefore hws
  refine h.of_quiet hstep (by rw [htm, hevent]; rfl) ?_ ?_ (by simp [hevent]) (by simp [hevent])
  · rw [hbefore, hafter]
    exact (hfreed t rfl).symm.trans hnothing
  · rw [hbefore, hafter]
    rfl

theorem of_push (h : FreesInv s r pushedBy k) (hstep : (system Tid platform).step s l s')
    (hholds : HoldsInv s holders lost) (hbefore : s.thread l.tid = .ending t (.push i))
    (hspot : t.toFree[i]? = some spot) (hevent : l.event = .op (.pushToFree spot capacity))
    (hafter : s'.thread l.tid = .ending t (.push (i + 1))) :
    FreesInv s' (recordFrees s l r) (pushedBy ++ [(l.tid, spot)]) 0 := by
  obtain ⟨-, htm, -⟩ := system_step_move hstep
  obtain ⟨hidle, rfl⟩ : (∀ tid, (s.thread tid).drained = none) ∧ k = 0 := by
    refine h.undrained_of fun tid hdrains => ?_
    have hfalse := hholds.not_holds_of_drains hdrains l.tid
    rw [hbefore] at hfalse
    cases hfalse
  have hpushed := h.pushed l.tid
  rw [hbefore] at hpushed
  refine h.of_own_alone hstep _ _ ?_ (fun tid hne => ?_) (fun tid _ => hidle tid)
    (.inr ⟨by rw [hafter]; rfl, rfl⟩) ?_
  · rw [List.filter_append, List.map_append, hpushed, hafter]
    change t.toFree.take i ++ _ = t.toFree.take (i + 1)
    rw [List.take_add_one, hspot]
    simp
  · simp [List.filter_append, Ne.symm hne]
  · have hqueue : s'.tm.toFree = s.tm.toFree ++ [spot] := by rw [htm, hevent]; rfl
    have hbalance := h.balance
    rw [List.drop_zero] at hbalance
    simp only [recordFrees, hevent, hqueue, List.drop_zero, List.map_append, List.map_cons,
      List.map_nil]
    exact balance_push hbalance

theorem of_wrlock (h : FreesInv s r pushedBy k) (hstep : (system Tid platform).step s l s')
    (hholds : HoldsInv s holders lost) (hbefore : s.thread l.tid = .ending t .wrlock)
    (hwriter : s.tm.writer = false) (hevent : l.event = .op .wrlock)
    (hafter : s'.thread l.tid = .ending t (.drain 0)) :
    FreesInv s' (recordFrees s l r) pushedBy 0 := by
  obtain ⟨-, htm, -⟩ := system_step_move hstep
  obtain ⟨hidle, rfl⟩ : (∀ tid, (s.thread tid).drained = none) ∧ k = 0 := by
    refine h.undrained_of fun tid hdrains => ?_
    simp [hholds.drains tid hdrains] at hwriter
  have hpushed := h.pushed l.tid
  rw [hbefore] at hpushed
  refine h.of_own_alone hstep _ _ ?_ (fun _ _ => rfl) (fun tid _ => hidle tid)
    (.inl (by rw [hafter]; rfl)) ?_
  · rw [hpushed, hafter]
    rfl
  · rw [htm, hevent]
    simp only [recordFrees, hevent]
    exact h.balance

theorem of_delete (h : FreesInv s r pushedBy k) (hstep : (system Tid platform).step s l s')
    (hholds : HoldsInv s holders lost) (hbefore : s.thread l.tid = .ending t (.drain i))
    (hspot : s.tm.toFree[i]? = some spot) (hevent : l.event = .op (.deleteSegment spot))
    (hafter : s'.thread l.tid = .ending t (.drain (i + 1))) :
    FreesInv s' (recordFrees s l r) pushedBy (i + 1) := by
  obtain ⟨-, htm, -⟩ := system_step_move hstep
  obtain rfl : i = k := h.drained l.tid i (by rw [hbefore]; rfl)
  have hpushed := h.pushed l.tid
  rw [hbefore] at hpushed
  refine h.of_own_alone hstep _ _ ?_ (fun _ _ => rfl)
    (fun tid => undrained_beside hholds (by rw [hbefore]; rfl)) (.inl (by rw [hafter]; rfl)) ?_
  · rw [hpushed, hafter]
    rfl
  · have hqueue : s'.tm.toFree = s.tm.toFree := by
      rw [htm, hevent]
      exact s.tm.deleteSegment_toFree spot
    obtain ⟨hlt, hget⟩ := List.getElem?_eq_some_iff.mp hspot
    have hbalance := h.balance
    rw [List.drop_eq_getElem_cons hlt, hget] at hbalance
    simp only [recordFrees, hevent, hqueue]
    exact balance_delete hbalance

theorem of_reset (h : FreesInv s r pushedBy k) (hstep : (system Tid platform).step s l s')
    (hholds : HoldsInv s holders lost) (hbefore : s.thread l.tid = .ending t (.drain i))
    (hend : s.tm.toFree[i]? = none) (hevent : l.event = .op .resetToFree)
    (hafter : s'.thread l.tid = .ending t .wrunlock) :
    FreesInv s' (recordFrees s l r) pushedBy 0 := by
  obtain ⟨-, htm, -⟩ := system_step_move hstep
  obtain rfl : i = k := h.drained l.tid i (by rw [hbefore]; rfl)
  have hpushed := h.pushed l.tid
  rw [hbefore] at hpushed
  refine h.of_own_alone hstep _ _ ?_ (fun _ _ => rfl)
    (fun tid => undrained_beside hholds (by rw [hbefore]; rfl))
    (.inr ⟨by rw [hafter]; rfl, rfl⟩) ?_
  · rw [hpushed, hafter]
    rfl
  · have hqueue : s'.tm.toFree = [] := by rw [htm, hevent]; rfl
    have hbalance := h.balance
    rw [List.drop_eq_nil_of_le (List.getElem?_eq_none_iff.mp hend)] at hbalance
    simp only [recordFrees, hevent, hqueue]
    exact hbalance

/-- The answer of `tm_end` turns the pushes of its thread into committed frees. -/
theorem of_finished {t : Option (Tx V)} (h : FreesInv s r pushedBy k)
    (hstep : (system Tid platform).step s l s')
    (hbefore : s.thread l.tid = .returning (.finish true) t)
    (hevent : l.event = .ret (.finish true))
    (hpushed : ∀ freed, (s'.thread l.tid).pushed freed = [])
    (hdrained : (s'.thread l.tid).drained = none) :
    FreesInv s' (recordFrees s l r) (pushedBy.filter fun e => !decide (e.1 = l.tid)) k := by
  obtain ⟨-, htm, hother⟩ := system_step_move hstep
  have hreturned := h.pushed l.tid
  rw [hbefore] at hreturned
  have hundrained : (s.thread l.tid).drained = none := by rw [hbefore]; rfl
  have hsame := thread_keep hother (hdrained.trans hundrained.symm)
  refine h.of_own hstep _ _ ?_ (fun tid hne => ?_) ?_ ?_ ?_
  · rw [hpushed, List.filter_filter]
    simp
  · rw [List.filter_filter]
    refine List.filter_congr fun e _ => ?_
    by_cases heq : e.1 = tid
    · simp [heq, hne]
    · simp [heq]
  · simp only [hsame]
    exact h.drained
  · simp only [hsame]
    exact h.undrained
  · have hqueue : s'.tm.toFree = s.tm.toFree := by rw [htm, hevent]; rfl
    simp only [recordFrees, hevent, hqueue]
    refine h.balance.trans ?_
    rw [List.append_assoc]
    refine List.Perm.append_left _ ?_
    have hsplit := (List.filter_append_perm (fun e => decide (e.1 = l.tid)) pushedBy).map Prod.snd
    rw [List.map_append, hreturned] at hsplit
    exact hsplit.symm

end Moves

theorem step {holders : Finset Tid} {lost : Nat} (h : FreesInv s r pushedBy k)
    (hholds : HoldsInv s holders lost) (hwf : (s.thread l.tid).Wf)
    (hanswers : (s.thread l.tid).Answers) (hok : FreesWithWrites s l)
    (hstep : (system Tid platform).step s l s') :
    ∃ pushedBy' k', FreesInv s' (recordFrees s l r) pushedBy' k' := by
  obtain ⟨hthread, htm, -⟩ := system_step_move hstep
  cases hthread.queueMove hanswers with
  | quiet hqueue hpushed hdrained hdelete hret =>
      exact ⟨_, _, h.of_quiet hstep (by rw [htm, hqueue]) (hpushed _ _ (h.freed l.tid)) hdrained
        hdelete hret⟩
  | early hbefore hempty hevent hafter =>
      exact ⟨_, _, h.of_early hstep hwf hok hbefore hempty hevent hafter⟩
  | push hbefore hspot hevent hafter =>
      exact ⟨_, _, h.of_push hstep hholds hbefore hspot hevent hafter⟩
  | wrlock hbefore hwriter hevent hafter =>
      exact ⟨_, _, h.of_wrlock hstep hholds hbefore hwriter hevent hafter⟩
  | delete hbefore hspot hevent hafter =>
      exact ⟨_, _, h.of_delete hstep hholds hbefore hspot hevent hafter⟩
  | reset hbefore hend hevent hafter =>
      exact ⟨_, _, h.of_reset hstep hholds hbefore hend hevent hafter⟩
  | finished hbefore hevent hpushed hdrained =>
      exact ⟨_, _, h.of_finished hstep hbefore hevent hpushed hdrained⟩

end FreesInv

theorem freesInv {p : State Tid V × FreeRecord Tid}
    (h : (freeMachine Tid platform FreesWithWrites).Reachable p) :
    ∃ pushedBy k, FreesInv p.1 p.2 pushedBy k := by
  refine h.invariant (P := fun p => ∃ pushedBy k, FreesInv p.1 p.2 pushedBy k)
    (fun p hp => ?_) fun p l p' hreach ih hstep => ?_
  · obtain ⟨hinit, hrecord⟩ := hp
    obtain ⟨hidle, choice, size, align, -, -, -, -, hcreate⟩ := hinit
    obtain ⟨-, -, htm⟩ := tmCreate_eq hcreate
    refine ⟨[], 0, fun tid => ?_, fun tid => ?_, fun tid i hi => ?_, fun _ => rfl, ?_⟩
    · rw [hidle tid]
      rintro t ⟨⟩
    · rw [hidle tid]
      rfl
    · rw [hidle tid] at hi
      cases hi
    · simp [htm, hrecord, Tm.created, Tm.bare]
  · obtain ⟨pushedBy, k, hinv⟩ := ih
    have hsys := hreach.of_observe.of_restrict
    obtain ⟨holders, lost, hholds⟩ := holdsInv hsys
    obtain ⟨⟨hok, hs⟩, hrecord⟩ := hstep
    rw [hrecord]
    exact hinv.step hholds (threadWf hsys l.tid) (threadAnswers hsys l.tid) hok hs

/-- **Frees.** In every run in which no transaction that freed something ends with an empty write
set: whenever no `tm_end` is in progress, the queue together with what was deleted is what the
committed transactions freed. -/
theorem frees_balance {p : State Tid V × FreeRecord Tid}
    (h : (freeMachine Tid platform FreesWithWrites).Reachable p)
    (hquiet : ∀ tid, (p.1.thread tid).inEnd = false) :
    (p.1.tm.toFree ++ p.2.deleted).Perm p.2.committed := by
  obtain ⟨pushedBy, k, hinv⟩ := freesInv h
  have hk : k = 0 := hinv.undrained fun tid => by
    have := hquiet tid
    unfold Thread.inEnd at this
    unfold Thread.drained
    split <;> simp_all
  have hpushed : pushedBy = [] := by
    rw [List.eq_nil_iff_forall_not_mem]
    intro e he
    have hmem : e.2 ∈ (pushedBy.filter fun e' => e'.1 = e.1).map Prod.snd :=
      List.mem_map.mpr ⟨e, by simp [he], rfl⟩
    rw [hinv.pushed e.1] at hmem
    have := hquiet e.1
    unfold Thread.inEnd at this
    unfold Thread.pushed at hmem
    split at hmem <;> simp_all
  have hbalance := hinv.balance
  simpa [hk, hpushed] using hbalance

end Invariant

def freesWithWrites (s : State Tid V) (l : Label Tid V) : Bool :=
  match s.thread l.tid with
  | .ending t .start => !t.ws.isEmpty || t.toFree.isEmpty
  | _ => true

omit [DecidableEq Tid] in
theorem freesWithWrites_sound (s : State Tid V) (l : Label Tid V)
    (h : freesWithWrites s l = true) : FreesWithWrites s l := by
  intro t ht hws
  simpa [freesWithWrites, ht, hws] using h

/-- A transaction that allocates a segment, writes a word, frees the segment and commits. -/
theorem frees_balance_of_commit : ∃ p : State Unit Nat × FreeRecord Unit,
    p.2.committed = [1] ∧ (p.1.tm.toFree ++ p.2.deleted).Perm p.2.committed := by
  have hrun : ∃ p, (freeMachine Unit (Platform.x86 Nat) FreesWithWrites).Reachable p ∧
      (decide (p.2.committed = [1]) && !(p.1.thread ()).inEnd) = true :=
    exists_of_schedule freesWithWrites freesWithWrites_sound
      (State.fresh_init_words 1 (by decide) (by decide))
      (calls () (.begin false) 3 ++ calls () (.alloc 8) 8 ++
        calls () (.write [7] 8 (vaFromIndex 0 0)) 3 ++ calls () (.free (vaFromIndex 1 0)) 2 ++
        calls () .finish 15)
      (fun p : State Unit Nat × FreeRecord Unit =>
        decide (p.2.committed = [1]) && !(p.1.thread ()).inEnd)
      (by decide +kernel)
  obtain ⟨p, hreach, htest⟩ := hrun
  simp only [Bool.and_eq_true, decide_eq_true_eq, Bool.not_eq_true'] at htest
  exact ⟨p, htest.1, frees_balance hreach fun _ => htest.2⟩

/-- A transaction that allocates a segment, frees it again and writes nothing commits, and its free
is lost. -/
theorem frees_lost : ¬ ∀ p : State Unit Nat × FreeRecord Unit,
    (freeMachine Unit (Platform.x86 Nat) fun _ _ => True).Reachable p →
      (∀ tid, (p.1.thread tid).inEnd = false) →
        (p.1.tm.toFree ++ p.2.deleted).Perm p.2.committed := by
  intro hclaim
  have hrun : ∃ p, (freeMachine Unit (Platform.x86 Nat) fun _ _ => True).Reachable p ∧
      (decide (p.2.committed = [1]) && decide (p.1.tm.toFree ++ p.2.deleted = []) &&
        !(p.1.thread ()).inEnd) = true :=
    exists_of_schedule (fun _ _ => true) (fun _ _ _ => trivial)
      (State.fresh_init_words 1 (by decide) (by decide))
      (calls () (.begin false) 3 ++ calls () (.alloc 8) 8 ++ calls () (.free (vaFromIndex 1 0)) 2 ++
        calls () .finish 2)
      (fun p : State Unit Nat × FreeRecord Unit => decide (p.2.committed = [1]) &&
        decide (p.1.tm.toFree ++ p.2.deleted = []) && !(p.1.thread ()).inEnd)
      (by decide +kernel)
  obtain ⟨p, hreach, htest⟩ := hrun
  simp only [Bool.and_eq_true, decide_eq_true_eq, Bool.not_eq_true'] at htest
  obtain ⟨⟨hcommitted, hempty⟩, hquiet⟩ := htest
  have hperm := hclaim p hreach fun _ => hquiet
  rw [hcommitted, hempty] at hperm
  simpa using hperm.length_eq

end TransactionalMemory
