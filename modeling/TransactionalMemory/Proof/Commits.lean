import TransactionalMemory.Proof.Validation

/-!
# Committed transactions

A transaction is decided when `tm_end` has passed its last test. From then on its log is fixed, and
it explains every value its client has seen by the commits with smaller versions.
-/

namespace TransactionalMemory

open Concurrency

variable {V Tid : Type}

def TxLog.txn (log : TxLog V) : Txn Word V where
  version := log.version.getD 0
  accesses := log.accesses

def TxLog.Writes (log : TxLog V) : Prop := ∃ w x, .write w x ∈ log.entries

theorem exists_write_iff {entries : List (Entry V)} {w : Word} :
    (∃ x, .write w x ∈ entries) ↔ lastWritten entries w ≠ none := by
  induction entries using List.reverseRecOn with
  | nil => simp
  | append_singleton entries e ih =>
      cases e with
      | read w' x own => simpa using ih
      | write w' x =>
          rw [lastWritten_append_write]
          by_cases heq : w = w'
          · subst heq
            exact ⟨fun _ => by simp, fun _ => ⟨x, by simp⟩⟩
          · simpa [heq] using ih

theorem Tx.Buffers.writes_iff {tm : Tm V} {bit : Int → BitVec 64} {t : Tx V} {log : TxLog V}
    (h : t.Buffers tm bit log.entries) : log.Writes ↔ t.ws ≠ [] := by
  constructor
  · rintro ⟨w, hwrite⟩ hnil
    have hword := h.lastWritten_ne_none_iff.mp (exists_write_iff.mp hwrite)
    simp [hnil] at hword
  · intro hne
    obtain ⟨item, hmem⟩ := List.exists_mem_of_ne_nil _ hne
    refine ⟨item.rawAddr, exists_write_iff.mpr ?_⟩
    exact h.lastWritten_ne_none_iff.mpr (List.mem_map_of_mem hmem)

def EndPc.committed : EndPc → Bool
  | .copy _ _ | .release _ _ | .lockToFree | .push _ | .unlockCleanup | .checkBatch | .wrlock
  | .drain _ | .wrunlock => true
  | _ => false

/-- From the call of `tm_begin` to the decision of `tm_end`, or to the return of the call that
aborts. -/
def Thread.undecided : Thread V → Bool
  | .idle | .returning (.begin false) _ | .returning (.finish true) _ => false
  | .ending _ pc => !pc.committed
  | _ => true

/-- Between the decision of `tm_end` and its return. A `tm_end` that had nothing to write only
returns. -/
def Thread.finishing : Thread V → Bool
  | .ending _ pc => pc.committed
  | .returning (.finish true) _ => true
  | _ => false

def TxLog.Quiet (log : TxLog V) : Prop :=
  log.version = none ∧ (log.isRo = false → ¬ log.Writes)

def Thread.Recorded (decided : List (TxLog V)) (log : TxLog V) : Thread V → Prop
  | .idle => True
  | .ending t pc => (pc = .start ∨ t.ws ≠ []) ∧
      if pc.committed then log ∈ decided else log.version = none
  | .returning (.finish true) _ => log ∈ decided ∨ log.Quiet
  | _ => log.version = none

section Moves

variable {platform : Platform V} {tm : Tm V} {choice : Choice V} {thread thread' : Thread V}
  {event : Event V} {log : TxLog V} {decided decided' : List (TxLog V)}

theorem Thread.Recorded.mono (h : thread.Recorded decided log)
    (hle : ∀ log ∈ decided, log ∈ decided') : thread.Recorded decided' log := by
  cases thread with
  | ending t pc =>
      refine h.imp_right fun hlog => ?_
      by_cases hcommitted : pc.committed
      · rw [if_pos hcommitted] at hlog ⊢
        exact hle log hlog
      · rw [if_neg hcommitted] at hlog ⊢
        exact hlog
  | returning r t =>
      cases r with
      | finish committed =>
          cases committed with
          | true => exact h.imp_left (hle log)
          | false => exact h
      | _ => exact h
  | _ => exact h

/-- A decided transaction only returns. -/
theorem ThreadMove.finishing (h : ThreadMove platform tm choice thread event thread')
    (log : TxLog V) (before : List Nat) (hbefore : thread.finishing = true) :
    event = .ret (.finish true) ∨
      thread'.finishing = true ∧ log.next tm thread before event = log := by
  cases h with
  | finish h =>
      cases h with
      | copied =>
          refine Or.inr ⟨?_, rfl⟩
          split <;> rfl
      | copy | release | lockToFree | push | pushed | unlockCleanup | batch | noBatch | wrlock
        | drainNull | drain | drained | wrunlock => exact Or.inr ⟨rfl, rfl⟩
      | _ => cases hbefore
  | @retIdle r | @retLive r =>
      cases r with
      | finish committed =>
          cases committed with
          | true => exact Or.inl rfl
          | false => cases hbefore
      | _ => cases hbefore
  | call h | begin h | read h | roRead h | write h | alloc h | free h => cases hbefore
  | start | cleanup => cases hbefore

theorem ThreadMove.returning (h : ThreadMove platform tm choice thread event thread') {r : Ret V}
    (hevent : event = .ret r) : ∃ t, thread = .returning r t := by
  cases h with
  | retIdle | retLive =>
      cases hevent
      exact ⟨_, rfl⟩
  | call h | begin h | read h | roRead h | write h | alloc h | free h | finish h =>
      cases h <;> cases hevent
  | start | cleanup => cases hevent

theorem Thread.Recorded.mover {bit : Int → BitVec 64}
    (hmove : ThreadMove platform tm choice thread event thread') (hanswers : thread.Answers)
    (hmode : ∀ t, thread.tx = some t → t.isRo = log.isRo) (hbuffered : log.Buffered tm bit thread)
    (hquiet : ∀ wv writes, event ≠ .op (.commit wv writes)) (before : List Nat)
    (h : thread.Recorded decided log) :
    thread'.Recorded decided (log.next tm thread before event) := by
  cases hmove with
  | start => rfl
  | @finish t pc event thread' hfinish =>
      cases hfinish with
      | commit => exact absurd rfl (hquiet _ _)
      | early hdone =>
          refine Or.inr ⟨h.2, fun hrw hwrites => ?_⟩
          have hro : t.isRo = false := (hmode t rfl).trans hrw
          have hsets := hbuffered.sets t log.entries rfl hro
          exact hsets.writes_iff.mp hwrites (hdone.resolve_left (by simp [hro]))
      | sort hrw hne =>
          refine ⟨Or.inr fun hnil => hne ?_, h.2⟩
          exact List.Perm.eq_nil (hnil ▸ (platform.qsort_perm _ _).symm)
      | copied =>
          have hne := h.1.resolve_left (by simp)
          split <;> exact ⟨Or.inr hne, h.2⟩
      | noBatch | wrunlock => exact Or.inl h.2
      | rolledBack | undone => exact h.2
      | _ => exact ⟨Or.inr (h.1.resolve_left (by simp)), h.2⟩
  | @cleanup t r =>
      cases r with
      | finish committed =>
          cases committed with
          | true => exact absurd rfl hanswers.2.1
          | false => exact h
      | _ => exact h
  | retIdle => trivial
  | @retLive r t =>
      cases r with
      | finish committed => cases hanswers
      | _ => exact h
  | call hcall =>
      cases hcall with
      | finish => exact ⟨Or.inl rfl, h⟩
      | _ => exact h
  | begin hcall | read hcall | roRead hcall | write hcall | alloc hcall | free hcall =>
      cases hcall <;> exact h

end Moves

/-! ### What the decided logs say -/

section Invariant

variable [Zero V]

/-- A decided transaction saw, at the version below its own, what the region showed. -/
structure TxLog.Decided (store : Store Tid Word V) (log : TxLog V) : Prop where
  isRo : log.isRo = false
  writes : log.Writes
  answered : Answered log.entries
  /-- The transaction comes right after the content it saw and after everything before its call. -/
  version : ∃ c, log.version = some c ∧ (∀ v ∈ log.before, v < c) ∧
    ∀ w x, .read w x false ∈ log.entries → store.Shows (fun _ => 0) (c - 1) w x

structure CommitsInv (s : State Tid V) (store : Store Tid Word V) (hist : History Tid V) :
    Prop where
  log : hist.log = hist.decided.map fun log => log.txn.commit
  decided : ∀ log ∈ hist.decided, log.Decided store
  current : ∀ tid, (s.thread tid).Recorded hist.decided (hist.current tid)
  returned : ∀ log ∈ hist.returned, log ∈ hist.decided ∨ log.Quiet
  /-- A decided transaction is still in `tm_end`, or it has returned. -/
  pending : ∀ log ∈ hist.decided, log ∈ hist.returned ∨
    ∃ tid, hist.current tid = log ∧ (s.thread tid).finishing = true

theorem TxLog.Decided.later {store store' : Store Tid Word V} {log : TxLog V}
    (h : log.Decided store) (hlater : Store.Later (fun _ => 0) store store') :
    log.Decided store' := by
  obtain ⟨c, hc, hbefore, hreads⟩ := h.version
  refine { h with version := ⟨c, hc, hbefore, fun w x hread => ?_⟩ }
  exact hlater.shows _ w x (hreads w x hread)

variable [DecidableEq Tid] {platform : Platform V} {s s' : State Tid V} {l : Label Tid V}
  {store : Store Tid Word V} {hist : History Tid V} {log : TxLog V}

omit [Zero V] in
theorem ThreadMove.deciding {tm : Tm V} {choice : Choice V} {thread thread' : Thread V}
    {event : Event V} (h : ThreadMove platform tm choice thread event thread') {wv : Int}
    {writes : List (Word × V)} (hevent : event = .op (.commit wv writes)) :
    ∃ t, thread = .ending t (.validated wv) ∧ thread' = .ending t (.copy wv 0) ∧
      writes = t.writes := by
  cases h with
  | @finish t _ _ _ h =>
      cases h with
      | commit =>
          cases hevent
          exact ⟨t, rfl, rfl, rfl⟩
      | _ => cases hevent
  | call h | begin h | read h | roRead h | write h | alloc h | free h => cases h <;> cases hevent
  | start | cleanup | retIdle | retLive => cases hevent

omit [Zero V] in
theorem mem_returned_recordHistory (h : log ∈ (recordHistory s l hist).returned) :
    log ∈ hist.returned ∨ l.event = .ret (.finish true) ∧ log = hist.current l.tid := by
  simp only [recordHistory] at h
  split at h
  · rename_i hevent
    rcases List.mem_append.mp h with h | h
    · exact Or.inl h
    · exact Or.inr ⟨hevent, List.mem_singleton.mp h⟩
  · exact Or.inl h

omit [Zero V] in
theorem returned_recordHistory (h : log ∈ hist.returned) :
    log ∈ (recordHistory s l hist).returned := by
  simp only [recordHistory]
  split
  · exact List.mem_append_left _ h
  · exact h

omit [Zero V] in
theorem decided_recordHistory (s : State Tid V) (hist : History Tid V)
    (hquiet : ∀ wv writes, l.event ≠ .op (.commit wv writes)) :
    (recordHistory s l hist).decided = hist.decided ∧ (recordHistory s l hist).log = hist.log := by
  simp [recordHistory]

namespace CommitsInv

theorem init (h : (system Tid platform).init s) :
    CommitsInv s (Store.start fun _ => 0) (History.start Tid V) := by
  refine ⟨rfl, by simp [History.start], fun tid => ?_, by simp [History.start],
    by simp [History.start]⟩
  rw [h.1 tid]
  trivial

omit [DecidableEq Tid] in
theorem version_mem (h : CommitsInv s store hist) (hmem : log ∈ hist.decided) :
    log.txn.commit ∈ hist.log := by
  rw [h.log]
  exact List.mem_map_of_mem hmem

omit [DecidableEq Tid] in
/-- What has returned is no newer than the clock. -/
theorem returned_le (h : CommitsInv s store hist) (hw : WordsInv s store)
    (hlog : store.log = hist.log) {v : Nat} (hv : v ∈ hist.returned.filterMap TxLog.version) :
    v ≤ store.clock := by
  obtain ⟨log, hmem, hversion⟩ := List.mem_filterMap.mp hv
  rcases h.returned log hmem with hdecided | hquiet
  · have hle := hw.inv.log_le log.txn.commit (hlog ▸ h.version_mem hdecided)
    simpa [Txn.commit, TxLog.txn, hversion] using hle
  · rw [hquiet.1] at hversion
    cases hversion

/-- The part of a step that is the same whether it decides or not. -/
theorem pending_step (h : CommitsInv s store hist) (hstep : (system Tid platform).step s l s')
    (hmem : log ∈ hist.decided) : log ∈ (recordHistory s l hist).returned ∨
      ∃ tid, (recordHistory s l hist).current tid = log ∧ (s'.thread tid).finishing = true := by
  obtain ⟨hmove, -, hother⟩ := system_step_move hstep
  rcases h.pending log hmem with hreturned | ⟨tid, rfl, hfinishing⟩
  · exact Or.inl (returned_recordHistory hreturned)
  · by_cases heq : tid = l.tid
    · subst heq
      rcases hmove.finishing (hist.current l.tid) (hist.returned.filterMap TxLog.version)
        hfinishing with hevent | ⟨hafter, hsame⟩
      · exact Or.inl (by simp [recordHistory, hevent])
      · exact Or.inr ⟨l.tid, by simpa [recordHistory] using hsame, hafter⟩
    · exact Or.inr ⟨tid, by simp [recordHistory, heq], by rw [hother tid heq]; exact hfinishing⟩

theorem quiet_step (h : CommitsInv s store hist) (hreach : (system Tid platform).Reachable s)
    (hstep : (system Tid platform).step s l s')
    (hlater : Store.Later (fun _ => 0) store (recordStore s l store)) (hlogs : LogsInv s store hist)
    (hbuffered : BufferedInv platform s hist)
    (hquiet : ∀ wv writes, l.event ≠ .op (.commit wv writes)) :
    CommitsInv s' (recordStore s l store) (recordHistory s l hist) := by
  obtain ⟨hmove, -, hother⟩ := system_step_move hstep
  obtain ⟨hdecided, hlog⟩ := decided_recordHistory s hist hquiet
  refine ⟨by rw [hlog, hdecided, h.log], fun log hmem => ?_, fun tid => ?_, fun log hmem => ?_,
    fun log hmem => h.pending_step hstep (hdecided ▸ hmem)⟩
  · exact (h.decided log (hdecided ▸ hmem)).later hlater
  · rw [hdecided]
    by_cases heq : tid = l.tid
    · subst heq
      have hmover := (h.current l.tid).mover hmove (threadAnswers hreach l.tid) (hlogs l.tid).mode
        (hbuffered l.tid) hquiet (hist.returned.filterMap TxLog.version)
      simpa [recordHistory] using hmover
    · rw [hother tid heq]
      simpa [recordHistory, heq] using h.current tid
  · rw [hdecided]
    rcases mem_returned_recordHistory hmem with hmem | ⟨hevent, rfl⟩
    · exact h.returned log hmem
    · obtain ⟨t, hbefore⟩ := hmove.returning hevent
      have hcurrent := h.current l.tid
      rw [hbefore] at hcurrent
      exact hcurrent

/-- **The decision** puts a transaction right after the content it saw. -/
theorem decide_step (h : CommitsInv s store hist) (hreach : (system Tid platform).Reachable s)
    (hw : WordsInv s store) (hstep : (system Tid platform).step s l s')
    (hlater : Store.Later (fun _ => 0) store (recordStore s l store)) (hlogs : LogsInv s store hist)
    (hsnapshot : SnapshotInv s store hist) (hbuffered : BufferedInv platform s hist)
    (hvalidation : ValidationInv s store hist) {wv : Int} {writes : List (Word × V)}
    (hevent : l.event = .op (.commit wv writes)) :
    CommitsInv s' (recordStore s l store) (recordHistory s l hist) := by
  obtain ⟨hmove, -, hother⟩ := system_step_move hstep
  obtain ⟨t, hbefore, hafter, rfl⟩ := hmove.deciding hevent
  obtain ⟨c, rfl, hstamp, hreads⟩ := (hvalidation.validated l.tid).decide hw (threadWf hreach l.tid)
    hbefore (threadMode hreach l.tid) (hsnapshot.current l.tid) (hlogs l.tid) (hbuffered l.tid)
    (hvalidation.stamped l.tid) (hvalidation.heldOld l.tid)
  have hrw : t.isRo = false := by
    have hmode := threadMode hreach l.tid
    rw [hbefore] at hmode
    exact hmode
  have hsets : t.Buffers s.tm platform.bit (hist.current l.tid).entries :=
    (hbuffered l.tid).sets t _ (by rw [hbefore]; rfl) hrw
  have hmode := (hlogs l.tid).mode t (by rw [hbefore]; rfl)
  have hrecorded := h.current l.tid
  rw [hbefore] at hrecorded
  have hwrites := hsets.writes_iff.mpr (hrecorded.1.resolve_left (by simp))
  have hnext : (recordHistory s l hist).current l.tid =
      { hist.current l.tid with version := some c } := by
    simp [recordHistory, hevent, TxLog.next]
  have hdecided : (recordHistory s l hist).decided =
      hist.decided ++ [(recordHistory s l hist).current l.tid] := by
    rw [hnext]
    simp [recordHistory, hevent]
  refine ⟨?_, fun log hmem => ?_, fun tid => ?_, fun log hmem => ?_, fun log hmem => ?_⟩
  · have hcommit : ((recordHistory s l hist).current l.tid).txn.commit =
        ⟨c, fun w => t.writes.lookup w⟩ := by
      rw [hnext]
      exact congrArg (Commit.mk c) hsets.lookup.symm
    rw [hdecided, List.map_append, List.map_singleton, hcommit, ← h.log]
    simp [recordHistory, hevent]
  · rw [hdecided] at hmem
    rcases List.mem_append.mp hmem with hmem | hmem
    · exact (h.decided log hmem).later hlater
    · obtain rfl := List.mem_singleton.mp hmem
      rw [hnext]
      exact ⟨hmode.symm.trans hrw, hwrites, hsets.answered, c, rfl,
        ((hvalidation.stamped l.tid).stamp c hstamp).2,
        fun w x hread => hlater.shows _ w x (hreads w x hread)⟩
  · by_cases heq : tid = l.tid
    · subst heq
      rw [hafter]
      exact ⟨Or.inr (hrecorded.1.resolve_left (by simp)), by simp [EndPc.committed, hdecided]⟩
    · rw [hother tid heq]
      have hbefore : (s.thread tid).Recorded hist.decided
          ((recordHistory s l hist).current tid) := by
        simpa [recordHistory, heq] using h.current tid
      refine hbefore.mono fun log hmem => ?_
      rw [hdecided]
      exact List.mem_append_left _ hmem
  · rcases mem_returned_recordHistory hmem with hmem | ⟨hret, -⟩
    · refine (h.returned log hmem).imp_left fun hmem => ?_
      rw [hdecided]
      exact List.mem_append_left _ hmem
    · rw [hevent] at hret
      cases hret
  · rw [hdecided] at hmem
    rcases List.mem_append.mp hmem with hmem | hmem
    · exact h.pending_step hstep hmem
    · exact Or.inr ⟨l.tid, (List.mem_singleton.mp hmem).symm, by rw [hafter]; rfl⟩

theorem step (h : CommitsInv s store hist) (hreach : (system Tid platform).Reachable s)
    (hw : WordsInv s store) (hstep : (system Tid platform).step s l s')
    (hlogs : LogsInv s store hist)
    (hsnapshot : SnapshotInv s store hist) (hbuffered : BufferedInv platform s hist)
    (hvalidation : ValidationInv s store hist) :
    CommitsInv s' (recordStore s l store) (recordHistory s l hist) := by
  have hlater := hw.later (threadWf hreach l.tid) hstep
  by_cases hdecides : ∃ wv writes, l.event = .op (.commit wv writes)
  · obtain ⟨wv, writes, hevent⟩ := hdecides
    exact h.decide_step hreach hw hstep hlater hlogs hsnapshot hbuffered hvalidation hevent
  · push Not at hdecides
    exact h.quiet_step hreach hstep hlater hlogs hbuffered hdecides

end CommitsInv

/-! ### Runs -/

def SerialOk (s : State Tid V) (l : Label Tid V) : Prop :=
  VersionsBounded s l ∧ NoFailure s l ∧ ReadsFit s l ∧ WritesFit s l

structure SerialInv (platform : Platform V) (s : State Tid V) (store : Store Tid Word V)
    (hist : History Tid V) : Prop where
  logs : LogsInv s store hist
  snapshot : SnapshotInv s store hist
  counted : CountedInv s hist
  buffered : BufferedInv platform s hist
  validation : ValidationInv s store hist
  commits : CommitsInv s store hist

/-- **Every run** keeps transactions on the way to a serial order. -/
theorem serialInv {ok : State Tid V → Label Tid V → Prop} {p : State Tid V × History Tid V}
    (hok : ∀ s l, ok s l → SerialOk s l) (hbit : ∀ pos, platform.bit pos ≠ 0#64)
    (h : (historyMachine Tid platform ok).Reachable p) :
    ∃ store, WordsInv p.1 store ∧ store.log = p.2.log ∧ SerialInv platform p.1 store p.2 := by
  refine history_invariant (Q := SerialInv platform) (fun s l h => (hok s l h).1)
    (fun s hs => ⟨LogsInv.init hs, SnapshotInv.init hs, CountedInv.init hs, BufferedInv.init hs,
      ValidationInv.init hs, CommitsInv.init hs⟩)
    (fun s l s' store hist hreach hokl hstep hwords hlog hinv => ?_) h
  obtain ⟨-, hfailure, hreads, hwrites⟩ := hok s l hokl
  have hreach' : ((system Tid platform).restrict NoFailure).Reachable s :=
    hreach.restrict_le fun s l hokl => (hok s l hokl).2.1
  have hsystem := hreach.of_restrict
  obtain ⟨hlogs, hsnapshot, hcounted, hbuffered, hvalidation, hcommits⟩ := hinv
  exact ⟨hlogs.step hsystem hwords hstep,
    hsnapshot.step hsystem hwords hreads hstep hlogs,
    hcounted.step hsystem hreads hstep,
    hbuffered.step hbit hreach' hfailure hreads hwrites hstep hcounted,
    hvalidation.step hsystem hwords hstep (fun v hv => hcommits.returned_le hwords hlog hv) hlogs
      hsnapshot hbuffered,
    hcommits.step hsystem hwords hstep hlogs hsnapshot hbuffered hvalidation⟩

end Invariant

end TransactionalMemory
