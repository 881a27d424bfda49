import TransactionalMemory.Proof.View

/-!
# Validation

Between its clock draw and its decision a transaction has to make sure that every word it read is
still what it was at the sampled version. Either nobody else has drawn a version in between, or each
recorded word is looked up again. A word that was overwritten later has no record any more:
`vl_try_lock` has tested its version when the transaction locked it.
-/

namespace TransactionalMemory

open Concurrency

variable {V Tid : Type} [Zero V]

/-! ### Versions and the clock -/

/-- The versions before the transaction, the one it sampled, and the one it has drawn. -/
structure TxLog.Stamped (tid : Tid) (store : Store Tid Word V) (log : TxLog V) : Prop where
  before_le : ∀ v ∈ log.before, v ≤ store.clock
  stamp : ∀ c, store.stamp tid = some c → log.sampled < c ∧ ∀ v ∈ log.before, v < c

def TxLog.HeldOld (store : Store Tid Word V) (thread : Thread V) (log : TxLog V) : Prop :=
  (thread.stage = .early ∨ ∃ wv, thread.stage = .drawn wv) →
    ∀ w ∈ thread.held, store.version w ≤ log.sampled

/-- What validation has established so far: each read shows just below the drawn version. -/
def Thread.Validated (store : Store Tid Word V) (log : TxLog V) : Thread V → Prop
  | .ending t (.validate wv i) => ∀ rs, t.rs = some rs → ∀ (j : Nat) v w x, j < i →
      rs[j]? = some ⟨v, some w⟩ → .read w x false ∈ log.entries →
        store.Shows (fun _ => 0) (wv.toNat - 1) w x
  | .ending t (.validated wv) => ∀ w x, .read w x false ∈ log.entries →
      w ∉ t.ws.map WsItem.rawAddr → store.Shows (fun _ => 0) (wv.toNat - 1) w x
  | _ => True

section Step

variable [DecidableEq Tid] {platform : Platform V} {s s' : State Tid V} {l : Label Tid V}
  {store store' : Store Tid Word V} {log : TxLog V} {tid : Tid}

omit [DecidableEq Tid] in
theorem Thread.Validated.later {thread : Thread V} (h : thread.Validated store log)
    (hlater : Store.Later (fun _ => 0) store store') : thread.Validated store' log := by
  cases thread with
  | ending t pc =>
      cases pc with
      | validate wv i =>
          exact fun rs hrs j v w x hj hitem hread =>
            hlater.shows _ _ _ (h rs hrs j v w x hj hitem hread)
      | validated wv => exact fun w x hread hw => hlater.shows _ _ _ (h w x hread hw)
      | _ => trivial
  | _ => trivial

/-- Another thread's step does not touch the version drawn. -/
theorem TxLog.Stamped.other (h : log.Stamped tid store)
    (hlater : Store.Later (fun _ => 0) store (recordStore s l store)) (hne : tid ≠ l.tid) :
    log.Stamped tid (recordStore s l store) := by
  refine ⟨fun v hv => (h.before_le v hv).trans hlater.clock_le, fun c hc => h.stamp c ?_⟩
  unfold recordStore at hc
  cases haction : storeAction l.event with
  | none => simpa [haction] using hc
  | some action => simpa [haction, Store.stamp_apply_other hne] using hc

/-- Another thread's step does not touch what `tm_end` has locked. -/
theorem TxLog.HeldOld.other (hw : WordsInv s store) (hwf : (s.thread l.tid).Wf)
    (hstep : (system Tid platform).step s l s') (hne : tid ≠ l.tid)
    (h : log.HeldOld store (s.thread tid)) :
    log.HeldOld (recordStore s l store) (s.thread tid) := by
  obtain ⟨hmove, -, -⟩ := system_step_move hstep
  intro hstage w hheld
  unfold recordStore
  cases haction : storeAction l.event with
  | none => exact h hstage w hheld
  | some action =>
      have hen := hw.enabled (hmove.wordMove hwf) haction
      rw [Option.elim_some, Store.version_apply_other hen hne ((hw.held w tid).mpr hheld)]
      exact h hstage w hheld

omit [Zero V] [DecidableEq Tid] in
/-- Logs sample and collect what came before only in `tm_begin`. -/
theorem TxLog.next_before (log : TxLog V) {tm : Tm V} {choice : Choice V}
    {thread thread' : Thread V}
    {event : Event V} (hmove : ThreadMove platform tm choice thread event thread')
    (before : List Nat) :
    (log.next tm thread before event).sampled = log.sampled ∧
        (log.next tm thread before event).before = log.before ∨
      thread.stage = .early ∧ thread'.held = [] ∧ storeAction event = none ∧
        ((log.next tm thread before event).before = before ∨
          (log.next tm thread before event).before = log.before) := by
  cases hmove with
  | start => exact Or.inr ⟨rfl, rfl, rfl, Or.inl rfl⟩
  | begin h => cases h <;> exact Or.inr ⟨rfl, rfl, rfl, Or.inr rfl⟩
  | call h | read h | roRead h | write h | alloc h | free h | finish h =>
      cases h <;> exact Or.inl ⟨rfl, rfl⟩
  | cleanup | retIdle | retLive => exact Or.inl ⟨rfl, rfl⟩

omit [Zero V] in
theorem stamp_recordStore {c : Nat} (h : (recordStore s l store).stamp l.tid = some c) :
    store.stamp l.tid = some c ∨ c = store.clock + 1 := by
  unfold recordStore at h
  cases haction : storeAction l.event with
  | none => exact Or.inl (by simpa [haction] using h)
  | some action =>
      rw [haction, Option.elim_some] at h
      cases action with
      | draw => exact Or.inr (by simpa [Store.apply] using h.symm)
      | finish => simp [Store.apply] at h
      | _ => exact Or.inl h

theorem TxLog.Stamped.mover (hw : WordsInv s store) (hwf : (s.thread l.tid).Wf)
    (hstep : (system Tid platform).step s l s') {before : List Nat}
    (hbefore : ∀ v ∈ before, v ≤ store.clock) (hfollows : log.Follows store (s.thread l.tid))
    (h : log.Stamped l.tid store) :
    (log.next s.tm (s.thread l.tid) before l.event).Stamped l.tid (recordStore s l store) := by
  have hlater := hw.later hwf hstep
  obtain ⟨hmove, -, -⟩ := system_step_move hstep
  rcases log.next_before hmove before with ⟨hsampled, hsame⟩ | ⟨hstage, -, haction, hnext⟩
  · refine ⟨fun v hv => (h.before_le v (hsame ▸ hv)).trans hlater.clock_le, fun c hc => ?_⟩
    rw [hsampled, hsame]
    rcases stamp_recordStore hc with hold | rfl
    · exact h.stamp c hold
    · exact ⟨Nat.lt_succ_of_le hfollows.sampled_le,
        fun v hv => Nat.lt_succ_of_le (h.before_le v hv)⟩
  · have hagrees := hw.stage l.tid
    rw [hstage] at hagrees
    have hstore : recordStore s l store = store := by simp [recordStore, haction]
    rw [hstore]
    refine ⟨fun v hv => ?_, fun c hc => by simp [hagrees.1] at hc⟩
    rcases hnext with hnext | hnext
    · exact hbefore v (hnext ▸ hv)
    · exact h.before_le v (hnext ▸ hv)

omit [Zero V] [DecidableEq Tid] in
/-- The compare-and-exchange of `vl_try_lock`, with the test before it. -/
theorem ThreadMove.passed {tm : Tm V} {choice : Choice V} {thread thread' : Thread V}
    {event : Event V} (hmove : ThreadMove platform tm choice thread event thread') (hwf : thread.Wf)
    (hmode : thread.Mode) {w : Word} {prev : Int} (hevent : event = .op (.casLock w prev true)) :
    ∃ t, thread.tx = some t ∧ t.isRo = false ∧ vlTryLockRefuses prev t.rv = false := by
  cases hmove with
  | @finish t pc _ _ h =>
      cases h with
      | cas =>
          cases hevent
          exact ⟨t, rfl, hmode, hwf.passed t _ _ rfl⟩
      | _ => cases hevent
  | call h | begin h | read h | roRead h | write h | alloc h | free h => cases h <;> cases hevent
  | start | cleanup | retIdle | retLive => cases hevent

/-- What `vl_try_lock` lets pass is no newer than the sampled version. -/
theorem TxLog.HeldOld.mover (hw : WordsInv s store) (hwf : (s.thread l.tid).Wf)
    (hmode : (s.thread l.tid).Mode) (hstep : (system Tid platform).step s l s') (before : List Nat)
    (hfollows : log.Follows store (s.thread l.tid)) (h : log.HeldOld store (s.thread l.tid)) :
    (log.next s.tm (s.thread l.tid) before l.event).HeldOld (recordStore s l store)
      (s'.thread l.tid) := by
  obtain ⟨hmove, -, -⟩ := system_step_move hstep
  intro hstage w hheld
  rcases log.next_before hmove before with ⟨hsampled, -⟩ | ⟨-, hnone, -⟩
  swap
  · simp [hnone] at hheld
  rw [hsampled]
  cases hmove.wordMove hwf with
  | quiet hstore hlock hdata hclock hsame hstage' =>
      simp only [recordStore, hstore, Option.elim_none]
      rcases hstage' with hstage' | hstage'
      · exact h (hstage' ▸ hstage) w (hsame ▸ hheld)
      · simp [hstage'] at hstage
  | filled hevent hbuilding hsame hstage' =>
      simp only [recordStore, hevent, storeAction, Option.elim_none]
      exact h (hstage' ▸ hstage) w (hsame ▸ hheld)
  | readied hevent hbuilding hsame hstage' =>
      simp only [recordStore, hevent, storeAction, Option.elim_none]
      rcases hstage' with hstage' | hstage'
      · exact h (hstage' ▸ hstage) w (hsame ▸ hheld)
      · simp [hstage'] at hstage
  | @locked w' rv hevent hvalid hpass hgrown hbefore hafter =>
      simp only [recordStore, hevent, storeAction, Option.elim_some, Store.apply]
      rw [hgrown] at hheld
      rcases List.mem_append.mp hheld with hheld | hheld
      · exact h (Or.inl hbefore) w hheld
      · obtain rfl := List.mem_singleton.mp hheld
        obtain ⟨t, htx, hrw, hold⟩ := hmove.passed hwf hmode hevent
        rw [hfollows.sampled t htx hrw, hw.lock, vlTryLockRefuses, lockWord_div,
          Bool.or_eq_false_iff, decide_eq_false_iff_not, not_lt] at hold
        exact_mod_cast hold.2
  | @unlocked w' hevent hvalid hshrunk hbefore hafter =>
      simp only [recordStore, hevent, storeAction, Option.elim_some, Store.apply]
      exact h (hafter ▸ hstage) w (by rw [hshrunk]; exact List.mem_cons_of_mem _ hheld)
  | drew hevent hwv hsame hbefore hafter =>
      simp only [recordStore, hevent, storeAction, Option.elim_some, Store.apply]
      exact h (Or.inl hbefore) w (hsame ▸ hheld)
  | decided hevent hkeys hsame hbefore hafter => simp [hafter] at hstage
  | put hevent hvalid howned hmem hsame hbefore hafter => simp [hafter] at hstage
  | released hevent hvalid hshrunk hbefore hafter => simp [hafter] at hstage
  | returned hevent hbefore hnone => simp [hnone] at hheld

omit [DecidableEq Tid] in
/-- A word that is found free at an old version shows just below the version drawn. -/
theorem WordsInv.shows_below (hw : WordsInv s store) {c bound : Nat} {w : Word} {x : V}
    (hstamp : store.stamp tid = some c) (hlt : bound < c)
    (hshows : store.Shows (fun _ => 0) bound w x) (hfree : vlReadVersion (s.tm.lock w) ≠ -1)
    (hold : vlReadVersion (s.tm.lock w) ≤ bound) : store.Shows (fun _ => 0) (c - 1) w x := by
  obtain ⟨howner, hversion⟩ := hw.readVersion_eq hfree
  have hle := hw.inv.stamp_le tid c hstamp
  exact hshows.extend hw.inv (by simp [howner]) (by omega) (by omega)
    (Store.settled_of_unlocked howner (by omega))

omit [DecidableEq Tid] in
/-- One move of `tm_end` on its way to a decision. -/
theorem Thread.Validated.mover {bit : Int → BitVec 64} (hw : WordsInv s store)
    (hmode : (s.thread l.tid).Mode)
    (hmove : ThreadMove platform s.tm l.choice (s.thread l.tid) l.event (s'.thread l.tid))
    (before : List Nat) (hfollows : log.Follows store (s.thread l.tid))
    (hsnapshot : log.Snapshot store (s.thread l.tid))
    (hbuffered : log.Buffered s.tm bit (s.thread l.tid)) (hstamped : log.Stamped l.tid store)
    (h : (s.thread l.tid).Validated store log) :
    (s'.thread l.tid).Validated store (log.next s.tm (s.thread l.tid) before l.event) := by
  have hstage := hw.stage l.tid
  generalize s.thread l.tid = thread, l.event = event, s'.thread l.tid = thread' at *
  cases hmove with
  | @finish t pc event thread' hfinish =>
      cases hfinish with
      | fetchAdd => exact fun rs hrs j v w x hj => absurd hj (Nat.not_lt_zero j)
      | fetchAddSkip hwv hskip =>
          intro w x hread _
          have hrw : t.isRo = false := hmode
          have hrv := hfollows.sampled t rfl hrw
          have hsound := hsnapshot.sound ((hfollows.mode t rfl).symm.trans hrw) _ hread
          rw [← hskip, hrv, show ((log.sampled : Int) + 1).toNat - 1 = log.sampled by omega]
          exact hsound
      | @validateDone wv i rs hrs hi =>
          intro w x hread hnew
          have hsets := hbuffered.sets t log.entries rfl hmode
          rcases hsets.tracked w x hread with ⟨items, ⟨v, lock⟩, hitems, hmem, rfl⟩ | hws
          · obtain rfl : rs = items := by simpa [hrs] using hitems
            obtain ⟨j, hj⟩ := List.mem_iff_getElem?.mp hmem
            have hlt := (List.getElem?_eq_some_iff.mp hj).1
            have hle := List.getElem?_eq_none_iff.mp hi
            exact h rs hrs j v w x (by omega) hj hread
          · exact absurd hws hnew
      | @validateErased wv i rs versionRead hrs hi =>
          intro rs' hrs' j v w x hj hitem hread
          obtain rfl : rs = rs' := by simpa [hrs] using hrs'
          rcases Nat.lt_succ_iff_lt_or_eq.mp hj with hj | rfl
          · exact h rs hrs j v w x hj hitem hread
          · simp [hi] at hitem
      | @validate wv i rs versionRead w' hrs hi hvalid hfree hold =>
          intro rs' hrs' j v w x hj hitem hread
          obtain rfl : rs = rs' := by simpa [hrs] using hrs'
          rcases Nat.lt_succ_iff_lt_or_eq.mp hj with hj | rfl
          · exact h rs hrs j v w x hj hitem hread
          · have hrw : t.isRo = false := hmode
            obtain rfl : w' = w := by
              have := hi.symm.trans hitem
              simp_all
            obtain ⟨c, rfl, hstamp, -⟩ := hstage
            rw [hfollows.sampled t rfl hrw] at hold
            have hsound := hsnapshot.sound ((hfollows.mode t rfl).symm.trans hrw) _ hread
            exact hw.shows_below hstamp (hstamped.stamp c hstamp).1 hsound hfree hold
      | copied => split <;> trivial
      | _ => trivial
  | call hmove | begin hmove | read hmove | roRead hmove | write hmove | alloc hmove | free hmove =>
      cases hmove <;> trivial
  | start | cleanup | retIdle | retLive => trivial

omit [DecidableEq Tid] in
/-- **At the decision** every read that came from the region shows just below the version drawn. -/
theorem Thread.Validated.decide {bit : Int → BitVec 64} {t : Tx V} {wv : Int}
    (hw : WordsInv s store)
    (hwf : (s.thread tid).Wf) (hthread : s.thread tid = .ending t (.validated wv))
    (hmode : (s.thread tid).Mode) (hsnapshot : log.Snapshot store (s.thread tid))
    (hfollows : log.Follows store (s.thread tid)) (hbuffered : log.Buffered s.tm bit (s.thread tid))
    (hstamped : log.Stamped tid store) (hheld : log.HeldOld store (s.thread tid))
    (h : (s.thread tid).Validated store log) :
    ∃ c : Nat, wv = c ∧ store.stamp tid = some c ∧ ∀ w x, .read w x false ∈ log.entries →
      store.Shows (fun _ => 0) (c - 1) w x := by
  have hstage := hw.stage tid
  have howned := fun w => (hw.held w tid).mpr
  rw [hthread] at hwf hmode hsnapshot hfollows hbuffered hheld h hstage howned
  obtain ⟨c, rfl, hstamp, hunsealed⟩ := hstage
  have hrw : t.isRo = false := hmode
  refine ⟨c, rfl, hstamp, fun w x hread => ?_⟩
  by_cases hwritten : w ∈ t.ws.map WsItem.rawAddr
  · -- the transaction has locked the word itself
    have hlock : w ∈ t.locks := by
      obtain ⟨item, hmem, rfl⟩ := List.mem_map.mp hwritten
      exact List.mem_map.mpr ⟨item, hmem, (hwf.sameWord t rfl item hmem).symm⟩
    have howner := howned w hlock
    have hlt := (hstamped.stamp c hstamp).1
    have hle := hw.inv.stamp_le tid c hstamp
    have hsound := hsnapshot.sound ((hfollows.mode t rfl).symm.trans hrw) _ hread
    refine Store.Shows.extend hsound hw.inv (fun t' ht' => ?_) (hheld (Or.inr ⟨_, rfl⟩) w hlock)
      (by omega) ⟨by omega, fun t' c' ht' hc' => ?_⟩
    · obtain rfl : tid = t' := by simpa [howner] using ht'
      exact hunsealed
    · obtain rfl : tid = t' := by simpa [howner] using ht'
      obtain rfl : c = c' := by simpa [hstamp] using hc'
      omega
  · exact h w x hread hwritten

variable {hist : History Tid V}

structure ValidationInv (s : State Tid V) (store : Store Tid Word V) (hist : History Tid V) :
    Prop where
  stamped : ∀ tid, (hist.current tid).Stamped tid store
  heldOld : ∀ tid, (hist.current tid).HeldOld store (s.thread tid)
  validated : ∀ tid, (s.thread tid).Validated store (hist.current tid)

theorem ValidationInv.init (h : (system Tid platform).init s) :
    ValidationInv s (Store.start fun _ => 0) (History.start Tid V) := by
  refine ⟨fun tid => ⟨by simp [History.start, TxLog.start], by simp [Store.start]⟩,
    fun tid hstage w hheld => ?_, fun tid => ?_⟩
  · simp [h.1 tid, Thread.held] at hheld
  · rw [h.1 tid]
    trivial

theorem ValidationInv.step (hreach : (system Tid platform).Reachable s) (hw : WordsInv s store)
    (hstep : (system Tid platform).step s l s')
    (hreturned : ∀ v ∈ hist.returned.filterMap TxLog.version, v ≤ store.clock)
    (hlogs : LogsInv s store hist) (hsnapshot : SnapshotInv s store hist)
    (hbuffered : BufferedInv platform s hist) (h : ValidationInv s store hist) :
    ValidationInv s' (recordStore s l store) (recordHistory s l hist) := by
  have hwf := threadWf hreach l.tid
  have hmode := threadMode hreach l.tid
  have hlater := hw.later hwf hstep
  obtain ⟨hmove, -, hother⟩ := system_step_move hstep
  refine ⟨fun tid => ?_, fun tid => ?_, fun tid => ?_⟩ <;> by_cases heq : tid = l.tid
  · subst heq
    simpa [recordHistory] using
      (h.stamped l.tid).mover hw hwf hstep hreturned (hlogs l.tid)
  · simpa [recordHistory, heq] using (h.stamped tid).other hlater heq
  · subst heq
    simpa [recordHistory] using (h.heldOld l.tid).mover hw hwf hmode hstep _ (hlogs l.tid)
  · rw [hother tid heq]
    simpa [recordHistory, heq] using (h.heldOld tid).other hw hwf hstep heq
  · subst heq
    have hmover := (h.validated l.tid).mover hw hmode hmove
      (hist.returned.filterMap TxLog.version) (hlogs l.tid) (hsnapshot.current l.tid)
      (hbuffered l.tid) (h.stamped l.tid)
    simpa [recordHistory] using hmover.later hlater
  · rw [hother tid heq]
    simpa [recordHistory, heq] using (h.validated tid).later hlater

end Step

end TransactionalMemory
