import TransactionalMemory.Proof.Stages

/-!
# The words of the region as a versioned store

A recorder beside the system applies to a versioned store the action that each event stands for. In
every reachable state the lock words, the data and the clock of the region are those of the store,
every action was enabled when it was taken, and a thread owns exactly the cells its program point
says it holds.
-/

namespace TransactionalMemory

open Concurrency

variable {V : Type} {Tid : Type}

/-- Every write version drawn stays below `2 ^ 30`. -/
def VersionsBounded (_ : State Tid V) (l : Label Tid V) : Prop :=
  ∀ g, l.event = .op (.fetchAddClock g) → g + 1 < 2 ^ 30

variable [DecidableEq Tid]

/-- The recorder: the store after the action of one more step. -/
def recordStore (_ : State Tid V) (l : Label Tid V) (store : Store Tid Word V) : Store Tid Word V :=
  (storeAction l.event).elim store (store.apply l.tid)

omit [DecidableEq Tid] in
def Stage.Agrees (tid : Tid) (store : Store Tid Word V) : Stage V → Prop
  | .early => store.stamp tid = none ∧ store.sealed tid = false
  | .drawn wv => ∃ c : Nat, wv = c ∧ store.stamp tid = some c ∧ store.sealed tid = false
  | .committed wv writes written => ∃ c : Nat, wv = c ∧ store.stamp tid = some c ∧
      store.sealed tid = true ∧ (writes.map Prod.fst).Nodup ∧
      ⟨c, fun w => writes.lookup w⟩ ∈ store.log ∧
      ∀ w, written = some w → store.owner w = some tid ∧ store.dirty w = true
  | .late => True

variable [Zero V]

structure WordsInv (s : State Tid V) (store : Store Tid Word V) : Prop where
  inv : store.Inv fun _ => 0
  clock : s.tm.globalVersion = store.clock
  bound : store.clock < 2 ^ 30
  lock : ∀ w, s.tm.lock w = lockWord (store.version w) (store.owner w).isSome
  data : ∀ w, s.tm.data w = store.cell w
  held : ∀ w tid, store.owner w = some tid ↔ w ∈ (s.thread tid).held
  nodup : ∀ tid, (s.thread tid).held.Nodup
  stage : ∀ tid, (s.thread tid).stage.Agrees tid store
  unopened : ∀ w, s.tm.Unopened w.seg →
    store.owner w = none ∧ store.version w = 0 ∧ store.cell w = 0

section Lookup

variable {writes : List (Word × V)} {w : Word} {x : V}

omit [Zero V] in
theorem lookup_ne_none_iff : writes.lookup w ≠ none ↔ w ∈ writes.map Prod.fst := by
  induction writes with
  | nil => simp
  | cons head writes ih =>
      obtain ⟨key, y⟩ := head
      by_cases heq : w = key
      · subst heq
        simp
      · have hbeq : (w == key) = false := by simpa using heq
        simp only [List.lookup_cons, hbeq, List.map_cons, List.mem_cons, heq, false_or]
        exact ih

omit [Zero V] in
theorem lookup_eq_of_mem (hnodup : (writes.map Prod.fst).Nodup) (hmem : (w, x) ∈ writes) :
    writes.lookup w = some x := by
  induction writes with
  | nil => simp at hmem
  | cons head writes ih =>
      obtain ⟨key, y⟩ := head
      rw [List.map_cons, List.nodup_cons] at hnodup
      rcases List.mem_cons.mp hmem with heq | htail
      · obtain ⟨rfl, rfl⟩ := Prod.mk.inj heq
        simp
      · have hne : w ≠ key := by
          rintro rfl
          exact hnodup.1 (List.mem_map.mpr ⟨(w, x), htail, rfl⟩)
        have hbeq : (w == key) = false := by simpa using hne
        rw [List.lookup_cons, hbeq]
        exact ih hnodup.2 htail

end Lookup

omit [Zero V] in
theorem Stage.Agrees.apply_other {store : Store Tid Word V} {t t' : Tid}
    {action : StoreAction Word V} {stage : Stage V} (h : stage.Agrees t' store)
    (hen : store.Enabled t action) (hne : t' ≠ t) : stage.Agrees t' (store.apply t action) := by
  cases stage with
  | early => simpa [Stage.Agrees, Store.stamp_apply_other hne, Store.sealed_apply_other hne] using h
  | drawn wv =>
      simpa [Stage.Agrees, Store.stamp_apply_other hne, Store.sealed_apply_other hne] using h
  | committed wv writes written =>
      obtain ⟨c, hwv, hstamp, hsealed, hnodup, hlog, hwritten⟩ := h
      refine ⟨c, hwv, ?_, ?_, hnodup, Store.mem_log_apply hlog, fun w hw => ?_⟩
      · rw [Store.stamp_apply_other hne, hstamp]
      · rw [Store.sealed_apply_other hne, hsealed]
      · obtain ⟨howner, hdirty⟩ := hwritten w hw
        exact ⟨(Store.owner_apply_other hen hne).mpr howner,
          (Store.dirty_apply_other hen hne howner).trans hdirty⟩
  | late => trivial

namespace WordsInv

variable {platform : Platform V} {s s' : State Tid V} {l : Label Tid V} {store : Store Tid Word V}

omit [DecidableEq Tid] in
theorem owner_none_of_unlocked (h : WordsInv s store) {w : Word}
    (hfree : vlLocked (s.tm.lock w) = false) : store.owner w = none := by
  rw [h.lock, vlLocked_lockWord] at hfree
  simpa using hfree

omit [DecidableEq Tid] in
theorem enabled (h : WordsInv s store) {thread' : Thread V} {event : Event V} {tid : Tid}
    (hmove : WordMove s.tm (s.thread tid) event thread') {action : StoreAction Word V}
    (haction : storeAction event = some action) : store.Enabled tid action := by
  have hagrees := h.stage tid
  cases hmove with
  | quiet hstore => simp [hstore] at haction
  | filled hevent | readied hevent => simp [hevent, storeAction] at haction
  | @locked w rv hevent hvalid hpass hheld hbefore =>
      obtain rfl : StoreAction.lock w = action := by simpa [hevent, storeAction] using haction
      rw [hbefore] at hagrees
      simp only [vlTryLockRefuses, Bool.or_eq_false_iff] at hpass
      exact ⟨h.owner_none_of_unlocked hpass.1, hagrees.1⟩
  | @unlocked w hevent hvalid hheld hbefore =>
      obtain rfl : StoreAction.unlock w = action := by simpa [hevent, storeAction] using haction
      refine ⟨(h.held w tid).mpr (by simp [hheld]), ?_⟩
      rcases hbefore with hbefore | ⟨wv, hbefore⟩ <;> rw [hbefore] at hagrees
      · exact hagrees.2
      · obtain ⟨c, -, -, hsealed⟩ := hagrees
        exact hsealed
  | drew hevent hwv hheld hbefore =>
      obtain rfl : StoreAction.draw = action := by simpa [hevent, storeAction] using haction
      rw [hbefore] at hagrees
      exact hagrees.2
  | @decided wv writes hevent hkeys hheld hbefore =>
      obtain rfl : StoreAction.commit (fun w => writes.lookup w) = action := by
        simpa [hevent, storeAction] using haction
      rw [hbefore] at hagrees
      obtain ⟨c, -, hstamp, hsealed⟩ := hagrees
      refine ⟨hsealed, ⟨c, hstamp⟩, fun w => ?_⟩
      rw [lookup_ne_none_iff, ← hkeys]
      exact (h.held w tid).symm
  | @put wv writes w x hevent hvalid howned hmem hheld hbefore =>
      obtain rfl : StoreAction.put w x = action := by simpa [hevent, storeAction] using haction
      rw [hbefore] at hagrees
      obtain ⟨c, -, hstamp, hsealed, hnodup, hlog, -⟩ := hagrees
      refine ⟨(h.held w tid).mpr howned, hsealed, fun commit hcommit hversion => ?_⟩
      obtain rfl : (⟨c, fun w => writes.lookup w⟩ : Commit Word V) = commit :=
        List.inj_on_of_nodup_map h.inv.log_nodup hlog hcommit (by simpa [hstamp] using hversion)
      exact lookup_eq_of_mem hnodup hmem
  | @released wv writes w hevent hvalid hheld hbefore =>
      obtain rfl : StoreAction.release w = action := by simpa [hevent, storeAction] using haction
      rw [hbefore] at hagrees
      obtain ⟨c, -, -, -, -, -, hwritten⟩ := hagrees
      exact hwritten w rfl
  | returned hevent hbefore =>
      obtain rfl : StoreAction.finish = action := by simpa [hevent, storeAction] using haction
      intro w howner
      have hmem := (h.held w tid).mp howner
      simp [hbefore] at hmem

/-- A step that acts on the store. The mover's part is checked case by case. -/
theorem of_action (h : WordsInv s store) {action : StoreAction Word V}
    (hen : store.Enabled l.tid action)
    (hother : ∀ tid, tid ≠ l.tid → s'.thread tid = s.thread tid)
    (hclock : s'.tm.globalVersion = (store.apply l.tid action).clock)
    (hbound : (store.apply l.tid action).clock < 2 ^ 30)
    (hlock : ∀ w, s'.tm.lock w = lockWord ((store.apply l.tid action).version w)
      ((store.apply l.tid action).owner w).isSome)
    (hdata : ∀ w, s'.tm.data w = (store.apply l.tid action).cell w)
    (hheld : ∀ w, (store.apply l.tid action).owner w = some l.tid ↔ w ∈ (s'.thread l.tid).held)
    (hnodup : (s'.thread l.tid).held.Nodup)
    (hstage : (s'.thread l.tid).stage.Agrees l.tid (store.apply l.tid action))
    (hunopened : ∀ w, s'.tm.Unopened w.seg → (store.apply l.tid action).owner w = none ∧
      (store.apply l.tid action).version w = 0 ∧ (store.apply l.tid action).cell w = 0) :
    WordsInv s' (store.apply l.tid action) := by
  refine ⟨h.inv.step hen, hclock, hbound, hlock, hdata, fun w tid => ?_, fun tid => ?_,
    fun tid => ?_, hunopened⟩
  all_goals by_cases heq : tid = l.tid
  · rw [heq]
    exact hheld w
  · rw [Store.owner_apply_other hen heq, hother tid heq]
    exact h.held w tid
  · rw [heq]
    exact hnodup
  · rw [hother tid heq]
    exact h.nodup tid
  · rw [heq]
    exact hstage
  · rw [hother tid heq]
    exact (h.stage tid).apply_other hen heq

theorem of_quiet (h : WordsInv s store)
    (hother : ∀ tid, tid ≠ l.tid → s'.thread tid = s.thread tid)
    (hclock : s'.tm.globalVersion = s.tm.globalVersion) (hlock : ∀ w, s'.tm.lock w = s.tm.lock w)
    (hdata : ∀ w, s'.tm.data w = s.tm.data w)
    (hheld : (s'.thread l.tid).held = (s.thread l.tid).held)
    (hstage : (s'.thread l.tid).stage = (s.thread l.tid).stage ∨ (s'.thread l.tid).stage = .late)
    (hunopened : ∀ g, s'.tm.Unopened g → s.tm.Unopened g) : WordsInv s' store := by
  have hsame := thread_keep hother hheld
  refine ⟨h.inv, hclock.trans h.clock, h.bound, fun w => (hlock w).trans (h.lock w),
    fun w => (hdata w).trans (h.data w), fun w tid => ?_, fun tid => ?_, fun tid => ?_,
    fun w hw => h.unopened w (hunopened w.seg hw)⟩
  · rw [hsame]
    exact h.held w tid
  · rw [hsame]
    exact h.nodup tid
  · by_cases heq : tid = l.tid
    · subst heq
      rcases hstage with hstage | hstage <;> rw [hstage]
      · exact h.stage _
      · trivial
    · rw [hother tid heq]
      exact h.stage tid

theorem init (h : (system Tid platform).init s) : WordsInv s (Store.start fun _ => 0) := by
  obtain ⟨hidle, choice, size, align, -, -, -, -, hcreate⟩ := h
  obtain ⟨-, -, htm⟩ := tmCreate_eq hcreate
  refine ⟨Store.inv_start _, ?_, by simp [Store.start], fun w => ?_, fun w => ?_, fun w tid => ?_,
    fun tid => ?_, fun tid => ?_, fun w _ => ⟨rfl, rfl, rfl⟩⟩
  · simp [htm, Tm.created, Tm.bare, Store.start]
  · simp [htm, Tm.created, Tm.bare, Store.start, vlInit, lockWord]
  · simp [htm, Tm.created, Tm.bare, Store.start]
  · simp [Store.start, hidle tid, Thread.held]
  · simp [hidle tid, Thread.held]
  · simp [hidle tid, Thread.stage, Stage.Agrees, Store.start]

/-! ### One lemma for each move -/

section Moves

variable (h : WordsInv s store) (htm : s'.tm = s.tm.after l.event)
  (hother : ∀ tid, tid ≠ l.tid → s'.thread tid = s.thread tid)
  (hunopened : ∀ g, s'.tm.Unopened g → s.tm.Unopened g)
include h htm hother hunopened

theorem of_filled {g : SegId} {numWords : Int} (hevent : l.event = .op (.fillSegment g numWords))
    (hfresh : s.tm.Unopened g) (hheld : (s'.thread l.tid).held = (s.thread l.tid).held)
    (hstage : (s'.thread l.tid).stage = (s.thread l.tid).stage) :
    WordsInv s' (recordStore s l store) := by
  simp only [recordStore, hevent, storeAction, Option.elim_none]
  rw [hevent] at htm
  refine h.of_quiet hother (by rw [htm]; rfl) (fun w => by rw [htm]; rfl) (fun w => ?_) hheld
    (Or.inl hstage) hunopened
  by_cases heq : w.seg = g
  · have hzero := (h.unopened w (heq ▸ hfresh)).2.2
    simp [htm, Tm.after, Tm.apply, heq, h.data w, hzero]
  · simp [htm, Tm.after, Tm.apply, Tm.setSegment, heq]

theorem of_readied {g : SegId} {size : Nat} (hevent : l.event = .op (.readySegment g size))
    (hfresh : s.tm.Unopened g) (hheld : (s'.thread l.tid).held = (s.thread l.tid).held)
    (hstage : (s'.thread l.tid).stage = (s.thread l.tid).stage ∨ (s'.thread l.tid).stage = .late) :
    WordsInv s' (recordStore s l store) := by
  simp only [recordStore, hevent, storeAction, Option.elim_none]
  rw [hevent] at htm
  refine h.of_quiet hother (by rw [htm]; rfl) (fun w => ?_) (fun w => by rw [htm]; rfl) hheld
    hstage hunopened
  by_cases heq : w.seg = g
  · obtain ⟨hfree, hzero, -⟩ := h.unopened w (heq ▸ hfresh)
    simp [htm, Tm.after, Tm.apply, heq, h.lock w, hfree, hzero, lockWord, vlInit]
  · simp [htm, Tm.after, Tm.apply, Tm.setSegment, heq]

theorem of_locked {w : Word} (hevent : l.event = .op (.casLock w (s.tm.lock w) true))
    (hen : store.Enabled l.tid (.lock w)) (hopened : ¬ s.tm.Unopened w.seg)
    (hheld : (s'.thread l.tid).held = (s.thread l.tid).held ++ [w])
    (hbefore : (s.thread l.tid).stage = .early) (hafter : (s'.thread l.tid).stage = .early) :
    WordsInv s' (recordStore s l store) := by
  have hagrees := h.stage l.tid
  have hfree := hen.1
  rw [hbefore] at hagrees
  simp only [recordStore, hevent, storeAction, Option.elim_some]
  rw [hevent] at htm
  refine h.of_action hen hother ?_ h.bound (fun w' => ?_) (fun w' => ?_) (fun w' => ?_) ?_
    (by rw [hafter]; exact hagrees) fun w' hw' => ?_
  · rw [htm]
    exact h.clock
  · by_cases heq : w' = w
    · subst heq
      simp [htm, Tm.after, Tm.apply, Store.apply, h.lock, hfree]
    · simp [htm, Tm.after, Tm.apply, Store.apply, heq, h.lock]
  · rw [htm]
    exact h.data w'
  · by_cases heq : w' = w
    · simp [Store.apply, hheld, heq]
    · simpa [Store.apply, hheld, heq] using h.held w' l.tid
  · rw [hheld, List.nodup_append]
    refine ⟨h.nodup l.tid, by simp, fun w' hw' w'' hw'' heq => ?_⟩
    have howner := (h.held w' l.tid).mpr hw'
    rw [heq, List.mem_singleton.mp hw'', hfree] at howner
    cases howner
  · have hne : w' ≠ w := fun heq => hopened (heq ▸ hunopened _ hw')
    simpa [Store.apply, hne] using h.unopened w' (hunopened _ hw')

theorem of_unlocked {w : Word} (hevent : l.event = .op (.fetchSubLock w))
    (hen : store.Enabled l.tid (.unlock w)) (hopened : ¬ s.tm.Unopened w.seg)
    (hheld : (s.thread l.tid).held = w :: (s'.thread l.tid).held)
    (hbefore : (s.thread l.tid).stage = .early ∨ ∃ wv, (s.thread l.tid).stage = .drawn wv)
    (hafter : (s'.thread l.tid).stage = (s.thread l.tid).stage) :
    WordsInv s' (recordStore s l store) := by
  have hagrees := h.stage l.tid
  have hnodup := h.nodup l.tid
  have howned := hen.1
  rw [hheld, List.nodup_cons] at hnodup
  simp only [recordStore, hevent, storeAction, Option.elim_some]
  rw [hevent] at htm
  refine h.of_action hen hother ?_ h.bound (fun w' => ?_) (fun w' => ?_) (fun w' => ?_) hnodup.2 ?_
    fun w' hw' => ?_
  · rw [htm]
    exact h.clock
  · by_cases heq : w' = w
    · subst heq
      have hlt : store.version w' < 2 ^ 30 := (h.inv.version_le w').trans_lt h.bound
      simp [htm, Tm.after, Tm.apply, Store.apply, h.lock, howned, vlUnlock_lockWord hlt]
    · simp [htm, Tm.after, Tm.apply, Store.apply, heq, h.lock]
  · rw [htm]
    exact h.data w'
  · by_cases heq : w' = w
    · simp [Store.apply, heq, hnodup.1]
    · simpa [Store.apply, heq, hheld] using h.held w' l.tid
  · rw [hafter]
    rcases hbefore with hbefore | ⟨wv, hbefore⟩ <;> rw [hbefore] at hagrees ⊢ <;> exact hagrees
  · have hne : w' ≠ w := fun heq => hopened (heq ▸ hunopened _ hw')
    simpa [Store.apply, hne] using h.unopened w' (hunopened _ hw')

theorem of_drew {wv : Int} (hevent : l.event = .op (.fetchAddClock s.tm.globalVersion))
    (hbounded : VersionsBounded s l) (hen : store.Enabled l.tid .draw)
    (hwv : checkedInt (s.tm.globalVersion + 1) = some wv)
    (hheld : (s'.thread l.tid).held = (s.thread l.tid).held)
    (hbefore : (s.thread l.tid).stage = .early) (hafter : (s'.thread l.tid).stage = .drawn wv) :
    WordsInv s' (recordStore s l store) := by
  have hagrees := h.stage l.tid
  have hbound := hbounded s.tm.globalVersion hevent
  rw [h.clock] at hbound
  obtain rfl : (store.clock : Int) + 1 = wv := by
    rw [h.clock, checkedInt] at hwv
    split at hwv
    · exact Option.some.inj hwv
    · cases hwv
  rw [hbefore] at hagrees
  simp only [recordStore, hevent, storeAction, Option.elim_some]
  rw [hevent] at htm
  refine h.of_action hen hother ?_ ?_ (fun w => ?_) (fun w => ?_) (fun w => ?_)
    (by rw [hheld]; exact h.nodup l.tid) ?_ fun w hw => h.unopened w (hunopened _ hw)
  · simp only [htm, Tm.after, Tm.apply, Store.apply, h.clock]
    rw [toInt_eq_self (by omega) (by omega)]
    rfl
  · simp only [Store.apply]
    omega
  · rw [htm]
    exact h.lock w
  · rw [htm]
    exact h.data w
  · rw [hheld]
    exact h.held w l.tid
  · rw [hafter]
    exact ⟨store.clock + 1, by simp, by simp [Store.apply], hagrees.2⟩

theorem of_decided {wv : Int} {writes : List (Word × V)}
    (hevent : l.event = .op (.commit wv writes))
    (hen : store.Enabled l.tid (.commit fun w => writes.lookup w))
    (hkeys : (s.thread l.tid).held = writes.map Prod.fst)
    (hheld : (s'.thread l.tid).held = (s.thread l.tid).held)
    (hbefore : (s.thread l.tid).stage = .drawn wv)
    (hafter : (s'.thread l.tid).stage = .committed wv writes none) :
    WordsInv s' (recordStore s l store) := by
  have hagrees := h.stage l.tid
  have hnodup := h.nodup l.tid
  rw [hbefore] at hagrees
  obtain ⟨c, hwv, hstamp, -⟩ := hagrees
  simp only [recordStore, hevent, storeAction, Option.elim_some]
  rw [hevent] at htm
  refine h.of_action hen hother (by rw [htm]; exact h.clock) h.bound
    (fun w => by rw [htm]; exact h.lock w) (fun w => by rw [htm]; exact h.data w)
    (fun w => by rw [hheld]; exact h.held w l.tid) (by rw [hheld]; exact hnodup) ?_
    fun w hw => h.unopened w (hunopened _ hw)
  rw [hafter]
  exact ⟨c, hwv, hstamp, by simp [Store.apply], hkeys ▸ hnodup, by simp [Store.apply, hstamp],
    by simp⟩

theorem of_put {wv : Int} {writes : List (Word × V)} {w : Word} {x : V}
    (hevent : l.event = .op (.copyIn w x)) (hen : store.Enabled l.tid (.put w x))
    (hopened : ¬ s.tm.Unopened w.seg) (howned : w ∈ (s.thread l.tid).held)
    (hheld : (s'.thread l.tid).held = (s.thread l.tid).held)
    (hbefore : (s.thread l.tid).stage = .committed wv writes none)
    (hafter : (s'.thread l.tid).stage = .committed wv writes (some w)) :
    WordsInv s' (recordStore s l store) := by
  have hagrees := h.stage l.tid
  rw [hbefore] at hagrees
  obtain ⟨c, hwv, hstamp, hsealed, hkeys, hlog, -⟩ := hagrees
  simp only [recordStore, hevent, storeAction, Option.elim_some]
  rw [hevent] at htm
  refine h.of_action hen hother (by rw [htm]; exact h.clock) h.bound
    (fun w' => by rw [htm]; exact h.lock w') (fun w' => ?_)
    (fun w' => by rw [hheld]; exact h.held w' l.tid) (by rw [hheld]; exact h.nodup l.tid) ?_
    fun w' hw' => ?_
  · by_cases heq : w' = w
    · simp [htm, Tm.after, Tm.apply, Store.apply, heq]
    · simp [htm, Tm.after, Tm.apply, Store.apply, heq, h.data]
  · rw [hafter]
    refine ⟨c, hwv, hstamp, hsealed, hkeys, hlog, fun w' hw' => ?_⟩
    obtain rfl := Option.some.inj hw'
    exact ⟨(h.held w l.tid).mpr howned, by simp [Store.apply]⟩
  · have hne : w' ≠ w := fun heq => hopened (heq ▸ hunopened _ hw')
    simpa [Store.apply, hne] using h.unopened w' (hunopened _ hw')

theorem of_released {wv : Int} {writes : List (Word × V)} {w : Word}
    (hevent : l.event = .op (.storeLock w (vlUnlockUpdate wv)))
    (hen : store.Enabled l.tid (.release w)) (hopened : ¬ s.tm.Unopened w.seg)
    (hheld : (s.thread l.tid).held = w :: (s'.thread l.tid).held)
    (hbefore : (s.thread l.tid).stage = .committed wv writes (some w))
    (hafter : (s'.thread l.tid).stage = .committed wv writes none) :
    WordsInv s' (recordStore s l store) := by
  have hagrees := h.stage l.tid
  have hnodup := h.nodup l.tid
  rw [hbefore] at hagrees
  obtain ⟨c, rfl, hstamp, hsealed, hkeys, hlog, -⟩ := hagrees
  have hlt : c < 2 ^ 30 := (h.inv.stamp_le l.tid c hstamp).trans_lt h.bound
  rw [hheld, List.nodup_cons] at hnodup
  simp only [recordStore, hevent, storeAction, Option.elim_some]
  rw [hevent] at htm
  refine h.of_action hen hother (by rw [htm]; exact h.clock) h.bound (fun w' => ?_)
    (fun w' => by rw [htm]; exact h.data w') (fun w' => ?_) hnodup.2 ?_ fun w' hw' => ?_
  · by_cases heq : w' = w
    · simp [htm, Tm.after, Tm.apply, Store.apply, heq, hstamp, vlUnlockUpdate_eq hlt]
    · simp [htm, Tm.after, Tm.apply, Store.apply, heq, h.lock]
  · by_cases heq : w' = w
    · simp [Store.apply, heq, hnodup.1]
    · simpa [Store.apply, heq, hheld] using h.held w' l.tid
  · rw [hafter]
    exact ⟨c, rfl, hstamp, hsealed, hkeys, hlog, by simp⟩
  · have hne : w' ≠ w := fun heq => hopened (heq ▸ hunopened _ hw')
    simpa [Store.apply, hne] using h.unopened w' (hunopened _ hw')

theorem of_returned {r : Ret V} (hevent : l.event = .ret r) (hen : store.Enabled l.tid .finish)
    (hbefore : (s.thread l.tid).held = []) (hheld : (s'.thread l.tid).held = [])
    (hafter : (s'.thread l.tid).stage = .early) : WordsInv s' (recordStore s l store) := by
  simp only [recordStore, hevent, storeAction, Option.elim_some]
  rw [hevent] at htm
  refine h.of_action hen hother (by rw [htm]; exact h.clock) h.bound
    (fun w => by rw [htm]; exact h.lock w) (fun w => by rw [htm]; exact h.data w)
    (fun w => ?_) (by rw [hheld]; exact List.nodup_nil) ?_
    fun w hw => h.unopened w (hunopened _ hw)
  · rw [hheld, ← hbefore]
    exact h.held w l.tid
  · rw [hafter]
    exact ⟨by simp [Store.apply], by simp [Store.apply]⟩

end Moves

/-- **One step.** The relation between region and store is kept by every step. -/
theorem step (hsegs : SegmentsInv s) (hwf : (s.thread l.tid).Wf) (h : WordsInv s store)
    (hbounded : VersionsBounded s l) (hstep : (system Tid platform).step s l s') :
    WordsInv s' (recordStore s l store) := by
  obtain ⟨hthread, htm, hother⟩ := system_step_move hstep
  have hmove := hthread.wordMove hwf
  have hunopened : ∀ g, s'.tm.Unopened g → s.tm.Unopened g :=
    fun g => hsegs.unopened_of_step hstep
  have hen : ∀ {action}, storeAction l.event = some action → store.Enabled l.tid action :=
    h.enabled hmove
  cases hmove with
  | quiet hstore hlock hdata hclock hheld hstage =>
      simp only [recordStore, hstore, Option.elim_none]
      exact h.of_quiet hother (htm ▸ hclock) (fun w => by rw [htm, hlock])
        (fun w => by rw [htm, hdata]) hheld hstage hunopened
  | filled hevent hbuilding hheld hstage =>
      exact h.of_filled htm hother hunopened hevent (hsegs.unopened_of_building hbuilding) hheld
        hstage
  | readied hevent hbuilding hheld hstage =>
      exact h.of_readied htm hother hunopened hevent (hsegs.unopened_of_building hbuilding) hheld
        hstage
  | locked hevent hvalid hpass hheld hbefore hafter =>
      exact h.of_locked htm hother hunopened hevent (hen (by rw [hevent]; rfl))
        (hsegs.not_unopened_of_valid hvalid) hheld hbefore hafter
  | unlocked hevent hvalid hheld hbefore hafter =>
      exact h.of_unlocked htm hother hunopened hevent (hen (by rw [hevent]; rfl))
        (hsegs.not_unopened_of_valid hvalid) hheld hbefore hafter
  | drew hevent hwv hheld hbefore hafter =>
      exact h.of_drew htm hother hunopened hevent hbounded (hen (by rw [hevent]; rfl)) hwv hheld
        hbefore hafter
  | decided hevent hkeys hheld hbefore hafter =>
      exact h.of_decided htm hother hunopened hevent (hen (by rw [hevent]; rfl)) hkeys hheld hbefore
        hafter
  | put hevent hvalid howned hmem hheld hbefore hafter =>
      exact h.of_put htm hother hunopened hevent (hen (by rw [hevent]; rfl))
        (hsegs.not_unopened_of_valid hvalid) howned hheld hbefore hafter
  | released hevent hvalid hheld hbefore hafter =>
      exact h.of_released htm hother hunopened hevent (hen (by rw [hevent]; rfl))
        (hsegs.not_unopened_of_valid hvalid) hheld hbefore hafter
  | returned hevent hbefore hheld hafter =>
      exact h.of_returned htm hother hunopened hevent (hen (by rw [hevent]; rfl)) hbefore hheld
        hafter

omit [DecidableEq Tid] in
/-- A version that `vl_read_version` returns is that of a free lock. -/
theorem readVersion_eq (h : WordsInv s store) {w : Word}
    (hfree : vlReadVersion (s.tm.lock w) ≠ -1) :
    store.owner w = none ∧ vlReadVersion (s.tm.lock w) = store.version w := by
  rw [h.lock, vlReadVersion_lockWord] at hfree ⊢
  cases howner : store.owner w with
  | none => exact ⟨rfl, by simp⟩
  | some tid => simp [howner] at hfree

omit [DecidableEq Tid] in
/-- A copy whose word is found at the copied version again shows at every later version drawn. -/
theorem confirm (h : WordsInv s store) {w : Word} {v bound : Nat} {x : V}
    (hcopied : store.Copied w v x) (hread : vlReadVersion (s.tm.lock w) = v) (hle : v ≤ bound)
    (hclock : bound ≤ store.clock) : store.Shows (fun _ => 0) bound w x := by
  obtain ⟨howner, hversion⟩ := h.readVersion_eq (by omega : vlReadVersion (s.tm.lock w) ≠ -1)
  exact hcopied.confirm h.inv (by omega) (by simp [howner]) hle hclock

end WordsInv

section Reachable

variable {platform : Platform V}

theorem threadWf {s : State Tid V} (h : (system Tid platform).Reachable s) :
    ∀ tid, (s.thread tid).Wf :=
  thread_invariant ⟨by simp [Thread.tx], by simp [Thread.tx], by simp, by simp⟩
    (fun _ _ _ _ _ hmove hwf => hmove.wf hwf) h

theorem threadMode {s : State Tid V} (h : (system Tid platform).Reachable s) :
    ∀ tid, (s.thread tid).Mode :=
  thread_invariant trivial (fun _ _ _ _ _ hmove hmode => hmove.mode hmode) h

variable {ok : State Tid V → Label Tid V → Prop} {p : State Tid V × Store Tid Word V}

/-- **The region is a versioned store.** -/
theorem wordsInv (hok : ∀ s l, ok s l → VersionsBounded s l)
    (h : (((system Tid platform).restrict ok).observe
      (Store.start fun _ => 0) recordStore).Reachable p) : WordsInv p.1 p.2 := by
  refine h.invariant (P := fun p => WordsInv p.1 p.2) (fun p hp => ?_)
    fun p l p' hreach ih hstep => ?_
  · rw [hp.2]
    exact WordsInv.init (show (system Tid platform).init p.1 from hp.1)
  · have hsys := hreach.of_observe.of_restrict
    rw [hstep.2]
    exact ih.step (segmentsInv hsys) (threadWf hsys l.tid) (hok _ _ hstep.1.1) hstep.1.2

end Reachable

end TransactionalMemory
