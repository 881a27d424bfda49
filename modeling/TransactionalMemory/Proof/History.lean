import TransactionalMemory.Proof.Holds
import TransactionalMemory.Proof.Words

/-!
# Histories

A recorder that sees calls, operations and answers and keeps, for each transaction, the accesses its
client has seen: which word of which range was asked for, and what value came back. It also keeps
the commits in the order in which they passed their point of no return.
-/

namespace TransactionalMemory

open Concurrency

variable {V : Type}

/-- One access as the client sees it. A read says whether it was answered from the write set. -/
inductive Entry (V : Type) where
  | read (w : Word) (x : V) (own : Bool)
  | write (w : Word) (x : V)
deriving DecidableEq

theorem zip_getElem? {words : List Word} {values : List V} {i : Nat} {w : Word} {x : V}
    (hw : words[i]? = some w) (hx : values[i]? = some x) :
    (words.zip values)[i]? = some (w, x) := by
  simp [List.getElem?_zip_eq_some, hw, hx]

namespace Entry

def access : Entry V → Access Word V
  | .read w x _ => .read w x
  | .write w x => .write w x

def reads (words : List Word) (target : List V) (own : List Bool) : List (Entry V) :=
  (words.zip (target.zip own)).map fun e => .read e.1 e.2.1 e.2.2

def writes (words : List Word) (values : List V) : List (Entry V) :=
  (words.zip values).map fun e => .write e.1 e.2

end Entry

structure TxLog (V : Type) where
  isRo : Bool
  /-- The clock value that `tm_begin` sampled. -/
  sampled : Nat
  /-- The accesses of the calls that returned true, in program order. -/
  entries : List (Entry V)
  /-- The words that the call in progress is about. -/
  words : List Word
  /-- The values that a `tm_write` in progress is to write there. -/
  values : List V
  /-- For each word that a `tm_read` in progress has copied, whether it came from the write set. -/
  own : List Bool
  /-- The write version, from the point of no return on. -/
  version : Option Nat
  /-- The write versions of the transactions whose `tm_end` had returned true at the call of
  `tm_begin`. -/
  before : List Nat

namespace TxLog

def start (isRo : Bool) (before : List Nat) : TxLog V where
  isRo := isRo
  sampled := 0
  entries := []
  words := []
  values := []
  own := []
  version := none
  before := before

def answered (log : TxLog V) : Ret V → List (Entry V)
  | .read (some target) => Entry.reads log.words target log.own
  | .write true => Entry.writes log.words log.values
  | _ => []

def accesses (log : TxLog V) : List (Access Word V) := log.entries.map Entry.access

end TxLog

/-- The words of a range of the region, none where the contract excludes the range. -/
def Tm.named (tm : Tm V) (addr : Addr) (size : Nat) : List Word :=
  (tm.range addr size).elim [] fun g => tm.wordsOf g addr size

def TxLog.next (tm : Tm V) (thread : Thread V) (before : List Nat) (event : Event V)
    (log : TxLog V) : TxLog V :=
  match event with
  | .call (.begin isRo) => TxLog.start isRo before
  | .call (.read source size) => { log with words := tm.named source size, own := [] }
  | .call (.write source size target) =>
      { log with words := tm.named target size, values := source }
  | .op (.loadClock value) =>
      match thread with
      | .beginning _ _ => { log with sampled := value.toNat }
      | _ => log
  | .op (.ownWord _) => { log with own := log.own ++ [true] }
  | .op (.copyOut _ _) => { log with own := log.own ++ [false] }
  | .op (.commit version _) => { log with version := some version.toNat }
  | .ret r => { log with entries := log.entries ++ log.answered r }
  | _ => log

structure History (Tid V : Type) where
  /-- The log of the transaction that the thread has open, or had open last. -/
  current : Tid → TxLog V
  /-- The logs of all transactions that have ended, committed or not. -/
  past : List (TxLog V)
  /-- The commits, in the order of their points of no return. -/
  log : List (Commit Word V)
  /-- The logs of their transactions. -/
  decided : List (TxLog V)
  /-- The logs of the transactions whose `tm_end` returned true. -/
  returned : List (TxLog V)

def History.start (Tid V : Type) : History Tid V where
  current _ := TxLog.start false []
  past := []
  log := []
  decided := []
  returned := []

variable {Tid : Type} [DecidableEq Tid]

def recordHistory (s : State Tid V) (l : Label Tid V) (h : History Tid V) : History Tid V where
  current := Function.update h.current l.tid
    ((h.current l.tid).next s.tm (s.thread l.tid) (h.returned.filterMap TxLog.version) l.event)
  past :=
    match l.event with
    | .ret r => if r.continues then h.past else h.past ++ [h.current l.tid]
    | _ => h.past
  log :=
    match l.event with
    | .op (.commit version writes) => h.log ++ [⟨version.toNat, fun w => writes.lookup w⟩]
    | _ => h.log
  decided :=
    match l.event with
    | .op (.commit version _) =>
        h.decided ++ [{ h.current l.tid with version := some version.toNat }]
    | _ => h.decided
  returned :=
    match l.event with
    | .ret (.finish true) => h.returned ++ [h.current l.tid]
    | _ => h.returned

def historyMachine [Zero V] (Tid : Type) [DecidableEq Tid] (platform : Platform V)
    (ok : State Tid V → Label Tid V → Prop) :
    Machine (State Tid V × History Tid V) (Label Tid V) :=
  ((system Tid platform).restrict ok).observe (History.start Tid V) recordHistory

/-! ### The store beside a history -/

variable [Zero V]

def History.contentAt (h : History Tid V) (bound : Nat) : Word → V :=
  Commit.contentAt (fun _ => 0) h.log bound

omit [DecidableEq Tid] in
theorem Store.contentAt_of_log {store : Store Tid Word V} {h : History Tid V}
    (hlog : store.log = h.log) (bound : Nat) :
    store.contentAt (fun _ => 0) bound = h.contentAt bound := by
  rw [Store.contentAt, History.contentAt, hlog]

namespace WordsInv

variable {platform : Platform V} {s s' : State Tid V} {l : Label Tid V} {store : Store Tid Word V}

/-- What readers know is kept by every step. -/
theorem later (h : WordsInv s store) (hwf : (s.thread l.tid).Wf)
    (hstep : (system Tid platform).step s l s') :
    Store.Later (fun _ => 0) store (recordStore s l store) := by
  obtain ⟨hthread, -, -⟩ := system_step_move hstep
  unfold recordStore
  cases haction : storeAction l.event with
  | none => exact Store.Later.refl _ _
  | some action => exact h.inv.later_apply (h.enabled (hthread.wordMove hwf) haction)

/-- The recorded commits are those of the store. -/
theorem log_step {hist : History Tid V} (h : WordsInv s store) (hwf : (s.thread l.tid).Wf)
    (hlog : store.log = hist.log) (hstep : (system Tid platform).step s l s') :
    (recordStore s l store).log = (recordHistory s l hist).log := by
  obtain ⟨hthread, -, -⟩ := system_step_move hstep
  cases hevent : l.event with
  | op o =>
      cases o with
      | commit version writes =>
          have hmove := hthread.wordMove hwf
          have hagrees := h.stage l.tid
          simp only [recordStore, recordHistory, hevent, storeAction, Option.elim_some, Store.apply,
            hlog]
          cases hmove with
          | @decided wv writes' hevent' hkeys hheld hbefore =>
              rw [hevent] at hevent'
              obtain ⟨rfl, rfl⟩ : version = wv ∧ writes = writes' := by simpa using hevent'
              rw [hbefore] at hagrees
              obtain ⟨c, rfl, hstamp, -⟩ := hagrees
              simp [hstamp]
          | quiet hstore => simp [hevent, storeAction] at hstore
          | filled hevent' | readied hevent' | locked hevent' | unlocked hevent' | drew hevent'
            | put hevent' | released hevent' | returned hevent' =>
              simp [hevent] at hevent'
      | casLock w expected success =>
          cases success <;>
            simp [recordStore, recordHistory, hevent, storeAction, Store.apply, hlog]
      | _ => simp [recordStore, recordHistory, hevent, storeAction, Store.apply, hlog]
  | _ => simp [recordStore, recordHistory, hevent, storeAction, Store.apply, hlog]

end WordsInv

/-! ### Logs and their threads -/

section Follows

variable {platform : Platform V} {s s' : State Tid V} {l : Label Tid V}
  {store store' : Store Tid Word V} {log log' : TxLog V} {thread : Thread V} {hist : History Tid V}

structure TxLog.Follows (store : Store Tid Word V) (thread : Thread V) (log : TxLog V) : Prop where
  fresh : ∀ isRo pc, thread = .beginning isRo pc → log.isRo = isRo ∧ log.entries = []
  mode : ∀ t, thread.tx = some t → t.isRo = log.isRo
  sampled : ∀ t, thread.tx = some t → t.isRo = false → t.rv = log.sampled
  sampled_le : log.sampled ≤ store.clock

omit [Zero V] in
theorem TxLog.answered_of_not_continues {r : Ret V} (h : r.continues = false) :
    log.answered r = [] := by
  cases r with
  | read target =>
      cases target with
      | none => rfl
      | some target => cases h
  | write ok =>
      cases ok with
      | false => rfl
      | true => cases h
  | _ => rfl

omit [DecidableEq Tid] in
theorem TxLog.Follows.later (h : log.Follows store thread)
    (hlater : Store.Later (fun _ => 0) store store') : log.Follows store' thread :=
  ⟨h.fresh, h.mode, h.sampled, h.sampled_le.trans hlater.clock_le⟩

omit [Zero V] [DecidableEq Tid] in
/-- A move that the log's mode and sample do not feel. -/
theorem TxLog.Follows.keep {tm : Tm V} {choice : Choice V} {thread thread' : Thread V}
    {event : Event V} (h : log.Follows store thread) (log' : TxLog V) (hmode : thread.Mode)
    (hmove : ThreadMove platform tm choice thread event thread')
    (hbefore : ∀ isRo, thread ≠ .beginning isRo .body)
    (hafter : ∀ isRo pc, thread' ≠ .beginning isRo pc) (hro : log'.isRo = log.isRo)
    (hsampled : log'.sampled = log.sampled) : log'.Follows store thread' := by
  have htx : ∀ t', thread'.tx = some t' → ∃ t, thread.tx = some t ∧ t'.isRo = t.isRo ∧
      (t.isRo = false → t'.rv = t.rv) := by
    intro t' ht'
    rcases hmove.rv hmode ht' with hkept | ⟨isRo, -, hbegin, -⟩
    · exact hkept
    · exact absurd hbegin (hbefore isRo)
  refine ⟨fun isRo pc heq => absurd heq (hafter isRo pc), fun t' ht' => ?_, fun t' ht' hrw => ?_,
    hsampled ▸ h.sampled_le⟩
  · obtain ⟨t, ht, hmode', -⟩ := htx t' ht'
    rw [hmode', hro]
    exact h.mode t ht
  · obtain ⟨t, ht, hmode', hrv⟩ := htx t' ht'
    rw [hmode'] at hrw
    rw [hrv hrw, hsampled]
    exact h.sampled t ht hrw

omit [DecidableEq Tid] in
theorem TxLog.Follows.mover (hw : WordsInv s store) (hmode : (s.thread l.tid).Mode)
    (hmove : ThreadMove platform s.tm l.choice (s.thread l.tid) l.event (s'.thread l.tid))
    (before : List Nat) (h : log.Follows store (s.thread l.tid)) :
    (log.next s.tm (s.thread l.tid) before l.event).Follows store (s'.thread l.tid) := by
  generalize s.thread l.tid = thread, l.event = event, s'.thread l.tid = thread' at *
  have hkeep := fun log' : TxLog V => h.keep log' hmode hmove
  cases hmove with
  | start =>
      exact ⟨by simp [TxLog.next, TxLog.start], by simp [Thread.tx], by simp [Thread.tx],
        Nat.zero_le _⟩
  | @begin isRo pc event thread' hbegin =>
      have hfresh := h.fresh isRo pc rfl
      have hclock : s.tm.globalVersion.toNat = store.clock := by rw [hw.clock, Int.toNat_natCast]
      cases hbegin with
      | rdlock =>
          refine ⟨?_, by simp [Thread.tx], by simp [Thread.tx], h.sampled_le⟩
          rintro isRo' pc' heq
          obtain ⟨rfl, -⟩ := Thread.beginning.inj heq
          exact hfresh
      | noStruct => exact ⟨by simp, by simp [Thread.tx], by simp [Thread.tx], h.sampled_le⟩
      | noSets => exact ⟨by simp, by simp [Thread.tx], by simp [Thread.tx], hclock.le⟩
      | started =>
          refine ⟨by simp, fun t ht => ?_, fun t ht hrw => ?_, hclock.le⟩
          · obtain rfl := Option.some.inj ht
            exact hfresh.1.symm
          · obtain rfl := Option.some.inj ht
            simp [TxLog.next, Tx.start, hw.clock]
  | call hmove | read hmove | roRead hmove | write hmove | alloc hmove | free hmove
    | finish hmove => cases hmove <;> exact hkeep _ (by simp) (by simp) rfl rfl
  | cleanup | retIdle | retLive => exact hkeep _ (by simp) (by simp) rfl rfl

def LogsInv (s : State Tid V) (store : Store Tid Word V) (hist : History Tid V) : Prop :=
  ∀ tid, (hist.current tid).Follows store (s.thread tid)

theorem LogsInv.init (h : (system Tid platform).init s) :
    LogsInv s (Store.start fun _ => 0) (History.start Tid V) := by
  intro tid
  rw [h.1 tid]
  exact ⟨by simp, by simp [Thread.tx], by simp [Thread.tx], Nat.zero_le _⟩

theorem LogsInv.step (hreach : (system Tid platform).Reachable s) (hw : WordsInv s store)
    (hstep : (system Tid platform).step s l s') (h : LogsInv s store hist) :
    LogsInv s' (recordStore s l store) (recordHistory s l hist) := by
  have hlater := hw.later (threadWf hreach l.tid) hstep
  obtain ⟨hmove, -, hother⟩ := system_step_move hstep
  intro tid
  by_cases heq : tid = l.tid
  · subst heq
    have hmover := (h l.tid).mover hw (threadMode hreach l.tid) hmove
      (hist.returned.filterMap TxLog.version)
    simpa [recordHistory] using hmover.later hlater
  · rw [hother tid heq]
    simpa [recordHistory, heq] using (h tid).later hlater

omit [Zero V] in
/-- A log joins the past as it is. -/
theorem mem_past_recordHistory {log : TxLog V} (h : log ∈ (recordHistory s l hist).past) :
    log ∈ hist.past ∨ log = hist.current l.tid := by
  simp only [recordHistory] at h
  split at h
  · split at h
    · exact Or.inl h
    · simpa using h
  · exact Or.inl h

end Follows

/-- **The rule for histories.** What holds of region, store and history at the start and is kept by
every step holds in every reachable state. -/
theorem history_invariant {platform : Platform V} {ok : State Tid V → Label Tid V → Prop}
    {Q : State Tid V → Store Tid Word V → History Tid V → Prop} {p : State Tid V × History Tid V}
    (hok : ∀ s l, ok s l → VersionsBounded s l)
    (hinit : ∀ s, (system Tid platform).init s → Q s (Store.start fun _ => 0) (History.start Tid V))
    (hstep : ∀ s l s' store hist, ((system Tid platform).restrict ok).Reachable s → ok s l →
      (system Tid platform).step s l s' → WordsInv s store → store.log = hist.log →
      Q s store hist → Q s' (recordStore s l store) (recordHistory s l hist))
    (h : (historyMachine Tid platform ok).Reachable p) :
    ∃ store, WordsInv p.1 store ∧ store.log = p.2.log ∧ Q p.1 store p.2 := by
  refine h.invariant (P := fun p => ∃ store, WordsInv p.1 store ∧ store.log = p.2.log ∧
    Q p.1 store p.2) (fun p hp => ?_) fun p l p' hreach ih hs => ?_
  · rw [hp.2]
    exact ⟨_, WordsInv.init (show (system Tid platform).init p.1 from hp.1), rfl, hinit p.1 hp.1⟩
  · obtain ⟨store, hwords, hlog, hq⟩ := ih
    obtain ⟨⟨hokl, hsys⟩, hhist⟩ := hs
    have hreach' : ((system Tid platform).restrict ok).Reachable p.1 := hreach.of_observe
    have hsystem := hreach'.of_restrict
    rw [hhist]
    exact ⟨_, hwords.step (segmentsInv hsystem) (threadWf hsystem l.tid) (hok _ _ hokl) hsys,
      hwords.log_step (threadWf hsystem l.tid) hlog hsys,
      hstep _ _ _ _ _ hreach' hokl hsys hwords hlog hq⟩

end TransactionalMemory
