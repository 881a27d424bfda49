import TransactionalMemory.Proof.LockWords
import TransactionalMemory.Proof.Schedules

/-!
# Versions

A recorder keeps the versions that `tm_end` draws from the clock and, for each word, the version and
the value of its last `vl_unlock_update`. Below `2 ^ 30` the lock word says exactly that, and
versions grow in the order in which they were handed out. At `2 ^ 30` the version no longer fits
beside the lock bit.
-/

namespace TransactionalMemory

open Concurrency

variable {V Tid : Type}

structure VersionRecord (V : Type) where
  /-- The versions handed out, in order. -/
  drawn : List Int
  /-- The version and the value of the last commit to release each word. -/
  released : Word → Option (Int × V)

def Thread.releases : Thread V → Option (Int × V)
  | .ending t (.release wv i) => (t.ws[i]?).map fun item => (wv, item.value)
  | _ => none

def recordVersions (s : State Tid V) (l : Label Tid V) (r : VersionRecord V) : VersionRecord V :=
  match l.event with
  | .op (.fetchAddClock old) => { r with drawn := r.drawn ++ [old + 1] }
  | .op (.storeLock w _) =>
      { r with released := Function.update r.released w (s.thread l.tid).releases }
  | _ => r

def versionMachine [Zero V] (Tid : Type) [DecidableEq Tid] (platform : Platform V)
    (ok : State Tid V → Label Tid V → Prop) :
    Machine (State Tid V × VersionRecord V) (Label Tid V) :=
  ((system Tid platform).restrict ok).observe ⟨[], fun _ => none⟩ recordVersions

def State.Unheld (s : State Tid V) (w : Word) : Prop := ∀ tid, w ∉ (s.thread tid).held

/-- Versions are handed out in increasing order, and lock words give back those they were released
with. -/
structure VersionRecord.Sound (s : State Tid V) (r : VersionRecord V) : Prop where
  increasing : r.drawn.Pairwise (· < ·)
  clock : s.tm.globalVersion = r.drawn.getLastD 0
  handed : ∀ w wv x, r.released w = some (wv, x) → wv ∈ r.drawn
  reads : ∀ w wv x, r.released w = some (wv, x) → s.Unheld w → vlReadVersion (s.tm.lock w) = wv
  locked : ∀ w, vlReadVersion (s.tm.lock w) < 0 →
    vlReadVersion (s.tm.lock w) = -1 ∧ ∃ tid, w ∈ (s.thread tid).held

/-! ### The record and the store -/

section Invariant

variable [Zero V] [DecidableEq Tid] {platform : Platform V} {s s' : State Tid V} {l : Label Tid V}
  {store : Store Tid Word V} {r : VersionRecord V}

structure VersionsInv (store : Store Tid Word V) (r : VersionRecord V) : Prop where
  increasing : r.drawn.Pairwise (· < ·)
  clock : (store.clock : Int) = r.drawn.getLastD 0
  le : ∀ wv ∈ r.drawn, wv ≤ store.clock
  stamp : ∀ tid c, store.stamp tid = some c → (c : Int) ∈ r.drawn
  handed : ∀ w wv x, r.released w = some (wv, x) → wv ∈ r.drawn
  version : ∀ w, (store.version w : Int) = (r.released w).elim 0 Prod.fst
  data : ∀ w, store.dirty w = false → store.cell w = (r.released w).elim 0 Prod.snd

omit [Zero V] [DecidableEq Tid] in
theorem ThreadMove.releases {tm : Tm V} {choice : Choice V} {thread thread' : Thread V}
    {event : Event V} (h : ThreadMove platform tm choice thread event thread') {w : Word}
    {value : Int} (hevent : event = .op (.storeLock w value)) :
    ∃ t wv i item, thread = .ending t (.release wv i) ∧ t.ws[i]? = some item ∧
      item.versionedLock = w := by
  cases h with
  | @finish t pc _ _ h =>
      cases h with
      | release hi =>
          cases hevent
          exact ⟨t, _, _, _, rfl, hi, rfl⟩
      | _ => cases hevent
  | call h | begin h | read h | roRead h | write h | alloc h | free h => cases h <;> cases hevent
  | start | cleanup | retIdle | retLive => cases hevent

namespace VersionsInv

omit [DecidableEq Tid] in
theorem init : VersionsInv (Store.start fun _ => 0 : Store Tid Word V) ⟨[], fun _ => none⟩ :=
  ⟨List.Pairwise.nil, rfl, by simp, by simp [Store.start], by simp, by simp [Store.start],
    by simp [Store.start]⟩

/-- A release that hands the word on with the values of the commit. -/
theorem released (hw : WordsInv s store) (hwf : (s.thread l.tid).Wf)
    (hstep : (system Tid platform).step s l s') {w : Word} {value : Int}
    (hevent : l.event = .op (.storeLock w value)) (h : VersionsInv store r) :
    VersionsInv (recordStore s l store) (recordVersions s l r) := by
  obtain ⟨hmove, -, -⟩ := system_step_move hstep
  obtain ⟨t, wv, i, item, hthread, hi, rfl⟩ := hmove.releases hevent
  have hagrees := hw.stage l.tid
  have hmem : item ∈ t.ws := List.mem_of_getElem? hi
  rw [hthread] at hagrees hwf
  obtain ⟨c, rfl, hstamp, -, hnodup, hlog, hwritten⟩ := hagrees
  obtain ⟨howner, hdirty⟩ := hwritten item.versionedLock (Tx.locks_getElem? hi)
  obtain ⟨tid, howner', -, hcell⟩ := hw.inv.dirty_sealed _ hdirty
  obtain rfl : l.tid = tid := by simpa [howner] using howner'
  have hvalue : store.cell item.versionedLock = item.value := by
    have hlookup : t.writes.lookup item.versionedLock = some (store.cell item.versionedLock) :=
      hcell _ hlog hstamp
    have hitem : (item.versionedLock, item.value) ∈ t.writes :=
      List.mem_map.mpr ⟨item, hmem, by rw [hwf.sameWord t rfl item hmem]⟩
    rw [lookup_eq_of_mem hnodup hitem] at hlookup
    exact (Option.some.inj hlookup).symm
  have hrecord : recordVersions s l r =
      { r with
        released := Function.update r.released item.versionedLock (some (c, item.value)) } := by
    simp [recordVersions, hevent, hthread, Thread.releases, hi]
  rw [hrecord]
  simp only [recordStore, hevent, storeAction, Option.elim_some, Store.apply, hstamp]
  refine ⟨h.increasing, h.clock, h.le, h.stamp, fun w wv x hw' => ?_, fun w => ?_,
    fun w hclean => ?_⟩
  · by_cases heq : w = item.versionedLock
    · obtain ⟨rfl, -⟩ : (c : Int) = wv ∧ item.value = x := by simpa [heq] using hw'
      exact h.stamp l.tid c hstamp
    · exact h.handed w wv x (by simpa [heq] using hw')
  · by_cases heq : w = item.versionedLock
    · simp [heq]
    · simpa [heq] using h.version w
  · by_cases heq : w = item.versionedLock
    · simpa [heq] using hvalue
    · simpa [heq] using h.data w (by simpa [heq] using hclean)

theorem step (hw : WordsInv s store) (hwf : (s.thread l.tid).Wf)
    (hstep : (system Tid platform).step s l s') (h : VersionsInv store r) :
    VersionsInv (recordStore s l store) (recordVersions s l r) := by
  obtain ⟨hthread, -, -⟩ := system_step_move hstep
  have hmove := hthread.wordMove hwf
  have hrecord : (∀ old, l.event ≠ .op (.fetchAddClock old)) →
      (∀ w value, l.event ≠ .op (.storeLock w value)) → recordVersions s l r = r := by
    intro hdraw hrelease
    simp [recordVersions]
  cases hmove with
  | quiet hstore =>
      rw [hrecord (fun old hevent => by simp [hevent, storeAction] at hstore)
        fun w value hevent => by simp [hevent, storeAction] at hstore]
      simpa [recordStore, hstore] using h
  | filled hevent | readied hevent | locked hevent | unlocked hevent =>
      rw [hrecord (by simp [hevent]) (by simp [hevent])]
      simp only [recordStore, hevent, storeAction, Option.elim_some, Option.elim_none, Store.apply]
      exact ⟨h.increasing, h.clock, h.le, h.stamp, h.handed, h.version, h.data⟩
  | decided hevent hkeys hheld hbefore =>
      rw [hrecord (by simp [hevent]) (by simp [hevent])]
      simp only [recordStore, hevent, storeAction, Option.elim_some, Store.apply]
      exact ⟨h.increasing, h.clock, h.le, h.stamp, h.handed, h.version, h.data⟩
  | drew hevent =>
      have hrecord :
          recordVersions s l r = { r with drawn := r.drawn ++ [(store.clock : Int) + 1] } := by
        simp [recordVersions, hevent, hw.clock]
      rw [hrecord]
      simp only [recordStore, hevent, storeAction, Option.elim_some, Store.apply]
      refine ⟨?_, by simp, fun wv hwv => ?_, fun tid c hc => ?_,
        fun w wv x hw' => List.mem_append_left _ (h.handed w wv x hw'), h.version, h.data⟩
      · rw [List.pairwise_append]
        refine ⟨h.increasing, List.pairwise_singleton _ _, fun wv hwv wv' hwv' => ?_⟩
        have := h.le wv hwv
        obtain rfl := List.mem_singleton.mp hwv'
        omega
      · rcases List.mem_append.mp hwv with hwv | hwv
        · have := h.le wv hwv
          push_cast
          omega
        · obtain rfl := List.mem_singleton.mp hwv
          push_cast
          omega
      · by_cases heq : tid = l.tid
        · obtain rfl : store.clock + 1 = c := by simpa [heq] using hc
          simp
        · exact List.mem_append_left _ (h.stamp tid c (by simpa [heq] using hc))
  | @put wv writes w x hevent =>
      rw [hrecord (by simp [hevent]) (by simp [hevent])]
      simp only [recordStore, hevent, storeAction, Option.elim_some, Store.apply]
      refine ⟨h.increasing, h.clock, h.le, h.stamp, h.handed, h.version, fun w' hclean => ?_⟩
      have hne : w' ≠ w := by
        rintro rfl
        simp at hclean
      simpa [hne] using h.data w' (by simpa [hne] using hclean)
  | released hevent => exact h.released hw hwf hstep hevent
  | returned hevent =>
      rw [hrecord (by simp [hevent]) (by simp [hevent])]
      simp only [recordStore, hevent, storeAction, Option.elim_some, Store.apply]
      refine ⟨h.increasing, h.clock, h.le, fun tid c hc => h.stamp tid c ?_, h.handed, h.version,
        h.data⟩
      by_cases heq : tid = l.tid
      · simp [heq] at hc
      · simpa [heq] using hc

end VersionsInv

theorem versionsInv {p : State Tid V × VersionRecord V}
    (h : (versionMachine Tid platform VersionsBounded).Reachable p) :
    ∃ store, WordsInv p.1 store ∧ VersionsInv store p.2 := by
  refine h.invariant (P := fun p => ∃ store, WordsInv p.1 store ∧ VersionsInv store p.2)
    (fun p hp => ?_) fun p l p' hreach ih hstep => ?_
  · rw [hp.2]
    exact ⟨_, WordsInv.init (show (system Tid platform).init p.1 from hp.1), VersionsInv.init⟩
  · obtain ⟨store, hwords, hversions⟩ := ih
    have hsys := hreach.of_observe.of_restrict
    have hwf := threadWf hsys l.tid
    obtain ⟨⟨hok, hs⟩, hrecord⟩ := hstep
    rw [hrecord]
    exact ⟨_, hwords.step (segmentsInv hsys) hwf hok hs, hversions.step hwords hwf hs⟩

omit [DecidableEq Tid] in
theorem WordsInv.unowned (h : WordsInv s store) {w : Word} (hheld : s.Unheld w) :
    store.owner w = none := by
  rw [Option.eq_none_iff_forall_ne_some]
  exact fun tid howner => hheld tid ((h.held w tid).mp howner)

/-- **Version arithmetic.** As long as every version drawn is below `2 ^ 30`, each is larger than
all before it, a lock word reads as the version it was released with while nobody holds the lock,
and it reads as `-1` only while somebody does. -/
theorem version_arithmetic {p : State Tid V × VersionRecord V}
    (h : (versionMachine Tid platform VersionsBounded).Reachable p) : p.2.Sound p.1 := by
  obtain ⟨store, hwords, hversions⟩ := versionsInv h
  refine ⟨hversions.increasing, by rw [hwords.clock, hversions.clock], hversions.handed,
    fun w wv x hreleased hheld => ?_, fun w hneg => ?_⟩
  · rw [hwords.lock, hwords.unowned hheld, vlReadVersion_lockWord]
    simpa [hreleased] using hversions.version w
  · rw [hwords.lock, vlReadVersion_lockWord] at hneg ⊢
    cases howner : store.owner w with
    | none =>
        rw [howner] at hneg
        simp only [Option.isSome_none, Bool.false_eq_true, if_false] at hneg
        omega
    | some tid => exact ⟨rfl, tid, (hwords.held w tid).mp howner⟩

/-- **What versions mean.** In every reachable state the version field of a lock word is that of the
last commit to release the word and no larger than the clock, a free word holds what that commit
wrote, no version is drawn twice, and every release raises the version. -/
theorem version_meaning {p : State Tid V × VersionRecord V}
    (h : (versionMachine Tid platform VersionsBounded).Reachable p) :
    (∀ w, p.1.tm.lock w / 2 = (p.2.released w).elim 0 Prod.fst ∧
        p.1.tm.lock w / 2 ≤ p.1.tm.globalVersion ∧
        (vlLocked (p.1.tm.lock w) = false → p.1.tm.data w = (p.2.released w).elim 0 Prod.snd)) ∧
      p.2.drawn.Nodup ∧
      ∀ l p', (versionMachine Tid platform VersionsBounded).step p l p' → ∀ w value,
        l.event = .op (.storeLock w value) →
        ∃ wv x, p'.2.released w = some (wv, x) ∧ p.1.tm.lock w / 2 < wv ∧
          p'.1.tm.lock w / 2 = wv := by
  obtain ⟨store, hwords, hversions⟩ := versionsInv h
  have hfield : ∀ w, p.1.tm.lock w / 2 = store.version w := by
    intro w
    rw [hwords.lock, lockWord_div]
  refine ⟨fun w => ⟨?_, ?_, fun hfree => ?_⟩, hversions.increasing.imp Int.ne_of_lt,
    fun l p' hstep w value hevent => ?_⟩
  · rw [hfield, hversions.version]
  · rw [hfield, hwords.clock]
    exact_mod_cast hwords.inv.version_le w
  · have howner := hwords.owner_none_of_unlocked hfree
    rw [hwords.data]
    exact hversions.data w (hwords.inv.not_dirty (by simp [howner]))
  · have hafter : p'.1.tm.lock w / 2 = (p'.2.released w).elim 0 Prod.fst := by
      obtain ⟨store', hwords', hversions'⟩ := versionsInv (h.step hstep)
      rw [hwords'.lock, lockWord_div, hversions'.version]
    obtain ⟨⟨-, hs⟩, hrecord⟩ := hstep
    obtain ⟨hmove, -, -⟩ := system_step_move hs
    obtain ⟨t, wv, i, item, hthread, hi, rfl⟩ := hmove.releases hevent
    have hreleased : p'.2.released item.versionedLock = some (wv, item.value) := by
      simp [hrecord, recordVersions, hevent, hthread, Thread.releases, hi]
    refine ⟨wv, item.value, hreleased, ?_, by rw [hafter, hreleased]; rfl⟩
    have hagrees := hwords.stage l.tid
    rw [hthread] at hagrees
    obtain ⟨c, rfl, hstamp, -, -, -, hwritten⟩ := hagrees
    obtain ⟨howner, -⟩ := hwritten item.versionedLock (Tx.locks_getElem? hi)
    rw [hfield]
    exact_mod_cast hwords.inv.version_lt _ _ _ howner hstamp

end Invariant

def twoCommits : Schedule Unit Nat :=
  calls () (.begin false) 3 ++ calls () (.write [7] 8 (vaFromIndex 0 0)) 3 ++ calls () .finish 12 ++
    calls () (.begin false) 3 ++ calls () (.write [8] 8 (vaFromIndex 0 0)) 3 ++ calls () .finish 12

theorem exists_twoCommits : ∃ p : State Unit Nat × VersionRecord Nat,
    (versionMachine Unit (Platform.x86 Nat) VersionsBounded).Reachable p ∧ p.2.drawn = [1, 2] ∧
      p.2.released ⟨0, 0⟩ = some (2, 8) := by
  let test : State Unit Nat × VersionRecord Nat → Bool := fun p =>
    decide (p.2.drawn = [1, 2]) && decide (p.2.released ⟨0, 0⟩ = some (2, 8))
  have hrun : ∃ p, (versionMachine Unit (Platform.x86 Nat) VersionsBounded).Reachable p ∧
      test p = true :=
    exists_of_schedule versionsBounded versionsBounded_sound
      (State.fresh_init_words 1 (by decide) (by decide)) twoCommits test (by decide +kernel)
  obtain ⟨p, hreach, htest⟩ := hrun
  simp only [test, Bool.and_eq_true, decide_eq_true_eq] at htest
  exact ⟨p, hreach, htest⟩

theorem version_arithmetic_of_commits : ∃ p : State Unit Nat × VersionRecord Nat,
    p.2.released ⟨0, 0⟩ = some (2, 8) ∧ p.2.Sound p.1 := by
  obtain ⟨p, hreach, -, hreleased⟩ := exists_twoCommits
  exact ⟨p, hreleased, version_arithmetic hreach⟩

theorem version_meaning_of_commits : ∃ p : State Unit Nat × VersionRecord Nat,
    p.1.tm.lock ⟨0, 0⟩ / 2 = 2 ∧ p.2.drawn.Nodup := by
  obtain ⟨p, hreach, -, hreleased⟩ := exists_twoCommits
  obtain ⟨hwords, hnodup, -⟩ := version_meaning hreach
  refine ⟨p, ?_, hnodup⟩
  rw [(hwords ⟨0, 0⟩).1, hreleased]
  rfl

/-! ### The last version -/

section LastVersion

structure Tm.OneWord (tm : Tm Nat) (clock : Int) : Prop where
  align : tm.align = 8
  writer : tm.writer = false
  entry : tm.vaArr 0 = .segment 0
  segment : tm.segment 0 = some ⟨8, 1, .ready⟩
  clock : tm.globalVersion = clock
  toFree : tm.toFree = []

structure Tm.Committed (tm : Tm Nat) (n : Nat) : Prop extends tm.OneWord n where
  lock : tm.lock ⟨0, 0⟩ = lockWord n false

abbrev LeadsTo (tm : Tm Nat) (thread : Thread Nat) : Prop :=
  Leads (versionMachine Unit (Platform.x86 Nat) fun _ _ => True) tm fun _ => thread

variable {tm : Tm Nat} {thread : Thread Nat}

theorem LeadsTo.next (tm : Tm Nat) (h : LeadsTo tm thread) (choice : Choice Nat) (event : Event Nat)
    (thread' : Thread Nat)
    (hstep : thread.step (Platform.x86 Nat) tm choice = .next (event, thread')) :
    LeadsTo (tm.after event) thread' := by
  have hnext := Leads.step h () choice event thread' hstep trivial
  have hupdate : Function.update (fun _ : Unit => thread) () thread' = fun _ => thread' := by
    funext tid
    simp
  rw [hupdate] at hnext
  exact hnext

def committer (n : Nat) (bloom : Bf) : Tx Nat where
  rv := n
  isRo := false
  ws := [⟨vaFromIndex 0 0, 0, ⟨0, 0⟩, ⟨0, 0⟩⟩]
  wsSz := 8
  wsBloom := bloom
  rs := some []
  rsSz := 8
  toFree := []

section Commit

variable {n : Nat} {bloom : Bf} (hcommitted : tm.Committed n)
include hcommitted

theorem leadsTo_begun (h : LeadsTo tm .idle) : LeadsTo { tm with readers := tm.readers + 1 }
    (.live (Tx.start n false (bfInit 0 (toInt (8 : Nat))))) := by
  have hcall := LeadsTo.next _ h { call := some (.begin false) } (.call (.begin false))
    (.beginning false .rdlock) rfl
  have hrdlock := LeadsTo.next _ hcall {} (.op .rdlock) (.beginning false .body)
    (by simp [Thread.step, tmBeginStep, Tm.after, hcommitted.writer, Move.op])
  have hbody := LeadsTo.next _ hrdlock {} (.op (.loadClock n))
    (.returning (.begin true) (some (Tx.start n false (bfInit 0 (toInt (8 : Nat))))))
    (by simp [Thread.step, tmBeginStep, Tm.after, Tm.apply, Move.op, Choice.mallocOk,
      hcommitted.align, hcommitted.clock])
  exact LeadsTo.next _ hbody {} (.ret (.begin true))
    (.live (Tx.start n false (bfInit 0 (toInt (8 : Nat))))) rfl

theorem leadsTo_written (h : LeadsTo tm (.live (Tx.start n false bloom))) :
    ∃ bloom, LeadsTo tm (.live (committer n bloom)) := by
  let added := bfAdd (Platform.x86 Nat).bit bloom (vaFromIndex 0 0)
  have hoffset : offsetFromVa (vaFromIndex 0 0) = 0 :=
    offsetFromVa_vaFromIndex (by decide) (by decide)
  have hrange : tm.range (vaFromIndex 0 0) 8 = some 0 := by
    simp [Tm.range, hcommitted.entry, hcommitted.segment, hcommitted.align, hoffset,
      indexFromVa_vaFromIndex (show 0 < 65535 by decide) (show 0 < 2 ^ 48 by decide)]
  have hword : tm.wordAt 0 0 = some ⟨0, 0⟩ := by simp [Tm.wordAt, Tm.valid, hcommitted.segment]
  have hone : toInt 1 = 1 := toInt_eq_self (by omega) (by omega)
  have hzero : toInt 0 = 0 := toInt_eq_self (by omega) (by omega)
  have hwriting := LeadsTo.next _ h { call := some (.write [0] 8 (vaFromIndex 0 0)) }
    (.call (.write [0] 8 (vaFromIndex 0 0)))
    (.writing (Tx.start n false bloom) ⟨0, [0], vaFromIndex 0 0, 0, 1⟩ 0)
    (by simp [Thread.step, callStep, hrange, Tx.start, tmWriteCall, hcommitted.align, hoffset, hone,
      hzero])
  have hwritten := LeadsTo.next tm hwriting {} (.op (.loadLock ⟨0, 0⟩ (lockWord n false)))
    (.writing (committer n added) ⟨0, [0], vaFromIndex 0 0, 0, 1⟩ 1)
    (by simp [Thread.step, tmWriteStep, hword, hcommitted.lock, vlReadVersion_lockWord, Tx.lookup,
      Tx.start, Tx.append, vecInitial, Choice.mallocOk, WriteCall.curr, Tx.eraseLock, committer,
      Move.op, added])
  have hreturning := LeadsTo.next tm hwritten {} (.op .tau)
    (.returning (.write true) (some (committer n added)))
    (by simp [Thread.step, tmWriteStep, Move.op])
  exact ⟨added, LeadsTo.next tm hreturning {} (.ret (.write true))
    (.live (committer n added)) rfl⟩

/-- `tm_end` up to the point where nothing can stop it. -/
theorem leadsTo_drawn (hn : (n : Int) + 1 < 2 ^ 31) (h : LeadsTo tm (.live (committer n bloom))) :
    LeadsTo { tm with
      lock := Function.update tm.lock ⟨0, 0⟩ (lockWord n true)
      globalVersion := (n : Int) + 1 } (.ending (committer n bloom) (.validated (n + 1))) := by
  have hvalid : tm.valid ⟨0, 0⟩ = true := by simp [Tm.valid, hcommitted.segment]
  have hfinish := LeadsTo.next _ h { call := some .finish } (.call .finish)
    (.ending (committer n bloom) .start) rfl
  have hsorted := LeadsTo.next tm hfinish {} (.op .tau)
    (.ending (committer n bloom) (.tryLoad 0)) rfl
  have htried := LeadsTo.next tm hsorted {}
    (.op (.loadLock ⟨0, 0⟩ (lockWord n false)))
    (.ending (committer n bloom) (.tryCas 0 (lockWord n false)))
    (by simp [Thread.step, tmEndStep, committer, hvalid, hcommitted.lock, vlTryLockRefuses,
      Move.op])
  have htaken := LeadsTo.next tm htried {}
    (.op (.casLock ⟨0, 0⟩ (lockWord n false) true)) (.ending (committer n bloom) (.tryLoad 1))
    (by simp [Thread.step, tmEndStep, committer, hvalid, hcommitted.lock, Move.op])
  have hlocked := LeadsTo.next _ htaken {} (.op .tau) (.ending (committer n bloom) .fetchAdd)
    (by simp [Thread.step, tmEndStep, committer, Move.op])
  let locked : Tm Nat :=
    { tm with lock := Function.update tm.lock ⟨0, 0⟩ (vlTaken (lockWord n false)) }
  have hclock : locked.globalVersion = n := hcommitted.clock
  have hchecked : checkedInt ((n : Int) + 1) = some ((n : Int) + 1) := by
    rw [checkedInt, if_pos ⟨by omega, by omega⟩]
  have hdrawn := LeadsTo.next locked hlocked {} (.op (.fetchAddClock n))
    (.ending (committer n bloom) (.validated (n + 1)))
    (by simp [Thread.step, tmEndStep, committer, hclock, hchecked, Move.op])
  simpa [Tm.after, Tm.apply, locked, hcommitted.clock,
    toInt_eq_self (show -2 ^ 31 ≤ (n : Int) + 1 by omega) hn] using hdrawn

/-- The transaction is about to release the word. -/
theorem leadsTo_releasing (hn : (n : Int) + 1 < 2 ^ 31) (h : LeadsTo tm .idle) :
    ∃ tm' bloom, tm'.OneWord (n + 1) ∧
      LeadsTo tm' (.ending (committer n bloom) (.release (n + 1) 0)) := by
  have hbegun := leadsTo_begun hcommitted h
  obtain ⟨⟨halign, hwriter, hentry, hsegment, hclock, htoFree⟩, hlock⟩ := hcommitted
  let opened : Tm Nat := { tm with readers := tm.readers + 1 }
  have hopened : opened.Committed n := ⟨⟨halign, hwriter, hentry, hsegment, hclock, htoFree⟩, hlock⟩
  obtain ⟨bloom, hwritten⟩ := leadsTo_written hopened hbegun
  have hdrawn := leadsTo_drawn hopened hn hwritten
  have hdecided := LeadsTo.next _ hdrawn {} (.op (.commit (n + 1) [(⟨0, 0⟩, 0)]))
    (.ending (committer n bloom) (.copy (n + 1) 0)) rfl
  have hcopied := LeadsTo.next _ hdecided {} (.op (.copyIn ⟨0, 0⟩ 0))
    (.ending (committer n bloom) (.release (n + 1) 0))
    (by simp [Thread.step, tmEndStep, committer, opened, Tm.after, Tm.apply, Tm.valid, hsegment,
      Move.op])
  refine ⟨_, bloom, ?_, hcopied⟩
  exact ⟨halign, hwriter, hentry, hsegment, rfl, htoFree⟩

theorem leadsTo_committed (hn : n + 1 < 2 ^ 30) (h : LeadsTo tm .idle) :
    ∃ tm', tm'.Committed (n + 1) ∧ LeadsTo tm' .idle := by
  obtain ⟨tm', bloom, ⟨halign, hwriter, hentry, hsegment, hclock, htoFree⟩, hreleasing⟩ :=
    leadsTo_releasing hcommitted (by omega) h
  have hreleased := LeadsTo.next _ hreleasing {} (.op (.storeLock ⟨0, 0⟩ (vlUnlockUpdate (n + 1))))
    (.ending (committer n bloom) (.copy (n + 1) 1))
    (by simp [Thread.step, tmEndStep, committer, Tm.valid, hsegment, Move.op])
  have hleaving := LeadsTo.next _ hreleased {} (.op .tau)
    (.ending (committer n bloom) .unlockCleanup) rfl
  have hunlocked := LeadsTo.next _ hleaving {} (.op .rdunlock)
    (.ending (committer n bloom) .checkBatch) rfl
  have hchecked := LeadsTo.next _ hunlocked {} (.op .loadToFreeN) (.returning (.finish true) none)
    (by simp [Thread.step, tmEndStep, Tm.after, Tm.apply, htoFree, freeBatchsize, Move.op])
  have hreturned := LeadsTo.next _ hchecked {} (.ret (.finish true)) .idle rfl
  have hversion : vlUnlockUpdate ((n : Int) + 1) = lockWord (n + 1) false := vlUnlockUpdate_eq hn
  refine ⟨_, ?_, hreturned⟩
  refine ⟨⟨halign, hwriter, hentry, hsegment, ?_, htoFree⟩, ?_⟩
  · simpa [Tm.after, Tm.apply] using hclock
  · simp [Tm.after, Tm.apply, hversion]

end Commit

theorem exists_committed (n : Nat) (hn : n < 2 ^ 30) : ∃ tm, tm.Committed n ∧ LeadsTo tm .idle := by
  induction n with
  | zero =>
      have hinit : (system Unit (Platform.x86 Nat)).init (State.fresh Unit Nat 8 8) :=
        State.fresh_init_words 1 (by decide) (by decide)
      exact ⟨Tm.created true 8 8, ⟨⟨rfl, rfl, rfl, rfl, rfl, rfl⟩, rfl⟩, _, .init ⟨hinit, rfl⟩⟩
  | succ n ih =>
      obtain ⟨tm, hcommitted, h⟩ := ih (by omega)
      exact leadsTo_committed hcommitted hn h

/-- **Version `2 ^ 30` does not fit.** The commit that draws it releases its word with a lock word
that reads as `- 2 ^ 30`. -/
theorem last_version_misread : ¬ ∀ p : State Unit Nat × VersionRecord Nat,
    (versionMachine Unit (Platform.x86 Nat) fun _ _ => True).Reachable p → p.2.Sound p.1 := by
  intro hsound
  obtain ⟨tm, hcommitted, h⟩ := exists_committed (2 ^ 30 - 1) (by decide)
  obtain ⟨tm', bloom, hword, r, hreach⟩ := leadsTo_releasing hcommitted (by omega) h
  have hversion : (((2 ^ 30 - 1 : Nat) : Int) + 1) = 2 ^ 30 := by omega
  rw [hversion] at hreach
  let released : Event Nat := .op (.storeLock ⟨0, 0⟩ (vlUnlockUpdate (2 ^ 30)))
  have hrelease : Thread.step (Platform.x86 Nat) tm' {}
      (.ending (committer (2 ^ 30 - 1) bloom) (.release (2 ^ 30) 0)) =
        .next (released, .ending (committer (2 ^ 30 - 1) bloom) (.copy (2 ^ 30) 1)) := by
    simp [Thread.step, tmEndStep, committer, Tm.valid, hword.segment, Move.op, released]
  have hafter := hsound _ (hreach.step_observe trivial (State.step_of_thread () hrelease))
  have hread := hafter.reads ⟨0, 0⟩ (2 ^ 30) 0
    (by simp [recordVersions, released, Thread.releases, committer])
    (by simp [State.Unheld, Thread.held, EndPc.held, Tx.locks, committer])
  have hmisread : vlReadVersion (vlUnlockUpdate (2 ^ 30)) = -2 ^ 30 := by decide
  have hstored : (tm'.after released).lock ⟨0, 0⟩ = vlUnlockUpdate (2 ^ 30) := by
    simp [released, Tm.after, Tm.apply]
  simp only [hstored, hmisread] at hread
  omega

end LastVersion

end TransactionalMemory
