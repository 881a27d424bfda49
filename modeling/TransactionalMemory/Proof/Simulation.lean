import TransactionalMemory.AccessPaths
import TransactionalMemory.Proof.Growth
import TransactionalMemory.Proof.Solo

/-!
# The simulation

What relates a region and the thread that moves in it to the reference: each segment that the
reference has not freed is installed at its spot, and a word of it has the value that the open
transaction gave it last, or else the value in memory. Inside a call the relation also says how far
the call has come.
-/

namespace TransactionalMemory

open Concurrency

variable {V Tid : Type}

/-! ### The relation -/

def EndPc.copied : EndPc → Bool
  | .lockToFree | .push _ | .unlockCleanup | .checkBatch | .wrlock | .drain _ | .wrunlock => true
  | _ => false

/-- The values of the open transaction that memory does not have yet. -/
def Thread.pending : Thread V → List (Word × V)
  | .ending t pc => if pc.copied then [] else t.writes
  | .live t | .reading t _ _ | .roReading t _ _ | .writing t _ _ | .allocating t _ _ | .freeing t _
  | .aborting t _ | .returning _ (some t) => t.writes
  | .idle | .beginning _ _ | .returning _ none => []

def Tm.value (tm : Tm V) (thread : Thread V) (w : Word) : V :=
  (thread.pending.lookup w).getD (tm.data w)

def EndPc.drawn : EndPc → Bool
  | .start | .tryLoad _ | .tryCas _ _ | .rollback _ _ | .fetchAdd => false
  | _ => true

def Thread.drawn : Thread V → Bool
  | .ending _ pc => pc.drawn
  | _ => false

def Thread.pushing : Thread V → Bool
  | .ending _ (.push _) => true
  | _ => false

def ReadPc.Serves (bit : Int → BitVec 64) (tm : Tm V) (t : Tx V) (source : Addr) (words : List Word)
    (values : List V) : ReadPc V → Prop
  | .word i target => i ≤ words.length ∧ target = values.take i
  | .load i target => i < words.length ∧ target = values.take i ∧
      t.lookup bit (source + BitVec.ofNat 64 (i * tm.align)) = none
  | .copy i v target => i < words.length ∧ target = values.take i ∧
      t.lookup bit (source + BitVec.ofNat 64 (i * tm.align)) = none ∧
      ∀ w, words[i]? = some w → vlReadVersion (tm.lock w) = v
  | .recheck i v x target => i < words.length ∧ target = values.take i ∧ values[i]? = some x ∧
      ∀ w, words[i]? = some w → vlReadVersion (tm.lock w) = v

/-- The same for `ro_transaction_read`, which never meets a newer version. -/
def RoPc.Serves (tm : Tm V) (words : List Word) (values : List V) : RoPc V → Prop
  | .pre i prev => i ≤ words.length ∧ prev = (words.take i).map fun w => vlReadVersion (tm.lock w)
  | .copy prev target => prev = words.map (fun w => vlReadVersion (tm.lock w)) ∧
      target.length = words.length ∧ ∀ (j : Nat) x, target[j]? = some (some x) → values[j]? = some x
  | .post i prev target => i ≤ words.length ∧
      prev = words.map (fun w => vlReadVersion (tm.lock w)) ∧ target = values.map some
  | .loadClock _ _ _ _ | .revalidate _ _ _ _ _ _ => False

def AllocPc.Serves (tm : Tm V) (size : Nat) : AllocPc → Prop
  | .lock | .check => tm.emptySpots = none → tm.vaN < 65535
  | .popIndex => tm.emptySpots ≠ none
  | .counter => tm.vaN < 65535
  | .initLocks _ s => ∃ seg, tm.segment s = some seg ∧
      seg.numWords = toInt (size / tm.align : Nat)
  | .pushNode _ | .pushStore _ _ => False
  | _ => True

def EndPc.Serves (tm : Tm V) (t : Tx V) : EndPc → Prop
  | .start | .tryLoad _ | .fetchAdd => tm.globalVersion + 1 < 2 ^ 30
  | .tryCas i prev => tm.globalVersion + 1 < 2 ^ 30 ∧
      ∃ item, t.ws[i]? = some item ∧ tm.lock item.versionedLock = prev
  | .rollback _ _ | .validate _ _ | .undo _ _ => False
  | .copy _ i => ∀ (j : Nat) item, j < i → t.ws[j]? = some item →
      tm.data item.rawAddr = item.value
  | .release _ i => i < t.ws.length ∧ ∀ (j : Nat) item, j ≤ i → t.ws[j]? = some item →
      tm.data item.rawAddr = item.value
  | _ => True

def Mirror.Returns [Zero V] (r : Mirror V) (tm : Tm V) : Ret V → Option (Tx V) → Prop
  | .begin true, some t => r.call = some (.begin t.isRo)
  | .read (some target), some _ => ∃ p size, r.call = some (.read p size) ∧
      r.region.inBounds p size = true ∧ target = r.region.load p (size / r.region.align)
  | .write true, some _ => ∃ source size p, r.call = some (.write source size p) ∧
      r.region.inBounds p size = true ∧ source.length = size / r.region.align
  | .alloc (.success target), some t => ∃ size spot g, r.call = some (.alloc size) ∧
      target = vaFromIndex spot 0 ∧ spot < 65535 ∧ size < 2 ^ 31 ∧ tm.align ∣ size ∧
      tm.InstalledAt spot g ⟨size, toInt (size / tm.align : Nat), .ready⟩ ∧
      (∀ k, (t.writes.lookup ⟨g, k⟩).getD (tm.data ⟨g, k⟩) = 0) ∧
      (∀ b, r.block spot = some b → r.region.segment b = none) ∧
      (spot : Int) ∉ tm.toFree ∧ (spot : Int) ∉ t.toFree
  | .free true, some _ => ∃ b ∈ r.region.allocs, r.call = some (.free ⟨b, 0⟩)
  | .finish true, none => ∃ isRo, r.call = some (.finish isRo)
  | _, _ => False

/-- The call of the thread is the call of the reference, and goes as the reference will have it. -/
def Thread.Serves [Zero V] (platform : Platform V) (tm : Tm V) (r : Mirror V) : Thread V → Prop
  | .idle | .live _ => r.call = none
  | .beginning isRo _ => r.call = some (.begin isRo)
  | .reading t c pc => ∃ source size p g, r.call = some (.read p size) ∧ r.InRange source size ∧
      r.pointer source = some p ∧ tm.range source size = some g ∧
      tmReadCall tm g source size = some c ∧
      pc.Serves platform.bit tm t source (tm.wordsOf g source size)
        (r.region.load p (size / r.region.align))
  | .roReading _ c pc => ∃ source size p g, r.call = some (.read p size) ∧ r.InRange source size ∧
      r.pointer source = some p ∧ tm.range source size = some g ∧
      roTransactionReadCall tm g source size = some c ∧
      pc.Serves tm (tm.wordsOf g source size) (r.region.load p (size / r.region.align))
  | .writing _ c i => ∃ source size target p g, r.call = some (.write source size p) ∧
      r.InRange target size ∧ r.pointer target = some p ∧ tm.range target size = some g ∧
      c = tmWriteCall tm g source size target ∧ source.length = size / r.region.align ∧
      i ≤ source.length
  | .allocating _ size pc => r.call = some (.alloc size) ∧ 0 < size ∧ size < 2 ^ 31 ∧
      tm.align ∣ size ∧ pc.Serves tm size
  | .freeing _ target => ∃ b ∈ r.region.allocs, r.call = some (.free ⟨b, 0⟩) ∧
      r.pointer target = some ⟨b, 0⟩
  | .ending t pc => r.call = some (.finish t.isRo) ∧ pc.Serves tm t
  | .aborting _ _ => False
  | .returning ret t => r.Returns tm ret t

/-- The memory of the reference with what the thread has written of its range so far. -/
def Thread.reached (r : Mirror V) : Thread V → Reference.Region V
  | .writing _ _ i =>
      match r.call with
      | some (.write source _ p) => r.region.store p (source.take i)
      | _ => r.region
  | .returning (.write true) _ =>
      match r.call with
      | some (.write source _ p) => r.region.store p source
      | _ => r.region
  | _ => r.region

structure Tm.Shows (tm : Tm V) (value : Word → V) (spot n : Nat) (word : Nat → V) : Prop where
  spot_lt : spot < 65535
  size_lt : n < 2 ^ 31
  aligned : tm.align ∣ n
  segment : ∃ g, tm.InstalledAt spot g ⟨n, toInt (n / tm.align : Nat), .ready⟩ ∧
    ∀ k < n / tm.align, word k = value ⟨g, k⟩

def Reference.Region.Held (region : Reference.Region V) (isRo : Bool) : Prop :=
  region.readers = (if isRo then 1 else 0) ∧ region.writer = !isRo

def Mirror.Locked (r : Mirror V) : Thread V → Prop
  | .idle | .beginning _ _ | .returning (.begin _) _ =>
      r.region.readers = 0 ∧ r.region.writer = false
  | .returning _ none => ∃ isRo, r.call = some (.finish isRo) ∧ r.region.Held isRo
  | .live t | .reading t _ _ | .roReading t _ _ | .writing t _ _ | .allocating t _ _ | .freeing t _
  | .ending t _ | .aborting t _ | .returning _ (some t) => r.region.Held t.isRo

structure Mirror.Wf (r : Mirror V) : Prop where
  first : r.block 0 = some r.region.start
  start : r.region.segment r.region.start ≠ none ∧ r.region.start ∉ r.region.allocs
  injective : ∀ spot spot' b, r.block spot = some b → r.block spot' = some b →
    r.region.segment b ≠ none → spot = spot'
  placed : ∀ b, r.region.segment b ≠ none → ∃ spot, r.block spot = some b
  listed : ∀ b ∈ r.region.allocs, r.region.segment b ≠ none
  nodup : r.region.allocs.Nodup
  segment_lt : ∀ b, r.region.segment b ≠ none → b < r.region.blockCount
  block_lt : ∀ spot b, r.block spot = some b → b < r.region.blockCount

/-- The locks, arrays and counters of a region that only this thread uses. -/
structure Tm.Alone (tm : Tm V) (thread : Thread V) : Prop where
  readers : tm.readers = if thread.holds then 1 else 0
  writer : tm.writer = thread.drains
  mutex : tm.virtualMemoryLock = thread.inMutex
  pushing : tm.toFreeLock = thread.pushing
  vaN_le : tm.vaN ≤ 65535
  queue : tm.QueueRoomy
  roomy : ∀ t, thread.tx = some t → t.Roomy
  readOnly : ∀ t, thread.tx = some t → t.isRo = true → t.ws = []
  current : ∀ t, thread.tx = some t → thread.drawn = false → t.rv = tm.globalVersion

/-- Every segment of the reference is in the region, with its words, and nobody frees it. -/
structure Mirror.Shown (r : Mirror V) (tm : Tm V) (thread : Thread V) : Prop where
  align : r.region.align = tm.align
  memory : ∀ spot b n, r.block spot = some b → r.region.segment b = some n →
    tm.Shows (tm.value thread) spot n ((thread.reached r).word b)
  unfreed : ∀ (spot : Nat) b, r.block spot = some b → r.region.segment b ≠ none →
    (spot : Int) ∉ tm.toFree ∧ ∀ t, thread.tx = some t → (spot : Int) ∈ t.toFree →
      r.call = some (.free ⟨b, 0⟩)

/-- **The simulation relation**, between the region with its one thread and the reference. -/
structure Simulates [Zero V] (platform : Platform V) (tm : Tm V) (r : Mirror V)
    (thread : Thread V) : Prop where
  alone : tm.Alone thread
  shown : r.Shown tm thread
  serves : thread.Serves platform tm r
  locked : r.Locked thread
  wf : r.Wf

/-! ### The locks and arrays of one thread -/

section Alone

variable [Zero V] {platform : Platform V} {tm : Tm V} {choice : Choice V}
  {thread thread' : Thread V} {event : Event V} {r : Mirror V}

theorem Tm.Alone.cleanupLock (h : tm.Alone thread) (hmove : HoldMove tm thread event thread')
    (hret : event ≠ .ret (.begin false)) :
    (tm.after event).readers = (if thread'.holds then 1 else 0) ∧
      (tm.after event).writer = thread'.drains := by
  have hreaders := h.readers
  have hwriter := h.writer
  cases hmove with
  | quiet hreaders' hwriter' hholds hdrains =>
      rw [hreaders', hwriter', hholds, hdrains]
      exact ⟨hreaders, hwriter⟩
  | rdlock hevent _ hbefore hafter hdrains | rdunlock hevent hbefore hafter hdrains =>
      subst hevent
      simp_all [Tm.after, Tm.apply]
  | lost hevent => exact absurd hevent hret
  | wrlock hevent _ _ hholds hbefore hafter | wrunlock hevent hholds hbefore hafter =>
      subst hevent
      simp_all [Tm.after, Tm.apply]

theorem Tm.Alone.virtualMemoryLock (h : tm.Alone thread)
    (hmove : SpotMove tm choice thread event thread') :
    (tm.after event).virtualMemoryLock = thread'.inMutex := by
  have hmutex := h.mutex
  cases hmove with
  | quiet hsame _ _ _ _ _ hbefore hafter =>
      rw [hsame, hmutex, Thread.inMutex, Thread.inMutex, hbefore]
      rcases hafter with hafter | hafter
      · rw [hafter]
      · rw [hafter]
        rfl
  | alloc hbefore hmove =>
      subst hbefore
      cases hmove <;> first | rfl | exact hmutex
  | @deleted spot s g hevent hdrains hafter hspot =>
      subst hevent
      rw [Thread.inMutex, Thread.allocPc_of_drains hdrains] at hmutex
      rw [Thread.inMutex, hafter, ← hmutex]
      simp [Tm.after, Tm.apply, Tm.deleteSegment, hspot]

theorem Tm.Alone.toFreeLock (h : tm.Alone thread)
    (hmove : ThreadMove platform tm choice thread event thread') :
    (tm.after event).toFreeLock = thread'.pushing := by
  have hpushing := h.pushing
  cases hmove with
  | finish h =>
      cases h with
      | lockToFree | pushed => rfl
      | copied => exact hpushing.trans (by split <;> rfl)
      | drain | drainNull => exact (tm.deleteSegment_queue _).1.trans hpushing
      | _ => exact hpushing
  | call h | begin h | read h | roRead h | write h | alloc h | free h => cases h <;> exact hpushing
  | _ => exact hpushing

theorem Tm.Alone.spots (h : tm.Alone thread) (hserves : thread.Serves platform tm r)
    (hmove : ThreadMove platform tm choice thread event thread') :
    (tm.after event).vaN ≤ 65535 := by
  have hle := h.vaN_le
  cases hmove with
  | alloc h =>
      cases h with
      | counter =>
          have hlt : tm.vaN < 65535 := hserves.2.2.2.2
          exact hlt
      | _ => exact hle
  | finish h =>
      cases h with
      | drain | drainNull => exact (tm.deleteSegment_queue _).2.2.2.2.trans_le hle
      | _ => exact hle
  | call h | begin h | read h | roRead h | write h | free h => cases h <;> exact hle
  | _ => exact hle

omit [Zero V] in
theorem Tm.Alone.unwritten (h : tm.Alone thread) (hmode : thread.Mode)
    (hmove : ThreadMove platform tm choice thread event thread') {t' : Tx V}
    (htx : thread'.tx = some t') (hro : t'.isRo = true) : t'.ws = [] := by
  have hbefore := h.readOnly
  cases hmove with
  | begin h =>
      cases h with
      | started =>
          obtain rfl := Option.some.inj htx
          rfl
      | _ => cases htx
  | @read t _ _ _ _ h =>
      cases h with
      | confirmed hw hread hadd =>
          obtain rfl := Option.some.inj htx
          obtain ⟨hws, -, hro', -⟩ := Tx.addToReadset_eq hadd
          exact hws.trans (hbefore t rfl (hro'.symm.trans hro))
      | _ => exact hbefore t' htx hro
  | @roRead t _ _ _ _ h =>
      cases h with
      | recorded hi hw hread hold hadd | notRecorded hi hw hread hold hadd
        | extended hrs hk hw hadd | notExtended hrs hk hw hadd =>
          obtain rfl := Option.some.inj htx
          obtain ⟨hws, -, hro', -⟩ := Tx.addToReadset_eq hadd
          exact hws.trans (hbefore t rfl (hro'.symm.trans hro))
      | _ => exact hbefore t' htx hro
  | @write t _ _ _ _ h =>
      -- only a read-write transaction runs `tm_write`
      have hrw : t.isRo = false := hmode
      have hrw' : t'.isRo = false := by
        cases h with
        | overwritten =>
            obtain rfl := Option.some.inj htx
            exact hrw
        | appended hi hw hfree hold hx hmiss happend =>
            obtain rfl := Option.some.inj htx
            obtain ⟨rs, sz, -, rfl⟩ := Tx.append_eq happend
            exact hrw
        | _ =>
            obtain rfl := Option.some.inj htx
            exact hrw
      rw [hrw'] at hro
      cases hro
  | @free t target _ _ h =>
      cases h with
      | first => exact hbefore t' htx hro
      | queued =>
          obtain rfl := Option.some.inj htx
          exact hbefore t rfl hro
  | @finish t _ _ _ h =>
      cases h with
      | sort hrw =>
          obtain rfl := Option.some.inj htx
          exact absurd hro (by simp [hrw])
      | early | noBatch | wrunlock => cases htx
      | _ => exact hbefore t' htx hro
  | call h | alloc h => cases h <;> exact hbefore t' htx hro
  | start | cleanup | retIdle => cases htx
  | retLive => exact hbefore t' htx hro

theorem Tm.Alone.snapshot (h : tm.Alone thread) (hserves : thread.Serves platform tm r)
    (hmove : ThreadMove platform tm choice thread event thread') {t' : Tx V}
    (htx : thread'.tx = some t') (hdrawn : thread'.drawn = false) :
    t'.rv = (tm.after event).globalVersion := by
  have hbefore := h.current
  cases hmove with
  | begin h =>
      cases h with
      | started =>
          obtain rfl := Option.some.inj htx
          rfl
      | _ => cases htx
  | @read t _ _ _ _ h =>
      cases h with
      | confirmed hw hread hadd =>
          obtain rfl := Option.some.inj htx
          exact (Tx.addToReadset_eq hadd).2.1.trans (hbefore t rfl rfl)
      | _ => exact hbefore t' htx rfl
  | @roRead t _ _ _ _ h =>
      obtain ⟨_, _, _, _, -, -, -, -, -, hpc⟩ := hserves
      cases h with
      | recorded hi hw hread hold hadd | notRecorded hi hw hread hold hadd =>
          obtain rfl := Option.some.inj htx
          exact (Tx.addToReadset_eq hadd).2.1.trans (hbefore t rfl rfl)
      | clock | stale | revalidated | extended | notExtended => cases hpc
      | _ => exact hbefore t' htx rfl
  | @write t _ _ _ _ h =>
      cases h with
      | overwritten =>
          obtain rfl := Option.some.inj htx
          exact hbefore t rfl rfl
      | appended hi hw hfree hold hx hmiss happend =>
          obtain rfl := Option.some.inj htx
          obtain ⟨rs, sz, -, rfl⟩ := Tx.append_eq happend
          exact hbefore t rfl rfl
      | _ => exact hbefore t' htx rfl
  | alloc h => cases h <;> exact hbefore t' htx rfl
  | @free t target _ _ h =>
      cases h with
      | first => exact hbefore t' htx rfl
      | queued =>
          obtain rfl := Option.some.inj htx
          exact hbefore t rfl rfl
  | @finish t _ _ _ h =>
      cases h with
      | sort =>
          obtain rfl := Option.some.inj htx
          exact hbefore t rfl rfl
      | copied => split at hdrawn <;> cases hdrawn
      | early | noBatch | wrunlock => cases htx
      | refused | casLost | rollback | rolledBack | tryLoad | cas | locked =>
          exact hbefore t' htx rfl
      | undone => exact hserves.2.elim
      | _ => cases hdrawn
  | call h => cases h <;> exact hbefore t' htx rfl
  | start | cleanup | retIdle => cases htx
  | retLive => exact hbefore t' htx rfl

/-- **A step keeps the region in the hands of its one thread.** -/
theorem Tm.Alone.step (h : tm.Alone thread) (hmalloc : ∀ i, choice.mallocOk i = true)
    (hanswers : thread.Answers) (hmode : thread.Mode) (hserves : thread.Serves platform tm r)
    (hmove : ThreadMove platform tm choice thread event thread') :
    (tm.after event).Alone thread' := by
  have hret : event ≠ .ret (.begin false) := by
    intro hevent
    rcases hmove.of_ret hevent with ⟨t, rfl, -⟩ | ⟨rfl, -⟩ <;> exact hserves
  obtain ⟨hreaders, hwriter⟩ := h.cleanupLock (hmove.holdMove hanswers) hret
  exact ⟨hreaders, hwriter, h.virtualMemoryLock hmove.spotMove, h.toFreeLock hmove,
    h.spots hserves hmove, h.queue.step hmove, hmove.roomy hmalloc h.roomy,
    fun t => h.unwritten hmode hmove, fun t => h.snapshot hserves hmove⟩

/-- The reference takes its steps at the ends of calls, so inside a call its lock stays as it is. -/
theorem Mirror.Locked.step (h : r.Locked thread) (hmalloc : ∀ i, choice.mallocOk i = true)
    (hserves : thread.Serves platform tm r) {o : Op V}
    (hmove : ThreadMove platform tm choice thread (.op o) thread') : r.Locked thread' := by
  generalize hevent : Event.op o = event at hmove
  cases hmove with
  | begin hmove =>
      cases hmove with
      | noStruct hfail => simp [hmalloc] at hfail
      | noSets hfail => simp [hmalloc] at hfail
      | _ => exact h
  | read hmove =>
      cases hmove with
      | confirmed hw hread hadd =>
          have hheld : r.region.Held _ := h
          rw [← (Tx.addToReadset_eq hadd).2.2.1] at hheld
          exact hheld
      | _ => exact h
  | roRead hmove =>
      cases hmove with
      | recorded hi hw hread hold hadd | notRecorded hi hw hread hold hadd =>
          have hheld : r.region.Held _ := h
          rw [← (Tx.addToReadset_eq hadd).2.2.1] at hheld
          exact hheld
      | extended hrs hk hw hadd | notExtended hrs hk hw hadd =>
          have hheld : r.region.Held _ := h
          rw [← (Tx.addToReadset_eq hadd).2.2.1] at hheld
          exact hheld
      | _ => exact h
  | write hmove =>
      cases hmove with
      | appended hi hw hfree hold hx hmiss happend =>
          obtain ⟨rs, sz, -, rfl⟩ := Tx.append_eq happend
          exact h
      | _ => exact h
  | alloc hmove => cases hmove <;> exact h
  | free hmove => cases hmove <;> exact h
  | finish hmove =>
      cases hmove with
      | early | noBatch | wrunlock => exact ⟨_, hserves.1, h⟩
      | _ => exact h
  | cleanup => exact hserves.elim
  | start | retIdle | retLive => cases hevent
  | call hmove => cases hmove <;> cases hevent

end Alone

/-! ### What is left of a call -/

def ReadPc.remaining (n : Nat) : ReadPc V → Nat
  | .word i _ => 4 * (n - i) + 1
  | .load i _ => 4 * (n - i)
  | .copy i _ _ => 4 * (n - i) - 1
  | .recheck i _ _ _ => 4 * (n - i) - 2

def RoPc.remaining (n : Nat) : RoPc V → Nat
  | .pre i _ => (n - i) + 2 * n + 4
  | .copy _ target => target.countP Option.isNone + n + 3
  | .post i _ _ => (n - i) + 1
  | .loadClock _ _ _ _ | .revalidate _ _ _ _ _ _ => 0

def AllocPc.remaining : AllocPc → Nat
  | .lock => 12
  | .check => 11
  | .popIndex => 10
  | .popTmp _ => 9
  | .popNext _ _ => 8
  | .popStore _ _ _ => 7
  | .popFree _ _ | .counter => 6
  | .unlock _ => 5
  | .initStruct _ => 4
  | .initData _ _ => 3
  | .initLocks _ _ => 2
  | .pushNode _ | .pushStore _ _ => 0

def EndPc.remaining (w f q : Nat) : EndPc → Nat
  | .start => 4 * w + 2 * f + q + 12
  | .tryLoad i => 2 * (w - i) + 2 * w + 2 * f + q + 11
  | .tryCas i _ => 2 * (w - i) + 2 * w + 2 * f + q + 10
  | .fetchAdd => 2 * w + 2 * f + q + 10
  | .validated _ => 2 * w + 2 * f + q + 9
  | .copy _ i => 2 * (w - i) + 2 * f + q + 8
  | .release _ i => 2 * (w - i) + 2 * f + q + 7
  | .lockToFree => 2 * f + q + 7
  | .push i => 2 * (f - i) + q + 6
  | .unlockCleanup => q + 5
  | .checkBatch => q + 4
  | .wrlock => q + 3
  | .drain i => (q - i) + 2
  | .wrunlock => 1
  | .rollback _ _ | .validate _ _ | .undo _ _ => 0

/-- A bound on the steps that a thread takes before its call returns. -/
def Thread.remaining (tm : Tm V) : Thread V → Nat
  | .beginning _ .rdlock => 2
  | .beginning _ .body => 1
  | .reading _ c pc => pc.remaining c.numWords.toNat
  | .roReading _ c pc => pc.remaining c.words
  | .writing _ c i => (c.numWords.toNat - i) + 1
  | .allocating _ _ pc => pc.remaining
  | .freeing _ _ => 1
  | .ending t pc => pc.remaining t.ws.length t.toFree.length tm.toFree.length
  | .idle | .live _ | .aborting _ _ | .returning _ _ => 0

/-- A step inside a call: it does what the reference will want and brings the answer closer. -/
def Thread.Advances [Zero V] (platform : Platform V) (tm : Tm V) (r : Mirror V) (thread : Thread V)
    (move : Move V) : Prop :=
  ∃ o thread', move = .op o thread' ∧ thread'.Serves platform (tm.apply o) r ∧
    r.Shown (tm.apply o) thread' ∧ thread'.remaining (tm.apply o) < thread.remaining tm

section Steps

variable [Zero V] {platform : Platform V} {tm tm' : Tm V} {choice : Choice V}
  {thread thread' : Thread V} {r : Mirror V}

/-- **A step inside a call keeps the relation.** -/
theorem Simulates.step (h : Simulates platform tm r thread) (hfacts : SoloFacts platform tm thread)
    (hanswers : thread.Answers) (hmalloc : ∀ i, choice.mallocOk i = true)
    (hadvances : thread.Advances platform tm r (thread.step platform tm choice)) {event : Event V}
    (hstep : thread.step platform tm choice = .next (event, thread')) :
    (∃ o, event = .op o) ∧ Simulates platform (tm.after event) r thread' ∧
      thread'.remaining (tm.after event) < thread.remaining tm := by
  obtain ⟨o, thread'', hop, hserves, hshown, hlt⟩ := hadvances
  obtain ⟨rfl, rfl⟩ := Move.op_eq_next.mp (hop.symm.trans hstep)
  have hmove := Thread.step_move hstep
  exact ⟨⟨o, rfl⟩, ⟨h.alone.step hmalloc hanswers hfacts.mode h.serves hmove, hshown, hserves,
    h.locked.step hmalloc h.serves hmove, h.wf⟩, hlt⟩

omit [Zero V] in
/-- What a step leaves shown, where it frees nothing and touches no word of a finished segment. -/
theorem Mirror.Shown.keep (h : r.Shown tm thread) (halign : tm'.align = tm.align)
    (hqueue : ∀ spot ∈ tm'.toFree, spot ∈ tm.toFree)
    (hreached : thread'.reached r = thread.reached r)
    (hkeep : ∀ (spot : Nat) g seg, (spot : Int) ∉ tm.toFree → tm.InstalledAt spot g seg →
      tm'.InstalledAt spot g seg ∧ ∀ k, tm'.value thread' ⟨g, k⟩ = tm.value thread ⟨g, k⟩)
    (hfrees : ∀ t', thread'.tx = some t' → ∀ spot ∈ t'.toFree,
      ∃ t, thread.tx = some t ∧ spot ∈ t.toFree) : r.Shown tm' thread' := by
  refine ⟨h.align.trans halign.symm, fun spot b n hb hn => ?_, fun spot b hb hn => ?_⟩
  · obtain ⟨hspot, hsize, haligned, g, hinst, hwords⟩ := h.memory spot b n hb hn
    obtain ⟨hinst', hvalue⟩ := hkeep spot g _ (h.unfreed spot b hb (by simp [hn])).1 hinst
    rw [← halign] at haligned hinst' hwords
    refine ⟨hspot, hsize, haligned, g, hinst', fun k hk => ?_⟩
    rw [hreached, hvalue]
    exact hwords k hk
  · obtain ⟨hqueued, hown⟩ := h.unfreed spot b hb hn
    refine ⟨fun hmem => hqueued (hqueue _ hmem), fun t' htx' hmem => ?_⟩
    obtain ⟨t, htx, hmem'⟩ := hfrees t' htx' _ hmem
    exact hown t htx hmem'

end Steps

/-! ### Ranges -/

structure Mirror.Ranged (r : Mirror V) (tm : Tm V) (value : Word → V)
    (word : Reference.BlockId → Nat → V) (addr : Addr) (size : Nat) (p : Reference.Ptr)
    (g : SegId) : Prop where
  pointer : r.pointer addr = some p
  block : r.block (indexFromVa addr).toNat = some p.block
  live : r.region.segment p.block ≠ none
  offset : p.offset = offsetFromVa addr
  inBounds : r.region.inBounds p size = true
  range : tm.range addr size = some g
  exact : PathsExact tm g addr size
  fits : tm.align < 2 ^ 31 ∧ offsetFromVa addr + size ≤ 2 ^ 31
  words : ∀ i < size / tm.align,
    word p.block (p.offset / tm.align + i) = value ⟨g, offsetFromVa addr / tm.align + i⟩

theorem Mirror.InRange.ranged {r : Mirror V} {tm : Tm V} {value : Word → V}
    {word : Reference.BlockId → Nat → V} {addr : Addr} {size : Nat} (h : r.InRange addr size)
    (halign : r.region.align = tm.align)
    (hmemory : ∀ spot b n, r.block spot = some b → r.region.segment b = some n →
      tm.Shows value spot n (word b)) :
    ∃ p g, r.Ranged tm value word addr size p g := by
  obtain ⟨hsize, hdvd, p, hp, hoffset, hbounds⟩ := h
  obtain ⟨b, hb, rfl⟩ := Option.map_eq_some_iff.mp hp
  obtain ⟨n, hn, hin⟩ := (Option.any_eq_true _ _).mp hbounds
  have hin : offsetFromVa addr + size ≤ n := of_decide_eq_true hin
  obtain ⟨-, hlt, -, g, hinst, hwords⟩ := hmemory _ b n hb hn
  rw [halign] at hdvd hoffset
  have hwidth := Nat.le_of_dvd hsize hdvd
  have hcount : toInt (n / tm.align : Nat) = (n / tm.align : Nat) :=
    toInt_natCast (lt_of_le_of_lt (Nat.div_le_self n tm.align) hlt)
  have hlast : (offsetFromVa addr + size) / tm.align ≤ n / tm.align := Nat.div_le_div_right hin
  have hfits : tm.RangeFits addr size n :=
    ⟨by omega, by omega, by rw [hcount]; exact_mod_cast hlast⟩
  refine ⟨⟨b, offsetFromVa addr⟩, g, hp, hb, by simp [hn], rfl, hbounds, ?_,
    hfits.exact rfl hinst.2.1 hsize hdvd hoffset, ⟨by omega, by omega⟩, fun i hi => hwords _ ?_⟩
  · simp only [Tm.range, hinst.1, hinst.2.1]
    exact if_pos ⟨trivial, hsize, hdvd, hoffset, hin⟩
  · rw [Nat.add_div_of_dvd_right hoffset] at hlast
    exact lt_of_lt_of_le (Nat.add_lt_add_left hi _) hlast

/-- What the reference reads from a range is what the region holds there. -/
theorem Mirror.Ranged.load_eq {r : Mirror V} {tm : Tm V} {value : Word → V} {addr : Addr}
    {size : Nat} {p : Reference.Ptr} {g : SegId} (h : r.Ranged tm value r.region.word addr size p g)
    (halign : r.region.align = tm.align) :
    r.region.load p (size / r.region.align) = (tm.wordsOf g addr size).map value := by
  rw [Reference.Region.load, Tm.wordsOf, halign, List.map_map]
  exact List.map_congr_left fun i hi => h.words i (List.mem_range.mp hi)

end TransactionalMemory
