import TransactionalMemory.Proof.Schedules

/-!
# Read sets and write sets

Whatever ranges a read-write transaction reads and writes, its write set holds what its client
wrote, its read set the rest of what the client read, and the bloom filter hides nothing. The ranges
have to be narrow enough for `int`: past four gigabytes `tm_read` takes the lock of another word.
-/

namespace TransactionalMemory

open Concurrency

variable {V Tid : Type}

/-- The sets of a transaction are those of the accesses in `view`. -/
structure Tx.SetsOf (t : Tx V) (bit : Int → BitVec 64) (tm : Tm V) (view : List (Entry V)) :
    Prop where
  /-- An entry for each word written, with its last value. -/
  written : ∀ w x, lastWritten view w = some x ↔ ∃ item ∈ t.ws, item.rawAddr = w ∧ item.value = x
  once : (t.ws.map WsItem.rawAddr).Nodup
  /-- An entry has the lock and the address of its word. -/
  own : ∀ item ∈ t.ws, item.versionedLock = item.rawAddr ∧ tm.NamesWord item.addr item.rawAddr
  distinct : t.readLocks.Nodup
  disjoint : ∀ w ∈ t.readLocks, w ∉ t.locks
  /-- A word delivered from shared memory is in the read set, unless it was written since. -/
  tracked : ∀ w x, .read w x false ∈ view → w ∈ t.readLocks ∨ ∃ x, lastWritten view w = some x
  bloom : ∀ item ∈ t.ws, bfIn bit t.wsBloom item.addr = true
  /-- The lookup behind the filter finds what a scan of the write set finds. -/
  lookup : ∀ addr, t.lookup bit addr = t.ws.find? fun item => item.addr = addr

variable [Zero V] [DecidableEq Tid] {platform : Platform V}

/-- **The sets of a transaction.** In every run whose ranges `int` can hold, the sets of every open
read-write transaction are those of the accesses it has made. -/
theorem access_sets (hbit : ∀ pos, platform.bit pos ≠ 0#64) {p : State Tid V × History Tid V}
    (h : (historyMachine Tid platform AccessOk).Reachable p) {tid : Tid} {t : Tx V}
    {view : List (Entry V)} (hview : (p.1.thread tid).view (p.2.current tid) = some (t, view))
    (hrw : t.isRo = false) : t.SetsOf platform.bit p.1.tm view := by
  obtain ⟨-, hbuffered, hapart⟩ := setsInv (fun _ _ h => h) hbit h
  have hsystem := h.of_observe.of_restrict
  have hsets := (hbuffered tid).sets t view hview hrw
  have htx := Thread.tx_of_view hview
  have hwf := threadWf hsystem tid
  have hfiltered := threadFiltered hbit hsystem tid htx
  obtain ⟨hdistinct, hdisjoint⟩ := hapart tid t htx hrw
  have hwritten : ∀ w x, lastWritten view w = some x ↔
      ∃ item ∈ t.ws, item.rawAddr = w ∧ item.value = x := by
    intro w x
    constructor
    · intro hlast
      obtain ⟨item, hmem, rfl⟩ := List.mem_map.mp
        (hsets.lastWritten_ne_none_iff.mp (by rw [hlast]; simp))
      exact ⟨item, hmem, rfl, Option.some.inj ((hsets.lastWritten_of_mem hmem).symm.trans hlast)⟩
    · rintro ⟨item, hmem, rfl, rfl⟩
      exact hsets.lastWritten_of_mem hmem
  refine ⟨hwritten, hsets.nodup, fun item hmem => ⟨(hwf.sameWord t htx item hmem).symm,
    hsets.names item hmem⟩, hdistinct, hdisjoint, fun w x hmem => ?_, hfiltered.bloom,
    fun addr => hfiltered.lookup_eq⟩
  rcases hsets.tracked w x hmem with ⟨rs, item, hrs, hitem, hlock⟩ | hws
  · left
    rw [Tx.readLocks, hrs]
    exact List.mem_filterMap.mpr ⟨item, hitem, hlock⟩
  · exact Or.inr (Option.ne_none_iff_exists'.mp (hsets.lastWritten_ne_none_iff.mpr hws))

def readTwoWriteOne : Schedule Unit Nat :=
  calls () (.begin false) 3 ++ calls () (.read (vaFromIndex 0 0) 16) 10 ++
    calls () (.write [7] 8 (vaFromIndex 0 8)) 3

theorem access_sets_of_accesses : ∃ t : Tx Nat, t.readLocks = [⟨0, 0⟩] ∧ t.locks = [⟨0, 1⟩] ∧
    ∃ (tm : Tm Nat) (view : List (Entry Nat)), t.SetsOf (Platform.x86 Nat).bit tm view := by
  let test : State Unit Nat × History Unit Nat → Bool := fun p =>
    ((p.1.thread ()).view (p.2.current ())).any fun q =>
      decide (q.1.isRo = false) && decide (q.1.readLocks = [⟨0, 0⟩]) &&
        decide (q.1.locks = [⟨0, 1⟩])
  have hrun : ∃ p, (historyMachine Unit (Platform.x86 Nat) AccessOk).Reachable p ∧ test p = true :=
    exists_of_schedule accessOk accessOk_sound (State.fresh_init_words 2 (by decide) (by decide))
      readTwoWriteOne test (by decide +kernel)
  obtain ⟨p, hreach, htest⟩ := hrun
  obtain ⟨⟨t, view⟩, hview, htest⟩ := (Option.any_eq_true _ _).mp htest
  simp only [Bool.and_eq_true, decide_eq_true_eq] at htest
  obtain ⟨⟨hrw, hreads⟩, hlocks⟩ := htest
  exact ⟨t, hreads, hlocks, p.1.tm, view, access_sets (Platform.x86_bit Nat) hreach hview hrw⟩

/-- A transaction writes the first word and reads the one four gigabytes behind it. -/
def readFarAfterWrite : Schedule Unit Nat :=
  calls () (.begin false) 3 ++ calls () (.write [7] 8 (vaFromIndex 0 0)) 3 ++
    calls () (.read (vaFromIndex 0 (2 ^ 32)) 8) 6

/-- **Past four gigabytes** `tm_read` records the lock of another word, even one of the write
set. -/
theorem sets_collide : ¬ ∀ p : State Unit Nat × History Unit Nat,
    (historyMachine Unit (Platform.x86 Nat) NoFailure).Reachable p → ∀ tid t view,
      (p.1.thread tid).view (p.2.current tid) = some (t, view) → t.isRo = false →
        t.SetsOf (Platform.x86 Nat).bit p.1.tm view := by
  intro hall
  let test : State Unit Nat × History Unit Nat → Bool := fun p =>
    ((p.1.thread ()).view (p.2.current ())).any fun q =>
      decide (q.1.isRo = false) && decide (q.1.readLocks = [⟨0, 0⟩]) &&
        decide (q.1.locks = [⟨0, 0⟩])
  have hrun : ∃ p, (historyMachine Unit (Platform.x86 Nat) NoFailure).Reachable p ∧ test p = true :=
    exists_of_schedule noFailure noFailure_sound
      (State.fresh_init_words (2 ^ 29 + 1) (by decide) (by decide)) readFarAfterWrite test
      (by decide +kernel)
  obtain ⟨p, hreach, htest⟩ := hrun
  obtain ⟨⟨t, view⟩, hview, htest⟩ := (Option.any_eq_true _ _).mp htest
  simp only [Bool.and_eq_true, decide_eq_true_eq] at htest
  obtain ⟨⟨hrw, hreads⟩, hlocks⟩ := htest
  have hdisjoint := (hall p hreach () t view hview hrw).disjoint ⟨0, 0⟩ (by simp [hreads])
  exact hdisjoint (by simp [hlocks])

end TransactionalMemory
