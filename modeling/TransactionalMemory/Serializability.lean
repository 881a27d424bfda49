import TransactionalMemory.Proof.Commits
import TransactionalMemory.Opacity

/-!
# Strict serializability

The read-write transactions that wrote something and committed replay one after another in the order
of their write versions, on a plain memory, and every read finds the value it returned. The order
respects real time, and once nobody is writing back the plain memory is the region.
-/

namespace TransactionalMemory

open Concurrency

variable {V Tid : Type} [Zero V] [DecidableEq Tid] {platform : Platform V}

def Thread.writingBack : Thread V → Bool
  | .ending _ (.copy _ _) | .ending _ (.release _ _) => true
  | _ => false

structure History.StrictlySerializable (s : State Tid V) (h : History Tid V) : Prop where
  /-- A transaction whose `tm_end` returned true is among the serialized ones if it wrote
  something. -/
  returned : ∀ log ∈ h.returned, log.isRo = false → (log ∈ h.decided ↔ log.Writes)
  /-- The others among them are still in `tm_end`. -/
  pending : ∀ log ∈ h.decided, log ∈ h.returned ∨
    ∃ tid, h.current tid = log ∧ (s.thread tid).finishing = true
  versioned : ∀ log ∈ h.decided, log.version.isSome = true
  distinct : (h.decided.map TxLog.version).Nodup
  replays : ∃ memory, Replays (fun _ => 0)
      ((Txn.serialOrder (h.decided.map TxLog.txn)).flatMap Txn.accesses) memory ∧
    ((∀ tid, (s.thread tid).writingBack = false) → s.tm.data = memory)
  /-- What had returned before the call of `tm_begin` has a smaller version. -/
  realTime : ∀ log ∈ h.decided, ∀ v ∈ log.before, v < log.txn.version

omit [Zero V] in
theorem Answered.explained {entries : List (Entry V)} {outer : Word → V → Prop}
    (h : Answered entries) (houter : ∀ w x, .read w x false ∈ entries → outer w x) :
    Explained outer (entries.map Entry.access) := by
  intro before w x after hsplit
  obtain ⟨before', rest, rfl, rfl, hrest⟩ := List.map_eq_append_iff.mp hsplit
  obtain ⟨e, after', rfl, haccess, rfl⟩ := List.map_eq_cons_iff.mp hrest
  cases e with
  | write w' x' => cases haccess
  | read w' x' own =>
      obtain ⟨rfl, rfl⟩ := Access.read.inj haccess
      have hlast : lastWrite (before'.map Entry.access) w' = if own then some x' else none :=
        h before' w' x' own after' rfl
      cases own with
      | true => simp [hlast]
      | false => simpa [hlast] using houter w' x' (by simp)

omit [DecidableEq Tid] in
/-- A cell that nobody is writing back is not owned by a sealed commit. -/
theorem WordsInv.unsealed {s : State Tid V} {store : Store Tid Word V} (h : WordsInv s store)
    (hquiet : ∀ tid, (s.thread tid).writingBack = false) {w : Word} {tid : Tid}
    (howner : store.owner w = some tid) : store.sealed tid = false := by
  have hheld := (h.held w tid).mp howner
  have hstage := h.stage tid
  have hback := hquiet tid
  generalize s.thread tid = thread at *
  cases thread with
  | ending t pc =>
      cases pc with
      | tryLoad i | tryCas i prev | rollback i j | fetchAdd => exact hstage.2
      | validate wv i | undo wv j | validated wv =>
          obtain ⟨c, -, -, hunsealed⟩ := hstage
          exact hunsealed
      | copy wv i | release wv i => cases hback
      | _ => cases hheld
  | _ => cases hheld

/-- **Strict serializability.** In every run whose transactions access narrow ranges, the committed
transactions serialize by their write versions. -/
theorem strictly_serializable (hbit : ∀ pos, platform.bit pos ≠ 0#64)
    {p : State Tid V × History Tid V}
    (h : (historyMachine Tid platform SerialOk).Reachable p) : p.2.StrictlySerializable p.1 := by
  obtain ⟨store, hwords, hlog, hinv⟩ := serialInv (fun _ _ h => h) hbit h
  have hcommits := hinv.commits
  have hstore : store.log = (p.2.decided.map TxLog.txn).map Txn.commit := by
    rw [hlog, hcommits.log, List.map_map]
    rfl
  have hversion : ∀ log ∈ p.2.decided, log.version = some log.txn.version := by
    intro log hmem
    obtain ⟨c, hc, -⟩ := (hcommits.decided log hmem).version
    simp [TxLog.txn, hc]
  have hnodup : ((p.2.decided.map TxLog.txn).map Txn.version).Nodup := by
    have hnodup := hwords.inv.log_nodup
    rw [hstore, List.map_map] at hnodup
    exact hnodup
  have hmem : ∀ txn ∈ p.2.decided.map TxLog.txn, txn.commit ∈ store.log := by
    intro txn htxn
    rw [hstore]
    exact List.mem_map_of_mem htxn
  have hreplays : Replays (fun _ => 0)
      ((Txn.serialOrder (p.2.decided.map TxLog.txn)).flatMap Txn.accesses)
      (Commit.contentAt (fun _ => 0) ((p.2.decided.map TxLog.txn).map Txn.commit) store.clock) := by
    refine Txn.replays_serialOrder hnodup (fun txn htxn => hwords.inv.log_pos _ (hmem txn htxn))
      (fun txn htxn => hwords.inv.log_le _ (hmem txn htxn)) fun txn htxn => ?_
    obtain ⟨log, hdecided, rfl⟩ := List.mem_map.mp htxn
    have hlogged := hcommits.decided log hdecided
    obtain ⟨c, hc, -, hreads⟩ := hlogged.version
    refine hlogged.answered.explained fun w x hread => ?_
    have hshows := (hreads w x hread).2
    rw [Store.contentAt, hstore] at hshows
    simpa [TxLog.txn, hc] using hshows
  refine ⟨fun log hmem hrw =>
    ⟨fun hdecided => (hcommits.decided log hdecided).writes, fun hwrites => ?_⟩,
    hcommits.pending, fun log hmem => by rw [hversion log hmem]; rfl, ?_, ?_,
    fun log hmem v hv => ?_⟩
  · rcases hcommits.returned log hmem with hdecided | hquiet
    · exact hdecided
    · exact absurd hwrites (hquiet.2 hrw)
  · have hmap : p.2.decided.map TxLog.version =
        ((p.2.decided.map TxLog.txn).map Txn.version).map some := by
      rw [List.map_map, List.map_map]
      exact List.map_congr_left hversion
    rw [hmap]
    exact hnodup.map (Option.some_injective _)
  · refine ⟨_, hreplays, fun hquiet => ?_⟩
    funext w
    rw [hwords.data, hwords.inv.cell_eq (fun tid => hwords.unsealed hquiet)
      (hwords.inv.version_le w), Store.contentAt, hstore]
  · obtain ⟨c, hc, hbefore, -⟩ := (hcommits.decided log hmem).version
    simpa [TxLog.txn, hc] using hbefore v hv

def serialOk (s : State Tid V) (l : Label Tid V) : Bool :=
  versionsBounded s l && noFailure s l && readsFit s l && writesFit s l

omit [Zero V] [DecidableEq Tid] in
theorem serialOk_sound (s : State Tid V) (l : Label Tid V) (h : serialOk s l = true) :
    SerialOk s l := by
  simp only [serialOk, Bool.and_eq_true] at h
  obtain ⟨⟨⟨hversions, hfailure⟩, hreads⟩, hwrites⟩ := h
  exact ⟨versionsBounded_sound s l hversions, noFailure_sound s l hfailure,
    readsFit_sound s l hreads, writesFit_sound s l hwrites⟩

/-- One thread draws the first version, for a commit that has read the old value of a word. Before
it commits, the other one writes that word under the second version. -/
def overlappingCommits : Schedule Bool Nat :=
  calls true (.begin false) 3 ++ calls false (.begin false) 3 ++
    calls true (.write [7] 8 (vaFromIndex 0 0)) 3 ++ calls false (.read (vaFromIndex 0 0) 8) 6 ++
    calls false (.write [8] 8 (vaFromIndex 0 8)) 3 ++ calls false .finish 5 ++
    calls true .finish 13 ++ steps false 7

theorem strictly_serializable_of_commits : ∃ p : State Bool Nat × History Bool Nat,
    p.2.decided.map (fun log => (log.version, log.entries)) =
      [(some 2, [.write ⟨0, 0⟩ 7]), (some 1, [.read ⟨0, 0⟩ 0 false, .write ⟨0, 1⟩ 8])] ∧
      p.2.StrictlySerializable p.1 := by
  let test : State Bool Nat × History Bool Nat → Bool := fun p =>
    decide (p.2.decided.map (fun log => (log.version, log.entries)) =
      [(some 2, [.write ⟨0, 0⟩ 7]), (some 1, [.read ⟨0, 0⟩ 0 false, .write ⟨0, 1⟩ 8])])
  have hrun : ∃ p, (historyMachine Bool (Platform.x86 Nat) SerialOk).Reachable p ∧ test p = true :=
    exists_of_schedule serialOk serialOk_sound
      (State.fresh_init_words 2 (by decide) (by decide)) overlappingCommits test (by decide +kernel)
  obtain ⟨p, hreach, htest⟩ := hrun
  exact ⟨p, of_decide_eq_true htest, strictly_serializable (Platform.x86_bit Nat) hreach⟩

/-- In a segment of 4 GiB and a word, the second transaction reads the first word in place of the
last, which nobody ever writes, and commits. -/
theorem serialization_narrowed : ¬ ∀ p : State Unit Nat × History Unit Nat,
    (historyMachine Unit (Platform.x86 Nat) fun s l =>
      VersionsBounded s l ∧ NoFailure s l).Reachable p → p.2.StrictlySerializable p.1 := by
  intro hclaim
  let test : State Unit Nat × History Unit Nat → Bool := fun p =>
    decide (p.2.decided.map (fun log => (log.version, log.entries)) =
      [(some 1, [.write ⟨0, 0⟩ 7]),
        (some 2, [.read ⟨0, 536870912⟩ 7 false, .write ⟨0, 1⟩ 8])])
  have hinit : (system Unit (Platform.x86 Nat)).init (State.fresh Unit Nat (2 ^ 32 + 8) 8) :=
    State.fresh_init (by decide) (by decide) ⟨536870913, by decide⟩ ⟨3, rfl⟩ ⟨1, rfl⟩ (by decide)
  have hrun : ∃ p, (historyMachine Unit (Platform.x86 Nat) fun s l =>
      VersionsBounded s l ∧ NoFailure s l).Reachable p ∧ test p = true :=
    exists_of_schedule (fun s l => versionsBounded s l && noFailure s l)
      (fun s l h => by
        rw [Bool.and_eq_true] at h
        exact ⟨versionsBounded_sound s l h.1, noFailure_sound s l h.2⟩) hinit
      (calls () (.begin false) 3 ++ calls () (.write [7] 8 (vaFromIndex 0 0)) 3 ++
        calls () .finish 12 ++ calls () (.begin false) 3 ++
        calls () (.read (vaFromIndex 0 (2 ^ 32)) 8) 6 ++
        calls () (.write [8] 8 (vaFromIndex 0 8)) 3 ++ calls () .finish 12)
      test (by decide +kernel)
  obtain ⟨p, hreach, htest⟩ := hrun
  have hdecided := of_decide_eq_true htest
  have htxns : p.2.decided.map TxLog.txn =
      [⟨1, [.write ⟨0, 0⟩ 7]⟩, ⟨2, [.read ⟨0, 536870912⟩ 7, .write ⟨0, 1⟩ 8]⟩] := by
    have hmap := congrArg (List.map fun log : Option Nat × List (Entry Nat) =>
      (⟨log.1.getD 0, log.2.map Entry.access⟩ : Txn Word Nat)) hdecided
    rw [List.map_map] at hmap
    exact hmap
  obtain ⟨memory, hreplays, -⟩ := (hclaim p hreach).replays
  rw [htxns] at hreplays
  simp [Txn.serialOrder, Replays] at hreplays

end TransactionalMemory
