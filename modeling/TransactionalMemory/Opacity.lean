import TransactionalMemory.Proof.Schedules
import TransactionalMemory.Proof.Snapshot

/-!
# Opacity

What a read-write transaction reads from the region is the content at the version it sampled,
whether it commits or not. The condition is on the range alone: `tm_read` computes byte offsets as
`int`, so a range beyond the first `2 ^ 31` bytes of a segment can reach other words than its own.
-/

namespace TransactionalMemory

open Concurrency

variable {V Tid : Type} [Zero V] [DecidableEq Tid] {platform : Platform V}

/-- Every word that a read-write transaction was given and that it had not written itself is its
content after exactly the commits with version at most the sampled one. -/
def History.Opaque (h : History Tid V) : Prop :=
  ∀ log, (log ∈ h.past ∨ ∃ tid, log = h.current tid) → log.isRo = false →
    ∀ w x, .read w x false ∈ log.entries → h.contentAt log.sampled w = x

theorem snapshotInv {ok : State Tid V → Label Tid V → Prop} {p : State Tid V × History Tid V}
    (hok : ∀ s l, ok s l → VersionsBounded s l ∧ ReadsFit s l)
    (h : (historyMachine Tid platform ok).Reachable p) :
    ∃ store, WordsInv p.1 store ∧ store.log = p.2.log ∧ LogsInv p.1 store p.2 ∧
      SnapshotInv p.1 store p.2 := by
  refine history_invariant
    (Q := fun s store hist => LogsInv s store hist ∧ SnapshotInv s store hist)
    (fun s l h => (hok s l h).1)
    (fun s hs => ⟨LogsInv.init hs, SnapshotInv.init hs⟩)
    (fun s l s' store hist hreach hokl hstep hwords _ hinv => ?_) h
  obtain ⟨hlogs, hsnapshot⟩ := hinv
  exact ⟨hlogs.step hreach.of_restrict hwords hstep,
    hsnapshot.step hreach.of_restrict hwords (hok s l hokl).2 hstep hlogs⟩

/-- **Opacity.** In every run whose read-write transactions read narrow ranges, no read-write
transaction ever sees a word other than it was at the version sampled in `tm_begin`. -/
theorem opacity {p : State Tid V × History Tid V}
    (h : (historyMachine Tid platform fun s l => VersionsBounded s l ∧ ReadsFit s l).Reachable p) :
    p.2.Opaque := by
  obtain ⟨store, -, hlog, -, hinv⟩ := snapshotInv (fun _ _ h => h) h
  intro log hmem hrw w x he
  have hshows : store.Shows (fun _ => 0) log.sampled w x := by
    rcases hmem with hpast | ⟨tid, rfl⟩
    · exact hinv.past log hpast hrw _ he
    · exact (hinv.current tid).sound hrw _ he
  rw [← Store.contentAt_of_log hlog]
  exact hshows.2

/-- A second transaction reads what the first one committed. -/
theorem opacity_of_commit : ∃ p : State Unit Nat × History Unit Nat,
    .read ⟨0, 0⟩ 7 false ∈ (p.2.current ()).entries ∧ p.2.Opaque := by
  let test : State Unit Nat × History Unit Nat → Bool := fun p =>
    decide (.read ⟨0, 0⟩ 7 false ∈ (p.2.current ()).entries)
  have hrun : ∃ p, (historyMachine Unit (Platform.x86 Nat) fun s l =>
      VersionsBounded s l ∧ ReadsFit s l).Reachable p ∧ test p = true :=
    exists_of_schedule (fun s l => versionsBounded s l && readsFit s l)
      (fun s l h => by
        rw [Bool.and_eq_true] at h
        exact ⟨versionsBounded_sound s l h.1, readsFit_sound s l h.2⟩)
      (State.fresh_init_words 1 (by decide) (by decide))
      (calls () (.begin false) 3 ++ calls () (.write [7] 8 (vaFromIndex 0 0)) 3 ++
        calls () .finish 12 ++ calls () (.begin false) 3 ++ calls () (.read (vaFromIndex 0 0) 8) 6)
      test (by decide +kernel)
  obtain ⟨p, hreach, htest⟩ := hrun
  exact ⟨p, of_decide_eq_true htest, opacity hreach⟩

/-- In a segment of 4 GiB and a word, the offset of the last word narrows to that of the first. -/
theorem read_narrowed : ¬ ∀ p : State Unit Nat × History Unit Nat,
    (historyMachine Unit (Platform.x86 Nat) fun s l =>
      VersionsBounded s l ∧ NoFailure s l).Reachable p → p.2.Opaque := by
  intro hclaim
  let test : State Unit Nat × History Unit Nat → Bool := fun p =>
    decide ((p.2.current ()).isRo = false) &&
      decide (.read ⟨0, 536870912⟩ 7 false ∈ (p.2.current ()).entries) &&
      decide (p.2.contentAt (p.2.current ()).sampled ⟨0, 536870912⟩ = 0)
  have hinit : (system Unit (Platform.x86 Nat)).init (State.fresh Unit Nat (2 ^ 32 + 8) 8) :=
    State.fresh_init (by decide) (by decide) ⟨536870913, by decide⟩ ⟨3, rfl⟩ ⟨1, rfl⟩ (by decide)
  have hrun : ∃ p, (historyMachine Unit (Platform.x86 Nat) fun s l =>
      VersionsBounded s l ∧ NoFailure s l).Reachable p ∧ test p = true :=
    exists_of_schedule (fun s l => versionsBounded s l && noFailure s l)
      (fun s l h => by
        rw [Bool.and_eq_true] at h
        exact ⟨versionsBounded_sound s l h.1, noFailure_sound s l h.2⟩) hinit
      (calls () (.begin false) 3 ++ calls () (.write [7] 8 (vaFromIndex 0 0)) 3 ++
        calls () .finish 12 ++ calls () (.begin false) 3 ++
        calls () (.read (vaFromIndex 0 (2 ^ 32)) 8) 6)
      test (by decide +kernel)
  obtain ⟨p, hreach, htest⟩ := hrun
  simp only [test, Bool.and_eq_true, decide_eq_true_eq] at htest
  obtain ⟨⟨hrw, hread⟩, hcontent⟩ := htest
  have hopaque := hclaim p hreach (p.2.current ()) (Or.inr ⟨(), rfl⟩) hrw _ _ hread
  rw [hcontent] at hopaque
  cases hopaque

end TransactionalMemory
