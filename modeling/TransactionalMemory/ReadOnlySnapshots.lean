import TransactionalMemory.Proof.Extension
import TransactionalMemory.Proof.Schedules

/-!
# Read-only snapshots

All that a read-only transaction is ever told comes from one version of the region, however often it
moves its version forward. That needs the word it stands at to be still as checked when it loads the
clock for its new version. Where a commit gets in between, the transaction mixes two versions and
`tm_end` answers true.
-/

namespace TransactionalMemory

open Concurrency

variable {V Tid : Type} [Zero V] [DecidableEq Tid] {platform : Platform V}

/-- Every word that a read-only transaction was given is its content after exactly the commits with
version at most `c`, for one `c` not below the sampled version. -/
def History.ConsistentReads (h : History Tid V) : Prop :=
  ∀ log, (log ∈ h.past ∨ ∃ tid, log = h.current tid) → log.isRo = true →
    ∃ c, log.sampled ≤ c ∧ ∀ w x own, .read w x own ∈ log.entries → h.contentAt c w = x

omit [Zero V] in
theorem TxLog.mem_reads {log : TxLog V} {w : Word} {x : V} {own : Bool}
    (h : .read w x own ∈ log.entries) : (w, x) ∈ log.reads :=
  List.mem_filterMap.mpr ⟨_, h, rfl⟩

theorem readOnlyInv {ok : State Tid V → Label Tid V → Prop} {p : State Tid V × History Tid V}
    (hok : ∀ s l, ok s l → VersionsBounded s l ∧ RoReadsFit s l ∧ ExtendsSafely s l)
    (h : (historyMachine Tid platform ok).Reachable p) :
    ∃ store, WordsInv p.1 store ∧ store.log = p.2.log ∧ LogsInv p.1 store p.2 ∧
      ReadOnlyInv p.1 store p.2 := by
  refine history_invariant
    (Q := fun s store hist => LogsInv s store hist ∧ ReadOnlyInv s store hist)
    (fun s l h => (hok s l h).1) (fun s hs => ⟨LogsInv.init hs, ReadOnlyInv.init s⟩)
    (fun s l s' store hist hreach hokl hstep hwords _ hinv => ?_) h
  obtain ⟨hlogs, hreadOnly⟩ := hinv
  obtain ⟨-, hfits, hextends⟩ := hok s l hokl
  exact ⟨hlogs.step hreach.of_restrict hwords hstep,
    hreadOnly.step hreach.of_restrict hwords hfits hextends hstep hlogs⟩

/-- **One version for each read-only transaction**, in every run in which the clock is loaded for a
new version only while the word just checked is still as it was. -/
theorem read_only_consistent {p : State Tid V × History Tid V}
    (h : (historyMachine Tid platform fun s l =>
      VersionsBounded s l ∧ RoReadsFit s l ∧ ExtendsSafely s l).Reachable p) :
    p.2.ConsistentReads := by
  obtain ⟨store, -, hlog, -, hinv⟩ := readOnlyInv (fun _ _ h => h) h
  intro log hmem hro
  have hversion : ∃ c, log.sampled ≤ c ∧ c ≤ store.clock ∧
      ∀ e ∈ log.reads, store.Shows (fun _ => 0) c e.1 e.2 := by
    rcases hmem with hpast | ⟨tid, rfl⟩
    · exact hinv.past log hpast hro
    · obtain ⟨c, hle, hclock, hreads, -⟩ := hinv.current tid hro
      exact ⟨c, hle, hclock, hreads⟩
  obtain ⟨c, hle, -, hreads⟩ := hversion
  refine ⟨c, hle, fun w x own he => ?_⟩
  rw [← Store.contentAt_of_log hlog]
  exact (hreads (w, x) (TxLog.mem_reads he)).2

def Stage.isEarly : Stage V → Bool
  | .early => true
  | _ => false

def extendsSafely (s : State Bool V) (l : Label Bool V) : Bool :=
  match s.thread l.tid with
  | .roReading _ c (.loadClock i versionRead _ _) =>
      let w : Word := ⟨c.seg, (c.startIdx + i).toNat⟩
      decide (s.tm.lock w / 2 = versionRead) &&
        [true, false].all fun tid =>
          !decide (w ∈ (s.thread tid).held) || (s.thread tid).stage.isEarly
  | _ => true

omit [Zero V] in
theorem extendsSafely_sound (s : State Bool V) (l : Label Bool V) (h : extendsSafely s l = true) :
    ExtendsSafely s l := by
  intro t c i versionRead prev target hthread
  simp only [extendsSafely, hthread, Bool.and_eq_true, decide_eq_true_eq, List.all_eq_true] at h
  refine ⟨h.1, fun tid hheld => ?_⟩
  have hearly := h.2 tid (by cases tid <;> simp)
  simp only [hheld, decide_true, Bool.not_true, Bool.false_or] at hearly
  cases hstage : (s.thread tid).stage with
  | early => rfl
  | _ => simp [hstage, Stage.isEarly] at hearly

/-- The reader samples version 0, then a commit writes the word it is about to read. -/
def readerBehind : Schedule Bool Nat :=
  calls true (.begin true) 3 ++ calls false (.begin false) 3 ++
    calls false (.write [1] 8 (vaFromIndex 0 0)) 3 ++ calls false .finish 12 ++
    calls true (.read (vaFromIndex 0 0) 8) 5

/-- The reader moves its version forward past that commit. -/
theorem read_only_consistent_of_extension : ∃ p : State Bool Nat × History Bool Nat,
    .read ⟨0, 0⟩ 1 false ∈ (p.2.current true).entries ∧ (p.2.current true).sampled = 0 ∧
      p.2.ConsistentReads := by
  let test : State Bool Nat × History Bool Nat → Bool := fun p =>
    decide (.read ⟨0, 0⟩ 1 false ∈ (p.2.current true).entries) &&
      decide ((p.2.current true).sampled = 0)
  have hrun : ∃ p, (historyMachine Bool (Platform.x86 Nat) fun s l =>
      VersionsBounded s l ∧ RoReadsFit s l ∧ ExtendsSafely s l).Reachable p ∧ test p = true :=
    exists_of_schedule (fun s l => versionsBounded s l && (roReadsFit s l && extendsSafely s l))
      (fun s l h => by
        simp only [Bool.and_eq_true] at h
        exact ⟨versionsBounded_sound s l h.1, roReadsFit_sound s l h.2.1,
          extendsSafely_sound s l h.2.2⟩)
      (State.fresh_init_words 2 (by decide) (by decide)) (readerBehind ++ steps true 4) test
      (by decide +kernel)
  obtain ⟨p, hreach, htest⟩ := hrun
  simp only [test, Bool.and_eq_true, decide_eq_true_eq] at htest
  exact ⟨p, htest.1, htest.2, read_only_consistent hreach⟩

/-- Before the reader loads the clock, a second commit locks both words and draws version 2; the
reader takes 2 for its version with the old value of the first word in hand, and then reads what
that commit wrote to the second. -/
def overtakenReader : Schedule Bool Nat :=
  readerBehind ++ calls false (.begin false) 3 ++
    calls false (.write [2, 2] 16 (vaFromIndex 0 0)) 4 ++ calls false .finish 7 ++ steps true 4 ++
    steps false 9 ++ calls true (.read (vaFromIndex 0 8) 8) 7

theorem read_only_mixes : ¬ ∀ p : State Bool Nat × History Bool Nat,
    (historyMachine Bool (Platform.x86 Nat) fun s l =>
      VersionsBounded s l ∧ NoFailure s l).Reachable p → p.2.ConsistentReads := by
  intro hclaim
  let test : State Bool Nat × History Bool Nat → Bool := fun p =>
    (p.2.current true).isRo && decide (.read ⟨0, 0⟩ 1 false ∈ (p.2.current true).entries) &&
      decide (.read ⟨0, 1⟩ 2 false ∈ (p.2.current true).entries) &&
      decide (p.2.contentAt 0 ⟨0, 0⟩ = 0) && decide (p.2.contentAt 1 ⟨0, 1⟩ = 0) &&
      decide (p.2.contentAt 2 ⟨0, 0⟩ = 2) && p.2.log.all fun commit => decide (commit.version ≤ 2)
  have hrun : ∃ p, (historyMachine Bool (Platform.x86 Nat) fun s l =>
      VersionsBounded s l ∧ NoFailure s l).Reachable p ∧ test p = true :=
    exists_of_schedule (fun s l => versionsBounded s l && noFailure s l)
      (fun s l h => by
        rw [Bool.and_eq_true] at h
        exact ⟨versionsBounded_sound s l h.1, noFailure_sound s l h.2⟩)
      (State.fresh_init_words 2 (by decide) (by decide)) overtakenReader test (by decide +kernel)
  obtain ⟨p, hreach, htest⟩ := hrun
  simp only [test, Bool.and_eq_true, decide_eq_true_eq, List.all_eq_true] at htest
  obtain ⟨⟨⟨⟨⟨⟨hro, hfirst⟩, hsecond⟩, hzero⟩, hone⟩, htwo⟩, hversions⟩ := htest
  obtain ⟨c, -, hreads⟩ := hclaim p hreach (p.2.current true) (Or.inr ⟨true, rfl⟩) hro
  have hread := hreads _ _ _ hfirst
  have hread' := hreads _ _ _ hsecond
  rcases Nat.lt_or_ge c 2 with hlt | hge
  · obtain rfl | rfl : c = 0 ∨ c = 1 := by omega
    · omega
    · omega
  · have hall : ∀ bound, 2 ≤ bound → ∀ commit ∈ p.2.log, commit.version ≤ bound :=
      fun bound hbound commit hmem => (hversions commit hmem).trans hbound
    have hlatest : p.2.contentAt c = p.2.contentAt 2 := by
      rw [History.contentAt, History.contentAt, ← Commit.replay_serialOrder (hall c hge),
        ← Commit.replay_serialOrder (hall 2 le_rfl)]
    rw [hlatest] at hread
    omega

end TransactionalMemory
