import Mathlib.Data.List.Induction
import Mathlib.Data.List.Sort
import Mathlib.Logic.Function.Basic

/-!
# Commit logs and serial replay

A commit carries a version and the cells it writes. Commits may enter the log in any order; what the
memory holds after a set of them is read off by applying them in increasing order of version, so the
content of a cell at version `c` is what the commits with version at most `c` leave there.

A transaction is the list of its accesses in program order. The last section is the argument that
makes a log serializable: if every read that a transaction could not answer from its own writes
returned the content of the cell just below the transaction's version, then replaying the whole
transactions one after another, by version, on a plain memory returns every value again.
-/

namespace Concurrency

variable {W V : Type*}

structure Commit (W V : Type*) where
  version : Nat
  writes : W → Option V

namespace Commit

def apply (commit : Commit W V) (memory : W → V) : W → V :=
  fun w => (commit.writes w).getD (memory w)

/-- `log` in increasing order of version. -/
def serialOrder (log : List (Commit W V)) : List (Commit W V) :=
  log.insertionSort fun a b => a.version ≤ b.version

def replay (memory : W → V) (log : List (Commit W V)) : W → V :=
  log.foldl (fun memory commit => commit.apply memory) memory

/-- The memory after exactly the commits whose version is at most `bound`. -/
def contentAt (memory : W → V) (log : List (Commit W V)) (bound : Nat) : W → V :=
  replay memory ((serialOrder log).filter fun commit => commit.version ≤ bound)

variable {memory : W → V} {log log' : List (Commit W V)} {commit : Commit W V} {w : W} {x : V}
  {bound bound' : Nat}

theorem mem_serialOrder : commit ∈ serialOrder log ↔ commit ∈ log :=
  List.mem_insertionSort _

/-- Versions that are pairwise distinct make the serial order strict. -/
theorem serialOrder_pairwise (hnodup : (log.map version).Nodup) :
    (serialOrder log).Pairwise fun a b => a.version < b.version := by
  have : Std.Total fun a b : Commit W V => a.version ≤ b.version :=
    ⟨fun a b => Nat.le_total a.version b.version⟩
  have : IsTrans (Commit W V) fun a b => a.version ≤ b.version :=
    ⟨fun _ _ _ => Nat.le_trans⟩
  have hsorted := List.pairwise_insertionSort (fun a b : Commit W V => a.version ≤ b.version) log
  have hdistinct : ((serialOrder log).map version).Nodup :=
    ((List.perm_insertionSort _ log).map version).nodup_iff.mpr hnodup
  rw [List.Nodup, List.pairwise_map] at hdistinct
  exact (hsorted.and hdistinct).imp fun h => Nat.lt_of_le_of_ne h.1 h.2

theorem replay_append (memory : W → V) (log log' : List (Commit W V)) :
    replay memory (log ++ log') = replay (replay memory log) log' := by
  simp [replay]

@[simp]
theorem replay_cons (memory : W → V) (commit : Commit W V) (log : List (Commit W V)) :
    replay memory (commit :: log) = replay (commit.apply memory) log := rfl

theorem replay_eq_of_no_write (h : ∀ commit ∈ log, commit.writes w = none) :
    replay memory log w = memory w := by
  induction log generalizing memory with
  | nil => rfl
  | cons commit log ih =>
      rw [replay_cons, ih fun c hc => h c (List.mem_cons_of_mem _ hc)]
      simp [apply, h commit List.mem_cons_self]

/-- The last commit to write a cell decides it. -/
theorem replay_eq_of_split {before after : List (Commit W V)} (hwrite : commit.writes w = some x)
    (hafter : ∀ c ∈ after, c.writes w = none) :
    replay memory (before ++ commit :: after) w = x := by
  rw [replay_append, replay_cons, replay_eq_of_no_write hafter]
  simp [apply, hwrite]

theorem contentAt_eq_init (h : ∀ commit ∈ log, commit.version ≤ bound → commit.writes w = none) :
    contentAt memory log bound w = memory w := by
  refine replay_eq_of_no_write fun commit hmem => ?_
  simp only [List.mem_filter, mem_serialOrder, decide_eq_true_eq] at hmem
  exact h commit hmem.1 hmem.2

/-- The content of a cell is what the latest commit to write it wrote. -/
theorem contentAt_eq_of_latest (hnodup : (log.map version).Nodup) (hmem : commit ∈ log)
    (hle : commit.version ≤ bound) (hwrite : commit.writes w = some x)
    (hlatest : ∀ c ∈ log, c.version ≤ bound → c.writes w ≠ none → c.version ≤ commit.version) :
    contentAt memory log bound w = x := by
  have hin : commit ∈ (serialOrder log).filter fun c => c.version ≤ bound := by
    simpa [mem_serialOrder] using ⟨hmem, hle⟩
  have hpairwise := (serialOrder_pairwise hnodup).filter fun c => c.version ≤ bound
  obtain ⟨before, after, hsplit⟩ := List.append_of_mem hin
  have hafter : ∀ c ∈ after, c.writes w = none := by
    intro c hc
    have hcin : c ∈ (serialOrder log).filter fun c => c.version ≤ bound := by
      rw [hsplit]; simp [hc]
    rw [List.mem_filter, mem_serialOrder] at hcin
    have hlater : commit.version < c.version := by
      rw [hsplit] at hpairwise
      exact (List.pairwise_cons.mp (List.pairwise_append.mp hpairwise).2.1).1 c hc
    by_contra hne
    have := hlatest c hcin.1 (by simpa using hcin.2) hne
    omega
  rw [contentAt, hsplit]
  exact replay_eq_of_split hwrite hafter

/-- Either some commit within the bound is the latest to write a cell, or none writes it. -/
theorem exists_latest (log : List (Commit W V)) (bound : Nat) (w : W) :
    (∃ commit ∈ log, commit.version ≤ bound ∧ commit.writes w ≠ none ∧
      ∀ c ∈ log, c.version ≤ bound → c.writes w ≠ none → c.version ≤ commit.version) ∨
    ∀ commit ∈ log, commit.version ≤ bound → commit.writes w = none := by
  induction log with
  | nil => right; simp
  | cons head log ih =>
      by_cases hhead : head.version ≤ bound ∧ head.writes w ≠ none
      · left
        rcases ih with ⟨commit, hmem, hle, hwrite, hlatest⟩ | hnone
        · by_cases hlt : commit.version ≤ head.version
          · refine ⟨head, List.mem_cons_self, hhead.1, hhead.2, fun c hc hcle hcw => ?_⟩
            rcases List.mem_cons.mp hc with rfl | hc
            · exact le_rfl
            · exact (hlatest c hc hcle hcw).trans hlt
          · refine ⟨commit, List.mem_cons_of_mem _ hmem, hle, hwrite, fun c hc hcle hcw => ?_⟩
            rcases List.mem_cons.mp hc with rfl | hc
            · omega
            · exact hlatest c hc hcle hcw
        · refine ⟨head, List.mem_cons_self, hhead.1, hhead.2, fun c hc hcle hcw => ?_⟩
          rcases List.mem_cons.mp hc with rfl | hc
          · exact le_rfl
          · exact absurd (hnone c hc hcle) hcw
      · rcases ih with ⟨commit, hmem, hle, hwrite, hlatest⟩ | hnone
        · left
          refine ⟨commit, List.mem_cons_of_mem _ hmem, hle, hwrite, fun c hc hcle hcw => ?_⟩
          rcases List.mem_cons.mp hc with rfl | hc
          · exact absurd ⟨hcle, hcw⟩ hhead
          · exact hlatest c hc hcle hcw
        · right
          intro commit hmem hle
          rcases List.mem_cons.mp hmem with rfl | hmem
          · by_contra hne
            exact hhead ⟨hle, hne⟩
          · exact hnone commit hmem hle

/-- The content of a cell depends only on the commits within the bound that write it. -/
theorem contentAt_congr (hnodup : (log.map version).Nodup) (hnodup' : (log'.map version).Nodup)
    (h : ∀ commit, commit.writes w ≠ none →
      (commit ∈ log ∧ commit.version ≤ bound ↔ commit ∈ log' ∧ commit.version ≤ bound')) :
    contentAt memory log bound w = contentAt memory log' bound' w := by
  rcases exists_latest log bound w with ⟨commit, hmem, hle, hwrite, hlatest⟩ | hnone
  · obtain ⟨x, hx⟩ := Option.ne_none_iff_exists'.mp hwrite
    obtain ⟨hmem', hle'⟩ := (h commit hwrite).mp ⟨hmem, hle⟩
    rw [contentAt_eq_of_latest hnodup hmem hle hx hlatest,
      contentAt_eq_of_latest hnodup' hmem' hle' hx fun c hc hcle hcw =>
        have hin := (h c hcw).mpr ⟨hc, hcle⟩
        hlatest c hin.1 hin.2 hcw]
  · rw [contentAt_eq_init hnone, contentAt_eq_init]
    intro commit hmem' hle'
    by_contra hne
    have hin := (h commit hne).mpr ⟨hmem', hle'⟩
    exact hne (hnone commit hin.1 hin.2)

/-- A commit above the bound, or one that leaves the cell alone, changes nothing below. -/
theorem contentAt_append_of_skip (hnodup : ((log ++ [commit]).map version).Nodup)
    (hskip : commit.writes w = none ∨ bound < commit.version) :
    contentAt memory (log ++ [commit]) bound w = contentAt memory log bound w := by
  have hnodup' : (log.map version).Nodup := by
    rw [List.map_append] at hnodup
    exact (List.nodup_append.mp hnodup).1
  refine contentAt_congr hnodup hnodup' fun c hcw => ?_
  constructor
  · rintro ⟨hmem, hle⟩
    rcases List.mem_append.mp hmem with hmem | hmem
    · exact ⟨hmem, hle⟩
    · rw [List.mem_singleton] at hmem
      subst hmem
      rcases hskip with hnone | hlt
      · exact absurd hnone hcw
      · omega
  · rintro ⟨hmem, hle⟩
    exact ⟨List.mem_append_left _ hmem, hle⟩

/-- Between two bounds that no commit to the cell separates, its content is the same. -/
theorem contentAt_eq_of_le (hnodup : (log.map version).Nodup) (hle : bound ≤ bound')
    (h : ∀ commit ∈ log, commit.writes w ≠ none → commit.version ≤ bound' →
      commit.version ≤ bound) :
    contentAt memory log bound' w = contentAt memory log bound w := by
  refine contentAt_congr hnodup hnodup fun c hcw => ?_
  constructor
  · rintro ⟨hmem, hcle⟩
    exact ⟨hmem, h c hmem hcw hcle⟩
  · rintro ⟨hmem, hcle⟩
    exact ⟨hmem, hcle.trans hle⟩

/-- Just before a commit's turn the replayed memory holds the content one version below it. -/
theorem replay_before {before after : List (Commit W V)} (hnodup : (log.map version).Nodup)
    (hsplit : serialOrder log = before ++ commit :: after) (hpos : 0 < commit.version) :
    replay memory before = contentAt memory log (commit.version - 1) := by
  have hpairwise := serialOrder_pairwise hnodup
  rw [hsplit, List.pairwise_append, List.pairwise_cons] at hpairwise
  obtain ⟨-, ⟨hafter, -⟩, hbefore⟩ := hpairwise
  rw [contentAt, hsplit, List.filter_append, List.filter_cons_of_neg (by simpa using by omega)]
  have hkeep : before.filter (fun c => c.version ≤ commit.version - 1) = before := by
    refine List.filter_eq_self.mpr fun c hc => ?_
    have := hbefore c hc commit List.mem_cons_self
    simpa using by omega
  have hdrop : after.filter (fun c => c.version ≤ commit.version - 1) = [] := by
    refine List.filter_eq_nil_iff.mpr fun c hc => ?_
    have := hafter c hc
    simpa using by omega
  rw [hkeep, hdrop, List.append_nil]

theorem replay_serialOrder (h : ∀ commit ∈ log, commit.version ≤ bound) :
    replay memory (serialOrder log) = contentAt memory log bound := by
  rw [contentAt, List.filter_eq_self.mpr]
  intro commit hmem
  simpa using h commit (mem_serialOrder.mp hmem)

end Commit

/-! ### Accesses in program order -/

inductive Access (W V : Type*) where
  | read (w : W) (x : V)
  | write (w : W) (x : V)

section Accesses

variable [DecidableEq W]

def lastWrite (accesses : List (Access W V)) : W → Option V :=
  accesses.foldl (fun view access =>
    match access with
    | .read _ _ => view
    | .write w x => Function.update view w (some x)) fun _ => none

@[simp]
theorem lastWrite_nil : lastWrite ([] : List (Access W V)) = fun _ => none := rfl

@[simp]
theorem lastWrite_append_read (accesses : List (Access W V)) (w : W) (x : V) :
    lastWrite (accesses ++ [.read w x]) = lastWrite accesses := by
  simp [lastWrite]

@[simp]
theorem lastWrite_append_write (accesses : List (Access W V)) (w : W) (x : V) :
    lastWrite (accesses ++ [.write w x]) = Function.update (lastWrite accesses) w (some x) := by
  simp [lastWrite]

/-- Every read is answered by the transaction's own last write to the cell, or else by `outer`. -/
def Explained (outer : W → V → Prop) (accesses : List (Access W V)) : Prop :=
  ∀ before w x after, accesses = before ++ .read w x :: after →
    match lastWrite before w with
    | some y => x = y
    | none => outer w x

/-- Replaying the accesses on a plain memory: each read finds the value it returned. -/
def Replays (memory : W → V) : List (Access W V) → (W → V) → Prop
  | [], final => final = memory
  | .read w x :: rest, final => memory w = x ∧ Replays memory rest final
  | .write w x :: rest, final => Replays (Function.update memory w x) rest final

variable {outer : W → V → Prop} {accesses : List (Access W V)}

theorem Explained.of_append {accesses' : List (Access W V)}
    (h : Explained outer (accesses ++ accesses')) : Explained outer accesses := by
  intro before w x after hsplit
  exact h before w x (after ++ accesses') (by simp [hsplit])

theorem replays_append {memory final : W → V} {accesses accesses' : List (Access W V)} :
    Replays memory (accesses ++ accesses') final ↔
      ∃ middle, Replays memory accesses middle ∧ Replays middle accesses' final := by
  induction accesses generalizing memory with
  | nil => simp [Replays]
  | cons access accesses ih =>
      cases access with
      | read w x => simp [Replays, ih, and_assoc]
      | write w x => simp [Replays, ih]

theorem Explained.replays {memory : W → V}
    (h : Explained (fun w x => memory w = x) accesses) :
    Replays memory accesses fun w => (lastWrite accesses w).getD (memory w) := by
  induction accesses using List.reverseRecOn with
  | nil => simp [Replays]
  | append_singleton accesses access ih =>
      refine replays_append.mpr ⟨_, ih h.of_append, ?_⟩
      cases access with
      | read w x =>
          refine ⟨?_, by simp [Replays]⟩
          have hread := h accesses w x [] (by simp)
          cases hlast : lastWrite accesses w with
          | some y => simpa [hlast] using (by simpa [hlast] using hread : x = y).symm
          | none => simpa [hlast] using hread
      | write w x =>
          simp only [Replays, lastWrite_append_write]
          funext w'
          by_cases heq : w' = w
          · subst heq; simp
          · simp [heq]

/-! ### Whole transactions -/

structure Txn (W V : Type*) where
  version : Nat
  accesses : List (Access W V)

def Txn.commit (txn : Txn W V) : Commit W V where
  version := txn.version
  writes := lastWrite txn.accesses

def Txn.serialOrder {W V : Type*} (txns : List (Txn W V)) : List (Txn W V) :=
  txns.insertionSort fun a b => a.version ≤ b.version

theorem Txn.map_commit_serialOrder (txns : List (Txn W V)) :
    (Txn.serialOrder txns).map Txn.commit = Commit.serialOrder (txns.map Txn.commit) :=
  List.map_insertionSort _ _ _ _ fun _ _ _ _ => Iff.rfl

/-- **Serializability.** If every read that a transaction did not answer from its own writes found
the content just below the transaction's version, the transactions replay one after another by
version, and end in the content of the whole log. -/
theorem Txn.replays_serialOrder {memory : W → V} {txns : List (Txn W V)} {bound : Nat}
    (hnodup : (txns.map Txn.version).Nodup) (hpos : ∀ txn ∈ txns, 0 < txn.version)
    (hbound : ∀ txn ∈ txns, txn.version ≤ bound)
    (hreads : ∀ txn ∈ txns, Explained
      (fun w x => Commit.contentAt memory (txns.map Txn.commit) (txn.version - 1) w = x)
      txn.accesses) :
    Replays memory ((Txn.serialOrder txns).flatMap Txn.accesses)
      (Commit.contentAt memory (txns.map Txn.commit) bound) := by
  set log := txns.map Txn.commit with hlog
  have hlogNodup : (log.map Commit.version).Nodup := by
    simpa [hlog, Function.comp_def, Txn.commit] using hnodup
  have hstages : ∀ done rest : List (Txn W V), Txn.serialOrder txns = done ++ rest →
      Replays memory (done.flatMap Txn.accesses) (Commit.replay memory (done.map Txn.commit)) := by
    intro done
    induction done using List.reverseRecOn with
    | nil => intro rest _; simp [Replays, Commit.replay]
    | append_singleton done txn ih =>
        intro rest hsplit
        have hsplit' : Txn.serialOrder txns = done ++ txn :: rest := by simpa using hsplit
        have hmem : txn ∈ txns := by
          rw [← List.mem_insertionSort (fun a b : Txn W V => a.version ≤ b.version)]
          change txn ∈ Txn.serialOrder txns
          simp [hsplit']
        have hcommits : Commit.serialOrder log
            = done.map Txn.commit ++ txn.commit :: rest.map Txn.commit := by
          rw [hlog, ← Txn.map_commit_serialOrder, hsplit']
          simp
        have hbefore : Commit.replay memory (done.map Txn.commit) =
            Commit.contentAt memory log (txn.commit.version - 1) :=
          Commit.replay_before hlogNodup hcommits (hpos txn hmem)
        have hexplained := hreads txn hmem
        rw [List.flatMap_append, List.map_append, Commit.replay_append]
        refine replays_append.mpr ⟨_, ih _ hsplit', ?_⟩
        rw [hbefore]
        simp only [List.flatMap_cons, List.flatMap_nil, List.append_nil]
        exact hexplained.replays
  have hall := hstages (Txn.serialOrder txns) [] (by simp)
  have hall_le : ∀ commit ∈ log, commit.version ≤ bound := by
    rw [hlog]
    intro commit hmem
    obtain ⟨txn, htxn, rfl⟩ := List.mem_map.mp hmem
    exact hbound txn htxn
  rw [Txn.map_commit_serialOrder, ← hlog, Commit.replay_serialOrder hall_le] at hall
  exact hall

end Accesses

end Concurrency
