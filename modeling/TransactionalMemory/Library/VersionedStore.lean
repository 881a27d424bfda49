import TransactionalMemory.Library.CommitLog

/-!
# A versioned store with owned cells

The abstract component under a version-clock transactional memory: cells with a version, an owner
while they are being committed, and one clock. A committer locks its cells one by one, draws its
write version from the clock, then either gives the cells back untouched or commits, puts
the new values and releases each cell at the new version. Any number of committers do so at once.

What makes the store usable by readers that never write to it is `Settled`: a cell is settled at a
version `c` when no owner of it can still release it at a version up to `c`. A settled cell stays
settled, and its content at `c` never moves again, whatever the committers do.
-/

namespace Concurrency

structure Store (Tid W V : Type*) where
  clock : Nat
  version : W → Nat
  owner : W → Option Tid
  cell : W → V
  /-- Written by its owner and not yet released. -/
  dirty : W → Bool
  /-- The write version drawn by a running commit. -/
  stamp : Tid → Option Nat
  /-- Past the point of no return. -/
  sealed : Tid → Bool
  log : List (Commit W V)

inductive StoreAction (W V : Type*) where
  | lock (w : W)
  | unlock (w : W)
  | draw
  | commit (writes : W → Option V)
  | put (w : W) (x : V)
  | release (w : W)
  | finish

namespace Store

variable {Tid W V : Type*}

def start (memory : W → V) : Store Tid W V where
  clock := 0
  version _ := 0
  owner _ := none
  cell := memory
  dirty _ := false
  stamp _ := none
  sealed _ := false
  log := []

def Enabled (t : Tid) (store : Store Tid W V) : StoreAction W V → Prop
  | .lock w => store.owner w = none ∧ store.stamp t = none
  | .unlock w => store.owner w = some t ∧ store.sealed t = false
  | .draw => store.sealed t = false
  | .commit writes => store.sealed t = false ∧ (∃ c, store.stamp t = some c) ∧
      ∀ w, writes w ≠ none ↔ store.owner w = some t
  | .put w x => store.owner w = some t ∧ store.sealed t = true ∧
      ∀ commit ∈ store.log, store.stamp t = some commit.version → commit.writes w = some x
  | .release w => store.owner w = some t ∧ store.dirty w = true
  | .finish => ∀ w, store.owner w ≠ some t

variable [DecidableEq Tid] [DecidableEq W]

def apply (t : Tid) (store : Store Tid W V) : StoreAction W V → Store Tid W V
  | .lock w => { store with owner := Function.update store.owner w (some t) }
  | .unlock w => { store with owner := Function.update store.owner w none }
  | .draw =>
      { store with
        clock := store.clock + 1
        stamp := Function.update store.stamp t (some (store.clock + 1)) }
  | .commit writes =>
      { store with
        sealed := Function.update store.sealed t true
        log := store.log ++ [{ version := (store.stamp t).getD 0, writes := writes }] }
  | .put w x =>
      { store with
        cell := Function.update store.cell w x
        dirty := Function.update store.dirty w true }
  | .release w =>
      { store with
        version := Function.update store.version w ((store.stamp t).getD 0)
        owner := Function.update store.owner w none
        dirty := Function.update store.dirty w false }
  | .finish =>
      { store with
        stamp := Function.update store.stamp t none
        sealed := Function.update store.sealed t false }

def contentAt (memory : W → V) (store : Store Tid W V) (bound : Nat) : W → V :=
  Commit.contentAt memory store.log bound

structure Inv (memory : W → V) (store : Store Tid W V) : Prop where
  version_le : ∀ w, store.version w ≤ store.clock
  stamp_le : ∀ t c, store.stamp t = some c → c ≤ store.clock
  stamp_pos : ∀ t c, store.stamp t = some c → 0 < c
  stamp_inj : ∀ t t' c, store.stamp t = some c → store.stamp t' = some c → t = t'
  stamp_fresh : ∀ t c, store.stamp t = some c → store.sealed t = false →
    ∀ commit ∈ store.log, commit.version ≠ c
  version_lt : ∀ w t c, store.owner w = some t → store.stamp t = some c → store.version w < c
  sealed_log : ∀ t, store.sealed t = true → ∃ commit ∈ store.log,
    store.stamp t = some commit.version ∧ ∀ w, store.owner w = some t → commit.writes w ≠ none
  log_le : ∀ commit ∈ store.log, commit.version ≤ store.clock
  log_pos : ∀ commit ∈ store.log, 0 < commit.version
  log_nodup : (store.log.map Commit.version).Nodup
  /-- A logged write is released, or its writer still owns the cell. -/
  written : ∀ commit ∈ store.log, ∀ w, commit.writes w ≠ none →
    commit.version ≤ store.version w ∨
      ∃ t, store.owner w = some t ∧ store.sealed t = true ∧ store.stamp t = some commit.version
  version_mem : ∀ w, store.version w = 0 ∨
    ∃ commit ∈ store.log, commit.version = store.version w ∧ commit.writes w ≠ none
  dirty_sealed : ∀ w, store.dirty w = true → ∃ t, store.owner w = some t ∧ store.sealed t = true ∧
    ∀ commit ∈ store.log, store.stamp t = some commit.version →
      commit.writes w = some (store.cell w)
  clean : ∀ w, store.dirty w = false → store.cell w = store.contentAt memory (store.version w) w

variable {memory : W → V} {store : Store Tid W V} {t : Tid} {w : W} {bound : Nat}

omit [DecidableEq Tid] [DecidableEq W] in
theorem inv_start (memory : W → V) : Inv memory (start memory : Store Tid W V) where
  version_le := by simp [start]
  stamp_le := by simp [start]
  stamp_pos := by simp [start]
  stamp_inj := by simp [start]
  stamp_fresh := by simp [start]
  version_lt := by simp [start]
  sealed_log := by simp [start]
  log_le := by simp [start]
  log_pos := by simp [start]
  log_nodup := by simp [start]
  written := by simp [start]
  version_mem := by simp [start]
  dirty_sealed := by simp [start]
  clean := by simp [start, contentAt, Commit.contentAt, Commit.serialOrder, Commit.replay]

namespace Inv

omit [DecidableEq Tid] [DecidableEq W] in
/-- Only the owner's own commit can be logged above a cell's version. -/
theorem written_le (h : Inv memory store) (hopen : ∀ t, store.owner w = some t →
    store.sealed t = false) {commit : Commit W V} (hmem : commit ∈ store.log)
    (hwrite : commit.writes w ≠ none) : commit.version ≤ store.version w := by
  rcases h.written commit hmem w hwrite with hle | ⟨t, howner, hsealed, -⟩
  · exact hle
  · simp [hopen t howner] at hsealed

omit [DecidableEq Tid] [DecidableEq W] in
theorem not_dirty (h : Inv memory store) (hopen : ∀ t, store.owner w = some t →
    store.sealed t = false) : store.dirty w = false := by
  by_contra hdirty
  obtain ⟨t, howner, hsealed, -⟩ := h.dirty_sealed w (by simpa using hdirty)
  simp [hopen t howner] at hsealed

omit [DecidableEq Tid] [DecidableEq W] in
/-- **The latest content.** A cell that no sealed commit owns holds its content at every version
from its own on. -/
theorem cell_eq (h : Inv memory store) (hopen : ∀ t, store.owner w = some t →
    store.sealed t = false) (hle : store.version w ≤ bound) :
    store.cell w = store.contentAt memory bound w := by
  rw [h.clean w (h.not_dirty hopen)]
  exact (Commit.contentAt_eq_of_le h.log_nodup hle fun commit hmem hwrite _ =>
    h.written_le hopen hmem hwrite).symm

theorem lock (h : Inv memory store) (hen : store.Enabled t (.lock w)) :
    Inv memory (store.apply t (.lock w)) := by
  obtain ⟨hfree, hstamp⟩ := hen
  have hsealed : store.sealed t = false := by
    by_contra hsealed
    obtain ⟨commit, -, hsome, -⟩ := h.sealed_log t (by simpa using hsealed)
    simp [hstamp] at hsome
  refine { h with version_lt := ?_, sealed_log := ?_, written := ?_, dirty_sealed := ?_ }
  · intro w' t' c howner hc
    by_cases heq : w' = w
    · subst heq
      obtain rfl : t = t' := by simpa [apply] using howner
      simp [apply, hstamp] at hc
    · exact h.version_lt w' t' c (by simpa [apply, heq] using howner) hc
  · intro t' hsealed'
    obtain ⟨commit, hmem, hc, hkeys⟩ := h.sealed_log t' hsealed'
    refine ⟨commit, hmem, hc, fun w' howner => ?_⟩
    by_cases heq : w' = w
    · subst heq
      obtain rfl : t = t' := by simpa [apply] using howner
      simp [apply, hsealed] at hsealed'
    · exact hkeys w' (by simpa [apply, heq] using howner)
  · intro commit hmem w' hwrite
    refine (h.written commit hmem w' hwrite).imp_right ?_
    rintro ⟨t', howner, hrest⟩
    have hne : w' ≠ w := by rintro rfl; simp [hfree] at howner
    exact ⟨t', by simpa [apply, hne] using howner, hrest⟩
  · intro w' hdirty
    obtain ⟨t', howner, hrest⟩ := h.dirty_sealed w' hdirty
    have hne : w' ≠ w := by rintro rfl; simp [hfree] at howner
    exact ⟨t', by simpa [apply, hne] using howner, hrest⟩

theorem unlock (h : Inv memory store) (hen : store.Enabled t (.unlock w)) :
    Inv memory (store.apply t (.unlock w)) := by
  obtain ⟨howned, hunsealed⟩ := hen
  have hkeep : ∀ w' t', (store.apply t (.unlock w)).owner w' = some t' →
      store.owner w' = some t' := by
    intro w' t' howner
    by_cases heq : w' = w
    · subst heq; simp [apply] at howner
    · simpa [apply, heq] using howner
  have hother : ∀ w' t', store.owner w' = some t' → store.sealed t' = true →
      (store.apply t (.unlock w)).owner w' = some t' := by
    intro w' t' howner hsealed
    have hne : w' ≠ w := by
      rintro rfl
      obtain rfl : t = t' := by simpa [howned] using howner
      simp [hunsealed] at hsealed
    simpa [apply, hne] using howner
  refine { h with version_lt := ?_, sealed_log := ?_, written := ?_, dirty_sealed := ?_ }
  · exact fun w' t' c howner hc => h.version_lt w' t' c (hkeep w' t' howner) hc
  · intro t' hsealed
    obtain ⟨commit, hmem, hc, hkeys⟩ := h.sealed_log t' hsealed
    exact ⟨commit, hmem, hc, fun w' howner => hkeys w' (hkeep w' t' howner)⟩
  · intro commit hmem w' hwrite
    refine (h.written commit hmem w' hwrite).imp_right ?_
    rintro ⟨t', howner, hsealed, hc⟩
    exact ⟨t', hother w' t' howner hsealed, hsealed, hc⟩
  · intro w' hdirty
    obtain ⟨t', howner, hsealed, hrest⟩ := h.dirty_sealed w' hdirty
    exact ⟨t', hother w' t' howner hsealed, hsealed, hrest⟩

theorem draw (h : Inv memory store) (hen : store.Enabled t .draw) :
    Inv memory (store.apply t .draw) := by
  have hcases : ∀ t' c, (store.apply t .draw).stamp t' = some c →
      t' = t ∧ c = store.clock + 1 ∨ t' ≠ t ∧ store.stamp t' = some c := by
    intro t' c hc
    by_cases heq : t' = t
    · subst heq
      simp only [apply, Function.update_self, Option.some.injEq] at hc
      exact Or.inl ⟨rfl, hc.symm⟩
    · exact Or.inr ⟨heq, by simpa [apply, heq] using hc⟩
  have hsealedNe : ∀ t', store.sealed t' = true → t' ≠ t := by
    rintro t' hsealed rfl
    rw [show store.sealed t' = false from hen] at hsealed
    simp at hsealed
  refine { h with
    version_le := fun w => (h.version_le w).trans (Nat.le_succ _)
    log_le := fun commit hmem => (h.log_le commit hmem).trans (Nat.le_succ _)
    stamp_le := ?_, stamp_pos := ?_, stamp_inj := ?_, stamp_fresh := ?_, version_lt := ?_,
    sealed_log := ?_, written := ?_, dirty_sealed := ?_ }
  · intro t' c hc
    rcases hcases t' c hc with ⟨-, rfl⟩ | ⟨-, hc⟩
    · exact le_rfl
    · exact (h.stamp_le t' c hc).trans (Nat.le_succ _)
  · intro t' c hc
    rcases hcases t' c hc with ⟨-, rfl⟩ | ⟨-, hc⟩
    · exact Nat.succ_pos _
    · exact h.stamp_pos t' c hc
  · intro t' t'' c hc hc'
    rcases hcases t' c hc with ⟨heq, hclock⟩ | ⟨-, hold⟩ <;>
      rcases hcases t'' c hc' with ⟨heq', hclock'⟩ | ⟨-, hold'⟩
    · exact heq.trans heq'.symm
    · have := h.stamp_le t'' c hold'
      omega
    · have := h.stamp_le t' c hold
      omega
    · exact h.stamp_inj t' t'' c hold hold'
  · intro t' c hc hunsealed commit hmem
    rcases hcases t' c hc with ⟨rfl, rfl⟩ | ⟨-, hc⟩
    · have := h.log_le commit hmem
      omega
    · exact h.stamp_fresh t' c hc hunsealed commit hmem
  · intro w t' c howner hc
    rcases hcases t' c hc with ⟨rfl, rfl⟩ | ⟨-, hc⟩
    · exact Nat.lt_succ_of_le (h.version_le w)
    · exact h.version_lt w t' c howner hc
  · intro t' hsealed
    obtain ⟨commit, hmem, hc, hkeys⟩ := h.sealed_log t' hsealed
    exact ⟨commit, hmem, by simpa [apply, hsealedNe t' hsealed] using hc, hkeys⟩
  · intro commit hmem w hwrite
    refine (h.written commit hmem w hwrite).imp_right ?_
    rintro ⟨t', howner, hsealed, hc⟩
    exact ⟨t', howner, hsealed, by simpa [apply, hsealedNe t' hsealed] using hc⟩
  · intro w hdirty
    obtain ⟨t', howner, hsealed, hwrites⟩ := h.dirty_sealed w hdirty
    refine ⟨t', howner, hsealed, fun commit hmem hc => hwrites commit hmem ?_⟩
    simpa [apply, hsealedNe t' hsealed] using hc

theorem commit (h : Inv memory store) {writes : W → Option V}
    (hen : store.Enabled t (.commit writes)) : Inv memory (store.apply t (.commit writes)) := by
  obtain ⟨hunsealed, ⟨c, hc⟩, hkeys⟩ := hen
  have hlog : (store.apply t (.commit writes)).log = store.log ++ [⟨c, writes⟩] := by
    simp [apply, hc]
  have hnodup : ((store.log ++ [(⟨c, writes⟩ : Commit W V)]).map Commit.version).Nodup := by
    rw [List.map_append, List.nodup_append]
    refine ⟨h.log_nodup, by simp, ?_⟩
    intro a ha b hb hab
    obtain ⟨commit, hmem, rfl⟩ := List.mem_map.mp ha
    obtain rfl : b = c := by simpa using hb
    exact h.stamp_fresh t b hc hunsealed commit hmem hab
  have hstill : ∀ t', store.sealed t' = true →
      (store.apply t (.commit writes)).sealed t' = true := by
    intro t' hsealed
    by_cases heq : t' = t
    · subst heq; simp [apply]
    · simpa [apply, heq] using hsealed
  have hnew : ∀ commit : Commit W V, commit ∈ (store.apply t (.commit writes)).log →
      commit ∈ store.log ∨ commit = ⟨c, writes⟩ := by
    intro commit hmem
    rw [hlog] at hmem
    simpa using hmem
  refine { h with
    log_nodup := by rw [hlog]; exact hnodup
    stamp_fresh := ?_, sealed_log := ?_, log_le := ?_, log_pos := ?_, written := ?_,
    version_mem := ?_, dirty_sealed := ?_, clean := ?_ }
  · intro t' c' hc' hunsealed' commit hmem
    have hne : t' ≠ t := by rintro rfl; simp [apply] at hunsealed'
    rcases hnew commit hmem with hmem | rfl
    · exact h.stamp_fresh t' c' hc' (by simpa [apply, hne] using hunsealed') commit hmem
    · rintro rfl
      exact hne (h.stamp_inj t' t c hc' hc)
  · intro t' hsealed
    by_cases heq : t' = t
    · subst heq
      exact ⟨⟨c, writes⟩, by simp [hlog], hc, fun w howner => (hkeys w).mpr howner⟩
    · obtain ⟨commit, hmem, hrest⟩ := h.sealed_log t' (by simpa [apply, heq] using hsealed)
      exact ⟨commit, by simp [hlog, hmem], hrest⟩
  · intro commit hmem
    rcases hnew commit hmem with hmem | rfl
    · exact h.log_le commit hmem
    · exact h.stamp_le t c hc
  · intro commit hmem
    rcases hnew commit hmem with hmem | rfl
    · exact h.log_pos commit hmem
    · exact h.stamp_pos t c hc
  · intro commit hmem w hwrite
    rcases hnew commit hmem with hmem | rfl
    · refine (h.written commit hmem w hwrite).imp_right ?_
      rintro ⟨t', howner, hsealed, hc'⟩
      exact ⟨t', howner, hstill t' hsealed, hc'⟩
    · exact Or.inr ⟨t, (hkeys w).mp hwrite, by simp [apply], hc⟩
  · intro w
    refine (h.version_mem w).imp_right ?_
    rintro ⟨commit, hmem, hrest⟩
    exact ⟨commit, by simp [hlog, hmem], hrest⟩
  · intro w hdirty
    obtain ⟨t', howner, hsealed, hwrites⟩ := h.dirty_sealed w hdirty
    refine ⟨t', howner, hstill t' hsealed, fun commit hmem hc' => ?_⟩
    rcases hnew commit hmem with hmem | rfl
    · exact hwrites commit hmem hc'
    · obtain rfl := h.stamp_inj t' t c hc' hc
      simp [hunsealed] at hsealed
  · intro w hclean
    rw [contentAt, hlog, Commit.contentAt_append_of_skip hnodup]
    · exact h.clean w hclean
    · by_cases hwrite : writes w = none
      · exact Or.inl hwrite
      · exact Or.inr (h.version_lt w t c ((hkeys w).mp hwrite) hc)

theorem put (h : Inv memory store) {x : V} (hen : store.Enabled t (.put w x)) :
    Inv memory (store.apply t (.put w x)) := by
  obtain ⟨howned, hsealed, hwrites⟩ := hen
  refine { h with dirty_sealed := ?_, clean := ?_ }
  · intro w' hdirty
    by_cases heq : w' = w
    · subst heq
      exact ⟨t, howned, hsealed, by simpa [apply] using hwrites⟩
    · simpa [apply, heq] using h.dirty_sealed w' (by simpa [apply, heq] using hdirty)
  · intro w' hclean
    have hne : w' ≠ w := by rintro rfl; simp [apply] at hclean
    simpa [apply, hne, contentAt] using h.clean w' (by simpa [apply, hne] using hclean)

theorem release (h : Inv memory store) (hen : store.Enabled t (.release w)) :
    Inv memory (store.apply t (.release w)) := by
  obtain ⟨howned, hdirty⟩ := hen
  obtain ⟨t', howned', hsealed, hcell⟩ := h.dirty_sealed w hdirty
  obtain rfl : t = t' := by simpa [howned] using howned'
  obtain ⟨commit, hmem, hc, -⟩ := h.sealed_log t hsealed
  have hwrite := hcell commit hmem hc
  have hlt : store.version w < commit.version := h.version_lt w t _ howned hc
  have hversion : (store.apply t (.release w)).version w = commit.version := by simp [apply, hc]
  have hkeep : ∀ w' t', (store.apply t (.release w)).owner w' = some t' →
      w' ≠ w ∧ store.owner w' = some t' := by
    intro w' t' howner
    by_cases heq : w' = w
    · subst heq; simp [apply] at howner
    · exact ⟨heq, by simpa [apply, heq] using howner⟩
  refine { h with
    version_le := ?_, version_lt := ?_, sealed_log := ?_, written := ?_, version_mem := ?_,
    dirty_sealed := ?_, clean := ?_ }
  · intro w'
    by_cases heq : w' = w
    · subst heq
      rw [hversion]
      exact h.log_le commit hmem
    · simpa [apply, heq] using h.version_le w'
  · intro w' t'' c howner hc'
    obtain ⟨hne, howner⟩ := hkeep w' t'' howner
    simpa [apply, hne] using h.version_lt w' t'' c howner hc'
  · intro t'' hsealed'
    obtain ⟨commit', hmem', hc', hkeys⟩ := h.sealed_log t'' hsealed'
    exact ⟨commit', hmem', hc', fun w' howner => hkeys w' (hkeep w' t'' howner).2⟩
  · intro commit' hmem' w' hwrite'
    by_cases heq : w' = w
    · subst heq
      left
      rw [hversion]
      rcases h.written commit' hmem' w' hwrite' with hle | ⟨t'', howner, -, hc'⟩
      · omega
      · obtain rfl : t = t'' := by simpa [howned] using howner
        have : commit.version = commit'.version := by simpa [hc] using hc'
        omega
    · simpa [apply, heq] using h.written commit' hmem' w' hwrite'
  · intro w'
    by_cases heq : w' = w
    · subst heq
      exact Or.inr ⟨commit, hmem, hversion.symm, by simp [hwrite]⟩
    · simpa [apply, heq] using h.version_mem w'
  · intro w' hdirty'
    have hne : w' ≠ w := by rintro rfl; simp [apply] at hdirty'
    simpa [apply, hne] using h.dirty_sealed w' (by simpa [apply, hne] using hdirty')
  · intro w' hclean
    by_cases heq : w' = w
    · subst heq
      rw [hversion]
      refine (Commit.contentAt_eq_of_latest h.log_nodup hmem le_rfl hwrite ?_).symm
      exact fun _ _ hle _ => hle
    · have hclean' : store.dirty w' = false := by simpa [apply, heq] using hclean
      simpa [apply, heq, contentAt] using h.clean w' hclean'

theorem finish (h : Inv memory store) (hen : store.Enabled t .finish) :
    Inv memory (store.apply t .finish) := by
  have hstamp : ∀ t' c, (store.apply t .finish).stamp t' = some c →
      t' ≠ t ∧ store.stamp t' = some c := by
    intro t' c hc
    by_cases heq : t' = t
    · subst heq; simp [apply] at hc
    · exact ⟨heq, by simpa [apply, heq] using hc⟩
  have hsealed : ∀ t', t' ≠ t →
      (store.apply t .finish).sealed t' = store.sealed t' ∧
        (store.apply t .finish).stamp t' = store.stamp t' := by
    intro t' hne
    simp [apply, hne]
  have hother : ∀ w t', store.owner w = some t' → t' ≠ t := by
    rintro w t' howner rfl
    exact hen w howner
  refine { h with
    stamp_le := fun t' c hc => h.stamp_le t' c (hstamp t' c hc).2
    stamp_pos := fun t' c hc => h.stamp_pos t' c (hstamp t' c hc).2
    stamp_inj := fun t' t'' c hc hc' => h.stamp_inj t' t'' c (hstamp t' c hc).2 (hstamp t'' c hc').2
    version_lt := fun w t' c howner hc => h.version_lt w t' c howner (hstamp t' c hc).2
    stamp_fresh := ?_, sealed_log := ?_, written := ?_, dirty_sealed := ?_ }
  · intro t' c hc hunsealed commit hmem
    obtain ⟨hne, hc⟩ := hstamp t' c hc
    exact h.stamp_fresh t' c hc ((hsealed t' hne).1 ▸ hunsealed) commit hmem
  · intro t' hsealed'
    have hne : t' ≠ t := by rintro rfl; simp [apply] at hsealed'
    obtain ⟨hs, hst⟩ := hsealed t' hne
    rw [hst]
    exact h.sealed_log t' (hs ▸ hsealed')
  · intro commit hmem w hwrite
    refine (h.written commit hmem w hwrite).imp_right ?_
    rintro ⟨t', howner, hs, hc⟩
    obtain ⟨hs', hst⟩ := hsealed t' (hother w t' howner)
    exact ⟨t', howner, hs'.trans hs, hst.trans hc⟩
  · intro w hdirty
    obtain ⟨t', howner, hs, hwrites⟩ := h.dirty_sealed w hdirty
    obtain ⟨hs', hst⟩ := hsealed t' (hother w t' howner)
    exact ⟨t', howner, hs'.trans hs, fun commit hmem hc => hwrites commit hmem (hst ▸ hc)⟩

/-- Every enabled action keeps the invariant. -/
theorem step (h : Inv memory store) {action : StoreAction W V} (hen : store.Enabled t action) :
    Inv memory (store.apply t action) := by
  cases action with
  | lock w => exact h.lock hen
  | unlock w => exact h.unlock hen
  | draw => exact h.draw hen
  | commit writes => exact h.commit hen
  | put w x => exact h.put hen
  | release w => exact h.release hen
  | finish => exact h.finish hen

end Inv

/-! ### What the other threads see of an action -/

section Others

variable {t' : Tid} {action : StoreAction W V}

theorem owner_apply_other (hen : store.Enabled t action) (hne : t' ≠ t) :
    (store.apply t action).owner w = some t' ↔ store.owner w = some t' := by
  cases action with
  | lock w' =>
      by_cases heq : w = w'
      · subst heq; simp [apply, hen.1, hne.symm]
      · simp [apply, heq]
  | unlock w' =>
      by_cases heq : w = w'
      · subst heq; simp [apply, hen.1, hne.symm]
      · simp [apply, heq]
  | release w' =>
      by_cases heq : w = w'
      · subst heq; simp [apply, hen.1, hne.symm]
      · simp [apply, heq]
  | _ => rfl

theorem stamp_apply_other (hne : t' ≠ t) : (store.apply t action).stamp t' = store.stamp t' := by
  cases action <;> simp [apply, hne]

theorem sealed_apply_other (hne : t' ≠ t) : (store.apply t action).sealed t' = store.sealed t' := by
  cases action <;> simp [apply, hne]

theorem mem_log_apply {commit : Commit W V} (h : commit ∈ store.log) :
    commit ∈ (store.apply t action).log := by
  cases action <;> simp [apply, h]

theorem version_apply_other (hen : store.Enabled t action) (hne : t' ≠ t)
    (howner : store.owner w = some t') : (store.apply t action).version w = store.version w := by
  cases action with
  | release w' =>
      have hmine : w ≠ w' := by
        rintro rfl
        exact hne (by simpa [hen.1] using howner.symm)
      simp [apply, hmine]
  | _ => rfl

theorem dirty_apply_other (hen : store.Enabled t action) (hne : t' ≠ t)
    (howner : store.owner w = some t') : (store.apply t action).dirty w = store.dirty w := by
  have hmine : ∀ w', store.owner w' = some t → w ≠ w' := by
    rintro w' howned rfl
    exact hne (by simpa [howned] using howner.symm)
  cases action with
  | put w' x => simp [apply, hmine w' hen.1]
  | release w' => simp [apply, hmine w' hen.1]
  | _ => rfl

end Others

/-! ### Settled cells -/

/-- No commit that owns `w` can still release it at a version up to `bound`. -/
def Settled (store : Store Tid W V) (w : W) (bound : Nat) : Prop :=
  bound ≤ store.clock ∧
    ∀ t c, store.owner w = some t → store.stamp t = some c → bound < c

omit [DecidableEq Tid] [DecidableEq W] in
theorem settled_of_unlocked (hfree : store.owner w = none) (hle : bound ≤ store.clock) :
    store.Settled w bound :=
  ⟨hle, by simp [hfree]⟩

omit [DecidableEq Tid] [DecidableEq W] in
/-- A cell whose owner has not drawn yet is settled at every version drawn so far. -/
theorem settled_of_unstamped (hopen : ∀ t, store.owner w = some t → store.stamp t = none)
    (hle : bound ≤ store.clock) : store.Settled w bound :=
  ⟨hle, fun t c howner hc => by simp [hopen t howner] at hc⟩

/-- The clock never falls. -/
theorem clock_le_apply (action : StoreAction W V) :
    store.clock ≤ (store.apply t action).clock := by
  cases action <;> simp [apply]

/-- **A settled cell stays settled.** -/
theorem Settled.step (h : store.Settled w bound) {action : StoreAction W V}
    (hen : store.Enabled t action) : (store.apply t action).Settled w bound := by
  refine ⟨h.1.trans (clock_le_apply action), fun t' c howner hc => ?_⟩
  cases action with
  | lock w' =>
      by_cases heq : w = w'
      · subst heq
        obtain rfl : t = t' := by simpa [apply] using howner
        simp [apply, hen.2] at hc
      · exact h.2 t' c (by simpa [apply, heq] using howner) hc
  | unlock w' =>
      by_cases heq : w = w'
      · subst heq; simp [apply] at howner
      · exact h.2 t' c (by simpa [apply, heq] using howner) hc
  | draw =>
      by_cases heq : t' = t
      · subst heq
        obtain rfl : store.clock + 1 = c := by simpa [apply] using hc
        have := h.1
        omega
      · exact h.2 t' c howner (by simpa [apply, heq] using hc)
  | commit writes => exact h.2 t' c howner hc
  | put w' x => exact h.2 t' c howner hc
  | release w' =>
      by_cases heq : w = w'
      · subst heq; simp [apply] at howner
      · exact h.2 t' c (by simpa [apply, heq] using howner) hc
  | finish =>
      by_cases heq : t' = t
      · subst heq; simp [apply] at hc
      · exact h.2 t' c howner (by simpa [apply, heq] using hc)

/-- **Settled content never moves again.** -/
theorem Settled.contentAt_apply (h : store.Settled w bound) (hinv : Inv memory store)
    {action : StoreAction W V} (hen : store.Enabled t action) :
    (store.apply t action).contentAt memory bound w = store.contentAt memory bound w := by
  cases action with
  | commit writes =>
      have hnodup := (hinv.step hen).log_nodup
      obtain ⟨-, ⟨c, hc⟩, hkeys⟩ := hen
      have hlog : (store.apply t (.commit writes)).log = store.log ++ [⟨c, writes⟩] := by
        simp [apply, hc]
      rw [hlog] at hnodup
      rw [contentAt, hlog, Commit.contentAt_append_of_skip hnodup]
      · rfl
      · by_cases hwrite : writes w = none
        · exact Or.inl hwrite
        · exact Or.inr (h.2 t c ((hkeys w).mp hwrite) hc)
  | _ => rfl

/-- `x` is the content of `w` at version `bound`, for good. -/
def Shows (memory : W → V) (store : Store Tid W V) (bound : Nat) (w : W) (x : V) : Prop :=
  store.Settled w bound ∧ store.contentAt memory bound w = x

omit [DecidableEq Tid] [DecidableEq W] in
/-- A cell that is still at an old version, and that no sealed commit owns, shows at every later
version it is settled at what it showed before. -/
theorem Shows.extend {bound' : Nat} {x : V} (h : store.Shows memory bound w x)
    (hinv : Inv memory store) (hopen : ∀ t, store.owner w = some t → store.sealed t = false)
    (hversion : store.version w ≤ bound) (hle : bound ≤ bound')
    (hsettled : store.Settled w bound') : store.Shows memory bound' w x :=
  ⟨hsettled, by rw [← hinv.cell_eq hopen (hversion.trans hle), hinv.cell_eq hopen hversion, h.2]⟩

/-! ### Copies of a cell -/

/-- `x` was copied from `w` no earlier than `w` was seen at version `v`: as long as `w` is at `v`
and not being overwritten, it still holds `x`. -/
def Copied (store : Store Tid W V) (w : W) (v : Nat) (x : V) : Prop :=
  v ≤ store.version w ∧ (store.version w = v → store.dirty w = false → store.cell w = x)

omit [DecidableEq Tid] [DecidableEq W] in
theorem copied_cell {v : Nat} (hle : v ≤ store.version w) : store.Copied w v (store.cell w) :=
  ⟨hle, fun _ _ => rfl⟩

/-- Versions never fall. -/
theorem Inv.version_le_apply (h : Inv memory store) {action : StoreAction W V}
    (hen : store.Enabled t action) (w : W) :
    store.version w ≤ (store.apply t action).version w := by
  cases action with
  | release w' =>
      by_cases heq : w = w'
      · subst heq
        obtain ⟨t', howner, hsealed, -⟩ := h.dirty_sealed w hen.2
        obtain rfl : t = t' := by simpa [hen.1] using howner
        obtain ⟨commit, -, hc, -⟩ := h.sealed_log t hsealed
        simpa [apply, hc] using (h.version_lt w t _ howner hc).le
      · simp [apply, heq]
  | _ => simp [apply]

theorem Copied.step {v : Nat} {x : V} (h : store.Copied w v x) (hinv : Inv memory store)
    {action : StoreAction W V} (hen : store.Enabled t action) :
    (store.apply t action).Copied w v x := by
  refine ⟨h.1.trans (hinv.version_le_apply hen w), fun hversion hclean => ?_⟩
  cases action with
  | put w' y =>
      have hne : w ≠ w' := by rintro rfl; simp [apply] at hclean
      have hkeep := h.2 hversion (by simpa [apply, hne] using hclean)
      simpa [apply, hne] using hkeep
  | release w' =>
      have hne : w ≠ w' := by
        rintro rfl
        obtain ⟨t', howner, hsealed, -⟩ := hinv.dirty_sealed w hen.2
        obtain rfl : t = t' := by simpa [hen.1] using howner
        obtain ⟨commit, -, hc, -⟩ := hinv.sealed_log t hsealed
        have hlt := hinv.version_lt w t _ howner hc
        have hle := h.1
        simp only [apply, hc, Option.getD_some, Function.update_self] at hversion
        omega
      exact h.2 (by simpa [apply, hne] using hversion) (by simpa [apply, hne] using hclean)
  | _ => exact h.2 hversion hclean

omit [DecidableEq Tid] [DecidableEq W] in
/-- **A confirmed copy is the content.** A copy whose cell is found again at the same version, owned
by no commit past its clock draw, is the cell's content at every version drawn so far that is not
below it, and stays so. -/
theorem Copied.confirm {v : Nat} {x : V} (h : store.Copied w v x) (hinv : Inv memory store)
    (hversion : store.version w = v)
    (hopen : ∀ t, store.owner w = some t → store.stamp t = none)
    (hle : v ≤ bound) (hclock : bound ≤ store.clock) : store.Shows memory bound w x := by
  have hunsealed : ∀ t, store.owner w = some t → store.sealed t = false := by
    intro t howner
    by_contra hsealed
    obtain ⟨commit, -, hc, -⟩ := hinv.sealed_log t (by simpa using hsealed)
    simp [hopen t howner] at hc
  refine ⟨settled_of_unstamped hopen hclock, ?_⟩
  rw [← hinv.cell_eq hunsealed (hversion.le.trans hle)]
  exact h.2 hversion (hinv.not_dirty hunsealed)

/-! ### What readers keep -/

/-- What readers know of one store still holds of a later one. -/
structure Later (memory : W → V) (store store' : Store Tid W V) : Prop where
  clock_le : store.clock ≤ store'.clock
  version_le : ∀ w, store.version w ≤ store'.version w
  shows : ∀ bound w x, store.Shows memory bound w x → store'.Shows memory bound w x
  copied : ∀ w v x, store.Copied w v x → store'.Copied w v x

omit [DecidableEq Tid] [DecidableEq W] in
theorem Later.refl (memory : W → V) (store : Store Tid W V) : Later memory store store :=
  ⟨le_rfl, fun _ => le_rfl, fun _ _ _ h => h, fun _ _ _ h => h⟩

theorem Inv.later_apply (h : Inv memory store) {action : StoreAction W V}
    (hen : store.Enabled t action) : Later memory store (store.apply t action) := by
  refine ⟨clock_le_apply action, h.version_le_apply hen, fun bound w x hshows => ?_,
    fun w v x hcopied => hcopied.step h hen⟩
  obtain ⟨hsettled, hcontent⟩ := hshows
  exact ⟨hsettled.step hen, (hsettled.contentAt_apply h hen).trans hcontent⟩

end Store

end Concurrency
