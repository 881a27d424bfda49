import TransactionalMemory.Proof.Words

/-!
# The low bits of the lock words

Whatever the versions are, a lock word is odd exactly while some thread holds the lock, and no two
threads hold one lock. Nothing here depends on how large the clock has grown.
-/

namespace TransactionalMemory

open Concurrency

variable {V Tid : Type}

theorem vlLocked_eq_false_iff {word : Int} : vlLocked word = false ↔ word % 2 = 0 := by
  simp only [vlLocked, decide_eq_false_iff_not]
  omega

theorem vlLocked_vlUnlockUpdate (version : Int) : vlLocked (vlUnlockUpdate version) = false := by
  rw [vlLocked_eq_false_iff, vlUnlockUpdate, toInt, Int.bmod_def]
  split <;> omega

theorem vlLocked_vlTaken (word : Int) : vlLocked (vlTaken word) = true := by
  unfold vlTaken
  cases hword : vlLocked word with
  | true => simp [hword]
  | false =>
      rw [vlLocked_eq_false_iff] at hword
      simp only [Bool.false_eq_true, if_false, vlLocked, decide_eq_true_eq]
      omega

/-- Taking a free lock and giving it back leaves the word as it was. -/
theorem vlUnlock_vlTaken {word : Int} (hfree : vlLocked word = false) (hlo : -2 ^ 31 ≤ word)
    (hhi : word < 2 ^ 31) : vlUnlock (vlTaken word) = word := by
  rw [vlTaken, hfree, vlUnlock]
  simp only [Bool.false_eq_true, if_false, add_sub_cancel_right]
  exact toInt_eq_self hlo hhi

structure LockWordsInv (s : State Tid V) : Prop where
  free : ∀ w, (∀ tid, w ∉ (s.thread tid).held) → vlLocked (s.tm.lock w) = false
  taken : ∀ tid w, w ∈ (s.thread tid).held → vlLocked (s.tm.lock w) = true
  range : ∀ w, -2 ^ 31 ≤ s.tm.lock w ∧ s.tm.lock w < 2 ^ 31
  unique : ∀ tid tid' w, w ∈ (s.thread tid).held → w ∈ (s.thread tid').held → tid = tid'
  nodup : ∀ tid, (s.thread tid).held.Nodup
  opened : ∀ tid w, w ∈ (s.thread tid).held → ¬ s.tm.Unopened w.seg

variable [Zero V] [DecidableEq Tid] {platform : Platform V} {s s' : State Tid V} {l : Label Tid V}

namespace LockWordsInv

theorem init (h : (system Tid platform).init s) : LockWordsInv s := by
  obtain ⟨hidle, choice, size, align, -, -, -, -, hcreate⟩ := h
  obtain ⟨-, -, htm⟩ := tmCreate_eq hcreate
  have hlock : ∀ w, s.tm.lock w = 0 := by simp [htm, Tm.created, Tm.bare, vlInit]
  have hheld : ∀ tid, (s.thread tid).held = [] := fun tid => by rw [hidle tid]; rfl
  exact ⟨fun w _ => by rw [hlock]; rfl, by simp [hheld], by simp [hlock], by simp [hheld],
    by simp [hheld], by simp [hheld]⟩

omit [Zero V] [DecidableEq Tid] in
/-- A step that changes no lock that anybody holds. -/
theorem of_same (h : LockWordsInv s) (hheld : ∀ tid, (s'.thread tid).held = (s.thread tid).held)
    (hlock : ∀ w, s'.tm.lock w = s.tm.lock w ∨
      (∀ tid, w ∉ (s.thread tid).held) ∧ s'.tm.lock w = 0)
    (hopened : ∀ g, s'.tm.Unopened g → s.tm.Unopened g) : LockWordsInv s' := by
  refine ⟨fun w hw => ?_, fun tid w hw => ?_, fun w => ?_, ?_, ?_, ?_⟩
  · simp only [hheld] at hw
    rcases hlock w with hsame | ⟨-, hzero⟩
    · rw [hsame]
      exact h.free w hw
    · rw [hzero]
      rfl
  · rw [hheld] at hw
    rcases hlock w with hsame | ⟨hnone, -⟩
    · rw [hsame]
      exact h.taken tid w hw
    · exact absurd hw (hnone tid)
  · rcases hlock w with hsame | ⟨-, hzero⟩
    · rw [hsame]
      exact h.range w
    · simp [hzero]
  · simpa only [hheld] using h.unique
  · simpa only [hheld] using h.nodup
  · intro tid w hw hunopened
    rw [hheld] at hw
    exact h.opened tid w hw (hopened _ hunopened)

omit [Zero V] in
/-- A step that gives back one lock of its thread at an unlocked value. -/
theorem of_given (h : LockWordsInv s) {w : Word} {value : Int}
    (hother : ∀ tid, tid ≠ l.tid → s'.thread tid = s.thread tid)
    (hheld : (s.thread l.tid).held = w :: (s'.thread l.tid).held)
    (hlock : s'.tm.lock = Function.update s.tm.lock w value) (hfree : vlLocked value = false)
    (hrange : -2 ^ 31 ≤ value ∧ value < 2 ^ 31)
    (hopened : ∀ g, s'.tm.Unopened g → s.tm.Unopened g) : LockWordsInv s' := by
  have hnodup := h.nodup l.tid
  rw [hheld, List.nodup_cons] at hnodup
  have howned : w ∈ (s.thread l.tid).held := by simp [hheld]
  have hkept : ∀ tid w', w' ∈ (s'.thread tid).held → w' ≠ w ∧ w' ∈ (s.thread tid).held := by
    intro tid w' hw'
    by_cases heq : tid = l.tid
    · subst heq
      exact ⟨fun hsame => hnodup.1 (hsame ▸ hw'), by rw [hheld]; exact List.mem_cons_of_mem _ hw'⟩
    · rw [hother tid heq] at hw'
      refine ⟨fun hsame => heq ?_, hw'⟩
      exact h.unique tid l.tid w (hsame ▸ hw') howned
  refine ⟨fun w' hw' => ?_, fun tid w' hw' => ?_, fun w' => ?_, fun tid tid' w' hw' hw'' => ?_,
    fun tid => ?_, fun tid w' hw' hunopened => ?_⟩
  · by_cases heq : w' = w
    · simp [hlock, heq, hfree]
    · rw [hlock, Function.update_of_ne heq]
      refine h.free w' fun tid hmem => hw' tid ?_
      by_cases htid : tid = l.tid
      · subst htid
        rw [hheld] at hmem
        exact (List.mem_cons.mp hmem).resolve_left heq
      · rwa [hother tid htid]
  · obtain ⟨hne, hmem⟩ := hkept tid w' hw'
    rw [hlock, Function.update_of_ne hne]
    exact h.taken tid w' hmem
  · by_cases heq : w' = w
    · simpa [hlock, heq] using hrange
    · rw [hlock, Function.update_of_ne heq]
      exact h.range w'
  · exact h.unique tid tid' w' (hkept tid w' hw').2 (hkept tid' w' hw'').2
  · by_cases heq : tid = l.tid
    · subst heq
      exact hnodup.2
    · rw [hother tid heq]
      exact h.nodup tid
  · exact h.opened tid w' (hkept tid w' hw').2 (hopened _ hunopened)

omit [Zero V] in
/-- A step that takes a free lock. -/
theorem of_taken (h : LockWordsInv s) {w : Word} (hfree : vlLocked (s.tm.lock w) = false)
    (hother : ∀ tid, tid ≠ l.tid → s'.thread tid = s.thread tid)
    (hheld : (s'.thread l.tid).held = (s.thread l.tid).held ++ [w])
    (hlock : s'.tm.lock = Function.update s.tm.lock w (vlTaken (s.tm.lock w)))
    (hvalid : ¬ s.tm.Unopened w.seg) (hopened : ∀ g, s'.tm.Unopened g → s.tm.Unopened g) :
    LockWordsInv s' := by
  have hnone : ∀ tid, w ∉ (s.thread tid).held := by
    intro tid hmem
    simp [h.taken tid w hmem] at hfree
  have hcases : ∀ tid w', w' ∈ (s'.thread tid).held →
      w' ∈ (s.thread tid).held ∨ w' = w ∧ tid = l.tid := by
    intro tid w' hw'
    by_cases heq : tid = l.tid
    · subst heq
      rw [hheld] at hw'
      rcases List.mem_append.mp hw' with hw' | hw'
      · exact Or.inl hw'
      · exact Or.inr ⟨List.mem_singleton.mp hw', rfl⟩
    · exact Or.inl (hother tid heq ▸ hw')
  refine ⟨fun w' hw' => ?_, fun tid w' hw' => ?_, fun w' => ?_, fun tid tid' w' hw' hw'' => ?_,
    fun tid => ?_, fun tid w' hw' hunopened => ?_⟩
  · have hne : w' ≠ w := by
      rintro rfl
      exact hw' l.tid (by simp [hheld])
    rw [hlock, Function.update_of_ne hne]
    refine h.free w' fun tid hmem => hw' tid ?_
    by_cases htid : tid = l.tid
    · subst htid
      rw [hheld]
      exact List.mem_append_left _ hmem
    · rwa [hother tid htid]
  · by_cases heq : w' = w
    · simp [hlock, heq, vlLocked_vlTaken]
    · rw [hlock, Function.update_of_ne heq]
      exact h.taken tid w' ((hcases tid w' hw').resolve_right fun hnew => heq hnew.1)
  · by_cases heq : w' = w
    · have hrange := h.range w
      have hvalue : vlTaken (s.tm.lock w) = s.tm.lock w + 1 := by simp [vlTaken, hfree]
      rw [vlLocked_eq_false_iff] at hfree
      rw [hlock, heq, Function.update_self, hvalue]
      omega
    · rw [hlock, Function.update_of_ne heq]
      exact h.range w'
  · rcases hcases tid w' hw' with hold | ⟨rfl, rfl⟩ <;>
      rcases hcases tid' w' hw'' with hold' | ⟨heq, rfl⟩
    · exact h.unique tid tid' w' hold hold'
    · exact absurd (heq ▸ hold) (hnone tid)
    · exact absurd hold' (hnone tid')
    · rfl
  · by_cases heq : tid = l.tid
    · subst heq
      rw [hheld, List.nodup_append]
      refine ⟨h.nodup l.tid, by simp, fun w' hw' w'' hw'' hsame => ?_⟩
      rw [hsame, List.mem_singleton.mp hw''] at hw'
      exact hnone l.tid hw'
    · rw [hother tid heq]
      exact h.nodup tid
  · rcases hcases tid w' hw' with hold | ⟨rfl, -⟩
    · exact h.opened tid w' hold (hopened _ hunopened)
    · exact hvalid (hopened _ hunopened)

/-- **One step** keeps the low bits right. -/
theorem step (hsegs : SegmentsInv s) (hwf : (s.thread l.tid).Wf) (h : LockWordsInv s)
    (hstep : (system Tid platform).step s l s') : LockWordsInv s' := by
  obtain ⟨hthread, htm, hother⟩ := system_step_move hstep
  have hopened : ∀ g, s'.tm.Unopened g → s.tm.Unopened g := fun g => hsegs.unopened_of_step hstep
  cases hthread.wordMove hwf with
  | quiet hstore hlock hdata hclock hheld =>
      exact h.of_same (thread_keep hother hheld) (fun w => Or.inl (by rw [htm, hlock])) hopened
  | filled hevent hbuilding hheld =>
      exact h.of_same (thread_keep hother hheld) (fun w => Or.inl (by rw [htm, hevent]; rfl))
        hopened
  | @readied g size hevent hbuilding hheld =>
      refine h.of_same (thread_keep hother hheld) (fun w => ?_) hopened
      by_cases heq : w.seg = g
      · refine Or.inr ⟨fun tid hmem => ?_, by simp [htm, hevent, Tm.after, Tm.apply, heq, vlInit]⟩
        exact h.opened tid w hmem (heq ▸ hsegs.unopened_of_building hbuilding)
      · exact Or.inl (by simp [htm, hevent, Tm.after, Tm.apply, Tm.setSegment, heq])
  | locked hevent hvalid hpass hheld =>
      simp only [vlTryLockRefuses, Bool.or_eq_false_iff] at hpass
      exact h.of_taken hpass.1 hother hheld (by rw [htm, hevent]; rfl)
        (hsegs.not_unopened_of_valid hvalid) hopened
  | @unlocked w hevent hvalid hheld =>
      have htaken := h.taken l.tid w (by simp [hheld])
      have hrange := h.range w
      simp only [vlLocked, decide_eq_true_eq] at htaken
      have hvalue : vlUnlock (s.tm.lock w) = s.tm.lock w - 1 := by
        rw [vlUnlock, toInt_eq_self] <;> omega
      refine h.of_given hother hheld (by rw [htm, hevent]; rfl) ?_ ?_ hopened
      · rw [hvalue, vlLocked_eq_false_iff]
        omega
      · rw [hvalue]
        omega
  | drew hevent hwv hheld | decided hevent hkeys hheld | put hevent hvalid howned hmem hheld =>
      exact h.of_same (thread_keep hother hheld) (fun w => Or.inl (by rw [htm, hevent]; rfl))
        hopened
  | released hevent hvalid hheld =>
      exact h.of_given hother hheld (by rw [htm, hevent]; rfl) (vlLocked_vlUnlockUpdate _)
        (toInt_mem _) hopened
  | returned hevent hbefore hheld =>
      exact h.of_same (thread_keep hother (hheld.trans hbefore.symm))
        (fun w => Or.inl (by rw [htm, hevent]; rfl)) hopened

end LockWordsInv

theorem lockWordsInv (h : (system Tid platform).Reachable s) : LockWordsInv s :=
  h.invariant (fun _ => LockWordsInv.init) fun _ l _ hreach hinv hstep =>
    hinv.step (segmentsInv hreach) (threadWf hreach l.tid) hstep

end TransactionalMemory
