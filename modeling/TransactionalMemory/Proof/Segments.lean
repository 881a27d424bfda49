import TransactionalMemory.Proof.LifecycleMoves

/-!
# Segments under construction

Each `tm_alloc` in progress fills in a segment of its own, and nobody else can reach that segment
before it is finished: words of an unfinished segment are never valid, and `delete_segment` is only
handed finished ones.
-/

namespace TransactionalMemory

open Concurrency

variable {V : Type}

/-- The segment that a `tm_alloc` in progress fills in, with the state it has left it in. -/
def Thread.building : Thread V → Option (SegId × SegState)
  | .allocating _ _ (.initData _ s) => some (s, .raw)
  | .allocating _ _ (.initLocks _ s) => some (s, .filled)
  | _ => none

theorem Thread.building_ne_ready (thread : Thread V) (g : SegId) :
    thread.building ≠ some (g, .ready) := by
  unfold Thread.building
  split <;> simp

theorem Thread.building_ne_broken (thread : Thread V) (g : SegId) :
    thread.building ≠ some (g, .broken) := by
  unfold Thread.building
  split <;> simp

/-- No word of the segment can have been locked or written yet. -/
def Tm.Unopened (tm : Tm V) (s : SegId) : Prop :=
  tm.segmentCount ≤ s ∨ ∃ g, tm.segment s = some g ∧ (g.state = .raw ∨ g.state = .filled)

inductive SegmentMove [Zero V] (tm : Tm V) (thread : Thread V) (event : Event V)
    (thread' : Thread V) : Prop where
  | quiet (hbuilding : thread'.building = thread.building)
      (hsegment : (tm.after event).segment = tm.segment)
      (hcount : (tm.after event).segmentCount = tm.segmentCount)
  | started {spot : Nat} (hevent : event = .op (.newSegment spot))
      (hbefore : thread.building = none) (hafter : thread'.building = some (tm.segmentCount, .raw))
  | filled {s : SegId} {numWords : Int} (hevent : event = .op (.fillSegment s numWords))
      (hbefore : thread.building = some (s, .raw)) (hafter : thread'.building = some (s, .filled))
  | readied {s : SegId} {size : Nat} (hevent : event = .op (.readySegment s size))
      (hbefore : thread.building = some (s, .filled)) (hafter : thread'.building = none)
  | failed {s : SegId} {state : SegState}
      (hevent : event = .op (.failData s) ∨ event = .op (.failLocks s))
      (hbefore : thread.building = some (s, state)) (hafter : thread'.building = none)
  | deleted {spot : Int} (hevent : event = .op (.deleteSegment spot))
      (hbefore : thread.building = none) (hafter : thread'.building = none)
      (hready : ∀ s, tm.vaArr spot.toNat = .segment s →
        ∃ g, tm.segment s = some g ∧ g.state = .ready)

section Moves

variable [Zero V] {platform : Platform V} {tm : Tm V} {choice : Choice V}
  {thread thread' : Thread V} {event : Event V}

theorem TmEndMove.segmentMove {t : Tx V} {pc : EndPc}
    (h : TmEndMove platform tm t pc event thread') :
    SegmentMove tm (.ending t pc) event thread' := by
  cases h with
  | drainNull hi hspot hnull =>
      exact .deleted rfl rfl rfl fun s hs => by simp [hnull] at hs
  | @drain i spot s g hi hspot hseg hg hready =>
      refine .deleted rfl rfl rfl fun s' hs' => ?_
      obtain rfl : s = s' := by simpa [hseg] using hs'
      exact ⟨g, hg, hready⟩
  | _ => exact .quiet rfl rfl rfl

theorem TmAllocMove.segmentMove {t : Tx V} {size : Nat} {pc : AllocPc}
    (h : TmAllocMove tm choice t size pc event thread') :
    SegmentMove tm (.allocating t size pc) event thread' := by
  cases h with
  | initStruct => exact .started rfl rfl rfl
  | initData => exact .filled rfl rfl rfl
  | initLocks => exact .readied rfl rfl rfl
  | noData => exact .failed (Or.inl rfl) rfl rfl
  | noLocks => exact .failed (Or.inr rfl) rfl rfl
  | _ => exact .quiet rfl rfl rfl

theorem ThreadMove.segmentMove (h : ThreadMove platform tm choice thread event thread') :
    SegmentMove tm thread event thread' := by
  cases h with
  | call h => cases h <;> exact .quiet rfl rfl rfl
  | begin h => cases h <;> exact .quiet rfl rfl rfl
  | read h => cases h <;> exact .quiet rfl rfl rfl
  | roRead h => cases h <;> exact .quiet rfl rfl rfl
  | write h => cases h <;> exact .quiet rfl rfl rfl
  | alloc h => exact h.segmentMove
  | free h => cases h <;> exact .quiet rfl rfl rfl
  | finish h => exact h.segmentMove
  | _ => exact .quiet rfl rfl rfl

end Moves

/-! ### The invariant -/

structure SegmentsInv {Tid : Type} (s : State Tid V) : Prop where
  fresh : ∀ g, s.tm.segmentCount ≤ g → s.tm.segment g = none
  building : ∀ tid g state, (s.thread tid).building = some (g, state) →
    ∃ seg, s.tm.segment g = some seg ∧ seg.state = state
  distinct : ∀ tid tid' g state state', (s.thread tid).building = some (g, state) →
    (s.thread tid').building = some (g, state') → tid = tid'

variable [Zero V] {Tid : Type} [DecidableEq Tid] {platform : Platform V} {s s' : State Tid V}
  {l : Label Tid V}

namespace SegmentsInv

theorem init (h : (system Tid platform).init s) : SegmentsInv s := by
  obtain ⟨hidle, choice, size, align, -, -, -, -, hcreate⟩ := h
  obtain ⟨-, -, htm⟩ := tmCreate_eq hcreate
  refine ⟨fun g hge => ?_, fun tid g state h => ?_, fun tid _ g state _ h => ?_⟩
  · rw [htm] at hge ⊢
    have hne : g ≠ 0 := by
      rintro rfl
      simp [Tm.created] at hge
    simp [Tm.created, hne]
  · simp [hidle tid, Thread.building] at h
  · simp [hidle tid, Thread.building] at h

omit [Zero V] [DecidableEq Tid] in
theorem lt_count (h : SegmentsInv s) {tid : Tid} {g : SegId} {state : SegState}
    (hbuilding : (s.thread tid).building = some (g, state)) : g < s.tm.segmentCount := by
  by_contra hge
  obtain ⟨seg, hseg, -⟩ := h.building tid g state hbuilding
  simp [h.fresh g (not_lt.mp hge)] at hseg

omit [Zero V] in
/-- A move that ends or changes nothing but the mover's own segment. -/
theorem of_own {tid : Tid} {g : SegId} {state : SegState} (f : Segment → Segment)
    (h : SegmentsInv s) (hbefore : (s.thread tid).building = some (g, state))
    (hsegment : s'.tm.segment = Function.update s.tm.segment g ((s.tm.segment g).map f))
    (hcount : s'.tm.segmentCount = s.tm.segmentCount)
    (hother : ∀ tid', tid' ≠ tid → s'.thread tid' = s.thread tid')
    (hafter : ∀ g' state', (s'.thread tid).building = some (g', state') →
      g' = g ∧ ∀ seg : Segment, (f seg).state = state') : SegmentsInv s' := by
  obtain ⟨seg, hseg, -⟩ := h.building tid g state hbefore
  refine ⟨fun g' hge => ?_, fun tid' g' state' hbuilding => ?_,
    fun tid' tid'' g' state' state'' hbuilding hbuilding' => ?_⟩
  · rw [hcount] at hge
    have hne : g' ≠ g := by
      rintro rfl
      exact absurd (h.lt_count hbefore) (not_lt.mpr hge)
    rw [hsegment, Function.update_of_ne hne]
    exact h.fresh g' hge
  · by_cases heq : tid' = tid
    · subst heq
      obtain ⟨rfl, hstate⟩ := hafter g' state' hbuilding
      exact ⟨f seg, by simp [hsegment, hseg], hstate seg⟩
    · rw [hother tid' heq] at hbuilding
      have hne : g' ≠ g := by
        rintro rfl
        exact heq (h.distinct tid' tid g' state' state hbuilding hbefore)
      rw [hsegment, Function.update_of_ne hne]
      exact h.building tid' g' state' hbuilding
  · have hback : ∀ u state, (s'.thread u).building = some (g', state) →
        ∃ state, (s.thread u).building = some (g', state) := by
      intro u state hu
      by_cases heq : u = tid
      · subst heq
        obtain ⟨rfl, -⟩ := hafter g' state hu
        exact ⟨_, hbefore⟩
      · exact ⟨state, hother u heq ▸ hu⟩
    obtain ⟨_, h₁⟩ := hback tid' state' hbuilding
    obtain ⟨_, h₂⟩ := hback tid'' state'' hbuilding'
    exact h.distinct tid' tid'' g' _ _ h₁ h₂

omit [Zero V] [DecidableEq Tid] in
theorem of_quiet {tid : Tid} (h : SegmentsInv s) (hsegment : s'.tm.segment = s.tm.segment)
    (hcount : s'.tm.segmentCount = s.tm.segmentCount)
    (hother : ∀ tid', tid' ≠ tid → s'.thread tid' = s.thread tid')
    (hbuilding : (s'.thread tid).building = (s.thread tid).building) : SegmentsInv s' := by
  have hsame := thread_keep hother hbuilding
  refine ⟨?_, ?_, ?_⟩
  · rw [hsegment, hcount]
    exact h.fresh
  · simp only [hsegment, hsame]
    exact h.building
  · simp only [hsame]
    exact h.distinct

omit [Zero V] in
/-- A segment of its own for the mover, which nobody has seen before. -/
theorem of_created {tid : Tid} (seg : Segment) (h : SegmentsInv s)
    (hsegment : s'.tm.segment = Function.update s.tm.segment s.tm.segmentCount (some seg))
    (hcount : s'.tm.segmentCount = s.tm.segmentCount + 1)
    (hother : ∀ tid', tid' ≠ tid → s'.thread tid' = s.thread tid')
    (hafter : (s'.thread tid).building = some (s.tm.segmentCount, seg.state)) :
    SegmentsInv s' := by
  have hkeep : ∀ g, g ≠ s.tm.segmentCount → s'.tm.segment g = s.tm.segment g := by
    intro g hne
    rw [hsegment, Function.update_of_ne hne]
  have hown : ∀ {g state}, (s'.thread tid).building = some (g, state) →
      g = s.tm.segmentCount ∧ seg.state = state := by
    intro g state hbuilding
    obtain ⟨hg, hstate⟩ := Prod.mk.inj (Option.some.inj (hafter.symm.trans hbuilding))
    exact ⟨hg.symm, hstate⟩
  have hold : ∀ {tid' g state}, tid' ≠ tid → (s'.thread tid').building = some (g, state) →
      (s.thread tid').building = some (g, state) ∧ g ≠ s.tm.segmentCount := by
    intro tid' g state hne hbuilding
    rw [hother tid' hne] at hbuilding
    exact ⟨hbuilding, (h.lt_count hbuilding).ne⟩
  refine ⟨fun g hge => ?_, fun tid' g state hbuilding => ?_,
    fun tid' tid'' g state state' hbuilding hbuilding' => ?_⟩
  · rw [hkeep g (by omega)]
    exact h.fresh g (by omega)
  · by_cases heq : tid' = tid
    · subst heq
      obtain ⟨rfl, hstate⟩ := hown hbuilding
      exact ⟨seg, by rw [hsegment, Function.update_self], hstate⟩
    · obtain ⟨hbuilding, hne⟩ := hold heq hbuilding
      rw [hkeep g hne]
      exact h.building tid' g state hbuilding
  · by_cases heq : tid' = tid
    · by_cases heq' : tid'' = tid
      · rw [heq, heq']
      · exact absurd (hown (heq ▸ hbuilding)).1 (hold heq' hbuilding').2
    · by_cases heq' : tid'' = tid
      · exact absurd (hown (heq' ▸ hbuilding')).1 (hold heq hbuilding).2
      · exact h.distinct tid' tid'' g state state' (hold heq hbuilding).1 (hold heq' hbuilding').1

omit [Zero V] [DecidableEq Tid] in
/-- A finished segment goes, and nobody builds one that is finished. -/
theorem of_deleted {tid : Tid} (h : SegmentsInv s)
    (hsegment : ∀ g, s'.tm.segment g = s.tm.segment g ∨
      s'.tm.segment g = none ∧ ∃ seg, s.tm.segment g = some seg ∧ seg.state = .ready)
    (hcount : s'.tm.segmentCount = s.tm.segmentCount)
    (hother : ∀ tid', tid' ≠ tid → s'.thread tid' = s.thread tid')
    (hbuilding : (s'.thread tid).building = (s.thread tid).building) : SegmentsInv s' := by
  have hsame := thread_keep hother hbuilding
  refine ⟨fun g hge => ?_, fun tid' g state hbuilding => ?_, ?_⟩
  · rcases hsegment g with hg | ⟨hg, -⟩
    · rw [hg, h.fresh g (hcount ▸ hge)]
    · exact hg
  · rw [hsame] at hbuilding
    obtain ⟨seg, hseg, rfl⟩ := h.building tid' g state hbuilding
    rcases hsegment g with hg | ⟨-, seg', hseg', hready⟩
    · exact ⟨seg, hg ▸ hseg, rfl⟩
    · obtain rfl : seg' = seg := Option.some.inj (hseg'.symm.trans hseg)
      exact absurd (hready ▸ hbuilding) ((s.thread tid').building_ne_ready g)
  · simp only [hsame]
    exact h.distinct

theorem step (h : SegmentsInv s) (hstep : (system Tid platform).step s l s') : SegmentsInv s' := by
  obtain ⟨hmove, htm, hother⟩ := system_step_move hstep
  rcases hmove.segmentMove with ⟨hbuilding, hsegment, hcount⟩ | ⟨hevent, hbefore, hafter⟩ |
    ⟨hevent, hbefore, hafter⟩ | ⟨hevent, hbefore, hafter⟩ | ⟨hevent, hbefore, hafter⟩ |
    ⟨hevent, hbefore, hafter, hready⟩
  · exact h.of_quiet (by rw [htm, hsegment]) (by rw [htm, hcount]) hother hbuilding
  · rw [hevent] at htm
    exact of_created ⟨0, 0, .raw⟩ h (by rw [htm]; rfl) (by rw [htm]; rfl) hother hafter
  · rw [hevent] at htm
    refine of_own (fun seg => { seg with numWords := _, state := .filled }) h hbefore
      (by rw [htm]; rfl) (by rw [htm]; rfl) hother fun g' state' hbuilding => ?_
    rw [hafter, Option.some.injEq, Prod.mk.injEq] at hbuilding
    exact ⟨hbuilding.1.symm, fun _ => hbuilding.2⟩
  · rw [hevent] at htm
    exact of_own (fun seg => { seg with size := _, state := .ready }) h hbefore
      (by rw [htm]; rfl) (by rw [htm]; rfl) hother
      fun g' state' hbuilding => by simp [hafter] at hbuilding
  · refine of_own (fun seg => { seg with state := .broken }) h hbefore ?_ ?_ hother
      fun g' state' hbuilding => by simp [hafter] at hbuilding
    · rcases hevent with hevent | hevent <;> rw [hevent] at htm <;> rw [htm] <;> rfl
    · rcases hevent with hevent | hevent <;> rw [hevent] at htm <;> rw [htm] <;> rfl
  · rw [hevent] at htm
    refine h.of_deleted (fun g => ?_) ?_ hother (hafter.trans hbefore.symm)
    · simp only [htm, Tm.after, Tm.apply, Tm.deleteSegment]
      split
      · rename_i g' hspot
        by_cases heq : g = g'
        · subst heq
          exact Or.inr ⟨Function.update_self _ _ _, hready g hspot⟩
        · exact Or.inl (Function.update_of_ne heq _ _)
      · exact Or.inl rfl
    · simp only [htm, Tm.after, Tm.apply, Tm.deleteSegment]
      split <;> rfl

omit [Zero V] [DecidableEq Tid] in
theorem not_unopened_of_valid (h : SegmentsInv s) {w : Word} (hvalid : s.tm.valid w = true) :
    ¬ s.tm.Unopened w.seg := by
  unfold Tm.valid at hvalid
  split at hvalid
  · rename_i g hg
    rw [decide_eq_true_eq] at hvalid
    rintro (hge | ⟨g', hg', hstate⟩)
    · simp [h.fresh w.seg hge] at hg
    · obtain rfl : g = g' := by simpa [hg] using hg'
      simp [hvalid.1] at hstate
  · cases hvalid

omit [Zero V] [DecidableEq Tid] in
theorem unopened_of_building (h : SegmentsInv s) {tid : Tid} {g : SegId} {state : SegState}
    (hbuilding : (s.thread tid).building = some (g, state)) : s.tm.Unopened g := by
  obtain ⟨seg, hseg, rfl⟩ := h.building tid g state hbuilding
  have hstate : seg.state = .raw ∨ seg.state = .filled := by
    cases hs : seg.state with
    | raw => exact Or.inl rfl
    | filled => exact Or.inr rfl
    | ready => exact absurd (hs ▸ hbuilding) ((s.thread tid).building_ne_ready g)
    | broken => exact absurd (hs ▸ hbuilding) ((s.thread tid).building_ne_broken g)
  exact Or.inr ⟨seg, hseg, hstate⟩

/-- A segment whose words were reached once is never out of reach again. -/
theorem unopened_of_step (h : SegmentsInv s) (hstep : (system Tid platform).step s l s') {g : SegId}
    (hg : s'.tm.Unopened g) : s.tm.Unopened g := by
  obtain ⟨hmove, htm, -⟩ := system_step_move hstep
  have hset : ∀ {g' : SegId} {state : SegState} {f : Segment → Segment},
      (s.thread l.tid).building = some (g', state) →
      s'.tm.segment = Function.update s.tm.segment g' ((s.tm.segment g').map f) →
      s'.tm.segmentCount = s.tm.segmentCount → s.tm.Unopened g := by
    intro g' state f hbuilding hsegment hcount
    by_cases heq : g = g'
    · exact heq ▸ h.unopened_of_building hbuilding
    · simpa [Tm.Unopened, hsegment, hcount, heq] using hg
  cases hmove.segmentMove with
  | quiet hbuilding hsegment hcount => simpa [Tm.Unopened, htm, hsegment, hcount] using hg
  | started hevent hbefore hafter =>
      rw [hevent] at htm
      by_cases hge : s.tm.segmentCount ≤ g
      · exact Or.inl hge
      · have hne : g ≠ s.tm.segmentCount := fun heq => hge heq.ge
        rcases hg with hcount | ⟨seg, hseg, hstate⟩
        · simp only [htm, Tm.after, Tm.apply] at hcount
          exact Or.inl (Nat.le_of_succ_le hcount)
        · exact Or.inr ⟨seg, by simpa [htm, Tm.after, Tm.apply, hne] using hseg, hstate⟩
  | filled hevent hbefore hafter =>
      rw [hevent] at htm
      exact hset hbefore (by rw [htm]; rfl) (by rw [htm]; rfl)
  | readied hevent hbefore hafter =>
      rw [hevent] at htm
      exact hset hbefore (by rw [htm]; rfl) (by rw [htm]; rfl)
  | failed hevent hbefore hafter =>
      rcases hevent with hevent | hevent <;> rw [hevent] at htm <;>
        exact hset hbefore (by rw [htm]; rfl) (by rw [htm]; rfl)
  | deleted hevent hbefore hafter hready =>
      rw [hevent] at htm
      simp only [Tm.Unopened, htm, Tm.after, Tm.apply, Tm.deleteSegment] at hg
      split at hg
      · rename_i g' hspot
        by_cases heq : g = g'
        · subst heq
          simpa [Tm.Unopened] using Or.inl hg
        · simpa [Tm.Unopened, heq] using hg
      · exact hg

end SegmentsInv

theorem segmentsInv (h : (system Tid platform).Reachable s) : SegmentsInv s :=
  h.invariant (fun _ => SegmentsInv.init) fun _ _ _ _ hinv hstep => hinv.step hstep

end TransactionalMemory
