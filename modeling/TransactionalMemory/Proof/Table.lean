import TransactionalMemory.Proof.Segments

/-!
# The segment table

`va_arr` never names a segment at two indices, and what the table holds at an index changes only
when a segment is started there or deleted. An index is live while the segment it names is finished.
-/

namespace TransactionalMemory

open Concurrency

variable {V : Type}

def Tm.Live (tm : Tm V) (spot : Nat) : Prop :=
  ∃ s g, tm.vaArr spot = .segment s ∧ tm.segment s = some g ∧ g.state = .ready

structure Tm.TableInv (tm : Tm V) : Prop where
  node_lt : ∀ n c, tm.node n = some c → n < tm.nodeCount
  segment_lt : ∀ spot s, tm.vaArr spot = .segment s → s < tm.segmentCount
  segment_inj : ∀ spot spot' s, tm.vaArr spot = .segment s → tm.vaArr spot' = .segment s →
    spot = spot'

namespace Tm.TableInv

variable {tm tm' : Tm V}

theorem congr (h : tm.TableInv) (hnode : tm'.node = tm.node)
    (hnodeCount : tm'.nodeCount = tm.nodeCount)
    (hvaArr : tm'.vaArr = tm.vaArr) (hcount : tm'.segmentCount = tm.segmentCount) :
    tm'.TableInv := by
  refine ⟨?_, ?_, ?_⟩
  · rw [hnode, hnodeCount]
    exact h.node_lt
  · rw [hvaArr, hcount]
    exact h.segment_lt
  · rw [hvaArr]
    exact h.segment_inj

theorem deleteSegment (h : tm.TableInv) (spot : Int) : (tm.deleteSegment spot).TableInv := by
  unfold Tm.deleteSegment
  split
  · refine ⟨fun n c hn => ?_, fun x s hx => ?_, fun x x' s hx hx' => ?_⟩
    · by_cases heq : n = tm.nodeCount
      · subst heq
        exact Nat.lt_succ_self _
      · exact Nat.lt_succ_of_lt (h.node_lt n c (by simpa [heq] using hn))
    · have hne : x ≠ spot.toNat := by rintro rfl; simp at hx
      exact h.segment_lt x s (by simpa [hne] using hx)
    · have hne : x ≠ spot.toNat := by rintro rfl; simp at hx
      have hne' : x' ≠ spot.toNat := by rintro rfl; simp at hx'
      exact h.segment_inj x x' s (by simpa [hne] using hx) (by simpa [hne'] using hx')
  · exact h

variable [Zero V]

/-- Every operation keeps the table: a segment is started under a new name. -/
theorem apply (h : tm.TableInv) (o : Op V) : (tm.apply o).TableInv := by
  cases o with
  | newSegment spot =>
      refine ⟨h.node_lt, fun x s hx => ?_, fun x x' s hx hx' => ?_⟩
      · by_cases heq : x = spot
        · subst heq
          obtain rfl : tm.segmentCount = s := by simpa [Tm.apply] using hx
          exact Nat.lt_succ_self _
        · exact Nat.lt_succ_of_lt (h.segment_lt x s (by simpa [Tm.apply, heq] using hx))
      · by_cases heq : x = spot
        · by_cases heq' : x' = spot
          · rw [heq, heq']
          · obtain rfl : tm.segmentCount = s := by simpa [Tm.apply, heq] using hx
            have := h.segment_lt x' _ (by simpa [Tm.apply, heq'] using hx')
            exact absurd this (Nat.lt_irrefl _)
        · by_cases heq' : x' = spot
          · obtain rfl : tm.segmentCount = s := by simpa [Tm.apply, heq'] using hx'
            have := h.segment_lt x _ (by simpa [Tm.apply, heq] using hx)
            exact absurd this (Nat.lt_irrefl _)
          · exact h.segment_inj x x' s (by simpa [Tm.apply, heq] using hx)
              (by simpa [Tm.apply, heq'] using hx')
  | noSegment spot =>
      have hold : ∀ x s, (tm.apply (.noSegment spot)).vaArr x = .segment s →
          tm.vaArr x = .segment s := by
        intro x s hx
        have hne : x ≠ spot := by rintro rfl; simp [Tm.apply] at hx
        simpa [Tm.apply, hne] using hx
      exact ⟨h.node_lt, fun x s hx => h.segment_lt x s (hold x s hx),
        fun x x' s hx hx' => h.segment_inj x x' s (hold x s hx) (hold x' s hx')⟩
  | newNode spot =>
      refine ⟨fun n c hn => ?_, h.segment_lt, h.segment_inj⟩
      by_cases heq : n = tm.nodeCount
      · subst heq
        exact Nat.lt_succ_self _
      · exact Nat.lt_succ_of_lt (h.node_lt n c (by simpa [Tm.apply, heq] using hn))
  | freeNode n =>
      refine ⟨fun n' c hn => ?_, h.segment_lt, h.segment_inj⟩
      have hne : n' ≠ n := by rintro rfl; simp [Tm.apply] at hn
      exact h.node_lt n' c (by simpa [Tm.apply, hne] using hn)
  | deleteSegment spot => exact h.deleteSegment spot
  | casLock w expected success =>
      cases success <;> exact h.congr rfl rfl rfl rfl
  | _ => exact h.congr rfl rfl rfl rfl

theorem after (h : tm.TableInv) (event : Event V) : (tm.after event).TableInv := by
  cases event with
  | op o => exact h.apply o
  | _ => exact h

omit [Zero V] in
theorem live_congr (hvaArr : tm'.vaArr = tm.vaArr) (hsegment : tm'.segment = tm.segment) (x : Nat) :
    tm'.Live x ↔ tm.Live x := by
  simp [Tm.Live, hvaArr, hsegment]

omit [Zero V] in
theorem live_newSegment (h : tm.TableInv) {spot : Nat} (hidle : ¬ tm.Live spot)
    (hvaArr : tm'.vaArr = Function.update tm.vaArr spot (.segment tm.segmentCount))
    (hsegment : tm'.segment = Function.update tm.segment tm.segmentCount (some ⟨0, 0, .raw⟩))
    (x : Nat) : tm'.Live x ↔ tm.Live x := by
  by_cases heq : x = spot
  · subst heq
    simp [Tm.Live, hvaArr, hsegment] at hidle ⊢
    exact hidle
  · constructor
    · rintro ⟨s, g, hx, hg, hready⟩
      rw [hvaArr, Function.update_of_ne heq] at hx
      have hne : s ≠ tm.segmentCount := (h.segment_lt x s hx).ne
      rw [hsegment, Function.update_of_ne hne] at hg
      exact ⟨s, g, hx, hg, hready⟩
    · rintro ⟨s, g, hx, hg, hready⟩
      have hne : s ≠ tm.segmentCount := (h.segment_lt x s hx).ne
      exact ⟨s, g, by rw [hvaArr, Function.update_of_ne heq, hx],
        by rw [hsegment, Function.update_of_ne hne, hg], hready⟩

omit [Zero V] in
theorem live_noSegment {spot : Nat} (hidle : ¬ tm.Live spot)
    (hvaArr : tm'.vaArr = Function.update tm.vaArr spot .null) (hsegment : tm'.segment = tm.segment)
    (x : Nat) : tm'.Live x ↔ tm.Live x := by
  by_cases heq : x = spot
  · subst heq
    refine ⟨fun h => ?_, fun h => absurd h hidle⟩
    obtain ⟨s, g, hx, -⟩ := h
    simp [hvaArr] at hx
  · simp [Tm.Live, hvaArr, hsegment, heq]

omit [Zero V] in
theorem live_unfinished {s : SegId} {f : Segment → Segment} {seg : Segment}
    (hseg : tm.segment s = some seg) (hbefore : seg.state ≠ .ready)
    (hafter : (f seg).state ≠ .ready) (hvaArr : tm'.vaArr = tm.vaArr)
    (hsegment : tm'.segment = Function.update tm.segment s ((tm.segment s).map f)) (x : Nat) :
    tm'.Live x ↔ tm.Live x := by
  have hne : ∀ {s' : SegId}, s' ≠ s → tm'.segment s' = tm.segment s' := by
    intro s' hne
    rw [hsegment, Function.update_of_ne hne]
  constructor
  · rintro ⟨s', g, hx, hg, hready⟩
    by_cases heq : s' = s
    · subst heq
      obtain rfl : f seg = g := by simpa [hsegment, hseg] using hg
      exact absurd hready hafter
    · exact ⟨s', g, hvaArr ▸ hx, hne heq ▸ hg, hready⟩
  · rintro ⟨s', g, hx, hg, hready⟩
    by_cases heq : s' = s
    · subst heq
      obtain rfl : seg = g := by simpa [hseg] using hg
      exact absurd hready hbefore
    · exact ⟨s', g, by rw [hvaArr, hx], by rw [hne heq, hg], hready⟩

omit [Zero V] in
theorem live_finished (h : tm.TableInv) {spot : Nat} {s : SegId} {f : Segment → Segment}
    {seg : Segment} (hspot : tm.vaArr spot = .segment s) (hseg : tm.segment s = some seg)
    (hafter : (f seg).state = .ready) (hvaArr : tm'.vaArr = tm.vaArr)
    (hsegment : tm'.segment = Function.update tm.segment s ((tm.segment s).map f)) (x : Nat) :
    tm'.Live x ↔ tm.Live x ∨ x = spot := by
  have hne : ∀ {s' : SegId}, s' ≠ s → tm'.segment s' = tm.segment s' := by
    intro s' hne
    rw [hsegment, Function.update_of_ne hne]
  constructor
  · rintro ⟨s', g, hx, hg, hready⟩
    rw [hvaArr] at hx
    by_cases heq : s' = s
    · subst heq
      exact Or.inr (h.segment_inj x spot s' hx hspot)
    · exact Or.inl ⟨s', g, hx, hne heq ▸ hg, hready⟩
  · rintro (⟨s', g, hx, hg, hready⟩ | rfl)
    · by_cases heq : s' = s
      · subst heq
        exact ⟨s', f seg, by rw [hvaArr, hx], by simp [hsegment, hseg], hafter⟩
      · exact ⟨s', g, by rw [hvaArr, hx], by rw [hne heq, hg], hready⟩
    · exact ⟨s, f seg, by rw [hvaArr, hspot], by simp [hsegment, hseg], hafter⟩

omit [Zero V] in
theorem live_deleted (h : tm.TableInv) {spot : Nat} {s : SegId} (hspot : tm.vaArr spot = .segment s)
    (hvaArr : tm'.vaArr = Function.update tm.vaArr spot .null)
    (hsegment : tm'.segment = Function.update tm.segment s none) (x : Nat) :
    tm'.Live x ↔ tm.Live x ∧ x ≠ spot := by
  constructor
  · rintro ⟨s', g, hx, hg, hready⟩
    have hne : x ≠ spot := by rintro rfl; simp [hvaArr] at hx
    have hne' : s' ≠ s := by rintro rfl; simp [hsegment] at hg
    rw [hvaArr, Function.update_of_ne hne] at hx
    rw [hsegment, Function.update_of_ne hne'] at hg
    exact ⟨⟨s', g, hx, hg, hready⟩, hne⟩
  · rintro ⟨⟨s', g, hx, hg, hready⟩, hne⟩
    have hne' : s' ≠ s := by
      rintro rfl
      exact hne (h.segment_inj x spot s' hx hspot)
    exact ⟨s', g, by rw [hvaArr, Function.update_of_ne hne, hx],
      by rw [hsegment, Function.update_of_ne hne', hg], hready⟩

end Tm.TableInv

section Reachable

variable [Zero V] {Tid : Type} [DecidableEq Tid] {platform : Platform V} {s : State Tid V}

theorem tableInv (h : (system Tid platform).Reachable s) : s.tm.TableInv := by
  refine h.invariant (P := fun s => s.tm.TableInv) (fun s hs => ?_) fun s l s' _ ih hstep => ?_
  · obtain ⟨-, choice, size, align, -, -, -, -, hcreate⟩ := hs
    obtain ⟨-, -, htm⟩ := tmCreate_eq hcreate
    have hzero : ∀ spot g, s.tm.vaArr spot = .segment g → spot = 0 ∧ g = 0 := by
      intro spot g hspot
      rw [htm] at hspot
      by_cases heq : spot = 0
      · subst heq
        exact ⟨rfl, by simpa [Tm.created] using hspot.symm⟩
      · simp [Tm.created, heq] at hspot
    refine ⟨fun n c hn => ?_, fun spot g hspot => ?_, fun spot spot' g hspot hspot' => ?_⟩
    · simp [htm, Tm.created, Tm.bare] at hn
    · obtain ⟨-, rfl⟩ := hzero spot g hspot
      simp [htm, Tm.created]
    · rw [(hzero spot g hspot).1, (hzero spot' g hspot').1]
  · obtain ⟨-, htm, -⟩ := system_step_move hstep
    rw [htm]
    exact ih.after l.event

end Reachable

end TransactionalMemory
