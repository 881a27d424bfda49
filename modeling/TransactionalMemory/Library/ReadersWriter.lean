import TransactionalMemory.Library.Blocks
import TransactionalMemory.Library.Machine
import Mathlib.Data.Finset.Card
import Mathlib.Logic.Function.Basic

/-!
# Blocks under a readers–writer lock

Any number of threads that move on state of their own and on state that all share, and run blocks on
data behind one lock: blocks that only read with a shared hold on it, the others with the exclusive
one. Every interleaving of their steps has the effect of an interleaving of whole blocks. A block
takes effect at its last step: until then the data are as they were when it took the lock.
-/

namespace Concurrency

variable {π δ β : Type*} (B : Blocks π δ β) (Tid γ κ : Type*)

/-- What the threads do between their blocks. -/
structure Clients where
  init : γ → (Tid → κ) → Prop
  move : Tid → γ × κ → γ × κ → Prop
  /-- The block a thread is about to run, and whether it only reads. -/
  block : Tid → κ → Option (Bool × π)
  returns : Tid → κ → β → κ
  quiet : ∀ {tid k p}, block tid k = some (true, p) → B.Quiet p

structure Locked (Tid γ κ π δ : Type*) where
  shared : γ
  own : Tid → κ
  data : δ
  readers : Nat
  writer : Bool
  /-- The block a thread is in. -/
  inside : Tid → Option (Bool × π)

structure Atomic (Tid γ κ δ : Type*) where
  shared : γ
  own : Tid → κ
  data : δ

variable {B Tid γ κ} [DecidableEq Tid] (C : Clients B Tid γ κ)

namespace Clients

def release (isRo : Bool) (s : Locked Tid γ κ π δ) : Locked Tid γ κ π δ :=
  if isRo then { s with readers := s.readers - 1 } else { s with writer := false }

inductive LockedStep (tid : Tid) (s : Locked Tid γ κ π δ) : Locked Tid γ κ π δ → Prop where
  | move {g : γ} {k : κ} (hout : s.inside tid = none)
      (h : C.move tid (s.shared, s.own tid) (g, k)) :
      LockedStep tid s { s with shared := g, own := Function.update s.own tid k }
  | enterShared {p : π} (hout : s.inside tid = none)
      (hblock : C.block tid (s.own tid) = some (true, p)) (hwriter : s.writer = false) :
      LockedStep tid s { s with
        readers := s.readers + 1, inside := Function.update s.inside tid (some (true, p)) }
  | enter {p : π} (hout : s.inside tid = none)
      (hblock : C.block tid (s.own tid) = some (false, p)) (hwriter : s.writer = false)
      (hreaders : s.readers = 0) :
      LockedStep tid s { s with
        writer := true, inside := Function.update s.inside tid (some (false, p)) }
  | work {isRo : Bool} {p p' : π} {d : δ} (hin : s.inside tid = some (isRo, p))
      (h : B.step (p, s.data) (p', d)) :
      LockedStep tid s { s with
        data := d, inside := Function.update s.inside tid (some (isRo, p')) }
  | leave {isRo : Bool} {p : π} {b : β} (hin : s.inside tid = some (isRo, p))
      (hresult : B.result p = some b) :
      LockedStep tid s { release isRo s with
        own := Function.update s.own tid (C.returns tid (s.own tid) b)
        inside := Function.update s.inside tid none }

def locked (d : δ) : Machine (Locked Tid γ κ π δ) Tid where
  init s := C.init s.shared s.own ∧ s.data = d ∧ s.readers = 0 ∧ s.writer = false ∧
    ∀ tid, s.inside tid = none
  step s tid s' := C.LockedStep tid s s'

inductive AtomicStep (tid : Tid) (a : Atomic Tid γ κ δ) : Atomic Tid γ κ δ → Prop where
  | move {g : γ} {k : κ} (h : C.move tid (a.shared, a.own tid) (g, k)) :
      AtomicStep tid a { a with shared := g, own := Function.update a.own tid k }
  | block {isRo : Bool} {p p' : π} {d : δ} {b : β}
      (hblock : C.block tid (a.own tid) = some (isRo, p)) (hruns : B.Runs (p, a.data) (p', d))
      (hresult : B.result p' = some b) :
      AtomicStep tid a
        { a with own := Function.update a.own tid (C.returns tid (a.own tid) b), data := d }

def atomic (d : δ) : Machine (Atomic Tid γ κ δ) Tid where
  init a := C.init a.shared a.own ∧ a.data = d
  step a tid a' := C.AtomicStep tid a a'

/-! ### Refinement -/

/-- The blocks that threads are in have not taken effect yet. -/
structure Refines (s : Locked Tid γ κ π δ) (a : Atomic Tid γ κ δ) : Prop where
  shared : a.shared = s.shared
  own : a.own = s.own
  data : s.writer = false → s.data = a.data
  readers : ∃ holders : Finset Tid, holders.card = s.readers ∧
    ∀ tid, tid ∈ holders ↔ ∃ p, s.inside tid = some (true, p)
  writer : s.writer = true ↔ ∃ tid p, s.inside tid = some (false, p)
  alone : ∀ {tid p}, s.inside tid = some (false, p) → ∀ t, t ≠ tid → s.inside t = none
  begun : ∀ {tid isRo p}, s.inside tid = some (isRo, p) →
    ∃ p₀, C.block tid (s.own tid) = some (isRo, p₀) ∧ B.Runs (p₀, a.data) (p, s.data)

variable {C} {s s' : Locked Tid γ κ π δ} {a a' : Atomic Tid γ κ δ} {tid : Tid} {isRo : Bool} {p : π}

omit [DecidableEq Tid] in
theorem Refines.not_writer (h : C.Refines s a) (hin : s.inside tid = some (true, p)) :
    s.writer = false := by
  rw [← Bool.not_eq_true, h.writer]
  rintro ⟨t, q, ht⟩
  by_cases htid : tid = t
  · subst htid
    rw [hin] at ht
    cases ht
  · rw [h.alone ht tid htid] at hin
    cases hin

omit [DecidableEq Tid] in
theorem Refines.readers_pos (h : C.Refines s a) (hin : s.inside tid = some (true, p)) :
    0 < s.readers := by
  obtain ⟨holders, hcard, hmem⟩ := h.readers
  rw [← hcard]
  exact Finset.card_pos.mpr ⟨tid, (hmem tid).mpr ⟨p, hin⟩⟩

omit [DecidableEq Tid] in
theorem Refines.no_readers (h : C.Refines s a) (hin : s.inside tid = some (false, p)) :
    s.readers = 0 := by
  obtain ⟨holders, hcard, hmem⟩ := h.readers
  rw [← hcard, Finset.card_eq_zero, Finset.eq_empty_iff_forall_notMem]
  intro t ht
  obtain ⟨q, ht⟩ := (hmem t).mp ht
  have hwriter := h.writer.mpr ⟨tid, p, hin⟩
  exact Bool.false_ne_true ((h.not_writer ht).symm.trans hwriter)

omit [DecidableEq Tid] in
theorem Refines.empty (h : C.Refines s a) (hreaders : s.readers = 0) (hwriter : s.writer = false) :
    ∀ t, s.inside t = none := by
  intro t
  match ht : s.inside t with
  | none => rfl
  | some (true, q) =>
      have hpos := h.readers_pos ht
      omega
  | some (false, q) =>
      rw [h.writer.mpr ⟨t, q, ht⟩] at hwriter
      cases hwriter

/-! ### Every step of the threads is a step of whole blocks, or none -/

theorem Refines.move {g : γ} {k : κ} (h : C.Refines s a) (hout : s.inside tid = none) :
    C.Refines { s with shared := g, own := Function.update s.own tid k }
      { a with shared := g, own := Function.update a.own tid k } where
  shared := rfl
  own := by rw [h.own]
  data := h.data
  readers := h.readers
  writer := h.writer
  alone := h.alone
  begun := by
    intro t isRo q ht
    have htid : t ≠ tid := by
      rintro rfl
      rw [hout] at ht
      cases ht
    simp only [Function.update_of_ne htid]
    exact h.begun ht

theorem Refines.enterShared (h : C.Refines s a) (hout : s.inside tid = none)
    (hblock : C.block tid (s.own tid) = some (true, p)) (hwriter : s.writer = false) :
    C.Refines { s with
      readers := s.readers + 1, inside := Function.update s.inside tid (some (true, p)) } a where
  shared := h.shared
  own := h.own
  data := h.data
  readers := by
    obtain ⟨holders, hcard, hmem⟩ := h.readers
    have hnew : tid ∉ holders := by
      rw [hmem, hout]
      rintro ⟨q, ⟨⟩⟩
    refine ⟨insert tid holders, ?_, fun t => ?_⟩
    · rw [Finset.card_insert_of_notMem hnew, hcard]
    · by_cases htid : t = tid
      · subst htid
        simp
      · simp [htid, hmem]
  writer := by
    refine iff_of_false (by simp [hwriter]) ?_
    rintro ⟨t, q, ht⟩
    by_cases htid : t = tid
    · subst htid
      simp at ht
    · simp only [Function.update_of_ne htid] at ht
      rw [h.writer.mpr ⟨t, q, ht⟩] at hwriter
      cases hwriter
  alone := by
    intro t q ht
    by_cases htid : t = tid
    · subst htid
      simp at ht
    · simp only [Function.update_of_ne htid] at ht
      rw [h.writer.mpr ⟨t, q, ht⟩] at hwriter
      cases hwriter
  begun := by
    intro t isRo q ht
    by_cases htid : t = tid
    · subst htid
      simp only [Function.update_self, Option.some.injEq, Prod.mk.injEq] at ht
      obtain ⟨rfl, rfl⟩ := ht
      exact ⟨p, hblock, h.data hwriter ▸ .refl⟩
    · simp only [Function.update_of_ne htid] at ht
      exact h.begun ht

theorem Refines.enter (h : C.Refines s a) (hblock : C.block tid (s.own tid) = some (false, p))
    (hwriter : s.writer = false) (hreaders : s.readers = 0) :
    C.Refines { s with
      writer := true, inside := Function.update s.inside tid (some (false, p)) } a := by
  have hempty := h.empty hreaders hwriter
  have hothers : ∀ {t isRo q}, Function.update s.inside tid (some (false, p)) t = some (isRo, q) →
      t = tid ∧ isRo = false ∧ q = p := by
    intro t isRo q ht
    by_cases htid : t = tid
    · subst htid
      simp only [Function.update_self, Option.some.injEq, Prod.mk.injEq] at ht
      exact ⟨rfl, ht.1.symm, ht.2.symm⟩
    · rw [Function.update_of_ne htid, hempty t] at ht
      cases ht
  refine ⟨h.shared, h.own, by rintro ⟨⟩, ⟨∅, by simp [hreaders], fun t => ?_⟩, ?_, ?_, ?_⟩
  · refine iff_of_false (Finset.notMem_empty t) ?_
    rintro ⟨q, ht⟩
    cases (hothers ht).2.1
  · exact iff_of_true rfl ⟨tid, p, Function.update_self ..⟩
  · intro t q ht u hu
    obtain ⟨rfl, -⟩ := hothers ht
    exact (Function.update_of_ne hu ..).trans (hempty u)
  · intro t isRo q ht
    obtain ⟨rfl, rfl, rfl⟩ := hothers ht
    exact ⟨q, hblock, h.data hwriter ▸ .refl⟩

theorem Refines.work {p' : π} {d : δ} (h : C.Refines s a) (hin : s.inside tid = some (isRo, p))
    (hstep : B.step (p, s.data) (p', d)) :
    C.Refines { s with data := d, inside := Function.update s.inside tid (some (isRo, p')) } a := by
  obtain ⟨p₀, hblock, hruns⟩ := h.begun hin
  have hruns' : B.Runs (p₀, a.data) (p', d) := hruns.tail hstep
  -- A block that only reads leaves the data alone, and nobody is inside with one that writes.
  have hdata : ∀ {t q r}, t ≠ tid → s.inside t = some (q, r) → d = s.data := by
    intro t q r htid ht
    cases isRo with
    | true =>
        exact (C.quiet hblock _ _ hruns').trans (C.quiet hblock _ _ hruns).symm
    | false =>
        rw [h.alone hin t htid] at ht
        cases ht
  have hself : ∀ {t q r}, Function.update s.inside tid (some (isRo, p')) t = some (q, r) →
      t = tid ∧ q = isRo ∧ r = p' ∨ t ≠ tid ∧ s.inside t = some (q, r) := by
    intro t q r ht
    by_cases htid : t = tid
    · subst htid
      simp only [Function.update_self, Option.some.injEq, Prod.mk.injEq] at ht
      exact .inl ⟨rfl, ht.1.symm, ht.2.symm⟩
    · exact .inr ⟨htid, by rwa [Function.update_of_ne htid] at ht⟩
  have hsame : ∀ t q, (∃ r, Function.update s.inside tid (some (isRo, p')) t = some (q, r)) ↔
      ∃ r, s.inside t = some (q, r) := by
    intro t q
    by_cases htid : t = tid
    · subst htid
      simp [hin]
    · rw [Function.update_of_ne htid]
  refine ⟨h.shared, h.own, fun hwriter => ?_, ?_, ?_, ?_, ?_⟩
  · cases isRo with
    | true => exact (C.quiet hblock _ _ hruns')
    | false =>
        have hheld := h.writer.mpr ⟨tid, p, hin⟩
        exact (Bool.false_ne_true (hwriter.symm.trans hheld)).elim
  · obtain ⟨holders, hcard, hmem⟩ := h.readers
    exact ⟨holders, hcard, fun t => (hmem t).trans (hsame t true).symm⟩
  · exact h.writer.trans (exists_congr fun t => (hsame t false).symm)
  · intro t q ht u hu
    obtain ⟨r, ht'⟩ := (hsame t false).mp ⟨q, ht⟩
    have hnone := h.alone ht' u hu
    have hutid : u ≠ tid := by
      rintro rfl
      rw [hin] at hnone
      cases hnone
    exact (Function.update_of_ne hutid ..).trans hnone
  · intro t q r ht
    rcases hself ht with ⟨rfl, rfl, rfl⟩ | ⟨htid, ht⟩
    · exact ⟨p₀, hblock, hruns'⟩
    · rw [hdata htid ht]
      exact h.begun ht

theorem Refines.leave {b : β} (h : C.Refines s a) (hin : s.inside tid = some (isRo, p)) :
    C.Refines { release isRo s with
        own := Function.update s.own tid (C.returns tid (s.own tid) b)
        inside := Function.update s.inside tid none }
      { a with
        own := Function.update a.own tid (C.returns tid (a.own tid) b)
        data := s.data } := by
  have hothers : ∀ {t q r}, Function.update s.inside tid none t = some (q, r) →
      t ≠ tid ∧ s.inside t = some (q, r) := by
    intro t q r ht
    by_cases htid : t = tid
    · subst htid
      rw [Function.update_self] at ht
      cases ht
    · exact ⟨htid, by rwa [Function.update_of_ne htid] at ht⟩
  have hbegun : ∀ {t q r}, Function.update s.inside tid none t = some (q, r) → ∃ p₀,
      C.block t (Function.update s.own tid (C.returns tid (s.own tid) b) t) = some (q, p₀) ∧
        B.Runs (p₀, s.data) (r, s.data) := by
    intro t q r ht
    obtain ⟨htid, ht⟩ := hothers ht
    obtain ⟨p₀, hblock, hruns⟩ := h.begun ht
    rw [Function.update_of_ne htid]
    refine ⟨p₀, hblock, ?_⟩
    cases isRo with
    | true => rwa [← h.data (h.not_writer hin)] at hruns
    | false =>
        rw [h.alone hin t htid] at ht
        cases ht
  cases isRo with
  | true =>
      refine ⟨h.shared, by rw [h.own], fun _ => rfl, ?_, ?_, ?_, hbegun⟩
      · obtain ⟨holders, hcard, hmem⟩ := h.readers
        have hheld : tid ∈ holders := (hmem tid).mpr ⟨p, hin⟩
        refine ⟨holders.erase tid, by rw [Finset.card_erase_of_mem hheld, hcard]; rfl, fun t => ?_⟩
        by_cases htid : t = tid
        · subst htid
          simp
        · simp [htid, hmem]
      · refine iff_of_false (by simp [release, h.not_writer hin]) ?_
        rintro ⟨t, q, ht⟩
        have hwriter := h.writer.mpr ⟨t, q, (hothers ht).2⟩
        exact Bool.false_ne_true ((h.not_writer hin).symm.trans hwriter)
      · intro t q ht
        have hwriter := h.writer.mpr ⟨t, q, (hothers ht).2⟩
        exact (Bool.false_ne_true ((h.not_writer hin).symm.trans hwriter)).elim
  | false =>
      have hempty : ∀ t, Function.update s.inside tid none t = none := by
        intro t
        by_cases htid : t = tid
        · rw [htid, Function.update_self]
        · rw [Function.update_of_ne htid, h.alone hin t htid]
      refine ⟨h.shared, by rw [h.own], fun _ => rfl, ⟨∅, by simp [release, h.no_readers hin], ?_⟩,
        ?_, ?_, hbegun⟩
      · intro t
        simp [hempty]
      · simp [release, hempty]
      · intro t q ht
        cases (hempty t).symm.trans ht

theorem Refines.step (h : C.Refines s a) (hstep : C.LockedStep tid s s') :
    ∃ a', (a' = a ∨ C.AtomicStep tid a a') ∧ C.Refines s' a' := by
  cases hstep with
  | move hout hmove =>
      rw [← h.shared, ← h.own] at hmove
      exact ⟨_, .inr (.move hmove), h.move hout⟩
  | enterShared hout hblock hwriter => exact ⟨a, .inl rfl, h.enterShared hout hblock hwriter⟩
  | enter _ hblock hwriter hreaders => exact ⟨a, .inl rfl, h.enter hblock hwriter hreaders⟩
  | work hin hwork => exact ⟨a, .inl rfl, h.work hin hwork⟩
  | leave hin hresult =>
      obtain ⟨p₀, hblock, hruns⟩ := h.begun hin
      rw [← h.own] at hblock
      exact ⟨_, .inr (.block hblock hruns hresult), h.leave hin⟩

omit [DecidableEq Tid] in
theorem refines_init {d : δ} (hdata : s.data = d) (hreaders : s.readers = 0)
    (hwriter : s.writer = false) (hinside : ∀ t, s.inside t = none) :
    C.Refines s ⟨s.shared, s.own, d⟩ where
  shared := rfl
  own := rfl
  data _ := hdata
  readers := ⟨∅, by simp [hreaders], by simp [hinside]⟩
  writer := by simp [hwriter, hinside]
  alone ht := by simp [hinside] at ht
  begun ht := by simp [hinside] at ht

/-- **Blocks are atomic.** -/
theorem refines_of_reachable {d : δ} (h : (C.locked d).Reachable s) :
    ∃ a, (C.atomic d).Reachable a ∧ C.Refines s a := by
  refine h.invariant (P := fun s => ∃ a, (C.atomic d).Reachable a ∧ C.Refines s a) ?_ ?_
  · rintro s ⟨hinit, hdata, hreaders, hwriter, hinside⟩
    exact ⟨_, .init ⟨hinit, rfl⟩, refines_init hdata hreaders hwriter hinside⟩
  · rintro s tid s' - ⟨a, ha, href⟩ hstep
    obtain ⟨a', rfl | hatomic, href'⟩ := href.step hstep
    · exact ⟨_, ha, href'⟩
    · exact ⟨a', ha.step hatomic, href'⟩

/-! ### Blocks that are correct alone -/

/-- An invariant of the moves and of the whole blocks, each of which is totally correct from it. -/
structure Keeps (C : Clients B Tid γ κ) (Inv : Atomic Tid γ κ δ → Prop) : Prop where
  move : ∀ {a tid g k}, Inv a → C.move tid (a.shared, a.own tid) (g, k) →
    Inv { a with shared := g, own := Function.update a.own tid k }
  block : ∀ {a tid isRo p}, Inv a → C.block tid (a.own tid) = some (isRo, p) →
    B.Total (fun b d => Inv { a with
      own := Function.update a.own tid (C.returns tid (a.own tid) b), data := d }) (p, a.data)

theorem Keeps.reachable {Inv : Atomic Tid γ κ δ → Prop} (hkeeps : Keeps C Inv) {d : δ}
    (hinit : ∀ g k, C.init g k → Inv ⟨g, k, d⟩) (h : (C.atomic d).Reachable a) : Inv a := by
  refine h.invariant ?_ ?_
  · rintro ⟨g, k, d⟩ ⟨hinit', rfl⟩
    exact hinit g k hinit'
  · rintro a tid a' - ha hstep
    cases hstep with
    | move hmove => exact hkeeps.move ha hmove
    | block hblock hruns hresult =>
        exact ((hkeeps.block ha hblock).of_runs hruns).post_of hresult

/-- A thread that is in a block, in any interleaving, comes to a result of it. -/
theorem Refines.total {Inv : Atomic Tid γ κ δ → Prop} (hkeeps : Keeps C Inv) (h : C.Refines s a)
    (ha : Inv a) (hin : s.inside tid = some (isRo, p)) :
    B.Total (fun b d => Inv { a with
      own := Function.update a.own tid (C.returns tid (a.own tid) b), data := d }) (p, s.data) := by
  obtain ⟨p₀, hblock, hruns⟩ := h.begun hin
  rw [← h.own] at hblock
  exact (hkeeps.block ha hblock).of_runs hruns

/-- **No deadlock**: a thread that is in a block goes on, and when none is, the lock is free. -/
theorem Refines.progress {Inv : Atomic Tid γ κ δ → Prop} (hkeeps : Keeps C Inv)
    (h : C.Refines s a) (ha : Inv a)
    (hwants : s.inside tid ≠ none ∨ C.block tid (s.own tid) ≠ none) :
    ∃ t s', C.LockedStep t s s' ∧ (s.inside t ≠ none ∨ s'.inside t ≠ none) := by
  by_cases hin : ∃ t, s.inside t ≠ none
  · obtain ⟨t, ht⟩ := hin
    obtain ⟨⟨isRo, p⟩, hp⟩ := Option.ne_none_iff_exists'.mp ht
    match hresult : B.result p with
    | some b => exact ⟨t, _, .leave hp hresult, .inl ht⟩
    | none =>
        obtain ⟨⟨p', d⟩, hstep⟩ := (h.total hkeeps ha hp).move hresult
        exact ⟨t, _, .work hp hstep, .inl ht⟩
  · push Not at hin
    have hwriter : s.writer = false := by
      rw [← Bool.not_eq_true, h.writer]
      simp [hin]
    have hreaders : s.readers = 0 := by
      obtain ⟨holders, hcard, hmem⟩ := h.readers
      rw [← hcard, Finset.card_eq_zero, Finset.eq_empty_iff_forall_notMem]
      simp [hmem, hin]
    obtain ⟨⟨isRo, p⟩, hblock⟩ := Option.ne_none_iff_exists'.mp (hwants.resolve_left (· (hin tid)))
    cases isRo with
    | true => exact ⟨tid, _, .enterShared (hin tid) hblock hwriter, .inr (by simp)⟩
    | false => exact ⟨tid, _, .enter (hin tid) hblock hwriter hreaders, .inr (by simp)⟩

end Clients

end Concurrency
