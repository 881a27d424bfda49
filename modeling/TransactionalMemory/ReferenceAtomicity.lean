import TransactionalMemory.Proof.TransactionRules
import Mathlib.Algebra.BigOperators.Group.Finset.Piecewise
import Mathlib.Data.Fintype.Basic

/-!
# Atomic transactions of the reference implementation

`lock` is a readers–writer lock around whole transactions, so the threads are an instance of blocks
under such a lock: a region without its lock is the data. Whatever a transaction does when it runs
alone, it does among others.
-/

namespace TransactionalMemory

open Concurrency

def Outcome.map {α β : Type} (f : α → β) : Outcome α → Outcome β
  | .next a => .next (f a)
  | .blocked => .blocked
  | .crash => .crash

namespace Reference

variable {V π β Tid γ κ : Type}

def Region.unlocked (r : Region V) : Region V := { r with readers := 0, writer := false }

/-! ### A transaction does not look at the lock -/

section Frame

variable [Zero V] (request : π → Request V π β) (r : Region V) (ok : Bool)

theorem tmAlloc_unlocked (size : Nat) :
    tmAlloc r.unlocked ok size = ((tmAlloc r ok size).1, (tmAlloc r ok size).2.unlocked) := by
  cases h : posixMemalign (if r.align < 8 then 8 else r.align) ok with
  | true =>
      rw [tmAlloc_of h, tmAlloc_of (r := r.unlocked) h]
      rfl
  | false => rw [tmAlloc_of_not h, tmAlloc_of_not (r := r.unlocked) h]

theorem TxPoint.step_unlocked (p : TxPoint V π) :
    p.step request r.unlocked ok =
      (p.step request r ok).map fun x => (x.1, x.2.unlocked) := by
  cases p with
  | client p =>
      cases hp : request p with
      | alloc size next =>
          rw [step_alloc hp, step_alloc hp, tmAlloc_unlocked]
          rfl
      | free target next =>
          by_cases h : target.offset = 0 ∧ target.block ∈ r.allocs
          · rw [step_free hp h, step_free (r := r.unlocked) hp h]
            rfl
          · rw [step_free_crash hp h, step_free_crash (r := r.unlocked) hp h]
            rfl
      | read | write | skip | finish => simp only [TxPoint.step, hp, Outcome.map]
  | reading source size copied next =>
      by_cases h : copied.length < size / r.align
      · by_cases hin : r.inBounds (source.word r.align copied.length) r.align = true
        · rw [step_reading h hin, step_reading (r := r.unlocked) h hin]
          rfl
        · rw [step_reading_crash h hin, step_reading_crash (r := r.unlocked) h hin]
          rfl
      · rw [step_read h, step_read (r := r.unlocked) h]
        rfl
  | writing source size target i next =>
      by_cases h : i < size / r.align
      · cases hv : source[i]? with
        | none =>
            rw [step_writing_crash h (.inl hv), step_writing_crash (r := r.unlocked) h (.inl hv)]
            rfl
        | some v =>
            by_cases hin : r.inBounds (target.word r.align i) r.align = true
            · rw [step_writing h hv hin, step_writing (r := r.unlocked) h hv hin]
              rfl
            · rw [step_writing_crash h (.inr hin),
                step_writing_crash (r := r.unlocked) h (.inr hin)]
              rfl
      · rw [step_written h, step_written (r := r.unlocked) h]
        rfl

variable {request r ok}

structure Region.Frame (r r' : Region V) : Prop where
  readers : r'.readers = r.readers
  writer : r'.writer = r.writer
  start : r'.start = r.start
  size : r'.size = r.size
  align : r'.align = r.align

omit [Zero V] in
theorem Region.Frame.refl : Region.Frame r r := ⟨rfl, rfl, rfl, rfl, rfl⟩

theorem tmAlloc_frame (size : Nat) : Region.Frame r (tmAlloc r ok size).2 := by
  cases h : posixMemalign (if r.align < 8 then 8 else r.align) ok with
  | true =>
      rw [tmAlloc_of h]
      exact ⟨rfl, rfl, rfl, rfl, rfl⟩
  | false =>
      rw [tmAlloc_of_not h]
      exact .refl

theorem TxPoint.step_frame {p p' : TxPoint V π} {r' : Region V}
    (h : p.step request r ok = .next (p', r')) : Region.Frame r r' := by
  cases p with
  | client p =>
      cases hp : request p with
      | alloc size next =>
          rw [step_alloc hp] at h
          cases h
          exact tmAlloc_frame size
      | free target next =>
          by_cases htarget : target.offset = 0 ∧ target.block ∈ r.allocs
          · rw [step_free hp htarget] at h
            cases h
            exact ⟨rfl, rfl, rfl, rfl, rfl⟩
          · rw [step_free_crash hp htarget] at h
            cases h
      | read | write | skip | finish =>
          simp only [TxPoint.step, hp] at h
          cases h <;> exact .refl
  | reading source size copied next =>
      simp only [TxPoint.step] at h
      split at h
      · split at h <;> cases h
        exact .refl
      · cases h
        exact .refl
  | writing source size target i next =>
      simp only [TxPoint.step] at h
      split at h
      · split at h
        · cases h
        · split at h <;> cases h
          exact ⟨rfl, rfl, rfl, rfl, rfl⟩
      · cases h
        exact .refl

/-- Whether a call crashes does not depend on the allocator. -/
theorem TxPoint.crash_of_crash {p : TxPoint V π} (ok' : Bool)
    (h : p.step request r ok = .crash) : p.step request r ok' = .crash := by
  cases p with
  | client p =>
      cases hp : request p with
      | alloc size next =>
          simp only [TxPoint.step, hp] at h
          cases h
      | read | write | free | skip | finish =>
          simp only [TxPoint.step, hp] at h ⊢
          exact h
  | reading | writing => exact h

end Frame

/-! ### The threads as blocks under a lock -/

def State.view (s : State Tid γ κ V π) : Locked Tid γ κ (TxPoint V π) (Region V) where
  shared := s.shared
  own := s.own
  data := s.region.unlocked
  readers := s.region.readers
  writer := s.region.writer
  inside := s.inside

section View

variable [Zero V] [DecidableEq Tid] {request : π → Request V π β}
  {clients : Clients (transactions request) Tid γ κ} {s s' : State Tid γ κ V π} {tid : Tid}

theorem Step.view (h : Step clients tid s s') : clients.LockedStep tid s.view s'.view := by
  cases h with
  | move hout hmove => exact .move hout hmove
  | @begin isRo valid p r hout hblock hbegin =>
      cases isRo with
      | true =>
          simp only [tmBegin, if_true] at hbegin
          split at hbegin
          · cases hbegin
          · rename_i hfree
            cases hbegin
            have hfree : s.region.writer = false := by simpa using hfree
            exact .enterShared hout hblock hfree
      | false =>
          simp only [tmBegin, Bool.false_eq_true, if_false] at hbegin
          split at hbegin
          · cases hbegin
          · rename_i hfree
            cases hbegin
            have hfree : s.region.writer = false ∧ s.region.readers = 0 := by simpa using hfree
            exact .enter hout hblock hfree.1 hfree.2
  | @call isRo memalignOk p p' r hin hcall =>
      have hunlocked := p.step_unlocked request s.region memalignOk
      obtain ⟨hreaders, hwriter, -, -, -⟩ := TxPoint.step_frame hcall
      rw [hcall] at hunlocked
      have hstep : (transactions request).step (p, s.region.unlocked) (p', r.unlocked) :=
        ⟨memalignOk, hunlocked⟩
      have hview : State.view { s with
          region := r, inside := Function.update s.inside tid (some (isRo, p')) } = { s.view with
            data := r.unlocked, inside := Function.update s.inside tid (some (isRo, p')) } := by
        simp only [State.view, hreaders, hwriter]
      rw [hview]
      exact .work hin hstep
  | @finish isRo p b hin hresult =>
      have hleave := Clients.LockedStep.leave (C := clients) (s := s.view) hin hresult
      cases isRo <;> exact hleave

/-- A step in a transaction, of the blocks, is one of the implementation. -/
theorem Step.of_view {s'' : Locked Tid γ κ (TxPoint V π) (Region V)}
    (h : clients.LockedStep tid s.view s'') : ∃ s', Step clients tid s s' ∧ s'.view = s'' := by
  cases h with
  | move hout hmove => exact ⟨_, .move hout hmove, rfl⟩
  | @enterShared p hout hblock hwriter =>
      have hwriter : s.region.writer = false := hwriter
      have hbegin : tmBegin s.region true =
          .next (true, { s.region with readers := s.region.readers + 1 }) := by
        simp [tmBegin, hwriter]
      exact ⟨_, .begin hout hblock hbegin, rfl⟩
  | @enter p hout hblock hwriter hreaders =>
      have hwriter : s.region.writer = false := hwriter
      have hreaders : s.region.readers = 0 := hreaders
      have hbegin : tmBegin s.region false = .next (true, { s.region with writer := true }) := by
        simp [tmBegin, hwriter, hreaders]
      refine ⟨_, .begin hout hblock hbegin, ?_⟩
      simp [State.view, Region.unlocked]
  | @work isRo p p' d hin hwork =>
      obtain ⟨memalignOk, hstep⟩ := hwork
      have hunlocked := p.step_unlocked request s.region memalignOk
      have hstep : p.step request s.region.unlocked memalignOk = .next (p', d) := hstep
      rw [hstep] at hunlocked
      cases hcall : p.step request s.region memalignOk with
      | next x =>
          obtain ⟨q, r⟩ := x
          rw [hcall] at hunlocked
          cases hunlocked
          obtain ⟨hreaders, hwriter, -, -, -⟩ := TxPoint.step_frame hcall
          refine ⟨_, .call hin hcall, ?_⟩
          simp only [State.view, hreaders, hwriter]
      | blocked | crash =>
          rw [hcall] at hunlocked
          cases hunlocked
  | @leave isRo p b hin hresult =>
      refine ⟨_, .finish hin hresult, ?_⟩
      cases isRo <;> rfl

end View

/-! ### Every run -/

section Runs

variable [Zero V] [DecidableEq Tid] {request : π → Request V π β}
  {clients : Clients (transactions request) Tid γ κ} {s : State Tid γ κ V π} {size align : Nat}
  {r : Region V}

theorem tmCreate_unlocked (h : tmCreate true true true size align = some r) :
    r.unlocked = r ∧ r.readers = 0 ∧ r.writer = false := by
  simp only [tmCreate] at h
  split at h
  · cases h
  · obtain rfl := Option.some.inj h
    exact ⟨rfl, rfl, rfl⟩

theorem view_reachable (hcreate : tmCreate true true true size align = some r)
    (h : (threads clients size align).Reachable s) : (clients.locked r).Reachable s.view := by
  refine h.map State.view ?_ fun _ _ _ hstep => Step.view hstep
  rintro s ⟨hinit, hregion, hinside⟩
  obtain rfl := Option.some.inj (hregion.symm.trans hcreate)
  obtain ⟨hunlocked, hreaders, hwriter⟩ := tmCreate_unlocked hcreate
  exact ⟨hinit, hunlocked, hreaders, hwriter, hinside⟩

end Runs

/-- **Transactions of the reference implementation are atomic**: in every interleaving of any
clients, word by word. -/
theorem transactions_atomic [Zero V] [DecidableEq Tid] {request : π → Request V π β}
    {clients : Clients (transactions request) Tid γ κ} {s : State Tid γ κ V π} {size align : Nat}
    {r : Region V} (hcreate : tmCreate true true true size align = some r)
    (h : (threads clients size align).Reachable s) :
    ∃ a, (clients.atomic r).Reachable a ∧ clients.Refines s.view a :=
  Clients.refines_of_reachable (view_reachable hcreate h)

/-! ### Threads that count -/

section Counting

inductive Increment where
  | start
  | loaded (value : Nat)
  | stored

def Increment.request : Increment → Request Nat Increment Unit
  | .start => .read ⟨0, 0⟩ 8 fun target => .loaded (target.headD 0)
  | .loaded value => .write [value + 1] 8 ⟨0, 0⟩ .stored
  | .stored => .finish ()

def counters (Tid : Type) : Clients (transactions Increment.request) Tid Unit Bool where
  init _ own := ∀ tid, own tid = false
  move _ _ _ := False
  block _ counted := if counted then none else some (false, .client .start)
  returns _ _ _ := true
  quiet := by
    intro tid counted p h
    cases counted <;> cases h

def counterRegion : Region Nat where
  readers := 0
  writer := false
  start := 0
  allocs := []
  size := 8
  align := 8
  segment := Function.update (fun _ => none) 0 (some 8)
  blockCount := 1
  word _ _ := 0

def State.turn [Zero V] [DecidableEq Tid] {request : π → Request V π β}
    (clients : Clients (transactions request) Tid γ κ) (s : State Tid γ κ V π) (tid : Tid) :
    Option (Tid × State Tid γ κ V π) :=
  match s.inside tid with
  | none =>
      match clients.block tid (s.own tid) with
      | none => none
      | some (isRo, p) =>
          match tmBegin s.region isRo with
          | .next (_, r) =>
              some (tid, { s with
                region := r, inside := Function.update s.inside tid (some (isRo, p)) })
          | _ => none
  | some (isRo, p) =>
      match p.result request with
      | some b =>
          some (tid, { s with
            region := (tmEnd s.region isRo).2
            own := Function.update s.own tid (clients.returns tid (s.own tid) b)
            inside := Function.update s.inside tid none })
      | none =>
          match p.step request s.region true with
          | .next (p', r) =>
              some (tid, { s with
                region := r, inside := Function.update s.inside tid (some (isRo, p')) })
          | _ => none

theorem Step.of_turn [Zero V] [DecidableEq Tid] {request : π → Request V π β}
    {clients : Clients (transactions request) Tid γ κ} {s s' : State Tid γ κ V π} {tid t : Tid}
    (h : s.turn clients tid = some (t, s')) : Step clients t s s' := by
  unfold State.turn at h
  split at h
  · rename_i hout
    split at h
    · cases h
    · rename_i hblock
      split at h
      · rename_i hbegin
        cases h
        exact .begin hout hblock hbegin
      · cases h
  · rename_i hin
    split at h
    · rename_i hresult
      cases h
      exact .finish hin hresult
    · split at h
      · rename_i hcall
        cases h
        exact .call hin hcall
      · cases h

/-- One thread has counted, and the other one has stored its sum and not yet called `tm_end`. -/
theorem exists_countersAhead : ∃ s : State Bool Unit Bool Nat Increment,
    (threads (counters Bool) 8 8).Reachable s ∧ s.region.word 0 0 = 2 ∧ s.own true = true ∧
      s.own false = false ∧ (s.inside false).isSome = true := by
  have hrun : (Machine.drive (State.turn (counters Bool)) (fun _ _ => true) (fun _ _ => id)
      (⟨counterRegion, (), fun _ => false, fun _ => none⟩, ())
      (List.replicate 8 true ++ List.replicate 6 false)).any (fun p =>
        decide (p.1.region.word 0 0 = 2) && p.1.own true && !p.1.own false &&
          (p.1.inside false).isSome) = true := by
    decide +kernel
  obtain ⟨p, hdrive, htest⟩ := (Option.any_eq_true _ _).mp hrun
  simp only [Bool.and_eq_true, Bool.not_eq_true', decide_eq_true_eq] at htest
  obtain ⟨⟨⟨hword, htrue⟩, hfalse⟩, hinside⟩ := htest
  have hstart : (((threads (counters Bool) 8 8).restrict fun _ _ => True).observe ()
      fun _ _ => id).Reachable (⟨counterRegion, (), fun _ => false, fun _ => none⟩, ()) :=
    .init ⟨⟨fun _ => rfl, rfl, fun _ => rfl⟩, rfl⟩
  have hreach := hstart.drive (fun _ _ _ _ => Step.of_turn) (fun _ _ _ => trivial) hdrive
  exact ⟨p.1, hreach.of_observe.of_restrict, hword, htrue, hfalse, hinside⟩

theorem transactions_atomic_ahead : ∃ s : State Bool Unit Bool Nat Increment,
    s.region.word 0 0 = 2 ∧ s.own true = true ∧ (s.inside false).isSome = true ∧
      ∃ a, ((counters Bool).atomic counterRegion).Reachable a ∧
        (counters Bool).Refines s.view a := by
  obtain ⟨s, hreach, hword, htrue, -, hinside⟩ := exists_countersAhead
  exact ⟨s, hword, htrue, hinside, transactions_atomic rfl hreach⟩

end Counting

/-! ### Transactions that are correct alone -/

section Alone

variable [Zero V] [DecidableEq Tid] {request : π → Request V π β}
  {clients : Clients (transactions request) Tid γ κ} {Inv : Atomic Tid γ κ (Region V) → Prop}
  {s : State Tid γ κ V π} {a : Atomic Tid γ κ (Region V)}

/-- What is left of an invariant in the middle of transactions. -/
structure Serves (clients : Clients (transactions request) Tid γ κ)
    (Inv : Atomic Tid γ κ (Region V) → Prop) (s : State Tid γ κ V π) : Prop where
  invariant : s.region.writer = false → Inv ⟨s.shared, s.own, s.region.unlocked⟩
  /-- No other thread keeps a transaction from its result, nor from the invariant after it. -/
  total : ∀ tid isRo p, s.inside tid = some (isRo, p) → (transactions request).Total
    (fun b r => Inv ⟨s.shared, Function.update s.own tid (clients.returns tid (s.own tid) b), r⟩)
    (p, s.region.unlocked)
  safe : ∀ tid isRo p memalignOk, s.inside tid = some (isRo, p) →
    p.step request s.region memalignOk ≠ .crash
  progress : ∀ tid, s.inside tid ≠ none ∨ clients.block tid (s.own tid) ≠ none →
    ∃ t s', Step clients t s s' ∧ (s.inside t ≠ none ∨ s'.inside t ≠ none)

omit [DecidableEq Tid] in
theorem safe_of_total {post : β → Region V → Prop} {p : TxPoint V π} {r : Region V}
    (h : (transactions request).Total post (p, r.unlocked)) (memalignOk : Bool) :
    p.step request r memalignOk ≠ .crash := by
  intro hcrash
  have hunlocked : p.step request r.unlocked memalignOk = .crash := by
    rw [TxPoint.step_unlocked, hcrash]
    rfl
  cases hresult : p.result request with
  | some b =>
      cases p with
      | client p =>
          cases hp : request p <;> simp only [TxPoint.result, hp] at hresult
          case finish => simp only [TxPoint.step, hp] at hcrash; cases hcrash
          all_goals cases hresult
      | reading | writing => cases hresult
  | none =>
      obtain ⟨y, ok, hstep⟩ := h.move hresult
      rw [TxPoint.crash_of_crash ok hunlocked] at hstep
      cases hstep

theorem Serves.of_refines (hkeeps : clients.Keeps Inv) (h : clients.Refines s.view a)
    (ha : Inv a) : Serves clients Inv s := by
  have htotal : ∀ tid isRo p, s.inside tid = some (isRo, p) → (transactions request).Total
      (fun b r => Inv ⟨s.shared, Function.update s.own tid (clients.returns tid (s.own tid) b), r⟩)
      (p, s.region.unlocked) := by
    intro tid isRo p hin
    have hin' : s.view.inside tid = some (isRo, p) := hin
    have htotal := h.total hkeeps ha hin'
    rwa [h.shared, h.own] at htotal
  refine ⟨fun hwriter => ?_, htotal, fun tid isRo p ok hin => ?_, fun tid hwants => ?_⟩
  · obtain ⟨shared, own, data⟩ := a
    obtain rfl : shared = s.shared := h.shared
    obtain rfl : own = s.own := h.own
    obtain rfl : s.region.unlocked = data := h.data hwriter
    exact ha
  · exact safe_of_total (htotal tid isRo p hin) ok
  · obtain ⟨t, s'', hstep, hinside⟩ := h.progress hkeeps ha hwants
    obtain ⟨s', hstep', rfl⟩ := Step.of_view hstep
    exact ⟨t, s', hstep', hinside⟩

end Alone

/-- **It is enough to look at transactions one at a time**: when each of them keeps an invariant and
is totally correct alone, no interleaving breaks the invariant, crashes or deadlocks. -/
theorem sequential_reasoning [Zero V] [DecidableEq Tid] {request : π → Request V π β}
    {clients : Clients (transactions request) Tid γ κ} {Inv : Atomic Tid γ κ (Region V) → Prop}
    {s : State Tid γ κ V π} {size align : Nat} {r : Region V}
    (hcreate : tmCreate true true true size align = some r) (hkeeps : clients.Keeps Inv)
    (hinit : ∀ g k, clients.init g k → Inv ⟨g, k, r⟩)
    (h : (threads clients size align).Reachable s) : Serves clients Inv s := by
  obtain ⟨a, ha, href⟩ := Clients.refines_of_reachable (view_reachable hcreate h)
  exact .of_refines hkeeps href (hkeeps.reachable hinit ha)

def Counted [Fintype Tid] (a : Atomic Tid Unit Bool (Region Nat)) : Prop :=
  a.data.align = 8 ∧ a.data.inBounds ⟨0, 0⟩ 8 = true ∧ a.data.word 0 0 = ∑ t, (a.own t).toNat

theorem counters_keep [DecidableEq Tid] [Fintype Tid] : (counters Tid).Keeps Counted where
  move _ hmove := hmove.elim
  block := by
    rintro a tid isRo p ⟨halign, hin, hword⟩ hblock
    have hzero : a.own tid = false := by
      cases h : a.own tid with
      | false => rfl
      | true => simp [counters, h] at hblock
    obtain ⟨rfl, rfl⟩ : isRo = false ∧ p = .client .start := by
      simp only [counters, hzero] at hblock
      cases hblock
      exact ⟨rfl, rfl⟩
    have hwords : ∀ i < 8 / a.data.align, a.data.inBounds (Ptr.word ⟨0, 0⟩ a.data.align i)
        a.data.align = true := by
      intro i hi
      rw [halign] at hi ⊢
      obtain rfl : i = 0 := by omega
      exact hin
    have hsum : ∑ t, (Function.update a.own tid true t).toNat = (∑ t, (a.own t).toNat) + 1 := by
      have hself : ∀ t, (Function.update a.own tid true t).toNat =
          (a.own t).toNat + if t = tid then 1 else 0 := by
        intro t
        by_cases ht : t = tid
        · subst ht
          simp [hzero]
        · simp [ht]
      rw [Finset.sum_congr rfl fun t _ => hself t, Finset.sum_add_distrib]
      simp
    refine total_read rfl hwords (total_write rfl ?_ hwords (total_finish rfl ⟨halign, hin, ?_⟩))
    · simp [halign]
    · simp only [counters]
      rw [hsum, ← hword]
      simp [Region.store, Region.load, halign]

theorem sequential_reasoning_ahead : ∃ s : State Bool Unit Bool Nat Increment,
    s.region.word 0 0 = 2 ∧ s.own true = true ∧ (s.inside false).isSome = true ∧
      Serves (counters Bool) Counted s := by
  obtain ⟨s, hreach, hword, htrue, -, hinside⟩ := exists_countersAhead
  refine ⟨s, hword, htrue, hinside,
    sequential_reasoning (r := counterRegion) rfl counters_keep ?_ hreach⟩
  intro _ own hinit
  have hown : ∀ t, own t = false := hinit
  refine ⟨rfl, rfl, ?_⟩
  simp [hown, counterRegion]

end Reference

end TransactionalMemory
