import TransactionalMemory.Proof.Growth
import TransactionalMemory.SegmentGenerations

/-!
# Stores into the growable arrays

The read set, the write set and the queue of frees are each resized at most once before an entry is
stored at their end. In every interleaving without allocation failures the index of that store is
less than the capacity that the array then has, however often the arrays have grown before and the
queue has been drained.
-/

namespace TransactionalMemory

open Concurrency

variable {V Tid : Type}

/-! ### Capacities -/

/-- The capacity of `rs` where `add_to_readset` stores into it. -/
def Tx.rsCapacity (t : Tx V) (rs : List RsItem) : Int :=
  if t.rsSz ≤ rs.length then resize t.rsSz else t.rsSz

/-- The capacity of `ws` where `tm_write` stores into it. -/
def Tx.wsCapacity (t : Tx V) : Int :=
  if (t.ws.length : Int) = t.wsSz then resize t.wsSz else t.wsSz

/-- The capacity of `tm->to_free` where `tm_end` stores into it. -/
def Tm.toFreeCapacity (tm : Tm V) : Int :=
  if tm.toFreeSz ≤ (tm.toFree.length : Int) + 1 then resize tm.toFreeSz else tm.toFreeSz

/-- The stores at the end of the two sets are inside their arrays, and one resize makes room for
each. -/
structure Tx.StoresFit (t : Tx V) : Prop where
  rs : ∃ rs, t.rs = some rs ∧ (rs.length : Int) < t.rsCapacity rs ∧ ∀ lock versionRead,
    t.addToReadset lock versionRead true = .next (true, t) ∨
    t.addToReadset lock versionRead true = .next (true,
      { t with rs := some (rs ++ [⟨versionRead, some lock⟩]), rsSz := t.rsCapacity rs })
  ws : (t.ws.length : Int) < t.wsCapacity ∧ ∀ bit addr x w, ∃ rs,
    t.append bit addr x w true true = .next (some { t with
      ws := t.ws ++ [⟨addr, x, w, w⟩]
      wsSz := t.wsCapacity
      wsBloom := bfAdd bit t.wsBloom addr
      rs := some rs })
  rsGrows : t.rsSz < resize t.rsSz
  wsGrows : t.wsSz < resize t.wsSz

theorem Tx.Roomy.storesFit {t : Tx V} (h : t.Roomy) : t.StoresFit := by
  obtain ⟨⟨rs, hrs, hlength⟩, hrsSz, hwrites, hwsSz⟩ := h
  have hrsGrows := lt_resize hrsSz
  have hwsGrows := lt_resize hwsSz
  have hrsRoom : (rs.length : Int) < t.rsCapacity rs := by
    unfold rsCapacity
    split <;> omega
  have hwsRoom : (t.ws.length : Int) < t.wsCapacity := by
    unfold wsCapacity
    split <;> omega
  refine ⟨⟨rs, hrs, hrsRoom, fun lock versionRead => ?_⟩, ⟨hwsRoom, fun bit addr x w => ?_⟩,
    hrsGrows, hwsGrows⟩
  · unfold rsCapacity at hrsRoom ⊢
    simp only [Tx.addToReadset, hrs, Bool.not_true, Bool.and_false, Bool.false_eq_true, if_false,
      decide_eq_true_eq, if_pos hrsRoom]
    split
    · exact Or.inl rfl
    · exact Or.inr rfl
  · unfold wsCapacity at hwsRoom ⊢
    exact ⟨Tx.eraseLock rs w, by
      simp only [Tx.append, hrs, Bool.not_true, Bool.and_false, Bool.false_eq_true, if_false,
        decide_eq_true_eq, if_pos hwsRoom]⟩

/-! ### Runs without allocation failures -/

def MallocsOk (_ : State Tid V) (l : Label Tid V) : Prop := ∀ i, l.choice.mallocOk i = true

variable [Zero V] [DecidableEq Tid] {platform : Platform V} {s : State Tid V}

/-- All interleavings in which no allocation fails, in `tm_create` or later. -/
def arraysMachine (Tid : Type) [DecidableEq Tid] (platform : Platform V) :
    Machine (State Tid V) (Label Tid V) :=
  { system Tid platform with
    init := fun s => (system Tid platform).init s ∧ s.tm.toFreeNull = false }.restrict MallocsOk

/-- Every store is inside its array, whichever thread makes it next. -/
structure ArraysFit (platform : Platform V) (s : State Tid V) : Prop where
  sets : ∀ tid t, (s.thread tid).tx = some t → t.StoresFit
  queue : (s.tm.toFree.length : Int) < s.tm.toFreeCapacity
  queueGrows : s.tm.toFreeSz < resize s.tm.toFreeSz
  pushes : ∀ tid t i spot choice, s.thread tid = .ending t (.push i) → t.toFree[i]? = some spot →
    (∀ i, choice.mallocOk i = true) → (s.thread tid).step platform s.tm choice =
      Move.op (.pushToFree spot s.tm.toFreeCapacity) (.ending t (.push (i + 1)))

/-- Every run keeps room in all three arrays. -/
theorem arraysInv (h : (arraysMachine Tid platform).Reachable s) :
    s.tm.QueueRoomy ∧ ∀ tid t, (s.thread tid).tx = some t → t.Roomy := by
  refine h.invariant (P := fun s => s.tm.QueueRoomy ∧ ∀ tid t, (s.thread tid).tx = some t → t.Roomy)
    (fun s hs => ?_) fun s l s' _ ih hs => ?_
  · obtain ⟨⟨hidle, choice, size, align, -, -, -, -, hcreate⟩, hnull⟩ := hs
    obtain ⟨-, -, htm⟩ := tmCreate_eq hcreate
    have hlt : (0 : Int) < 64 := by decide
    have hsz : (8 : Int) ≤ 64 := by decide
    refine ⟨⟨?_, ?_, hnull⟩, fun tid t ht => ?_⟩
    · rw [htm]
      exact hlt
    · rw [htm]
      exact hsz
    · rw [hidle tid] at ht
      cases ht
  · obtain ⟨hmalloc, hstep⟩ := hs
    obtain ⟨hmove, htm, hothers⟩ := system_step_move hstep
    refine ⟨htm ▸ ih.1.step hmove, fun tid => ?_⟩
    by_cases htid : tid = l.tid
    · rw [htid]
      exact hmove.roomy hmalloc (ih.2 l.tid)
    · rw [hothers tid htid]
      exact ih.2 tid

/-- **The growable arrays never overflow.** In every run without allocation failures each of the
three stores is below the capacity of its array at that moment, and one resize always makes room. -/
theorem arrays_fit (h : (arraysMachine Tid platform).Reachable s) : ArraysFit platform s := by
  obtain ⟨⟨hlt, hsz, hnull⟩, hroomy⟩ := arraysInv h
  have hgrows := lt_resize hsz
  have hroom : (s.tm.toFree.length : Int) < s.tm.toFreeCapacity := by
    unfold Tm.toFreeCapacity
    split <;> omega
  refine ⟨fun tid t ht => (hroomy tid t ht).storesFit, hroom, hgrows,
    fun tid t i spot choice hthread hi hmalloc => ?_⟩
  unfold Tm.toFreeCapacity at hroom ⊢
  rw [hthread]
  simp only [Thread.step, tmEndStep, hi, hmalloc 0, hnull, Bool.not_true, Bool.and_false,
    Bool.false_and, Bool.false_eq_true, if_false, decide_eq_true_eq, if_pos hroom]

/-- After 128 frees and the batch deletion they bring about, the queue is empty again and has kept
the array it has grown to. -/
theorem arrays_fit_of_batch : ∃ s : State Bool Nat, s.tm.toFree = [] ∧ 128 < s.tm.toFreeSz ∧
    ArraysFit (Platform.x86 Nat) s := by
  let test : State Bool Nat × Unit → Bool := fun p =>
    decide (p.1.tm.toFree = []) && decide (128 < p.1.tm.toFreeSz)
  have hrun : (Machine.drive (State.move (Platform.x86 Nat)) (fun _ l => l.choice.mallocs.isEmpty)
      (fun _ _ => id) (State.fresh Bool Nat (1 * 8) 8, ()) freedRepeatedly).any test = true := by
    decide +kernel
  obtain ⟨p, hdrive, htest⟩ := (Option.any_eq_true _ _).mp hrun
  simp only [test, Bool.and_eq_true, decide_eq_true_eq] at htest
  have hstart : ((arraysMachine Bool (Platform.x86 Nat)).observe () fun _ _ => id).Reachable
      (State.fresh Bool Nat (1 * 8) 8, ()) :=
    .init ⟨⟨State.fresh_init_words 1 (by decide) (by decide), rfl⟩, rfl⟩
  have hsound : ∀ (s : State Bool Nat) (l : Label Bool Nat), l.choice.mallocs.isEmpty = true →
      MallocsOk s l := by
    intro s l hempty i
    rw [Choice.mallocOk, List.isEmpty_iff.mp hempty, List.getD_nil]
  have hreach := hstart.drive (fun _ _ _ _ => State.step_of_move (Platform.x86 Nat)) hsound hdrive
  exact ⟨p.1, htest.1, htest.2, arrays_fit hreach.of_observe⟩

end TransactionalMemory
