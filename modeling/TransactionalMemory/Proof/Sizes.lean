import TransactionalMemory.Proof.Growth

/-!
# Sizes in `int`

The code keeps the capacities of its arrays, the numbers of their entries and the versions in `int`,
which overflow. One step takes each of them at most to what its next growth makes of it, so they
stay in `int` where the next growth does. The array `prev` of a read-only read is as long as its
range, and on the stack.
-/

namespace TransactionalMemory

variable {V : Type}

/-- The next growth of each array of a transaction is one that `int` holds. -/
structure Tx.Headroom (t : Tx V) : Prop where
  rsSz : resize t.rsSz < 2 ^ 31
  wsSz : resize t.wsSz < 2 ^ 31
  toFree : (t.toFree.length : Int) + 1 < 2 ^ 31

instance (t : Tx V) : Decidable t.Headroom :=
  decidable_of_iff (resize t.rsSz < 2 ^ 31 ∧ resize t.wsSz < 2 ^ 31 ∧
    (t.toFree.length : Int) + 1 < 2 ^ 31) ⟨fun h => ⟨h.1, h.2.1, h.2.2⟩, fun h => ⟨h.1, h.2, h.3⟩⟩

structure Tx.InInt (t : Tx V) : Prop where
  rs : ∀ rs, t.rs = some rs → (rs.length : Int) < 2 ^ 31
  rsSz : t.rsSz < 2 ^ 31
  ws : (t.ws.length : Int) < 2 ^ 31
  wsSz : t.wsSz < 2 ^ 31
  toFree : (t.toFree.length : Int) < 2 ^ 31

def Thread.version : Thread V → Option Int
  | .ending _ (.validate wv _) | .ending _ (.undo wv _) | .ending _ (.validated wv)
  | .ending _ (.copy wv _) | .ending _ (.release wv _) => some wv
  | _ => none

def Thread.prevBytes : Thread V → Int
  | .roReading _ c _ => 4 * c.numWords
  | _ => 0

/-- `int` holds what a thread computes, and the stack of `stack` bytes its array. -/
structure Thread.InInt (stack : Nat) (thread : Thread V) : Prop where
  sets : ∀ t, thread.tx = some t → t.InInt
  prev : thread.prevBytes ≤ stack
  /-- `version << 1`. -/
  version : ∀ wv, thread.version = some wv → 2 * wv < 2 ^ 31

def Tm.PrevFits (tm : Tm V) (stack : Nat) (t : Tx V) : Call V → Prop
  | .read _ size => t.isRo = true → 4 * (size / tm.align) ≤ stack
  | _ => True

/-! ### One growth -/

/-- The sizes of a transaction after at most one growth of each of its arrays. -/
structure Tx.GrowsTo (t t' : Tx V) : Prop where
  rsSz : t'.rsSz ≤ resize t.rsSz
  wsSz : t'.wsSz ≤ resize t.wsSz
  toFree : t'.toFree.length ≤ t.toFree.length + 1

namespace Tx

variable {t t' : Tx V}

theorem Roomy.inInt (h : t.Roomy) (hrs : t.rsSz < 2 ^ 31) (hws : t.wsSz < 2 ^ 31)
    (hfree : (t.toFree.length : Int) < 2 ^ 31) : t.InInt := by
  obtain ⟨⟨rs, hreads, hlength⟩, -, hwrites, -⟩ := h
  refine ⟨fun rs' hrs' => ?_, hrs, hwrites.trans_lt hws, hws, hfree⟩
  obtain rfl : rs = rs' := by simpa [hreads] using hrs'
  exact hlength.trans_lt hrs

theorem Headroom.inInt (h : t.Headroom) (hroomy : t.Roomy) : t.InInt :=
  hroomy.inInt ((lt_resize hroomy.rsSz).trans h.rsSz) ((lt_resize hroomy.wsSz).trans h.wsSz)
    ((Int.lt_succ _).trans h.toFree)

theorem GrowsTo.inInt (h : t.GrowsTo t') (hheadroom : t.Headroom) (hroomy : t'.Roomy) :
    t'.InInt := by
  have hfree := h.toFree
  have hbound := hheadroom.toFree
  exact hroomy.inInt (h.rsSz.trans_lt hheadroom.rsSz) (h.wsSz.trans_lt hheadroom.wsSz) (by omega)

theorem GrowsTo.refl (h : t.Roomy) : t.GrowsTo t :=
  ⟨(lt_resize h.rsSz).le, (lt_resize h.wsSz).le, Nat.le_succ _⟩

theorem Roomy.grows_addToReadset (h : t.Roomy) {w : Word} {v : Int} {reallocOk ok : Bool}
    (hadd : t.addToReadset w v reallocOk = .next (ok, t')) : t.GrowsTo t' := by
  have hresize := lt_resize h.rsSz
  have hwsSz := (lt_resize h.wsSz).le
  obtain ⟨⟨rs, hrs, -⟩, -⟩ := h
  have hsz : (if t.rsSz ≤ rs.length then resize t.rsSz else t.rsSz) ≤ resize t.rsSz := by
    split <;> omega
  unfold Tx.addToReadset at hadd
  simp only [hrs, decide_eq_true_eq] at hadd
  generalize (if t.rsSz ≤ rs.length then resize t.rsSz else t.rsSz) = sz at hadd hsz
  split at hadd
  · cases hadd
    exact ⟨hresize.le, hwsSz, Nat.le_succ _⟩
  · split at hadd
    · cases hadd
      exact ⟨hsz, hwsSz, Nat.le_succ _⟩
    · split at hadd
      · cases hadd
        exact ⟨hsz, hwsSz, Nat.le_succ _⟩
      · cases hadd

theorem Roomy.grows_append (h : t.Roomy) {bit : Int → BitVec 64} {addr : Addr} {x : V} {w : Word}
    {reallocOk mallocOk : Bool}
    (happend : t.append bit addr x w reallocOk mallocOk = .next (some t')) : t.GrowsTo t' := by
  have hrsSz := (lt_resize h.rsSz).le
  have hresize := lt_resize h.wsSz
  obtain ⟨⟨rs, hrs, -⟩, -⟩ := h
  have hsz : (if (t.ws.length : Int) = t.wsSz then resize t.wsSz else t.wsSz) ≤ resize t.wsSz := by
    split <;> omega
  unfold Tx.append at happend
  simp only [hrs, decide_eq_true_eq] at happend
  generalize (if (t.ws.length : Int) = t.wsSz then resize t.wsSz else t.wsSz) = sz at happend hsz
  split at happend
  · cases happend
  · split at happend
    · cases happend
    · split at happend
      · cases happend
        exact ⟨hrsSz, hsz, Nat.le_succ _⟩
      · cases happend

end Tx

/-! ### Steps -/

section Steps

variable {platform : Platform V} {tm : Tm V} {choice : Choice V} {thread thread' : Thread V}
  {event : Event V}

/-- Every step grows each array at most once. -/
theorem ThreadMove.grows (hmove : ThreadMove platform tm choice thread event thread')
    (hroomy : ∀ t, thread.tx = some t → t.Roomy) {t' : Tx V} (htx : thread'.tx = some t') :
    (∃ rv isRo bloom, t' = Tx.start rv isRo bloom) ∨ ∃ t, thread.tx = some t ∧ t.GrowsTo t' := by
  cases hmove with
  | begin h =>
      cases h with
      | started =>
          obtain rfl := Option.some.inj htx
          exact Or.inl ⟨_, _, _, rfl⟩
      | _ => cases htx
  | @read t _ _ _ _ h =>
      cases h with
      | confirmed hw hread hadd =>
          obtain rfl := Option.some.inj htx
          exact Or.inr ⟨t, rfl, (hroomy t rfl).grows_addToReadset hadd⟩
      | _ => exact Or.inr ⟨t', htx, .refl (hroomy t' htx)⟩
  | @roRead t _ _ _ _ h =>
      cases h with
      | recorded hi hw hread hold hadd | notRecorded hi hw hread hold hadd =>
          obtain rfl := Option.some.inj htx
          exact Or.inr ⟨t, rfl, (hroomy t rfl).grows_addToReadset hadd⟩
      | extended hrs hk hw hadd | notExtended hrs hk hw hadd =>
          obtain rfl := Option.some.inj htx
          obtain ⟨hrsSz, hwsSz, hfree⟩ := ((hroomy t rfl).refresh _).grows_addToReadset hadd
          exact Or.inr ⟨t, rfl, hrsSz, hwsSz, hfree⟩
      | _ => exact Or.inr ⟨t', htx, .refl (hroomy t' htx)⟩
  | @write t _ _ _ _ h =>
      cases h with
      | overwritten =>
          obtain rfl := Option.some.inj htx
          obtain ⟨hrsSz, hwsSz, hfree⟩ := Tx.GrowsTo.refl (hroomy t rfl)
          exact Or.inr ⟨t, rfl, hrsSz, hwsSz, hfree⟩
      | appended hi hw hfree hold hx hmiss happend =>
          obtain rfl := Option.some.inj htx
          exact Or.inr ⟨t, rfl, (hroomy t rfl).grows_append happend⟩
      | _ => exact Or.inr ⟨t', htx, .refl (hroomy t' htx)⟩
  | @free t target _ _ h =>
      cases h with
      | first => exact Or.inr ⟨t', htx, .refl (hroomy t' htx)⟩
      | queued =>
          obtain rfl := Option.some.inj htx
          obtain ⟨hrsSz, hwsSz, -⟩ := Tx.GrowsTo.refl (hroomy t rfl)
          exact Or.inr ⟨t, rfl, hrsSz, hwsSz, by simp⟩
  | @finish t _ _ _ h =>
      cases h with
      | sort =>
          obtain rfl := Option.some.inj htx
          obtain ⟨hrsSz, hwsSz, hfree⟩ := Tx.GrowsTo.refl (hroomy t rfl)
          exact Or.inr ⟨t, rfl, hrsSz, hwsSz, hfree⟩
      | early | noBatch | wrunlock => cases htx
      | _ => exact Or.inr ⟨t', htx, .refl (hroomy t' htx)⟩
  | call h | alloc h => cases h <;> exact Or.inr ⟨t', htx, .refl (hroomy t' htx)⟩
  | start | cleanup | retIdle => cases htx
  | retLive => exact Or.inr ⟨t', htx, .refl (hroomy t' htx)⟩

theorem toInt_natCast_le (n : Nat) : toInt n ≤ n := by
  unfold toInt
  rw [Int.bmod_def]
  omega

/-- The array `prev` of a call is that of its range. -/
theorem ThreadMove.prev {stack : Nat} (hmove : ThreadMove platform tm choice thread event thread')
    (hprev : thread.prevBytes ≤ stack)
    (hcall : ∀ t call, thread = .live t → event = .call call → tm.PrevFits stack t call) :
    thread'.prevBytes ≤ stack := by
  have hstack : (0 : Int) ≤ stack := Int.natCast_nonneg stack
  cases hmove with
  | @call t _ _ h =>
      cases h with
      | @roRead source size g c hrange hro hcallEq =>
          obtain ⟨-, hc⟩ := roTransactionReadCall_eq_some hcallEq
          have hfits := hcall t _ rfl rfl hro
          have hle := toInt_natCast_le (size / tm.align)
          have hnum : c.numWords = toInt (size / tm.align : Nat) := by rw [hc]
          simp only [Thread.prevBytes, hnum]
          omega
      | _ => exact hstack
  | roRead h => cases h <;> first | exact hprev | exact hstack
  | begin h | read h | write h | alloc h | free h | finish h => cases h <;> exact hstack
  | start | cleanup | retIdle | retLive => exact hstack

theorem checkedInt_eq_some {n m : Int} (h : checkedInt n = some m) : n = m ∧ toInt n = n := by
  unfold checkedInt at h
  split at h
  · rename_i hrange
    exact ⟨Option.some.inj h, toInt_eq_self hrange.1 hrange.2⟩
  · cases h

/-- The version of a commit is never ahead of the clock. -/
theorem ThreadMove.version_le [Zero V]
    (hmove : ThreadMove platform tm choice thread event thread')
    (hle : ∀ wv, thread.version = some wv → wv ≤ tm.globalVersion) {wv : Int}
    (hwv : thread'.version = some wv) : wv ≤ (tm.after event).globalVersion := by
  cases hmove with
  | @finish t _ _ _ h =>
      cases h with
      | fetchAddSkip hchecked | fetchAdd hchecked =>
          cases hwv
          obtain ⟨hwv, hclock⟩ := checkedInt_eq_some hchecked
          simp only [Tm.after, Tm.apply, hclock]
          exact hwv.ge
      | copied =>
          cases hempty : t.toFree.isEmpty <;> simp [hempty, Thread.version] at hwv
      | validateDone | validateErased | validateFailed | validate | undo | commit | copy
      | release => exact hle wv hwv
      | _ => cases hwv
  | call h | begin h | read h | roRead h | write h | alloc h | free h => cases h <;> cases hwv
  | start | cleanup | retIdle | retLive => cases hwv

/-- The clock goes up by one, if at all. -/
theorem ThreadMove.clock [Zero V] (hmove : ThreadMove platform tm choice thread event thread') :
    (tm.after event).globalVersion = tm.globalVersion ∨
      (tm.after event).globalVersion = tm.globalVersion + 1 := by
  cases hmove with
  | finish h =>
      cases h with
      | fetchAddSkip hchecked | fetchAdd hchecked =>
          exact Or.inr (checkedInt_eq_some hchecked).2
      | @drainNull i spot | @drain i spot =>
          left
          simp only [Tm.after, Tm.apply, Tm.deleteSegment]
          split <;> rfl
      | _ => exact Or.inl rfl
  | call h | begin h | read h | roRead h | write h | alloc h | free h =>
      cases h <;> exact Or.inl rfl
  | start | cleanup | retIdle | retLive => exact Or.inl rfl

theorem ThreadMove.toFreeSz_le [Zero V] (hmove : ThreadMove platform tm choice thread event thread')
    (hqueue : tm.QueueRoomy) : (tm.after event).toFreeSz ≤ resize tm.toFreeSz := by
  have hresize := (lt_resize hqueue.size_le).le
  cases hmove with
  | finish h =>
      cases h with
      | @push i spot capacity hi hcapacity =>
          change capacity ≤ resize tm.toFreeSz
          omega
      | @drainNull i spot | @drain i spot =>
          obtain ⟨-, -, hsz, -⟩ := tm.deleteSegment_queue spot
          simpa only [Tm.after, Tm.apply, hsz] using hresize
      | _ => exact hresize
  | call h | begin h | read h | roRead h | write h | alloc h | free h => cases h <;> exact hresize
  | start | cleanup | retIdle | retLive => exact hresize

theorem ThreadMove.vaN_le [Zero V] (hmove : ThreadMove platform tm choice thread event thread') :
    (tm.after event).vaN ≤ tm.vaN + 1 := by
  cases hmove with
  | finish h =>
      cases h with
      | @drainNull i spot | @drain i spot =>
          obtain ⟨-, -, -, -, hvaN⟩ := tm.deleteSegment_queue spot
          simp [Tm.after, Tm.apply, hvaN]
      | _ => exact Nat.le_succ _
  | call h | begin h | read h | roRead h | write h | alloc h | free h =>
      cases h <;> first | exact Nat.le_succ _ | exact le_rfl
  | start | cleanup | retIdle | retLive => exact Nat.le_succ _

end Steps

end TransactionalMemory
