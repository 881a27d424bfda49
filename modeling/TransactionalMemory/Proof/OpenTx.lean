import TransactionalMemory.Proof.LifecycleMoves

/-!
# The open transaction

How a move changes the transaction that a thread has open, and what follows about its write set and
its frees whatever the other threads do.
-/

namespace TransactionalMemory

variable {V : Type}

/-! ### The sets -/

/-- The three ways `add_to_readset` returns: the word is there already, the array is lost, or the
word is appended. -/
theorem Tx.addToReadset_cases {t t' : Tx V} {w : Word} {versionRead : Int} {reallocOk ok : Bool}
    (h : t.addToReadset w versionRead reallocOk = .next (ok, t')) :
    ∃ rs, t.rs = some rs ∧
      ((ok = true ∧ t' = t ∧ t.isRo = false ∧ ∃ item ∈ rs, item.versionedLock = some w) ∨
        (ok = false ∧ reallocOk = false ∧ ∃ sz, t' = { t with rs := none, rsSz := sz }) ∨
        (ok = true ∧ (t.isRo = true ∨ ∀ item ∈ rs, item.versionedLock ≠ some w) ∧
          ∃ sz, t' = { t with rs := some (rs ++ [⟨versionRead, some w⟩]), rsSz := sz })) := by
  unfold Tx.addToReadset at h
  split at h
  · cases h
  · rename_i rs hrs
    refine ⟨rs, hrs, ?_⟩
    split at h
    · rename_i hdup
      cases h
      simp only [Bool.and_eq_true, Bool.not_eq_true', List.any_eq_true, decide_eq_true_eq] at hdup
      exact Or.inl ⟨rfl, rfl, hdup⟩
    · rename_i hdup
      have hnew : t.isRo = true ∨ ∀ item ∈ rs, item.versionedLock ≠ some w := by
        by_cases hro : t.isRo = true
        · exact Or.inl hro
        · exact Or.inr (by simpa [hro] using hdup)
      by_cases hfull : t.rsSz ≤ (rs.length : Int)
      · simp only [hfull, decide_true, if_true, Bool.true_and] at h
        split at h
        · rename_i hrealloc
          cases h
          exact Or.inr (Or.inl ⟨rfl, by simpa using hrealloc, _, rfl⟩)
        · split at h
          · cases h
            exact Or.inr (Or.inr ⟨rfl, hnew, _, rfl⟩)
          · cases h
      · simp only [hfull, decide_false, Bool.false_eq_true, if_false, Bool.false_and] at h
        split at h
        · cases h
          exact Or.inr (Or.inr ⟨rfl, hnew, _, rfl⟩)
        · cases h

theorem Tx.addToReadset_eq {t t' : Tx V} {w : Word} {versionRead : Int} {reallocOk ok : Bool}
    (h : t.addToReadset w versionRead reallocOk = .next (ok, t')) :
    t'.ws = t.ws ∧ t'.rv = t.rv ∧ t'.isRo = t.isRo ∧ t'.wsBloom = t.wsBloom ∧
      t'.toFree = t.toFree := by
  obtain ⟨rs, -, ⟨-, rfl, -⟩ | ⟨-, -, sz, rfl⟩ | ⟨-, -, sz, rfl⟩⟩ :=
    Tx.addToReadset_cases h <;> simp

theorem Tx.append_eq {t t' : Tx V} {bit : Int → BitVec 64} {addr : Addr} {x : V} {w : Word}
    {reallocOk mallocOk : Bool} (h : t.append bit addr x w reallocOk mallocOk = .next (some t')) :
    ∃ rs sz, t.rs = some rs ∧ t' = { t with
      ws := t.ws ++ [⟨addr, x, w, w⟩]
      wsSz := sz
      wsBloom := bfAdd bit t.wsBloom addr
      rs := some (Tx.eraseLock rs w) } := by
  unfold Tx.append at h
  cases hrs : t.rs with
  | none =>
      simp only [hrs] at h
      split_ifs at h
      cases h
  | some rs =>
      simp only [hrs] at h
      split_ifs at h <;> cases h <;> exact ⟨rs, _, rfl, rfl⟩

theorem Tx.mem_overwrite {ws : List (WsItem V)} {addr : Addr} {x : V} {item : WsItem V}
    (h : item ∈ Tx.overwrite ws addr x) :
    ∃ item' ∈ ws, item.addr = item'.addr ∧ item.rawAddr = item'.rawAddr ∧
      item.versionedLock = item'.versionedLock := by
  induction ws with
  | nil => simp [Tx.overwrite] at h
  | cons head ws ih =>
      rw [Tx.overwrite] at h
      split at h
      · rcases List.mem_cons.mp h with rfl | h
        · exact ⟨head, List.mem_cons_self, rfl, rfl, rfl⟩
        · exact ⟨item, List.mem_cons_of_mem _ h, rfl, rfl, rfl⟩
      · rcases List.mem_cons.mp h with rfl | h
        · exact ⟨item, List.mem_cons_self, rfl, rfl, rfl⟩
        · obtain ⟨item', hmem, hrest⟩ := ih h
          exact ⟨item', List.mem_cons_of_mem _ hmem, hrest⟩

theorem Tx.map_addr_overwrite {ws : List (WsItem V)} {addr : Addr} {x : V} :
    (Tx.overwrite ws addr x).map WsItem.addr = ws.map WsItem.addr := by
  induction ws with
  | nil => rfl
  | cons head ws ih =>
      rw [Tx.overwrite]
      split
      · rfl
      · rw [List.map_cons, ih, List.map_cons]

/-- The write set has one entry for an address, and the bloom filter lets through those it has. -/
structure Tx.Filtered (bit : Int → BitVec 64) (t : Tx V) : Prop where
  distinct : (t.ws.map WsItem.addr).Nodup
  bloom : ∀ item ∈ t.ws, bfIn bit t.wsBloom item.addr = true

namespace Tx.Filtered

variable {bit : Int → BitVec 64} {t t' : Tx V} {addr : Addr} {x : V} {w : Word}

theorem start {rv : Int} {isRo : Bool} {bloom : Bf} :
    (Tx.start rv isRo bloom : Tx V).Filtered bit :=
  ⟨List.nodup_nil, by simp [Tx.start]⟩

/-- The lookup finds what a scan of the write set would find. -/
theorem lookup_eq (h : t.Filtered bit) :
    t.lookup bit addr = t.ws.find? fun item => item.addr = addr := by
  unfold Tx.lookup
  split
  · rfl
  · rename_i hbloom
    symm
    rw [List.find?_eq_none]
    intro item hmem heq
    rw [← of_decide_eq_true heq] at hbloom
    exact hbloom (h.bloom item hmem)

theorem overwritten (h : t.Filtered bit) :
    Tx.Filtered bit { t with ws := Tx.overwrite t.ws addr x } := by
  refine ⟨?_, fun item hmem => ?_⟩
  · simpa only [Tx.map_addr_overwrite] using h.distinct
  · obtain ⟨item', hmem', haddr, -, -⟩ := Tx.mem_overwrite hmem
    rw [haddr]
    exact h.bloom item' hmem'

theorem appended (h : t.Filtered bit) (hbit : ∀ pos, bit pos ≠ 0#64)
    (hmiss : t.lookup bit addr = none) {reallocOk mallocOk : Bool}
    (happend : t.append bit addr x w reallocOk mallocOk = .next (some t')) : t'.Filtered bit := by
  obtain ⟨rs, sz, -, rfl⟩ := Tx.append_eq happend
  rw [h.lookup_eq, List.find?_eq_none] at hmiss
  refine ⟨?_, fun item hmem => ?_⟩
  · rw [List.map_append, List.nodup_append]
    refine ⟨h.distinct, by simp, fun addr' haddr' addr'' haddr'' heq => ?_⟩
    obtain rfl : addr'' = addr := by simpa using haddr''
    obtain ⟨item, hmem, haddr⟩ := List.mem_map.mp haddr'
    exact hmiss item hmem (by simpa [haddr] using heq)
  · rcases List.mem_append.mp hmem with hmem | hmem
    · exact bfIn_bfAdd (h.bloom item hmem)
    · obtain rfl := List.mem_singleton.mp hmem
      exact bfIn_bfAdd_self hbit _ _

theorem sorted (h : t.Filtered bit) {ws : List (WsItem V)} (hperm : ws.Perm t.ws) :
    Tx.Filtered bit { t with ws := ws } :=
  ⟨(hperm.map _).nodup_iff.mpr h.distinct, fun item hmem => h.bloom item (hperm.mem_iff.mp hmem)⟩

end Tx.Filtered

/-! ### What a move changes -/

def Thread.tx : Thread V → Option (Tx V)
  | .live t | .reading t _ _ | .roReading t _ _ | .writing t _ _ | .allocating t _ _ | .freeing t _
  | .ending t _ | .aborting t _ => some t
  | .returning _ t => t
  | .idle | .beginning _ _ => none

/-- The spot that `tm_free` computes from an address. -/
def freeSpot (target : Addr) : Int := toInt (indexFromVa target).toNat

inductive TxChange (platform : Platform V) (thread thread' : Thread V) : Prop where
  | same (hsame : thread'.tx = thread.tx)
  | closed (hafter : thread'.tx = none)
  | opened {rv : Int} {isRo : Bool} {bloom : Bf}
      (hafter : thread'.tx = some (Tx.start rv isRo bloom))
  | recorded {t : Tx V} {rv : Int} {rs : Option (List RsItem)} {rsSz : Int}
      (hbefore : thread.tx = some t)
      (hafter : thread'.tx = some { t with rv := rv, rs := rs, rsSz := rsSz })
  | overwritten {t : Tx V} {addr : Addr} {x : V} (hbefore : thread.tx = some t)
      (hafter : thread'.tx = some { t with ws := Tx.overwrite t.ws addr x })
  | appended {t : Tx V} {addr : Addr} {x : V} {w : Word} {wsSz : Int} {bloom : Bf}
      {rs : Option (List RsItem)} (hbefore : thread.tx = some t)
      (hafter : thread'.tx = some { t with
        ws := t.ws ++ [⟨addr, x, w, w⟩]
        wsSz := wsSz
        wsBloom := bloom
        rs := rs })
  | freed {t : Tx V} {target : Addr} (hbefore : thread = .freeing t target)
      (hafter : thread'.tx = some { t with toFree := t.toFree ++ [freeSpot target] })
  | sorted {t : Tx V} (hbefore : thread.tx = some t)
      (hafter : thread'.tx = some { t with ws := platform.qsort wsItemCmp t.ws })

structure Thread.Wf (thread : Thread V) : Prop where
  /-- An entry of the write set is locked and written at the same word. -/
  sameWord : ∀ t, thread.tx = some t → ∀ item ∈ t.ws, item.rawAddr = item.versionedLock
  /-- A read-only transaction frees nothing. -/
  readOnly : ∀ t, thread.tx = some t → t.isRo = true → t.toFree = []
  freeing : ∀ t target, thread = .freeing t target → t.isRo = false
  passed : ∀ t i prev, thread = .ending t (.tryCas i prev) → vlTryLockRefuses prev t.rv = false

/-- The access function that a thread runs is that of its transaction's mode, and only read-write
transactions get past the first test of `tm_end`. -/
def Thread.Mode : Thread V → Prop
  | .reading t _ _ | .writing t _ _ => t.isRo = false
  | .roReading t _ _ => t.isRo = true
  | .ending _ .start => True
  | .ending t _ => t.isRo = false
  | _ => True

section Moves

variable {platform : Platform V} {tm : Tm V} {choice : Choice V} {thread thread' : Thread V}
  {event : Event V}

theorem TxChange.of_addToReadset {t t' : Tx V} {rv : Int} {w : Word} {versionRead : Int}
    {reallocOk ok : Bool} (hbefore : thread.tx = some t)
    (hadd : { t with rv := rv }.addToReadset w versionRead reallocOk = .next (ok, t'))
    (hafter : thread'.tx = some t') : TxChange platform thread thread' := by
  obtain ⟨rs, hrs, ⟨-, rfl, -⟩ | ⟨-, -, sz, rfl⟩ | ⟨-, -, sz, rfl⟩⟩ := Tx.addToReadset_cases hadd
  · exact .recorded hbefore hafter
  · exact .recorded hbefore hafter
  · exact .recorded hbefore hafter

theorem ThreadMove.txChange (h : ThreadMove platform tm choice thread event thread') :
    TxChange platform thread thread' := by
  cases h with
  | call h => cases h <;> exact .same rfl
  | begin h =>
      cases h with
      | started => exact .opened rfl
      | _ => exact .closed rfl
  | read h =>
      cases h with
      | confirmed hw hread hadd => exact .of_addToReadset rfl hadd rfl
      | _ => exact .same rfl
  | roRead h =>
      cases h with
      | recorded hi hw hread hold hadd | notRecorded hi hw hread hold hadd =>
          exact .of_addToReadset rfl hadd rfl
      | extended hrs hk hw hadd | notExtended hrs hk hw hadd =>
          exact .of_addToReadset rfl hadd rfl
      | _ => exact .same rfl
  | write h =>
      cases h with
      | overwritten => exact .overwritten rfl rfl
      | appended hi hw hfree hold hx hmiss happend =>
          obtain ⟨rs, sz, -, rfl⟩ := Tx.append_eq happend
          exact .appended rfl rfl
      | _ => exact .same rfl
  | alloc h => cases h <;> exact .same rfl
  | free h =>
      cases h with
      | first => exact .same rfl
      | queued => exact .freed rfl rfl
  | finish h =>
      cases h with
      | sort => exact .sorted rfl rfl
      | early | noBatch | wrunlock => exact .closed rfl
      | _ => exact .same rfl
  | start | retIdle | retLive => exact .same rfl
  | cleanup => exact .closed rfl

theorem ThreadMove.mode (hmode : thread.Mode)
    (h : ThreadMove platform tm choice thread event thread') : thread'.Mode := by
  cases h with
  | call h =>
      cases h with
      | roRead hrange hro => exact hro
      | read hrange hrw | write hrange hrw => exact hrw
      | _ => trivial
  | read h =>
      cases h with
      | confirmed hw hread hadd => exact (Tx.addToReadset_eq hadd).2.2.1.trans hmode
      | _ => first | exact hmode | trivial
  | roRead h =>
      cases h with
      | recorded hi hw hread hold hadd => exact (Tx.addToReadset_eq hadd).2.2.1.trans hmode
      | extended hrs hk hw hadd => exact (Tx.addToReadset_eq hadd).2.2.1.trans hmode
      | _ => first | exact hmode | trivial
  | write h =>
      cases h with
      | overwritten => exact hmode
      | appended hi hw hfree hold hx hmiss happend =>
          obtain ⟨rs, sz, -, rfl⟩ := Tx.append_eq happend
          exact hmode
      | _ => trivial
  | finish h =>
      cases h with
      | sort hrw => exact hrw
      | copied => split <;> exact hmode
      | early | rolledBack | undone | noBatch | wrunlock => trivial
      | _ => exact hmode
  | begin h | alloc h | free h => cases h <;> trivial
  | start | cleanup | retIdle | retLive => trivial

/-- A transaction keeps its mode, and one that writes keeps the version it sampled. -/
theorem ThreadMove.rv (hmode : thread.Mode) (h : ThreadMove platform tm choice thread event thread')
    {t' : Tx V} (htx : thread'.tx = some t') :
    (∃ t, thread.tx = some t ∧ t'.isRo = t.isRo ∧ (t.isRo = false → t'.rv = t.rv)) ∨
      ∃ isRo bloom, thread = .beginning isRo .body ∧ event = .op (.loadClock tm.globalVersion) ∧
        t' = Tx.start tm.globalVersion isRo bloom := by
  cases h with
  | call h => cases h <;> exact Or.inl ⟨t', htx, rfl, fun _ => rfl⟩
  | begin h =>
      cases h with
      | started =>
          obtain rfl := Option.some.inj htx
          exact Or.inr ⟨_, _, rfl, rfl, rfl⟩
      | _ => cases htx
  | @read t c _ _ _ h =>
      cases h with
      | confirmed hw hread hadd =>
          obtain rfl := Option.some.inj htx
          obtain ⟨-, hrv, hro, -⟩ := Tx.addToReadset_eq hadd
          exact Or.inl ⟨t, rfl, hro, fun _ => hrv⟩
      | _ => exact Or.inl ⟨t', htx, rfl, fun _ => rfl⟩
  | @roRead t c _ _ _ h =>
      have hro : t.isRo = true := hmode
      cases h with
      | recorded hi hw hread hold hadd | notRecorded hi hw hread hold hadd
        | extended hrs hk hw hadd | notExtended hrs hk hw hadd =>
          obtain rfl := Option.some.inj htx
          exact Or.inl ⟨t, rfl, (Tx.addToReadset_eq hadd).2.2.1, by simp [hro]⟩
      | _ => exact Or.inl ⟨t', htx, rfl, fun _ => rfl⟩
  | @write t c _ _ _ h =>
      cases h with
      | overwritten =>
          obtain rfl := Option.some.inj htx
          exact Or.inl ⟨t, rfl, rfl, fun _ => rfl⟩
      | appended hi hw hfree hold hx hmiss happend =>
          obtain ⟨rs, sz, -, rfl⟩ := Tx.append_eq happend
          obtain rfl := Option.some.inj htx
          exact Or.inl ⟨t, rfl, rfl, fun _ => rfl⟩
      | _ => exact Or.inl ⟨t', htx, rfl, fun _ => rfl⟩
  | alloc h => cases h <;> exact Or.inl ⟨t', htx, rfl, fun _ => rfl⟩
  | @free t target _ _ h =>
      cases h with
      | first => exact Or.inl ⟨t', htx, rfl, fun _ => rfl⟩
      | queued =>
          obtain rfl := Option.some.inj htx
          exact Or.inl ⟨t, rfl, rfl, fun _ => rfl⟩
  | @finish t pc _ _ h =>
      cases h with
      | sort =>
          obtain rfl := Option.some.inj htx
          exact Or.inl ⟨t, rfl, rfl, fun _ => rfl⟩
      | early | noBatch | wrunlock => cases htx
      | _ => exact Or.inl ⟨t', htx, rfl, fun _ => rfl⟩
  | start | cleanup | retIdle => cases htx
  | retLive => exact Or.inl ⟨t', htx, rfl, fun _ => rfl⟩

theorem ThreadMove.wf (hwf : thread.Wf) (h : ThreadMove platform tm choice thread event thread') :
    thread'.Wf := by
  refine ⟨fun t' ht' item hmem => ?_, fun t' ht' hro => ?_, fun t' target heq => ?_,
    fun t' i prev heq => ?_⟩
  · cases h.txChange with
    | same hsame => exact hwf.sameWord t' (hsame ▸ ht') item hmem
    | closed hafter => simp [hafter] at ht'
    | opened hafter =>
        obtain rfl : _ = t' := by simpa [hafter] using ht'
        simp [Tx.start] at hmem
    | @recorded t _ _ _ hbefore hafter =>
        obtain rfl : _ = t' := by simpa [hafter] using ht'
        exact hwf.sameWord t hbefore item hmem
    | @freed t _ hbefore hafter =>
        obtain rfl : _ = t' := by simpa [hafter] using ht'
        exact hwf.sameWord t (by rw [hbefore]; rfl) item hmem
    | @overwritten t _ _ hbefore hafter =>
        obtain rfl : _ = t' := by simpa [hafter] using ht'
        obtain ⟨item', hmem', -, hraw, hlock⟩ := Tx.mem_overwrite hmem
        rw [hraw, hlock]
        exact hwf.sameWord t hbefore item' hmem'
    | @appended t _ _ _ _ _ _ hbefore hafter =>
        obtain rfl : _ = t' := by simpa [hafter] using ht'
        rcases List.mem_append.mp hmem with hmem | hmem
        · exact hwf.sameWord t hbefore item hmem
        · obtain rfl := List.mem_singleton.mp hmem
          rfl
    | @sorted t hbefore hafter =>
        obtain rfl : _ = t' := by simpa [hafter] using ht'
        exact hwf.sameWord t hbefore item ((platform.qsort_perm _ _).mem_iff.mp hmem)
  · cases h.txChange with
    | same hsame => exact hwf.readOnly t' (hsame ▸ ht') hro
    | closed hafter => simp [hafter] at ht'
    | opened hafter =>
        obtain rfl : _ = t' := by simpa [hafter] using ht'
        rfl
    | @recorded t _ _ _ hbefore hafter | @overwritten t _ _ hbefore hafter
      | @appended t _ _ _ _ _ _ hbefore hafter | @sorted t hbefore hafter =>
        obtain rfl : _ = t' := by simpa [hafter] using ht'
        exact hwf.readOnly t hbefore hro
    | freed hbefore hafter =>
        obtain rfl : _ = t' := by simpa [hafter] using ht'
        exact absurd hro (by simp [hwf.freeing _ _ hbefore])
  · cases h with
    | call h =>
        cases h with
        | free hrw =>
            obtain ⟨rfl, -⟩ := Thread.freeing.inj heq
            exact hrw
        | _ => cases heq
    | begin h | read h | roRead h | write h | alloc h | free h | finish h =>
        cases h <;> cases heq
    | start | cleanup | retIdle | retLive => cases heq
  · cases h with
    | finish h =>
        cases h with
        | tryLoad hi hvalid hpass =>
            simp only [Thread.ending.injEq, EndPc.tryCas.injEq] at heq
            obtain ⟨rfl, -, rfl⟩ := heq
            exact hpass
        | copied =>
            simp only [Thread.ending.injEq] at heq
            split at heq <;> simp at heq
        | _ => simp at heq
    | call h | begin h | read h | roRead h | write h | alloc h | free h => cases h <;> simp at heq
    | start | cleanup | retIdle | retLive => simp at heq

theorem ThreadMove.filtered (hbit : ∀ pos, platform.bit pos ≠ 0#64)
    (hbefore : ∀ t, thread.tx = some t → t.Filtered platform.bit)
    (h : ThreadMove platform tm choice thread event thread') {t' : Tx V}
    (htx : thread'.tx = some t') : t'.Filtered platform.bit := by
  cases h with
  | call h => cases h <;> exact hbefore t' htx
  | begin h =>
      cases h with
      | started =>
          obtain rfl := Option.some.inj htx
          exact .start
      | _ => cases htx
  | @read t c _ _ _ h =>
      cases h with
      | confirmed hw hread hadd =>
          obtain rfl := Option.some.inj htx
          obtain ⟨hws, -, -, hbloom, -⟩ := Tx.addToReadset_eq hadd
          obtain ⟨hdistinct, hin⟩ := hbefore t rfl
          exact ⟨by rwa [hws], by rwa [hws, hbloom]⟩
      | _ => exact hbefore t' htx
  | @roRead t c _ _ _ h =>
      cases h with
      | recorded hi hw hread hold hadd | notRecorded hi hw hread hold hadd
        | extended hrs hk hw hadd | notExtended hrs hk hw hadd =>
          obtain rfl := Option.some.inj htx
          obtain ⟨hws, -, -, hbloom, -⟩ := Tx.addToReadset_eq hadd
          obtain ⟨hdistinct, hin⟩ := hbefore t rfl
          exact ⟨by rwa [hws], by rwa [hws, hbloom]⟩
      | _ => exact hbefore t' htx
  | @write t c _ _ _ h =>
      cases h with
      | overwritten =>
          obtain rfl := Option.some.inj htx
          exact (hbefore t rfl).overwritten
      | appended hi hw hfree hold hx hmiss happend =>
          obtain rfl := Option.some.inj htx
          exact (hbefore t rfl).appended hbit hmiss happend
      | _ => exact hbefore t' htx
  | alloc h => cases h <;> exact hbefore t' htx
  | @free t target _ _ h =>
      cases h with
      | first => exact hbefore t' htx
      | queued =>
          obtain rfl := Option.some.inj htx
          exact ⟨(hbefore t rfl).distinct, (hbefore t rfl).bloom⟩
  | @finish t pc _ _ h =>
      cases h with
      | sort =>
          obtain rfl := Option.some.inj htx
          exact (hbefore t rfl).sorted (platform.qsort_perm _ _)
      | early | noBatch | wrunlock => cases htx
      | _ => exact hbefore t' htx
  | start | cleanup | retIdle => cases htx
  | retLive => exact hbefore t' htx

end Moves

/-- In every run the sets of an open transaction answer for what it wrote. -/
theorem threadFiltered [Zero V] {Tid : Type} [DecidableEq Tid] {platform : Platform V}
    {s : State Tid V} (hbit : ∀ pos, platform.bit pos ≠ 0#64)
    (h : (system Tid platform).Reachable s) (tid : Tid) {t : Tx V}
    (htx : (s.thread tid).tx = some t) : t.Filtered platform.bit :=
  thread_invariant (P := fun thread => ∀ t, thread.tx = some t → t.Filtered platform.bit)
    (fun _ htx => (nomatch htx))
    (fun _ _ _ _ _ hmove hbefore _ => hmove.filtered hbit hbefore) h tid t htx

end TransactionalMemory
