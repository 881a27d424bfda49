import Mathlib.Data.List.ReduceOption
import TransactionalMemory.Model.System

/-!
# What an access can do

The moves of `tm_read`, `ro_transaction_read` and `tm_write`, each with the tests it has passed.
Every later argument about an access is a case analysis over these and never unfolds the functions
again. All of them only load from the region.
-/

namespace TransactionalMemory

section Loads

variable {V : Type} [Zero V] {tm : Tm V}

def Op.IsLoad : Op V → Prop
  | .tau | .loadClock _ | .loadLock _ _ | .casLock _ _ false | .copyOut _ _ | .ownWord _
  | .commit _ _ | .loadEmptySpots | .loadToFreeN => True
  | _ => False

theorem Tm.apply_of_isLoad {o : Op V} (h : o.IsLoad) : tm.apply o = tm := by
  cases o <;> simp_all [Op.IsLoad, Tm.apply]
  case casLock w expected success => cases success <;> simp_all

omit [Zero V] in
@[simp]
theorem Move.op_eq_next {o : Op V} {thread thread' : Thread V} {event : Event V} :
    Move.op o thread = .next (event, thread') ↔ event = .op o ∧ thread' = thread := by
  simp only [Move.op, Outcome.next.injEq, Prod.mk.injEq, eq_comm]

omit [Zero V] in
@[simp]
theorem Move.op_ne_crash {o : Op V} {thread : Thread V} : Move.op o thread ≠ .crash := by
  simp [Move.op]

end Loads

/-- The buffer of a `memcpy` that has copied every word. -/
theorem reduceOption_map_some {α : Type} (values : List α) :
    (values.map some).reduceOption = values := by
  induction values with
  | nil => rfl
  | cons x values ih => rw [List.map_cons, List.reduceOption_cons_of_some, ih]

variable {V : Type} (platform : Platform V) (tm : Tm V) (choice : Choice V)

inductive TmReadMove (t : Tx V) (c : ReadCall) : ReadPc V → Event V → Thread V → Prop where
  | hit {i : Nat} {target curr item} (hi : (i : Int) < c.numWords) (hcurr : c.curr i = some curr)
      (hit : t.lookup platform.bit curr = some item) :
      TmReadMove t c (.word i target) (.op (.ownWord item.value))
        (.reading t c (.word (i + 1) (target ++ [item.value])))
  | miss {i : Nat} {target curr} (hi : (i : Int) < c.numWords) (hcurr : c.curr i = some curr)
      (hmiss : t.lookup platform.bit curr = none) :
      TmReadMove t c (.word i target) (.op .tau) (.reading t c (.load i target))
  | done {i : Nat} {target} (hi : ¬ (i : Int) < c.numWords) :
      TmReadMove t c (.word i target) (.op .tau) (.returning (.read (some target)) (some t))
  | refused {i : Nat} {target w} (hw : tm.wordAt c.seg (c.startWord + i) = some w)
      (hread : vlReadVersion (tm.lock w) = -1 ∨ t.rv < vlReadVersion (tm.lock w)) :
      TmReadMove t c (.load i target) (.op (.loadLock w (tm.lock w))) (.aborting t (.read none))
  | loaded {i : Nat} {target w} (hw : tm.wordAt c.seg (c.startWord + i) = some w)
      (hfree : vlReadVersion (tm.lock w) ≠ -1) (hold : vlReadVersion (tm.lock w) ≤ t.rv) :
      TmReadMove t c (.load i target) (.op (.loadLock w (tm.lock w)))
        (.reading t c (.copy i (vlReadVersion (tm.lock w)) target))
  | copied {i : Nat} {versionRead target w} (hw : tm.wordAt c.seg (c.startWord + i) = some w) :
      TmReadMove t c (.copy i versionRead target) (.op (.copyOut w (tm.data w)))
        (.reading t c (.recheck i versionRead (tm.data w) target))
  | changed {i : Nat} {versionRead x target w} (hw : tm.wordAt c.seg (c.startWord + i) = some w)
      (hread : vlReadVersion (tm.lock w) ≠ versionRead) :
      TmReadMove t c (.recheck i versionRead x target) (.op (.loadLock w (tm.lock w)))
        (.aborting t (.read none))
  | confirmed {i : Nat} {versionRead x target w t' ok}
      (hw : tm.wordAt c.seg (c.startWord + i) = some w)
      (hread : vlReadVersion (tm.lock w) = versionRead)
      (hadd : t.addToReadset w versionRead (choice.mallocOk 0) = .next (ok, t')) :
      TmReadMove t c (.recheck i versionRead x target) (.op (.loadLock w (tm.lock w)))
        (.reading t' c (.word (i + 1) (target ++ [x])))

inductive RoReadMove (t : Tx V) (c : RoCall) : RoPc V → Event V → Thread V → Prop where
  | preLocked {i : Nat} {prev w} (hi : (i : Int) < c.numWords)
      (hw : tm.wordAt c.seg (c.startIdx + i) = some w) (hread : vlReadVersion (tm.lock w) = -1) :
      RoReadMove t c (.pre i prev) (.op (.loadLock w (tm.lock w))) (.aborting t (.read none))
  | pre {i : Nat} {prev w} (hi : (i : Int) < c.numWords)
      (hw : tm.wordAt c.seg (c.startIdx + i) = some w) (hread : vlReadVersion (tm.lock w) ≠ -1) :
      RoReadMove t c (.pre i prev) (.op (.loadLock w (tm.lock w)))
        (.roReading t c (.pre (i + 1) (prev ++ [vlReadVersion (tm.lock w)])))
  | preDone {i : Nat} {prev} (hi : ¬ (i : Int) < c.numWords) :
      RoReadMove t c (.pre i prev) (.op .tau)
        (.roReading t c (.copy prev (List.replicate c.words none)))
  | copyDone {prev target} (hall : target.all Option.isSome = true) :
      RoReadMove t c (.copy prev target) (.op .tau) (.roReading t c (.post 0 prev target))
  | copied {k : Nat} {prev target} (hk : target[k]? = some none) :
      RoReadMove t c (.copy prev target)
        (.op (.copyOut ⟨c.seg, c.firstWord + k⟩ (tm.data ⟨c.seg, c.firstWord + k⟩)))
        (.roReading t c (.copy prev (target.set k (some (tm.data ⟨c.seg, c.firstWord + k⟩)))))
  | done {i : Nat} {prev target} (hi : ¬ (i : Int) < c.numWords) :
      RoReadMove t c (.post i prev target) (.op .tau)
        (.returning (.read (some target.reduceOption)) (some t))
  | changed {i : Nat} {prev target w} (hi : (i : Int) < c.numWords)
      (hw : tm.wordAt c.seg (c.startIdx + i) = some w)
      (hread : prev[i]? ≠ some (vlReadVersion (tm.lock w))) :
      RoReadMove t c (.post i prev target) (.op (.loadLock w (tm.lock w)))
        (.aborting t (.read none))
  | newer {i : Nat} {prev target w} (hi : (i : Int) < c.numWords)
      (hw : tm.wordAt c.seg (c.startIdx + i) = some w)
      (hread : prev[i]? = some (vlReadVersion (tm.lock w)))
      (hnew : t.rv < vlReadVersion (tm.lock w)) :
      RoReadMove t c (.post i prev target) (.op (.loadLock w (tm.lock w)))
        (.roReading t c (.loadClock i (vlReadVersion (tm.lock w)) prev target))
  | recorded {i : Nat} {prev target w t'} (hi : (i : Int) < c.numWords)
      (hw : tm.wordAt c.seg (c.startIdx + i) = some w)
      (hread : prev[i]? = some (vlReadVersion (tm.lock w)))
      (hold : vlReadVersion (tm.lock w) ≤ t.rv)
      (hadd : t.addToReadset w (vlReadVersion (tm.lock w)) (choice.mallocOk 0) = .next (true, t')) :
      RoReadMove t c (.post i prev target) (.op (.loadLock w (tm.lock w)))
        (.roReading t' c (.post (i + 1) prev target))
  | notRecorded {i : Nat} {prev target w t'} (hi : (i : Int) < c.numWords)
      (hw : tm.wordAt c.seg (c.startIdx + i) = some w)
      (hread : prev[i]? = some (vlReadVersion (tm.lock w)))
      (hold : vlReadVersion (tm.lock w) ≤ t.rv)
      (hadd : t.addToReadset w (vlReadVersion (tm.lock w)) (choice.mallocOk 0) =
        .next (false, t')) :
      RoReadMove t c (.post i prev target) (.op (.loadLock w (tm.lock w)))
        (.aborting t' (.read none))
  | clock {i : Nat} {versionRead prev target} :
      RoReadMove t c (.loadClock i versionRead prev target) (.op (.loadClock tm.globalVersion))
        (.roReading t c (.revalidate i 0 versionRead tm.globalVersion prev target))
  | stale {i k : Nat} {versionRead nextRv prev target rs recorded w} (hrs : t.rs = some rs)
      (hk : rs[k]? = some ⟨recorded, some w⟩) (hvalid : tm.valid w = true)
      (hread : vlReadVersion (tm.lock w) ≠ recorded) :
      RoReadMove t c (.revalidate i k versionRead nextRv prev target)
        (.op (.loadLock w (tm.lock w))) (.aborting t (.read none))
  | revalidated {i k : Nat} {versionRead nextRv prev target rs recorded w} (hrs : t.rs = some rs)
      (hk : rs[k]? = some ⟨recorded, some w⟩) (hvalid : tm.valid w = true)
      (hread : vlReadVersion (tm.lock w) = recorded) :
      RoReadMove t c (.revalidate i k versionRead nextRv prev target)
        (.op (.loadLock w (tm.lock w)))
        (.roReading t c (.revalidate i (k + 1) versionRead nextRv prev target))
  | extended {i k : Nat} {versionRead nextRv prev target rs w t'} (hrs : t.rs = some rs)
      (hk : rs[k]? = none) (hw : tm.wordAt c.seg (c.startIdx + i) = some w)
      (hadd : { t with rv := nextRv }.addToReadset w versionRead (choice.mallocOk 0)
        = .next (true, t')) :
      RoReadMove t c (.revalidate i k versionRead nextRv prev target) (.op .tau)
        (.roReading t' c (.post (i + 1) prev target))
  | notExtended {i k : Nat} {versionRead nextRv prev target rs w t'} (hrs : t.rs = some rs)
      (hk : rs[k]? = none) (hw : tm.wordAt c.seg (c.startIdx + i) = some w)
      (hadd : { t with rv := nextRv }.addToReadset w versionRead (choice.mallocOk 0)
        = .next (false, t')) :
      RoReadMove t c (.revalidate i k versionRead nextRv prev target) (.op .tau)
        (.aborting t' (.read none))

inductive TmWriteMove (t : Tx V) (c : WriteCall V) (i : Nat) : Event V → Thread V → Prop where
  | done (hi : ¬ (i : Int) < c.numWords) :
      TmWriteMove t c i (.op .tau) (.returning (.write true) (some t))
  | refused {w} (hi : (i : Int) < c.numWords) (hw : tm.wordAt c.seg (c.idxStart + i) = some w)
      (hread : vlReadVersion (tm.lock w) = -1 ∨ t.rv < vlReadVersion (tm.lock w)) :
      TmWriteMove t c i (.op (.loadLock w (tm.lock w))) (.aborting t (.write false))
  | overwritten {w x item} (hi : (i : Int) < c.numWords)
      (hw : tm.wordAt c.seg (c.idxStart + i) = some w)
      (hfree : vlReadVersion (tm.lock w) ≠ -1) (hold : vlReadVersion (tm.lock w) ≤ t.rv)
      (hx : c.source[i]? = some x) (hit : t.lookup platform.bit (c.curr tm i) = some item) :
      TmWriteMove t c i (.op (.loadLock w (tm.lock w)))
        (.writing { t with ws := Tx.overwrite t.ws (c.curr tm i) x } c (i + 1))
  | appended {w x t'} (hi : (i : Int) < c.numWords)
      (hw : tm.wordAt c.seg (c.idxStart + i) = some w)
      (hfree : vlReadVersion (tm.lock w) ≠ -1) (hold : vlReadVersion (tm.lock w) ≤ t.rv)
      (hx : c.source[i]? = some x) (hmiss : t.lookup platform.bit (c.curr tm i) = none)
      (happend : t.append platform.bit (c.curr tm i) x w (choice.mallocOk 0) (choice.mallocOk 1)
        = .next (some t')) :
      TmWriteMove t c i (.op (.loadLock w (tm.lock w))) (.writing t' c (i + 1))
  | noMemory {w x} (hi : (i : Int) < c.numWords)
      (hw : tm.wordAt c.seg (c.idxStart + i) = some w) (hx : c.source[i]? = some x)
      (happend : t.append platform.bit (c.curr tm i) x w (choice.mallocOk 0) (choice.mallocOk 1)
        = .next none) :
      TmWriteMove t c i (.op (.loadLock w (tm.lock w))) (.aborting t (.write false))

variable {platform tm choice} {event : Event V} {thread' : Thread V}

theorem tmReadCall_eq_some {s : SegId} {source : Addr} {size : Nat} {c : ReadCall}
    (h : tmReadCall tm s source size = some c) : toInt tm.align ≠ 0 ∧ c = {
      seg := s
      source := source
      align := toInt tm.align
      numWords := toInt (size / toSizeT (toInt tm.align) : Nat)
      startWord := (toInt (offsetFromVa source)).tdiv (toInt tm.align) } := by
  unfold tmReadCall at h
  dsimp only at h
  split at h
  · cases h
  · exact ⟨‹_›, (Option.some.inj h).symm⟩

theorem roTransactionReadCall_eq_some {s : SegId} {source : Addr} {size : Nat} {c : RoCall}
    (h : roTransactionReadCall tm s source size = some c) : 0 < c.numWords ∧ c = {
      seg := s
      startIdx := toInt (offsetFromVa source / tm.align : Nat)
      numWords := toInt (size / tm.align : Nat)
      firstWord := offsetFromVa source / tm.align
      words := size / tm.align } := by
  unfold roTransactionReadCall at h
  dsimp only at h
  split at h
  · rename_i hpos
    rw [Option.some.injEq] at h
    have hnum : c.numWords = toInt (size / tm.align : Nat) := by rw [← h]
    rw [hnum]
    exact ⟨hpos, h.symm⟩
  · cases h

theorem ReadCall.wordAt_eq_some {c : ReadCall} {i : Nat} {w : Word}
    (h : c.wordAt tm i = some w) : tm.wordAt c.seg (c.startWord + i) = some w := by
  unfold ReadCall.wordAt at h
  split at h
  · cases h
  · exact h

theorem tmReadStep_move [Zero V] {t : Tx V} {c : ReadCall} {pc : ReadPc V}
    (h : tmReadStep platform tm choice t c pc = .next (event, thread')) :
    TmReadMove platform tm choice t c pc event thread' := by
  cases pc with
  | word i target =>
      simp only [tmReadStep] at h
      split at h
      · rename_i hi
        split at h
        · cases h
        · rename_i curr hcurr
          split at h <;> rename_i hlookup <;> rw [Move.op_eq_next] at h <;> obtain ⟨rfl, rfl⟩ := h
          · exact .hit hi hcurr hlookup
          · exact .miss hi hcurr hlookup
      · rw [Move.op_eq_next] at h
        obtain ⟨rfl, rfl⟩ := h
        exact .done ‹_›
  | load i target =>
      simp only [tmReadStep] at h
      split at h
      · cases h
      · rename_i w hw
        split at h <;> rename_i hread <;> rw [Move.op_eq_next] at h <;> obtain ⟨rfl, rfl⟩ := h
        · exact .refused hw hread
        · rw [not_or, not_lt] at hread
          exact .loaded hw hread.1 hread.2
  | copy i versionRead target =>
      simp only [tmReadStep] at h
      split at h
      · cases h
      · rename_i w hw
        rw [Move.op_eq_next] at h
        obtain ⟨rfl, rfl⟩ := h
        exact .copied (ReadCall.wordAt_eq_some hw)
  | recheck i versionRead x target =>
      simp only [tmReadStep] at h
      split at h
      · cases h
      · rename_i w hw
        split at h
        · rw [Move.op_eq_next] at h
          obtain ⟨rfl, rfl⟩ := h
          exact .changed hw ‹_›
        · rename_i hread
          split at h
          · rename_i hadd
            rw [Move.op_eq_next] at h
            obtain ⟨rfl, rfl⟩ := h
            exact .confirmed hw (by simpa using hread) hadd
          · cases h

theorem roRecord_cases {t : Tx V} {c : RoCall} {w : Word} {i : Nat} {versionRead : Int}
    {prev : List Int} {target : List (Option V)} {o : Op V}
    (h : roRecord choice t c w i versionRead prev target o = .next (event, thread')) :
    event = .op o ∧ ∃ t',
      (t.addToReadset w versionRead (choice.mallocOk 0) = .next (true, t') ∧
        thread' = .roReading t' c (.post (i + 1) prev target)) ∨
      (t.addToReadset w versionRead (choice.mallocOk 0) = .next (false, t') ∧
        thread' = .aborting t' (.read none)) := by
  unfold roRecord at h
  split at h
  · rename_i t' hadd
    rw [Move.op_eq_next] at h
    exact ⟨h.1, t', Or.inl ⟨hadd, h.2⟩⟩
  · rename_i t' hadd
    rw [Move.op_eq_next] at h
    exact ⟨h.1, t', Or.inr ⟨hadd, h.2⟩⟩
  · cases h

theorem roTransactionReadStep_move [Zero V] {t : Tx V} {c : RoCall} {pc : RoPc V}
    (h : roTransactionReadStep tm choice t c pc = .next (event, thread')) :
    RoReadMove tm choice t c pc event thread' := by
  cases pc with
  | pre i prev =>
      simp only [roTransactionReadStep] at h
      split at h
      · rename_i hi
        split at h
        · cases h
        · rename_i w hw
          split at h <;> rename_i hread <;> rw [Move.op_eq_next] at h <;> obtain ⟨rfl, rfl⟩ := h
          · exact .preLocked hi hw hread
          · exact .pre hi hw hread
      · rw [Move.op_eq_next] at h
        obtain ⟨rfl, rfl⟩ := h
        exact .preDone ‹_›
  | copy prev target =>
      simp only [roTransactionReadStep] at h
      split at h
      · rw [Move.op_eq_next] at h
        obtain ⟨rfl, rfl⟩ := h
        exact .copyDone ‹_›
      · split at h
        · rw [Move.op_eq_next] at h
          obtain ⟨rfl, rfl⟩ := h
          exact .copied ‹_›
        · cases h
  | post i prev target =>
      simp only [roTransactionReadStep] at h
      split at h
      · rename_i hi
        split at h
        · cases h
        · rename_i w hw
          split at h
          · rw [Move.op_eq_next] at h
            obtain ⟨rfl, rfl⟩ := h
            exact .changed hi hw ‹_›
          · rename_i hread
            rw [ne_eq, not_not] at hread
            split at h
            · rw [Move.op_eq_next] at h
              obtain ⟨rfl, rfl⟩ := h
              exact .newer hi hw hread ‹_›
            · rename_i hold
              obtain ⟨rfl, t', ⟨hadd, rfl⟩ | ⟨hadd, rfl⟩⟩ := roRecord_cases h
              · exact .recorded hi hw hread (not_lt.mp hold) hadd
              · exact .notRecorded hi hw hread (not_lt.mp hold) hadd
      · rw [Move.op_eq_next] at h
        obtain ⟨rfl, rfl⟩ := h
        exact .done ‹_›
  | loadClock i versionRead prev target =>
      simp only [roTransactionReadStep, Move.op_eq_next] at h
      obtain ⟨rfl, rfl⟩ := h
      exact .clock
  | revalidate i k versionRead nextRv prev target =>
      simp only [roTransactionReadStep] at h
      split at h
      · cases h
      · rename_i rs hrs
        split at h
        · cases h
        · rename_i recorded w hk
          split at h
          · rename_i hvalid
            split at h <;> rename_i hread <;> rw [Move.op_eq_next] at h <;> obtain ⟨rfl, rfl⟩ := h
            · exact .stale hrs hk hvalid hread
            · exact .revalidated hrs hk hvalid (not_not.mp hread)
          · cases h
        · rename_i hk
          split at h
          · cases h
          · rename_i w hw
            obtain ⟨rfl, t', ⟨hadd, rfl⟩ | ⟨hadd, rfl⟩⟩ := roRecord_cases h
            · exact .extended hrs hk hw hadd
            · exact .notExtended hrs hk hw hadd

theorem tmWriteStep_move [Zero V] {t : Tx V} {c : WriteCall V} {i : Nat}
    (h : tmWriteStep platform tm choice t c i = .next (event, thread')) :
    TmWriteMove platform tm choice t c i event thread' := by
  simp only [tmWriteStep] at h
  split at h
  · rename_i hi
    split at h
    · cases h
    · rename_i w hw
      split at h
      · rw [Move.op_eq_next] at h
        obtain ⟨rfl, rfl⟩ := h
        exact .refused hi hw ‹_›
      · rename_i hread
        rw [not_or, not_lt] at hread
        split at h
        · cases h
        · rename_i x hx
          split at h
          · rename_i item hit
            rw [Move.op_eq_next] at h
            obtain ⟨rfl, rfl⟩ := h
            exact .overwritten hi hw hread.1 hread.2 hx hit
          · rename_i hmiss
            split at h
            · rename_i t' happend
              rw [Move.op_eq_next] at h
              obtain ⟨rfl, rfl⟩ := h
              exact .appended hi hw hread.1 hread.2 hx hmiss happend
            · rename_i happend
              rw [Move.op_eq_next] at h
              obtain ⟨rfl, rfl⟩ := h
              exact .noMemory hi hw hx happend
            · cases h
  · rw [Move.op_eq_next] at h
    obtain ⟨rfl, rfl⟩ := h
    exact .done ‹_›

end TransactionalMemory
