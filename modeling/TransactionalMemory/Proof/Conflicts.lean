import TransactionalMemory.Proof.Commits
import TransactionalMemory.Proof.Extension
import TransactionalMemory.Proof.LockWords
import TransactionalMemory.Proof.ReadSet

/-!
# Conflicts

A recorder keeps the words that a transaction has asked for, the locks that a `tm_end` has taken,
and for each transaction its rivals: the locks taken by a `tm_end` of another thread that took a
step after the transaction had sampled the clock. Every way to abort starts from a word whose lock
somebody holds or whose version is not the one expected, and both lead back to another thread's
`tm_end`.
-/

namespace TransactionalMemory

open Concurrency

variable {V Tid : Type}

structure ConflictRecord (Tid : Type) where
  /-- The words of the ranges that the open transaction has read or written, or is about to. -/
  touched : Tid → List Word
  /-- The locks that the last `tm_end` of the thread has taken. -/
  taken : Tid → List Word
  /-- The locks taken by every `tm_end` of another thread that has taken a step since the thread's
  `tm_begin` sampled the clock. -/
  rivals : Tid → List (Tid × Word)

def Thread.samples : Thread V → Bool
  | .beginning _ .body => true
  | _ => false

def Thread.ends : Thread V → Bool
  | .ending _ _ => true
  | _ => false

def touchedNext (tm : Tm V) (event : Event V) (touched : List Word) : List Word :=
  match event with
  | .call (.begin _) => []
  | .call (.read source size) => touched ++ tm.named source size
  | .call (.write _ size target) => touched ++ tm.named target size
  | _ => touched

def takenNext (event : Event V) (taken : List Word) : List Word :=
  match event with
  | .call .finish => []
  | .op (.casLock w _ true) => taken ++ [w]
  | _ => taken

def recordConflicts [DecidableEq Tid] (s : State Tid V) (l : Label Tid V) (r : ConflictRecord Tid) :
    ConflictRecord Tid where
  touched := Function.update r.touched l.tid (touchedNext s.tm l.event (r.touched l.tid))
  taken := Function.update r.taken l.tid (takenNext l.event (r.taken l.tid))
  rivals tid :=
    if tid = l.tid then if (s.thread tid).samples then [] else r.rivals tid
    else if (s.thread l.tid).ends then
      r.rivals tid ++ (takenNext l.event (r.taken l.tid)).map fun w => (l.tid, w)
    else r.rivals tid

def conflictMachine [Zero V] (Tid : Type) [DecidableEq Tid] (platform : Platform V)
    (ok : State Tid V → Label Tid V → Prop) :
    Machine (State Tid V × ConflictRecord Tid) (Label Tid V) :=
  ((system Tid platform).restrict ok).observe
    ⟨fun _ => [], fun _ => [], fun _ => []⟩ recordConflicts

/-- A `tm_end` of another thread that had the word's lock took a step since the thread's sample. -/
def ConflictRecord.Rivaled (r : ConflictRecord Tid) (tid : Tid) (w : Word) : Prop :=
  ∃ u, u ≠ tid ∧ (u, w) ∈ r.rivals tid

/-- Another thread's `tm_end` has the lock of a word of the transaction, or had it and was still
running when the transaction sampled the clock. -/
def Provoked (s : State Tid V) (r : ConflictRecord Tid) (tid : Tid) : Prop :=
  ∃ w ∈ r.touched tid, r.Rivaled tid w ∨
    ∃ u, u ≠ tid ∧ w ∈ r.taken u ∧ w ∈ (s.thread u).held

/-! ### What a thread expects of the words -/

def Settled (tm : Tm V) (rivaled : Word → Prop) (w : Word) (v : Int) : Prop :=
  rivaled w ∨ tm.lock w / 2 = v

def Looked (settled : Word → Int → Prop) (words : List Word) (prev : List Int) : Prop :=
  ∀ (j : Nat) w v, words[j]? = some w → prev[j]? = some v → settled w v

def ReadPc.Guarded (settled : Word → Int → Prop) (words : List Word) : ReadPc V → Prop
  | .word _ _ => True
  | .load i _ => i < words.length
  | .copy i v _ | .recheck i v _ _ => ∃ w, words[i]? = some w ∧ settled w v

def RoPc.Guarded (settled : Word → Int → Prop) (words : List Word) : RoPc V → Prop
  | .pre i prev => prev.length = i ∧ Looked settled words prev
  | .copy prev _ | .post _ prev _ => words.length ≤ prev.length ∧ Looked settled words prev
  | .loadClock i v prev _ | .revalidate i _ v _ prev _ => i < words.length ∧
      words.length ≤ prev.length ∧ Looked settled words prev ∧ prev[i]? = some v

def Thread.Guarded (settled : Word → Int → Prop) (touched : List Word) (provoked : Prop) :
    Thread V → Prop
  | .reading _ c pc => ∃ words ⊆ touched, CallWords c.seg c.startWord c.numWords words ∧
      pc.Guarded settled words
  | .roReading _ c pc => ∃ words ⊆ touched, CallWords c.seg c.startIdx c.numWords words ∧
      pc.Guarded settled words
  | .writing _ c _ => ∃ words ⊆ touched, CallWords c.seg c.idxStart c.numWords words
  | .ending t (.tryCas i prev) => ∀ item, t.ws[i]? = some item →
      vlLocked prev = false ∧ settled item.versionedLock (prev / 2)
  | .ending _ (.rollback _ _) | .ending _ (.undo _ _) => provoked
  | .aborting _ r | .returning r none => r.aborts = true → r ≠ .free false → provoked
  | _ => True

/-- The sets of a transaction: a newer version than its own has a rival, and a read-only transaction
finds the versions that it recorded. -/
structure Tx.Guarded (tm : Tm V) (touched : List Word) (rivaled : Word → Prop) (t : Tx V) :
    Prop where
  points : ∀ w, t.Points w → w ∈ touched
  current : t.isRo = false → ∀ w, t.rv < tm.lock w / 2 → rivaled w
  recorded : t.isRo = true → ∀ rs, t.rs = some rs → ∀ v w, ⟨v, some w⟩ ∈ rs →
    Settled tm rivaled w v

section Later

variable {tm tm' : Tm V} {touched touched' : List Word} {rivaled rivaled' : Word → Prop}
  {provoked provoked' : Prop} {settled settled' : Word → Int → Prop} {thread : Thread V} {t : Tx V}

theorem Settled.later (hrival : ∀ w, rivaled w → rivaled' w)
    (hlock : ∀ w, tm'.lock w / 2 = tm.lock w / 2 ∨ rivaled' w) (w : Word) (v : Int)
    (h : Settled tm rivaled w v) : Settled tm' rivaled' w v := by
  rcases h with h | h
  · exact Or.inl (hrival w h)
  · rcases hlock w with hsame | hrival'
    · exact Or.inr (hsame.trans h)
    · exact Or.inl hrival'

theorem Looked.later (hsettled : ∀ w v, settled w v → settled' w v) {words : List Word}
    {prev : List Int} (h : Looked settled words prev) : Looked settled' words prev :=
  fun j w v hw hv => hsettled w v (h j w v hw hv)

theorem Thread.Guarded.later (hsettled : ∀ w v, settled w v → settled' w v)
    (hprovoked : provoked → provoked') (h : thread.Guarded settled touched provoked) :
    thread.Guarded settled' touched provoked' := by
  cases thread with
  | reading t c pc =>
      obtain ⟨words, hsub, hwords, hpc⟩ := h
      refine ⟨words, hsub, hwords, ?_⟩
      cases pc with
      | word => trivial
      | load => exact hpc
      | copy | recheck =>
          obtain ⟨w, hw, hv⟩ := hpc
          exact ⟨w, hw, hsettled w _ hv⟩
  | roReading t c pc =>
      obtain ⟨words, hsub, hwords, hpc⟩ := h
      refine ⟨words, hsub, hwords, ?_⟩
      cases pc with
      | pre | copy | post => exact ⟨hpc.1, hpc.2.later hsettled⟩
      | loadClock | revalidate =>
          exact ⟨hpc.1, hpc.2.1, hpc.2.2.1.later hsettled, hpc.2.2.2⟩
  | writing => exact h
  | ending t pc =>
      cases pc with
      | tryCas i prev => exact fun item hi => ⟨(h item hi).1, hsettled _ _ (h item hi).2⟩
      | rollback | undo => exact hprovoked h
      | _ => trivial
  | aborting t r => exact fun haborts hfree => hprovoked (h haborts hfree)
  | returning r t =>
      cases t with
      | none => exact fun haborts hfree => hprovoked (h haborts hfree)
      | some t => trivial
  | _ => trivial

theorem Tx.Guarded.later (hrival : ∀ w, rivaled w → rivaled' w)
    (hlock : ∀ w, tm'.lock w / 2 = tm.lock w / 2 ∨ rivaled' w) (h : t.Guarded tm touched rivaled) :
    t.Guarded tm' touched rivaled' := by
  refine ⟨h.points, fun hrw w hw => ?_, fun hro rs hrs v w hmem => ?_⟩
  · rcases hlock w with hsame | hrival'
    · exact hrival w (h.current hrw w (hsame ▸ hw))
    · exact hrival'
  · exact (h.recorded hro rs hrs v w hmem).later hrival hlock

namespace Tx.Guarded

theorem start {rv : Int} {isRo : Bool} {bloom : Bf} (hrv : ∀ w, tm.lock w / 2 ≤ rv) :
    (Tx.start rv isRo bloom).Guarded (V := V) tm touched rivaled := by
  refine ⟨fun w hw => ?_, fun _ w hw => ?_, fun _ rs hrs v w hmem => ?_⟩
  · rcases hw with ⟨rs, item, hrs, hmem, -⟩ | ⟨item, hmem, -⟩
    · obtain rfl := Option.some.inj hrs
      cases hmem
    · cases hmem
  · exact absurd (hrv w) (not_le.mpr hw)
  · obtain rfl := Option.some.inj hrs
    cases hmem

/-- A word is recorded, under the version it has, or after it a read-only transaction's clock
moves. -/
theorem record {t' : Tx V} {rv v : Int} {w : Word} {reallocOk ok : Bool}
    (h : t.Guarded tm touched rivaled) (hw : w ∈ touched) (hrv : t.isRo = false → rv = t.rv)
    (hsettled : t.isRo = true → Settled tm rivaled w v)
    (hadd : { t with rv := rv }.addToReadset w v reallocOk = .next (ok, t')) :
    t'.Guarded tm touched rivaled := by
  have hpoints := fun w' (hw' : t'.Points w') => Tx.points_addToReadset hadd hw'
  refine ⟨fun w' hw' => ?_, fun hrw w' hw' => ?_, fun hro rs' hrs' v' w' hmem => ?_⟩
  · rcases hpoints w' hw' with hold | rfl
    · exact h.points w' hold
    · exact hw
  · obtain ⟨-, hrv', hro', -⟩ := Tx.addToReadset_eq hadd
    rw [hro'] at hrw
    rw [hrv', hrv hrw] at hw'
    exact h.current hrw w' hw'
  · obtain ⟨-, -, hro', -⟩ := Tx.addToReadset_eq hadd
    rw [hro'] at hro
    obtain ⟨rs, hrs, ⟨-, rfl, hrw, -⟩ | ⟨-, -, sz, rfl⟩ | ⟨-, -, sz, rfl⟩⟩ :=
      Tx.addToReadset_cases hadd
    · exact absurd (hro.symm.trans hrw) (by simp)
    · cases hrs'
    · obtain rfl := Option.some.inj hrs'
      rcases List.mem_append.mp hmem with hmem | hmem
      · exact h.recorded hro rs hrs v' w' hmem
      · simp only [List.mem_singleton, RsItem.mk.injEq, Option.some.injEq] at hmem
        obtain ⟨rfl, rfl⟩ := hmem
        exact hsettled hro

end Tx.Guarded

end Later

/-! ### One step of the thread -/

theorem vlReadVersion_of_free {word : Int} (h : vlLocked word = false) :
    vlReadVersion word = word / 2 := by
  simp [vlReadVersion, h]

theorem div_two_of_read {word : Int} (h : vlReadVersion word ≠ -1) :
    word / 2 = vlReadVersion word := by
  cases hlocked : vlLocked word with
  | true => exact absurd (by simp [vlReadVersion, hlocked]) h
  | false => exact (vlReadVersion_of_free hlocked).symm

/-- What leads from a word to the thread that is to blame. -/
structure Blames (tm : Tm V) (held touched : List Word) (rivaled : Word → Prop) (provoked : Prop) :
    Prop where
  locked : ∀ w ∈ touched, w ∉ held → vlLocked (tm.lock w) = true → provoked
  rival : ∀ w ∈ touched, rivaled w → provoked

namespace Blames

variable {tm : Tm V} {held touched : List Word} {rivaled : Word → Prop} {provoked : Prop} {w : Word}

/-- A word that is locked or newer than the transaction. -/
theorem refused (h : Blames tm held touched rivaled provoked) {rv : Int} (hw : w ∈ touched)
    (hown : w ∉ held) (hnonneg : 0 ≤ tm.lock w) (hcurrent : rv < tm.lock w / 2 → rivaled w)
    (hread : vlReadVersion (tm.lock w) = -1 ∨ rv < vlReadVersion (tm.lock w)) : provoked := by
  cases hlocked : vlLocked (tm.lock w) with
  | true => exact h.locked w hw hown hlocked
  | false =>
      rw [vlReadVersion_of_free hlocked] at hread
      exact h.rival w hw (hcurrent (by omega))

/-- A word that does not have the version expected. -/
theorem changed (h : Blames tm held touched rivaled provoked) {v : Int} (hw : w ∈ touched)
    (hown : w ∉ held) (hsettled : Settled tm rivaled w v) (hread : vlReadVersion (tm.lock w) ≠ v) :
    provoked := by
  cases hlocked : vlLocked (tm.lock w) with
  | true => exact h.locked w hw hown hlocked
  | false =>
      rw [vlReadVersion_of_free hlocked] at hread
      exact h.rival w hw (hsettled.resolve_right hread)

end Blames

section Mover

variable {s s' : State Tid V} {l : Label Tid V} {platform : Platform V} {tm : Tm V} {t t' : Tx V}
  {touched : List Word} {rivaled : Word → Prop} {provoked : Prop}

theorem Tx.addToReadset_ne_false {w : Word} {v : Int} :
    t.addToReadset w v true ≠ .next (false, t') := by
  intro h
  obtain ⟨rs, -, ⟨hok, -⟩ | ⟨-, hfalse, -⟩ | ⟨hok, -⟩⟩ := Tx.addToReadset_cases h
  · cases hok
  · cases hfalse
  · cases hok

theorem Tx.append_ne_none {bit : Int → BitVec 64} {addr : Addr} {x : V} {w : Word} :
    t.append bit addr x w true true ≠ .next none := by
  intro h
  unfold Tx.append at h
  cases hrs : t.rs <;> simp only [hrs] at h <;> split_ifs at h <;> simp_all

theorem ReadPc.Guarded.mover {c : ReadCall} {pc : ReadPc V} {choice : Choice V} {event : Event V}
    {thread' : Thread V} {words : List Word} (hblames : Blames tm [] touched rivaled provoked)
    (hnonneg : ∀ w, 0 ≤ tm.lock w) (htx : t.Guarded tm touched rivaled) (hrw : t.isRo = false)
    (hsub : words ⊆ touched) (hwords : CallWords c.seg c.startWord c.numWords words)
    (h : pc.Guarded (Settled tm rivaled) words)
    (hmove : TmReadMove platform tm choice t c pc event thread') :
    thread'.Guarded (Settled tm rivaled) touched provoked := by
  have hlength := hwords.length
  cases hmove with
  | hit => exact ⟨words, hsub, hwords, trivial⟩
  | miss hi => exact ⟨words, hsub, hwords, (by omega : _ < words.length)⟩
  | done => trivial
  | @refused i target w hw hread =>
      intro _ _
      have hi : i < words.length := h
      have hmem := hsub (List.mem_of_getElem? (hwords.wordAt (by omega) hw))
      exact hblames.refused hmem (by simp) (hnonneg w) (htx.current hrw w) hread
  | @loaded i target w hw hfree hold =>
      have hi : i < words.length := h
      exact ⟨words, hsub, hwords, w, hwords.wordAt (by omega) hw, Or.inr (div_two_of_read hfree)⟩
  | copied => exact ⟨words, hsub, hwords, h⟩
  | @changed i versionRead x target w hw hread =>
      intro _ _
      obtain ⟨w', hw', hsettled⟩ := h
      have hi := (List.getElem?_eq_some_iff.mp hw').1
      obtain rfl : w' = w := by
        rw [hwords.wordAt (by omega) hw] at hw'
        exact (Option.some.inj hw').symm
      exact hblames.changed (hsub (List.mem_of_getElem? hw')) (by simp) hsettled hread
  | confirmed => exact ⟨words, hsub, hwords, trivial⟩

theorem RoPc.Guarded.mover {c : RoCall} {pc : RoPc V} {choice : Choice V} {event : Event V}
    {thread' : Thread V} {words : List Word} (hblames : Blames tm [] touched rivaled provoked)
    (hmalloc : choice.mallocOk 0 = true) (hnonneg : ∀ w, 0 ≤ tm.lock w)
    (htx : t.Guarded tm touched rivaled) (hro : t.isRo = true)
    (hsub : words ⊆ touched) (hwords : CallWords c.seg c.startIdx c.numWords words)
    (h : pc.Guarded (Settled tm rivaled) words)
    (hmove : RoReadMove tm choice t c pc event thread') :
    thread'.Guarded (Settled tm rivaled) touched provoked := by
  have hlength := hwords.length
  cases hmove with
  | @preLocked i prev w hi hw hread =>
      intro _ _
      have hmem := hsub (List.mem_of_getElem? (hwords.wordAt hi hw))
      have hlocked : vlLocked (tm.lock w) = true := by
        by_contra hfree
        rw [vlReadVersion_of_free (by simpa using hfree)] at hread
        have := hnonneg w
        omega
      exact hblames.locked w hmem (by simp) hlocked
  | @pre i prev w hi hw hread =>
      obtain ⟨rfl, hlooked⟩ := h
      refine ⟨words, hsub, hwords, by simp, fun j w' v hw' hv => ?_⟩
      rcases Nat.lt_trichotomy j prev.length with hlt | rfl | hgt
      · exact hlooked j w' v hw' (by rwa [List.getElem?_append_left hlt] at hv)
      · obtain rfl : w = w' := Option.some.inj ((hwords.wordAt hi hw).symm.trans hw')
        obtain rfl : vlReadVersion (tm.lock w) = v := by simpa using hv
        exact Or.inr (div_two_of_read hread)
      · have hnone : (prev ++ [vlReadVersion (tm.lock w)])[j]? = none :=
          List.getElem?_eq_none (by simp; omega)
        simp [hnone] at hv
  | @preDone i prev hi =>
      obtain ⟨rfl, hlooked⟩ := h
      exact ⟨words, hsub, hwords, by omega, hlooked⟩
  | copyDone | copied | recorded => exact ⟨words, hsub, hwords, h⟩
  | done => trivial
  | @changed i prev target w hi hw hread =>
      intro _ _
      obtain ⟨hle, hlooked⟩ := h
      have hword := hwords.wordAt hi hw
      obtain ⟨v, hget⟩ : ∃ v, prev[i]? = some v := ⟨_, List.getElem?_eq_getElem (by omega)⟩
      refine hblames.changed (hsub (List.mem_of_getElem? hword)) (by simp)
        (hlooked i w v hword hget) ?_
      rw [hget] at hread
      exact fun heq => hread (congrArg some heq.symm)
  | newer hi hw hread => exact ⟨words, hsub, hwords, by omega, h.1, h.2, hread⟩
  | notRecorded hi hw hread hold hadd =>
      rw [hmalloc] at hadd
      exact absurd hadd Tx.addToReadset_ne_false
  | clock => exact ⟨words, hsub, hwords, h⟩
  | @stale i k versionRead nextRv prev target rs recorded w hrs hk hvalid hread =>
      intro _ _
      have hmem := List.mem_of_getElem? hk
      exact hblames.changed (htx.points w (Or.inl ⟨rs, _, hrs, hmem, rfl⟩)) (by simp)
        (htx.recorded hro rs hrs recorded w hmem) hread
  | revalidated => exact ⟨words, hsub, hwords, h⟩
  | extended => exact ⟨words, hsub, hwords, h.2.1, h.2.2.1⟩
  | notExtended hrs hk hw hadd =>
      rw [hmalloc] at hadd
      exact absurd hadd Tx.addToReadset_ne_false

theorem TmWriteMove.guarded {c : WriteCall V} {i : Nat} {choice : Choice V} {event : Event V}
    {thread' : Thread V} {words : List Word} (hblames : Blames tm [] touched rivaled provoked)
    (hmalloc : ∀ i, choice.mallocOk i = true) (hnonneg : ∀ w, 0 ≤ tm.lock w)
    (htx : t.Guarded tm touched rivaled) (hrw : t.isRo = false) (hsub : words ⊆ touched)
    (hwords : CallWords c.seg c.idxStart c.numWords words)
    (hmove : TmWriteMove platform tm choice t c i event thread') :
    thread'.Guarded (Settled tm rivaled) touched provoked := by
  cases hmove with
  | done => trivial
  | @refused w hi hw hread =>
      intro _ _
      have hmem := hsub (List.mem_of_getElem? (hwords.wordAt hi hw))
      exact hblames.refused hmem (by simp) (hnonneg w) (htx.current hrw w) hread
  | overwritten | appended => exact ⟨words, hsub, hwords⟩
  | noMemory hi hw hx happend =>
      rw [hmalloc, hmalloc] at happend
      exact absurd happend Tx.append_ne_none

theorem TmEndMove.guarded {pc : EndPc} {event : Event V} {thread' : Thread V}
    (hmode : (Thread.ending t pc).Mode) (hnonneg : ∀ w, 0 ≤ tm.lock w)
    (hblames : Blames tm (Thread.ending t pc).held touched rivaled provoked)
    (htx : (Thread.ending t pc).undecided = true → t.Guarded tm touched rivaled)
    (hapart : (Thread.ending t pc).ReadsApart)
    (hlocks : pc.deciding = true → t.isRo = false → t.locks.Nodup)
    (h : (Thread.ending t pc).Guarded (Settled tm rivaled) touched provoked)
    (hmove : TmEndMove platform tm t pc event thread') :
    thread'.Guarded (Settled tm rivaled) touched provoked := by
  have hpoints : ∀ (i : Nat) item, t.ws[i]? = some item → pc.committed = false →
      item.versionedLock ∈ touched := fun i item hi hpc =>
    (htx (by simp [Thread.undecided, hpc])).points _
      (Or.inr ⟨item, List.mem_of_getElem? hi, Or.inl rfl⟩)
  have hown : ∀ (i : Nat) (item : WsItem V), t.ws[i]? = some item → t.locks.Nodup →
      item.versionedLock ∉ t.locks.take i := by
    intro i item hi hnodup hmem
    obtain ⟨hlt, hget⟩ := List.getElem?_eq_some_iff.mp (Tx.locks_getElem? hi)
    have hnodup' : (t.locks.take (i + 1)).Nodup := hnodup.sublist (List.take_sublist _ _)
    rw [Tx.locks_take hi, List.nodup_append] at hnodup'
    exact hnodup'.2.2 _ hmem _ (by simp) rfl
  cases hmove with
  | @refused i item hi hvalid hrefuse =>
      have hnotHeld := hown i item hi (hlocks rfl hmode)
      have hmem := hpoints i item hi rfl
      cases hlocked : vlLocked (tm.lock item.versionedLock) with
      | true => exact hblames.locked _ hmem hnotHeld hlocked
      | false =>
          have hnewer : t.rv < tm.lock item.versionedLock / 2 := by
            simpa [vlTryLockRefuses, hlocked] using hrefuse
          exact hblames.rival _ hmem ((htx rfl).current hmode _ hnewer)
  | @tryLoad i item hi hvalid hpass =>
      intro item' hi'
      obtain rfl : item = item' := Option.some.inj (hi.symm.trans hi')
      simp only [vlTryLockRefuses, Bool.or_eq_false_iff] at hpass
      exact ⟨hpass.1, Or.inr rfl⟩
  | @casLost i item prev hi hvalid hdiff =>
      obtain ⟨hfree, hsettled⟩ := h item hi
      have hnotHeld := hown i item hi (hlocks rfl hmode)
      have hmem := hpoints i item hi rfl
      cases hlocked : vlLocked (tm.lock item.versionedLock) with
      | true => exact hblames.locked _ hmem hnotHeld hlocked
      | false =>
          rw [vlLocked_eq_false_iff] at hfree hlocked
          exact hblames.rival _ hmem (hsettled.resolve_right (by omega))
  | rollback | undo => exact h
  | rolledBack | undone => exact fun _ _ => h
  | @validateFailed wv i rs versionRead w hrs hi hvalid hread =>
      have hitem : (⟨versionRead, some w⟩ : RsItem) ∈ rs := List.mem_of_getElem? hi
      have hpoint : t.Points w := Or.inl ⟨rs, _, hrs, hitem, rfl⟩
      have hreadLock : w ∈ t.readLocks := by
        rw [Tx.readLocks, hrs]
        exact List.mem_filterMap.mpr ⟨_, hitem, rfl⟩
      have hguard := htx rfl
      exact hblames.refused (hguard.points w hpoint)
        ((hapart t rfl hmode).disjoint w hreadLock) (hnonneg w) (hguard.current hmode w) hread
  | early | noBatch | wrunlock => exact fun haborts => by cases haborts
  | copied => split <;> trivial
  | _ => trivial

/-- The thread's move, as far as its program point goes. -/
theorem Thread.Guarded.mover (hsegs : 8 ∣ s.tm.align) (hmode : (s.thread l.tid).Mode)
    (hfailure : NoFailure s l) (hreads : ReadsFit s l) (hroReads : RoReadsFit s l)
    (hwrites : WritesFit s l) (hnonneg : ∀ w, 0 ≤ s.tm.lock w)
    (hblames : Blames s.tm (s.thread l.tid).held touched rivaled provoked)
    (htx : ∀ t, (s.thread l.tid).tx = some t → (s.thread l.tid).undecided = true →
      t.Guarded s.tm touched rivaled)
    (hapart : (s.thread l.tid).ReadsApart)
    (hlocks : ∀ t pc, s.thread l.tid = .ending t pc → pc.deciding = true → t.isRo = false →
      t.locks.Nodup)
    (h : (s.thread l.tid).Guarded (Settled s.tm rivaled) touched provoked)
    (hmove : ThreadMove platform s.tm l.choice (s.thread l.tid) l.event (s'.thread l.tid)) :
    (s'.thread l.tid).Guarded (Settled s.tm rivaled)
      (touchedNext s.tm l.event touched) provoked := by
  have hmalloc := hfailure.1
  unfold ReadsFit at hreads
  unfold RoReadsFit at hroReads
  unfold WritesFit at hwrites
  generalize s.thread l.tid = thread, l.event = event, s'.thread l.tid = thread' at *
  cases hmove with
  | start => trivial
  | @call t event thread' hcall =>
      cases hcall with
      | roRead hrange hro hcall =>
          have hwords := (roTransactionReadCall_words hrange (hroReads t _ _ rfl hro rfl) hcall).1
          exact ⟨_, List.subset_append_right _ _, hwords, rfl, fun j w v _ hv => by simp at hv⟩
      | read hrange hrw hcall =>
          have hwords := tmReadCall_words hsegs hrange (hreads t _ _ rfl hrw rfl) hcall
          exact ⟨_, List.subset_append_right _ _, hwords, trivial⟩
      | @write source size target g hrange hrw hlength =>
          have hwords : CallWords g (tmWriteCall s.tm g source size target).idxStart
              (tmWriteCall s.tm g source size target).numWords (s.tm.named target size) :=
            tmWriteCall_words hrange (hwrites t _ _ _ rfl rfl).1
          exact ⟨_, List.subset_append_right _ _, hwords⟩
      | _ => trivial
  | begin hbegin =>
      cases hbegin with
      | rdlock | started => trivial
      | noStruct | noSets => exact fun haborts => by cases haborts
  | @read t c pc event thread' hread =>
      obtain ⟨words, hsub, hwords, hpc⟩ := h
      have hstay : touchedNext s.tm event touched = touched := by cases hread <;> rfl
      rw [hstay]
      exact hpc.mover hblames hnonneg (htx t rfl rfl) hmode hsub hwords hread
  | @roRead t c pc event thread' hread =>
      obtain ⟨words, hsub, hwords, hpc⟩ := h
      have hstay : touchedNext s.tm event touched = touched := by cases hread <;> rfl
      rw [hstay]
      exact hpc.mover hblames (hmalloc 0) hnonneg (htx t rfl rfl) hmode hsub hwords hread
  | @write t c i event thread' hwrite =>
      obtain ⟨words, hsub, hwords⟩ := h
      have hstay : touchedNext s.tm event touched = touched := by cases hwrite <;> rfl
      rw [hstay]
      exact hwrite.guarded hblames hmalloc hnonneg (htx t rfl rfl) hmode hsub hwords
  | alloc halloc => cases halloc <;> trivial
  | free hfree =>
      cases hfree with
      | first => exact fun _ hfree => absurd rfl hfree
      | queued => trivial
  | @finish t pc event thread' hend =>
      have hstay : touchedNext s.tm event touched = touched := by cases hend <;> rfl
      rw [hstay]
      exact hend.guarded hmode hnonneg hblames (htx t rfl) hapart (hlocks t pc rfl) h
  | cleanup => exact h
  | retIdle | retLive => trivial

/-! ### The sets of the transaction -/

theorem TmReadMove.txGuarded {c : ReadCall} {pc : ReadPc V} {choice : Choice V} {event : Event V}
    {thread' : Thread V} {words : List Word} (htx : t.Guarded tm touched rivaled)
    (hrw : t.isRo = false) (hsub : words ⊆ touched)
    (hwords : CallWords c.seg c.startWord c.numWords words)
    (hpc : pc.Guarded (Settled tm rivaled) words)
    (hmove : TmReadMove platform tm choice t c pc event thread') (hafter : thread'.tx = some t') :
    t'.Guarded tm touched rivaled := by
  cases hmove with
  | confirmed hw hread hadd =>
      obtain rfl := Option.some.inj hafter
      obtain ⟨w', hw', -⟩ := hpc
      have hi := (List.getElem?_eq_some_iff.mp hw').1
      have hlength := hwords.length
      have hmem := hsub (List.mem_of_getElem? (hwords.wordAt (by omega) hw))
      exact htx.record hmem (fun _ => rfl) (fun hro => by simp [hro] at hrw) hadd
  | _ =>
      obtain rfl := Option.some.inj hafter
      exact htx

theorem RoReadMove.txGuarded {c : RoCall} {pc : RoPc V} {choice : Choice V} {event : Event V}
    {thread' : Thread V} {words : List Word} (htx : t.Guarded tm touched rivaled)
    (hro : t.isRo = true) (hsub : words ⊆ touched)
    (hwords : CallWords c.seg c.startIdx c.numWords words)
    (hpc : pc.Guarded (Settled tm rivaled) words)
    (hmove : RoReadMove tm choice t c pc event thread') (hafter : thread'.tx = some t') :
    t'.Guarded tm touched rivaled := by
  have hlength := hwords.length
  cases hmove with
  | recorded hi hw hread hold hadd | notRecorded hi hw hread hold hadd =>
      obtain rfl := Option.some.inj hafter
      have hword := hwords.wordAt hi hw
      exact htx.record (hsub (List.mem_of_getElem? hword)) (fun _ => rfl)
        (fun _ => hpc.2 _ _ _ hword hread) hadd
  | extended hrs hk hw hadd | notExtended hrs hk hw hadd =>
      obtain rfl := Option.some.inj hafter
      obtain ⟨hi, -, hlooked, hseen⟩ := hpc
      have hword := hwords.wordAt (by omega) hw
      exact htx.record (hsub (List.mem_of_getElem? hword)) (fun hrw => by simp [hrw] at hro)
        (fun _ => hlooked _ _ _ hword hseen) hadd
  | _ =>
      obtain rfl := Option.some.inj hafter
      exact htx

theorem TmWriteMove.txGuarded {c : WriteCall V} {i : Nat} {choice : Choice V} {event : Event V}
    {thread' : Thread V} {words : List Word} (htx : t.Guarded tm touched rivaled)
    (hrw : t.isRo = false) (hsub : words ⊆ touched)
    (hwords : CallWords c.seg c.idxStart c.numWords words)
    (hmove : TmWriteMove platform tm choice t c i event thread') (hafter : thread'.tx = some t') :
    t'.Guarded tm touched rivaled := by
  cases hmove with
  | overwritten =>
      obtain rfl := Option.some.inj hafter
      refine ⟨fun w hw => htx.points w ?_, htx.current, htx.recorded⟩
      rcases hw with hrs | ⟨item, hmem, hitem⟩
      · exact Or.inl hrs
      · obtain ⟨item', hmem', -, hraw, hlock⟩ := Tx.mem_overwrite hmem
        exact Or.inr ⟨item', hmem', hraw ▸ hlock ▸ hitem⟩
  | appended hi hw hfree hold hx hmiss happend =>
      obtain rfl := Option.some.inj hafter
      have hmem := hsub (List.mem_of_getElem? (hwords.wordAt hi hw))
      refine ⟨fun w hpoints => ?_, ?_, ?_⟩
      · rcases Tx.points_append happend hpoints with hpoints | rfl
        · exact htx.points w hpoints
        · exact hmem
      all_goals obtain ⟨rs, sz, -, rfl⟩ := Tx.append_eq happend
      · exact htx.current
      · exact fun hro => absurd (hrw.symm.trans hro) (by simp)
  | _ =>
      obtain rfl := Option.some.inj hafter
      exact htx

theorem TmEndMove.txGuarded {pc : EndPc} {event : Event V} {thread' : Thread V}
    (htx : (Thread.ending t pc).undecided = true → t.Guarded tm touched rivaled)
    (hmove : TmEndMove platform tm t pc event thread') (hafter : thread'.tx = some t')
    (hundecided : thread'.undecided = true) : t'.Guarded tm touched rivaled := by
  cases hmove with
  | sort =>
      have hguard := htx rfl
      obtain rfl := Option.some.inj hafter
      refine ⟨fun w hw => hguard.points w ?_, hguard.current, hguard.recorded⟩
      rcases hw with hrs | ⟨item, hmem, hitem⟩
      · exact Or.inl hrs
      · exact Or.inr ⟨item, (platform.qsort_perm _ _).mem_iff.mp hmem, hitem⟩
  | early | noBatch | wrunlock => cases hafter
  | commit | copy | release | lockToFree | push | pushed | unlockCleanup | batch | wrlock
    | drain | drainNull | drained => cases hundecided
  | copied => split at hundecided <;> cases hundecided
  | _ =>
      obtain rfl := Option.some.inj hafter
      exact htx rfl

/-- The transaction after the thread's move, as long as it is undecided. -/
theorem Tx.Guarded.mover {t' : Tx V} (hmode : (s.thread l.tid).Mode)
    (hanswers : (s.thread l.tid).Answers)
    (hclock : ∀ w, s.tm.lock w / 2 ≤ s.tm.globalVersion)
    (htx : ∀ t, (s.thread l.tid).tx = some t → (s.thread l.tid).undecided = true →
      t.Guarded s.tm touched rivaled)
    (h : (s.thread l.tid).Guarded (Settled s.tm rivaled) touched provoked)
    (hmove : ThreadMove platform s.tm l.choice (s.thread l.tid) l.event (s'.thread l.tid))
    (hafter : (s'.thread l.tid).tx = some t') (hundecided : (s'.thread l.tid).undecided = true) :
    t'.Guarded s.tm (touchedNext s.tm l.event touched) rivaled := by
  generalize s.thread l.tid = thread, l.event = event, s'.thread l.tid = thread' at *
  cases hmove with
  | start => cases hafter
  | @call t event thread' hcall =>
      have hguard := htx t rfl rfl
      have hsub : touched ⊆ touchedNext s.tm event touched := by
        cases hcall <;> first | exact List.subset_append_left _ _ | exact List.Subset.refl _
      have hsame : t' = t := by cases hcall <;> exact (Option.some.inj hafter).symm
      subst hsame
      exact ⟨fun w hw => hsub (hguard.points w hw), hguard.current, hguard.recorded⟩
  | begin hbegin =>
      cases hbegin with
      | started =>
          obtain rfl := Option.some.inj hafter
          exact .start hclock
      | _ => cases hafter
  | @read t c pc event thread' hread =>
      obtain ⟨words, hsub, hwords, hpc⟩ := h
      have hstay : touchedNext s.tm event touched = touched := by cases hread <;> rfl
      rw [hstay]
      exact hread.txGuarded (htx t rfl rfl) hmode hsub hwords hpc hafter
  | @roRead t c pc event thread' hread =>
      obtain ⟨words, hsub, hwords, hpc⟩ := h
      have hstay : touchedNext s.tm event touched = touched := by cases hread <;> rfl
      rw [hstay]
      exact hread.txGuarded (htx t rfl rfl) hmode hsub hwords hpc hafter
  | @write t c i event thread' hwrite =>
      obtain ⟨words, hsub, hwords⟩ := h
      have hstay : touchedNext s.tm event touched = touched := by cases hwrite <;> rfl
      rw [hstay]
      exact hwrite.txGuarded (htx t rfl rfl) hmode hsub hwords hafter
  | alloc halloc =>
      have hguard := htx _ rfl rfl
      cases halloc <;> cases hafter <;> exact hguard
  | free hfree =>
      have hguard := htx _ rfl rfl
      cases hfree <;> cases hafter <;> exact ⟨hguard.points, hguard.current, hguard.recorded⟩
  | @finish t pc event thread' hend =>
      have hstay : touchedNext s.tm event touched = touched := by cases hend <;> rfl
      rw [hstay]
      exact hend.txGuarded (htx t rfl) hafter hundecided
  | cleanup | retIdle => cases hafter
  | @retLive r t =>
      obtain rfl := Option.some.inj hafter
      refine htx t rfl ?_
      cases r with
      | begin valid =>
          cases valid with
          | false => cases hanswers
          | true => rfl
      | finish => cases hanswers
      | _ => rfl

end Mover

/-! ### One step of the system -/

section Step

variable {s s' : State Tid V} {l : Label Tid V} {r : ConflictRecord Tid} {platform : Platform V}
  {tid : Tid} {w : Word}

theorem mem_takenNext {event : Event V} {taken : List Word} (hw : w ∈ taken)
    (hevent : event ≠ .call .finish) : w ∈ takenNext event taken := by
  unfold takenNext
  split
  · exact absurd rfl hevent
  · exact List.mem_append_left _ hw
  · exact hw

theorem Thread.eq_of_samples {thread : Thread V} (h : thread.samples = true) :
    ∃ isRo, thread = .beginning isRo .body := by
  cases thread with
  | beginning isRo pc =>
      cases pc with
      | rdlock => cases h
      | body => exact ⟨isRo, rfl⟩
  | _ => cases h

theorem Thread.ends_of_held {thread : Thread V} (hw : w ∈ thread.held) : thread.ends = true := by
  cases thread <;> first | rfl | cases hw

variable [DecidableEq Tid]

theorem rivaled_recordConflicts (hsamples : (s.thread l.tid).samples = false) :
    (recordConflicts s l r).Rivaled l.tid = r.Rivaled l.tid := by
  have hrivals : (recordConflicts s l r).rivals l.tid = r.rivals l.tid := by
    simp [recordConflicts, hsamples]
  funext w
  rw [ConflictRecord.Rivaled, hrivals]
  rfl

theorem mem_rivals_recordConflicts (hne : tid ≠ l.tid) {rival : Tid × Word}
    (h : rival ∈ r.rivals tid) : rival ∈ (recordConflicts s l r).rivals tid := by
  simp only [recordConflicts, if_neg hne]
  split
  · exact List.mem_append_left _ h
  · exact h

theorem ConflictRecord.Rivaled.other (h : r.Rivaled tid w) (hne : tid ≠ l.tid) :
    (recordConflicts s l r).Rivaled tid w := by
  obtain ⟨u, hu, hmem⟩ := h
  exact ⟨u, hu, mem_rivals_recordConflicts hne hmem⟩

/-- A step of a `tm_end` makes its locks rivals of every other thread. -/
theorem rivaled_of_ends (hne : tid ≠ l.tid) (hends : (s.thread l.tid).ends = true)
    (hw : w ∈ takenNext l.event (r.taken l.tid)) : (recordConflicts s l r).Rivaled tid w := by
  refine ⟨l.tid, hne.symm, ?_⟩
  simp only [recordConflicts, if_neg hne, hends, if_true]
  exact List.mem_append_right _ (List.mem_map_of_mem hw)

variable [Zero V]

theorem call_ne_of_ends (hstep : (system Tid platform).step s l s')
    (hends : (s.thread l.tid).ends = true) (c : Call V) : l.event ≠ .call c := by
  obtain ⟨hmove, -, -⟩ := system_step_move hstep
  intro hevent
  generalize s.thread l.tid = thread, l.event = event, s'.thread l.tid = thread' at *
  cases hmove with
  | start | call => cases hends
  | begin h | read h | roRead h | write h | alloc h | free h | finish h => cases h <;> cases hevent
  | cleanup | retIdle | retLive => cases hevent

/-- Whoever had the lock still has it, or has just taken a step of its `tm_end`. -/
theorem Provoked.other (h : Provoked s r tid) (hne : tid ≠ l.tid)
    (hstep : (system Tid platform).step s l s') : Provoked s' (recordConflicts s l r) tid := by
  obtain ⟨-, -, hother⟩ := system_step_move hstep
  obtain ⟨w, hw, hrival⟩ := h
  refine ⟨w, by simpa [recordConflicts, hne] using hw, ?_⟩
  rcases hrival with hrival | ⟨u, hu, htaken, hheld⟩
  · exact Or.inl (hrival.other hne)
  · by_cases heq : u = l.tid
    · subst heq
      have hends := Thread.ends_of_held hheld
      have hmem := mem_takenNext htaken (call_ne_of_ends hstep hends .finish)
      exact Or.inl (rivaled_of_ends hne hends hmem)
    · refine Or.inr ⟨u, hu, ?_, by rwa [hother u heq]⟩
      simpa [recordConflicts, heq] using htaken

theorem Provoked.self (h : Provoked s r l.tid) (hsamples : (s.thread l.tid).samples = false)
    (hbegin : ∀ isRo, l.event ≠ .call (.begin isRo)) (hstep : (system Tid platform).step s l s') :
    Provoked s' (recordConflicts s l r) l.tid := by
  obtain ⟨-, -, hother⟩ := system_step_move hstep
  obtain ⟨w, hw, hrival⟩ := h
  have hsub : r.touched l.tid ⊆ touchedNext s.tm l.event (r.touched l.tid) := by
    unfold touchedNext
    split
    · rename_i isRo hevent
      exact absurd hevent (hbegin isRo)
    · exact List.subset_append_left _ _
    · exact List.subset_append_left _ _
    · exact List.Subset.refl _
  refine ⟨w, by simpa [recordConflicts] using hsub hw, ?_⟩
  rcases hrival with hrival | ⟨u, hu, htaken, hheld⟩
  · left
    rwa [rivaled_recordConflicts hsamples]
  · exact Or.inr ⟨u, hu, by simpa [recordConflicts, hu] using htaken, by rwa [hother u hu]⟩

/-- Only `tm_end` gives a word another version, one whose lock it has. -/
theorem version_of_step {store : Store Tid Word V} (hw : WordsInv s store)
    (hw' : WordsInv s' (recordStore s l store)) (hwf : (s.thread l.tid).Wf)
    (hstep : (system Tid platform).step s l s') (w : Word) :
    s'.tm.lock w / 2 = s.tm.lock w / 2 ∨
      w ∈ (s.thread l.tid).held ∧
        ∃ wv writes, (s'.thread l.tid).stage = .committed wv writes none := by
  obtain ⟨hmove, -, -⟩ := system_step_move hstep
  rw [hw.lock, hw'.lock, lockWord_div, lockWord_div]
  cases haction : storeAction l.event with
  | none => simp [recordStore, haction]
  | some action =>
      cases action with
      | release w' =>
          by_cases heq : w = w'
          · right
            have hword := hmove.wordMove hwf
            cases hword with
            | @released wv writes w'' hevent hvalid hheld hbefore hafter =>
                obtain rfl : w'' = w' := by simpa [hevent, storeAction] using haction
                exact ⟨by simp [hheld, heq], wv, writes, hafter⟩
            | quiet hstore => simp [hstore] at haction
            | filled hevent | readied hevent | locked hevent | unlocked hevent | drew hevent
              | decided hevent | put hevent | returned hevent =>
                  simp [hevent, storeAction] at haction
          · left
            simp [recordStore, haction, Store.apply, heq]
      | _ =>
          left
          simp [recordStore, haction, Store.apply]

omit [DecidableEq Tid] in
theorem held_subset_takenNext {tm : Tm V} {choice : Choice V} {thread thread' : Thread V}
    {event : Event V} {taken : List Word} (hwf : thread.Wf)
    (hmove : ThreadMove platform tm choice thread event thread') (h : thread.held ⊆ taken) :
    thread'.held ⊆ takenNext event taken := by
  by_cases hfinish : event = .call .finish
  · subst hfinish
    cases hmove with
    | call hcall =>
        cases hcall
        exact List.nil_subset _
    | begin h | read h | roRead h | write h | alloc h | free h | finish h => cases h
  · have hkept : thread.held ⊆ takenNext event taken := fun w hw => mem_takenNext (h hw) hfinish
    cases hmove.wordMove hwf with
    | quiet hstore hlock hdata hclock hheld => rwa [hheld]
    | filled hevent hbuilding hheld | readied hevent hbuilding hheld | drew hevent hwv hheld
      | decided hevent hkeys hheld | put hevent hvalid howned hmem hheld => rwa [hheld]
    | locked hevent hvalid hpass hheld =>
        rw [hheld, hevent]
        intro w hw
        rcases List.mem_append.mp hw with hw | hw
        · exact List.mem_append_left _ (h hw)
        · exact List.mem_append_right _ hw
    | unlocked hevent hvalid hheld | released hevent hvalid hheld =>
        rw [hheld] at hkept
        exact fun w hw => hkept (List.mem_cons_of_mem _ hw)
    | returned hevent hbefore hheld =>
        rw [hheld]
        exact List.nil_subset _

omit [Zero V] in
/-- A `tm_end` past its decision has nothing to expect. -/
theorem Thread.guarded_of_committed {thread : Thread V} {wv : Int} {writes : List (Word × V)}
    (h : thread.stage = .committed wv writes none) {settled : Word → Int → Prop}
    {touched : List Word} {provoked : Prop} : thread.Guarded settled touched provoked := by
  cases thread with
  | ending t pc => cases pc <;> trivial
  | _ => cases h

omit [Zero V] in
theorem Thread.undecided_of_committed {thread : Thread V} {wv : Int} {writes : List (Word × V)}
    (h : thread.stage = .committed wv writes none) : thread.undecided = false := by
  cases thread with
  | ending t pc => cases pc <;> first | rfl | cases h
  | _ => cases h

omit [Zero V] in
/-- A transaction that begins has met nobody. -/
theorem guarded_of_samples {tm : Tm V} {choice : Choice V} {thread thread' : Thread V}
    {event : Event V} (hmove : ThreadMove platform tm choice thread event thread')
    (h : thread.samples = true ∨ ∃ isRo, event = .call (.begin isRo)) {settled : Word → Int → Prop}
    {touched : List Word} {provoked : Prop} : thread'.Guarded settled touched provoked := by
  cases hmove with
  | start => trivial
  | begin hbegin =>
      cases hbegin with
      | noStruct | noSets => exact fun haborts => by cases haborts
      | _ => trivial
  | call hcall =>
      obtain hsamples | ⟨isRo, hevent⟩ := h
      · cases hsamples
      · cases hcall <;> cases hevent
  | read h' | roRead h' | write h' | alloc h' | free h' | finish h' =>
      obtain hsamples | ⟨isRo, hevent⟩ := h
      · cases hsamples
      · cases h' <;> cases hevent
  | cleanup | retIdle | retLive =>
      obtain hsamples | ⟨isRo, hevent⟩ := h
      · cases hsamples
      · cases hevent

end Step

/-! ### The invariant -/

structure ConflictInv (s : State Tid V) (r : ConflictRecord Tid) : Prop where
  taken : ∀ tid, (s.thread tid).held ⊆ r.taken tid
  thread : ∀ tid, (s.thread tid).Guarded (Settled s.tm (r.Rivaled tid)) (r.touched tid)
    (Provoked s r tid)
  tx : ∀ tid t, (s.thread tid).tx = some t → (s.thread tid).undecided = true →
    t.Guarded s.tm (r.touched tid) (r.Rivaled tid)

theorem ConflictInv.blames {s : State Tid V} {r : ConflictRecord Tid} (h : ConflictInv s r)
    (hlocks : LockWordsInv s) (tid : Tid) :
    Blames s.tm (s.thread tid).held (r.touched tid) (r.Rivaled tid) (Provoked s r tid) := by
  refine ⟨fun w hw hown hlocked => ?_, fun w hw hrival => ⟨w, hw, Or.inl hrival⟩⟩
  have hheld : ∃ u, w ∈ (s.thread u).held := by
    by_contra hnone
    push Not at hnone
    simp [hlocks.free w hnone] at hlocked
  obtain ⟨u, hu⟩ := hheld
  have hne : u ≠ tid := by
    rintro rfl
    exact hown hu
  exact ⟨w, hw, Or.inr ⟨u, hne, h.taken u hu, hu⟩⟩

/-- What may abort a transaction is a concurrent `tm_end`. -/
def ConflictsOk (s : State Tid V) (l : Label Tid V) : Prop :=
  VersionsBounded s l ∧ AccessOk s l ∧ RoReadsFit s l

namespace ConflictInv

variable [Zero V] [DecidableEq Tid] {s s' : State Tid V} {l : Label Tid V} {r : ConflictRecord Tid}
  {platform : Platform V}

theorem init (h : (system Tid platform).init s) :
    ConflictInv s ⟨fun _ => [], fun _ => [], fun _ => []⟩ := by
  have hidle := h.1
  refine ⟨fun tid => ?_, fun tid => ?_, fun tid t htx => ?_⟩
  · rw [hidle tid]
    exact List.nil_subset _
  · rw [hidle tid]
    trivial
  · rw [hidle tid] at htx
    cases htx

/-- The other threads keep what they expect, or find a rival. -/
theorem step_other (h : ConflictInv s r) {store : Store Tid Word V} (hw : WordsInv s store)
    (hw' : WordsInv s' (recordStore s l store)) (hwf : (s.thread l.tid).Wf)
    (hstep : (system Tid platform).step s l s') {tid : Tid} (hne : tid ≠ l.tid) (w : Word) :
    s'.tm.lock w / 2 = s.tm.lock w / 2 ∨ (recordConflicts s l r).Rivaled tid w := by
  rcases version_of_step hw hw' hwf hstep w with hsame | ⟨hheld, -⟩
  · exact Or.inl hsame
  · have hends := Thread.ends_of_held hheld
    have hmem := mem_takenNext (h.taken l.tid hheld) (call_ne_of_ends hstep hends .finish)
    exact Or.inr (rivaled_of_ends hne hends hmem)

/-- **One step** traces every conflict back. -/
theorem step (h : ConflictInv s r) {store : Store Tid Word V} {hist : History Tid V}
    (hreach : (system Tid platform).Reachable s) (hw : WordsInv s store)
    (hsets : SetsInv platform s hist) (hok : ConflictsOk s l)
    (hstep : (system Tid platform).step s l s') : ConflictInv s' (recordConflicts s l r) := by
  obtain ⟨hbounded, ⟨hfailure, hreads, hwrites⟩, hroReads⟩ := hok
  obtain ⟨hmove, -, hother⟩ := system_step_move hstep
  have hwf := threadWf hreach l.tid
  have hmode := threadMode hreach l.tid
  have hw' : WordsInv s' (recordStore s l store) := hw.step (segmentsInv hreach) hwf hbounded hstep
  have hnonneg : ∀ w, 0 ≤ s.tm.lock w := fun w => by
    rw [hw.lock, lockWord]
    split <;> omega
  have hclock : ∀ w, s.tm.lock w / 2 ≤ s.tm.globalVersion := fun w => by
    rw [hw.lock, hw.clock, lockWord_div]
    exact_mod_cast hw.inv.version_le w
  have hlocks : ∀ t pc, s.thread l.tid = .ending t pc → pc.deciding = true → t.isRo = false →
      t.locks.Nodup := by
    intro t pc hthread hdeciding hrw
    have hview : (s.thread l.tid).view (hist.current l.tid) =
        some (t, (hist.current l.tid).entries) := by simp [hthread, Thread.view, hdeciding]
    have hnodup := ((hsets.buffered l.tid).sets t _ hview hrw).nodup
    have hsame : t.ws.map WsItem.rawAddr = t.locks :=
      List.map_congr_left (hwf.sameWord t (by rw [hthread]; rfl))
    rwa [hsame] at hnodup
  have hstay : ∀ tid, tid ≠ l.tid → (recordConflicts s l r).touched tid = r.touched tid := by
    intro tid hne
    simp [recordConflicts, hne]
  have htouched : (recordConflicts s l r).touched l.tid =
      touchedNext s.tm l.event (r.touched l.tid) := by simp [recordConflicts]
  have hguarded := h.blames (lockWordsInv hreach) l.tid
  have hmover :=
    (h.thread l.tid).mover (align_pos_dvd hreach).2 hmode hfailure hreads hroReads hwrites
    hnonneg hguarded (h.tx l.tid) (hsets.apart l.tid) hlocks hmove
  have hversion := version_of_step hw hw' hwf hstep
  refine ⟨fun tid => ?_, fun tid => ?_, fun tid t htx hundecided => ?_⟩
  all_goals by_cases heq : tid = l.tid
  · subst heq
    simpa [recordConflicts] using held_subset_takenNext hwf hmove (h.taken l.tid)
  · rw [hother tid heq]
    simpa [recordConflicts, heq] using h.taken tid
  · subst heq
    rw [htouched]
    by_cases hfresh : (s.thread l.tid).samples = true ∨ ∃ isRo, l.event = .call (.begin isRo)
    · exact guarded_of_samples hmove hfresh
    · rw [not_or, Bool.not_eq_true, not_exists] at hfresh
      obtain ⟨hsamples, hbegin⟩ := hfresh
      by_cases hcommitted : ∃ wv writes, (s'.thread l.tid).stage = .committed wv writes none
      · obtain ⟨wv, writes, hstage⟩ := hcommitted
        exact Thread.guarded_of_committed hstage
      · refine hmover.later ?_ fun hprovoked => hprovoked.self hsamples hbegin hstep
        rw [rivaled_recordConflicts hsamples]
        exact Settled.later (fun _ h => h) fun w =>
          Or.inl ((hversion w).resolve_right fun h => hcommitted h.2)
  · rw [hother tid heq, hstay tid heq]
    refine (h.thread tid).later ?_ fun hprovoked => hprovoked.other heq hstep
    exact Settled.later (fun w hrival => hrival.other heq) (h.step_other hw hw' hwf hstep heq)
  · subst heq
    rw [htouched]
    have hlock : ∀ w, s'.tm.lock w / 2 = s.tm.lock w / 2 ∨
        (recordConflicts s l r).Rivaled l.tid w := by
      refine fun w => Or.inl ((hversion w).resolve_right ?_)
      rintro ⟨-, wv, writes, hstage⟩
      simp [Thread.undecided_of_committed hstage] at hundecided
    refine Tx.Guarded.later (fun _ h => h) hlock ?_
    have hanswers := threadAnswers hreach l.tid
    cases hsamples : (s.thread l.tid).samples with
    | false =>
        rw [rivaled_recordConflicts hsamples]
        exact Tx.Guarded.mover hmode hanswers hclock (h.tx l.tid)
          (h.thread l.tid) hmove htx hundecided
    | true =>
        obtain ⟨isRo, hthread⟩ := Thread.eq_of_samples hsamples
        have hguard : (s.thread l.tid).Guarded
            (Settled s.tm ((recordConflicts s l r).Rivaled l.tid)) (r.touched l.tid) True := by
          rw [hthread]
          trivial
        refine Tx.Guarded.mover hmode hanswers hclock (fun t ht => ?_) hguard hmove htx hundecided
        rw [hthread] at ht
        cases ht
  · rw [hother tid heq] at htx hundecided
    rw [hstay tid heq]
    exact (h.tx tid t htx hundecided).later (fun w hrival => hrival.other heq)
      (h.step_other hw hw' hwf hstep heq)

end ConflictInv

/-- **Every run** traces every conflict back to a concurrent `tm_end`. -/
theorem conflictInv [Zero V] [DecidableEq Tid] {platform : Platform V}
    {ok : State Tid V → Label Tid V → Prop} {p : State Tid V × ConflictRecord Tid}
    (hok : ∀ s l, ok s l → ConflictsOk s l) (hbit : ∀ pos, platform.bit pos ≠ 0#64)
    (h : (conflictMachine Tid platform ok).Reachable p) : ConflictInv p.1 p.2 := by
  refine h.invariant (P := fun p => ConflictInv p.1 p.2) (fun p hp => ?_)
    fun p l p' hreach ih hstep => ?_
  · rw [hp.2]
    exact ConflictInv.init (show (system Tid platform).init p.1 from hp.1)
  · have hrestricted := hreach.of_observe
    obtain ⟨store, hstore⟩ := hrestricted.exists_observe (Store.start fun _ => 0) recordStore
    obtain ⟨hist, hhist⟩ := hrestricted.exists_observe (History.start Tid V) recordHistory
    have hw : WordsInv p.1 store := wordsInv (fun s l h => (hok s l h).1) hstore
    have hsets : SetsInv platform p.1 hist := setsInv (fun s l h => (hok s l h).2.1) hbit hhist
    rw [hstep.2]
    exact ih.step hrestricted.of_restrict hw hsets (hok _ _ hstep.1.1) hstep.1.2

end TransactionalMemory
