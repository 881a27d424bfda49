import TransactionalMemory.Proof.History
import TransactionalMemory.Proof.Ranges

/-!
# The snapshot of a read-write transaction

`tm_read` checks the version of a word, copies it and checks the version again. A word that passes
both checks shows its copy at the version that `tm_begin` sampled, and goes on showing it whatever
the other threads do. The invariant follows the checks through the loop of `tm_read`.
-/

namespace TransactionalMemory

open Concurrency

variable {V Tid : Type}

/-! ### Entries of a range -/

theorem zip_concat {α β : Type} {as : List α} {bs : List β} {a : α} {b : β}
    (h : as[bs.length]? = some a) : as.zip (bs ++ [b]) = as.zip bs ++ [(a, b)] := by
  induction bs generalizing as with
  | nil =>
      cases as with
      | nil => simp at h
      | cons head as =>
          obtain rfl : head = a := by simpa using h
          simp
  | cons head bs ih =>
      cases as with
      | nil => simp at h
      | cons head' as => simpa using ih (by simpa using h)

namespace Entry

def Sound (outer : Word → V → Prop) : Entry V → Prop
  | .read w x false => outer w x
  | _ => True

theorem Sound.mono {outer outer' : Word → V → Prop} (hle : ∀ w x, outer w x → outer' w x)
    {e : Entry V} (h : e.Sound outer) : e.Sound outer' := by
  cases e with
  | read w x own =>
      cases own with
      | true => trivial
      | false => exact hle w x h
  | write w x => trivial

@[simp]
theorem reads_nil (words : List Word) (own : List Bool) : reads words ([] : List V) own = [] := by
  simp [reads]

theorem reads_concat {words : List Word} {target : List V} {own : List Bool} {w : Word} {x : V}
    {b : Bool} (hown : own.length = target.length) (hw : words[target.length]? = some w) :
    reads words (target ++ [x]) (own ++ [b]) = reads words target own ++ [.read w x b] := by
  have hlength : (target.zip own).length = target.length := by simp [hown]
  rw [reads, List.zip_append hown.symm, List.zip_cons_cons, List.zip_nil_right,
    zip_concat (by rw [hlength]; exact hw)]
  simp [reads]

/-- Flags beyond the values read say nothing. -/
theorem reads_own_append {words : List Word} {target : List V} {own own' : List Bool}
    (hown : own.length = target.length) :
    reads words target (own ++ own') = reads words target own := by
  have hzip : target.zip (own ++ own') = target.zip own := by
    conv_lhs => rw [← List.append_nil target]
    rw [List.zip_append hown.symm]
    simp
  rw [reads, reads, hzip]

end Entry

/-! ### The loop of `tm_read` -/

section Invariant

variable [Zero V]

structure ReadSoFar (store : Store Tid Word V) (bound : Nat) (words : List Word) (i : Nat)
    (target : List V) (own : List Bool) : Prop where
  target_length : target.length = i
  own_length : own.length = i
  sound : ∀ e ∈ Entry.reads words target own, e.Sound (store.Shows (fun _ => 0) bound)

def ReadPc.Sound (store : Store Tid Word V) (log : TxLog V) : ReadPc V → Prop
  | .word i target => ReadSoFar store log.sampled log.words i target log.own
  | .load i target => i < log.words.length ∧
      ReadSoFar store log.sampled log.words i target log.own
  | .copy i versionRead target => ReadSoFar store log.sampled log.words i target log.own ∧
      ∃ (w : Word) (v : Nat), log.words[i]? = some w ∧ versionRead = v ∧ v ≤ log.sampled ∧
        v ≤ store.version w
  | .recheck i versionRead x target => ∃ own, log.own = own ++ [false] ∧
      ReadSoFar store log.sampled log.words i target own ∧
      ∃ (w : Word) (v : Nat), log.words[i]? = some w ∧ versionRead = v ∧ v ≤ log.sampled ∧
        store.Copied w v x

def Thread.SoundCall (store : Store Tid Word V) (log : TxLog V) : Thread V → Prop
  | .reading _ c pc => CallWords c.seg c.startWord c.numWords log.words ∧ pc.Sound store log
  | .returning (.read (some target)) _ => log.isRo = false →
      ∀ e ∈ Entry.reads log.words target log.own, e.Sound (store.Shows (fun _ => 0) log.sampled)
  | _ => True

structure TxLog.Snapshot (store : Store Tid Word V) (thread : Thread V) (log : TxLog V) : Prop where
  sound : log.isRo = false → ∀ e ∈ log.entries, e.Sound (store.Shows (fun _ => 0) log.sampled)
  call : thread.SoundCall store log

variable {store store' : Store Tid Word V} {log : TxLog V} {thread : Thread V}

theorem ReadSoFar.later {bound : Nat} {words : List Word} {i : Nat} {target : List V}
    {own : List Bool} (h : ReadSoFar store bound words i target own)
    (hlater : Store.Later (fun _ => 0) store store') : ReadSoFar store' bound words i target own :=
  ⟨h.target_length, h.own_length, fun e he => (h.sound e he).mono (hlater.shows bound)⟩

theorem ReadSoFar.reads_concat {bound : Nat} {words : List Word} {i : Nat} {target : List V}
    {own : List Bool} {w : Word} {x : V} {b : Bool} (h : ReadSoFar store bound words i target own)
    (hw : words[i]? = some w) : Entry.reads words (target ++ [x]) (own ++ [b]) =
      Entry.reads words target own ++ [.read w x b] :=
  Entry.reads_concat (h.own_length.trans h.target_length.symm) (h.target_length.symm ▸ hw)

theorem ReadSoFar.concat {bound : Nat} {words : List Word} {i : Nat} {target : List V}
    {own : List Bool} {w : Word} {x : V} {b : Bool} (h : ReadSoFar store bound words i target own)
    (hw : words[i]? = some w) (hsound : (Entry.read w x b).Sound (store.Shows (fun _ => 0) bound)) :
    ReadSoFar store bound words (i + 1) (target ++ [x]) (own ++ [b]) := by
  have htarget := h.target_length
  have hown := h.own_length
  refine ⟨by simp [htarget], by simp [hown], fun e he => ?_⟩
  rw [h.reads_concat hw] at he
  rcases List.mem_append.mp he with he | he
  · exact h.sound e he
  · obtain rfl := List.mem_singleton.mp he
    exact hsound

theorem ReadPc.Sound.later {pc : ReadPc V} (h : pc.Sound store log)
    (hlater : Store.Later (fun _ => 0) store store') : pc.Sound store' log := by
  cases pc with
  | word i target => exact ReadSoFar.later h hlater
  | load i target => exact ⟨h.1, h.2.later hlater⟩
  | copy i versionRead target =>
      obtain ⟨hsofar, w, v, hw, hv, hle, hversion⟩ := h
      exact ⟨hsofar.later hlater, w, v, hw, hv, hle, hversion.trans (hlater.version_le w)⟩
  | recheck i versionRead x target =>
      obtain ⟨own, hown, hsofar, w, v, hw, hv, hle, hcopied⟩ := h
      exact ⟨own, hown, hsofar.later hlater, w, v, hw, hv, hle, hlater.copied w v x hcopied⟩

theorem Thread.SoundCall.later (h : thread.SoundCall store log)
    (hlater : Store.Later (fun _ => 0) store store') : thread.SoundCall store' log := by
  cases thread with
  | reading t c pc => exact ⟨h.1, h.2.later hlater⟩
  | returning r t =>
      cases r with
      | read target =>
          cases target with
          | none => trivial
          | some target => exact fun hro e he => (h hro e he).mono (hlater.shows log.sampled)
      | _ => trivial
  | _ => trivial

theorem TxLog.Snapshot.later (h : log.Snapshot store thread)
    (hlater : Store.Later (fun _ => 0) store store') : log.Snapshot store' thread :=
  ⟨fun hro e he => (h.sound hro e he).mono (hlater.shows log.sampled), h.call.later hlater⟩

end Invariant

/-! ### One step -/

/-- The ranges that read-write transactions read are narrow enough for `tm_read`. -/
def ReadsFit (s : State Tid V) (l : Label Tid V) : Prop :=
  ∀ t source size, s.thread l.tid = .live t → t.isRo = false →
    l.event = .call (.read source size) → s.tm.ReadFits source size

section Step

variable [Zero V] {platform : Platform V} {s s' : State Tid V} {l : Label Tid V}
  {store store' : Store Tid Word V} {log log' : TxLog V}

theorem ReadPc.Sound.step {t : Tx V} {c : ReadCall} {pc : ReadPc V} {event : Event V}
    {thread' : Thread V} (before : List Nat) (hw : WordsInv s store)
    (hrv : t.rv = log.sampled) (hsampled : log.sampled ≤ store.clock)
    (hwords : CallWords c.seg c.startWord c.numWords log.words) (h : pc.Sound store log)
    (hmove : TmReadMove platform s.tm l.choice t c pc event thread') :
    thread'.SoundCall store (log.next s.tm (.reading t c pc) before event) := by
  have hlength := hwords.length
  cases hmove with
  | @hit i target curr item hi =>
      have hword := hwords.word i (by omega)
      exact ⟨hwords, ReadSoFar.concat h hword (b := true) trivial⟩
  | @miss i _ _ hi =>
      have hlt : i < log.words.length := by omega
      exact ⟨hwords, hlt, h⟩
  | done => exact fun _ => ReadSoFar.sound h
  | refused => trivial
  | @loaded i target w hword hfree hold =>
      obtain ⟨hi, hsofar⟩ := h
      obtain ⟨-, hversion⟩ := hw.readVersion_eq hfree
      rw [hrv, hversion] at hold
      exact ⟨hwords, hsofar, w, store.version w, hwords.wordAt (by omega) hword, hversion,
        by exact_mod_cast hold, le_rfl⟩
  | @copied i versionRead target w hword =>
      obtain ⟨hsofar, w', v, hw', hv, hle, hversion⟩ := h
      have hi := (List.getElem?_eq_some_iff.mp hw').1
      obtain rfl : w' = w := by
        rw [hwords.wordAt (by omega) hword] at hw'
        exact (Option.some.inj hw').symm
      rw [hw.data]
      exact ⟨hwords, log.own, rfl, hsofar, w', v, hw', hv, hle, Store.copied_cell hversion⟩
  | changed => trivial
  | @confirmed i versionRead x target w t' ok hword hread hadd =>
      obtain ⟨own, hown, hsofar, w', v, hw', hv, hle, hcopied⟩ := h
      have hi := (List.getElem?_eq_some_iff.mp hw').1
      obtain rfl : w' = w := by
        rw [hwords.wordAt (by omega) hword] at hw'
        exact (Option.some.inj hw').symm
      refine ⟨hwords, ?_⟩
      have hshows := hw.confirm hcopied (hread.trans hv) hle hsampled
      have hnext := hsofar.concat (b := false) hw' hshows
      rw [← hown] at hnext
      exact hnext

omit [Zero V] in
theorem Entry.sound_writes {outer : Word → V → Prop} {words : List Word} {values : List V}
    {e : Entry V} (he : e ∈ Entry.writes words values) : e.Sound outer := by
  obtain ⟨-, -, rfl⟩ := List.mem_map.mp he
  trivial

/-- **One step of a thread** keeps its snapshot. -/
theorem TxLog.Snapshot.mover (hw : WordsInv s store) (hmode : (s.thread l.tid).Mode)
    (hanswers : (s.thread l.tid).Answers) (halign : 8 ∣ s.tm.align) (hfits : ReadsFit s l)
    (hmove : ThreadMove platform s.tm l.choice (s.thread l.tid) l.event (s'.thread l.tid))
    (before : List Nat) (hfollows : log.Follows store (s.thread l.tid))
    (h : log.Snapshot store (s.thread l.tid)) :
    (log.next s.tm (s.thread l.tid) before l.event).Snapshot store (s'.thread l.tid) := by
  unfold ReadsFit at hfits
  generalize s.thread l.tid = thread, l.event = event, s'.thread l.tid = thread' at *
  cases hmove with
  | start => exact ⟨by simp [TxLog.next, TxLog.start], trivial⟩
  | @call t event thread' hcall =>
      cases hcall with
      | read hrange hrw hread =>
          refine ⟨h.sound, ?_, rfl, rfl, by simp⟩
          exact tmReadCall_words halign hrange (hfits t _ _ rfl hrw rfl) hread
      | roRead | write | alloc | free | finish => exact ⟨h.sound, trivial⟩
  | @begin isRo pc event thread' hbegin =>
      obtain ⟨-, hempty⟩ := hfollows.fresh isRo pc rfl
      cases hbegin <;> exact ⟨by simp [TxLog.next, hempty], trivial⟩
  | @read t c pc event thread' hread =>
      have hcall := ReadPc.Sound.step before hw (hfollows.sampled t rfl hmode)
        hfollows.sampled_le h.call.1 h.call.2 hread
      cases hread <;> exact ⟨h.sound, hcall⟩
  | @roRead t c pc event thread' hread =>
      have hro : log.isRo = true := (hfollows.mode t rfl).symm.trans hmode
      cases hread with
      | done => exact ⟨h.sound, fun hrw => absurd (hro.symm.trans hrw) (by decide)⟩
      | _ => exact ⟨h.sound, trivial⟩
  | write hmove | alloc hmove | free hmove | finish hmove =>
      cases hmove <;> exact ⟨h.sound, trivial⟩
  | @cleanup t r =>
      refine ⟨h.sound, ?_⟩
      cases r with
      | read target =>
          cases target with
          | none => trivial
          | some target => cases hanswers.1
      | _ => trivial
  | @retIdle r =>
      have hanswered : log.answered r = [] := TxLog.answered_of_not_continues hanswers.symm
      exact ⟨by simpa [TxLog.next, hanswered] using h.sound, trivial⟩
  | @retLive r t =>
      refine ⟨fun hrw e he => ?_, trivial⟩
      rcases List.mem_append.mp he with he | he
      · exact h.sound hrw e he
      · cases r with
        | read target =>
            cases target with
            | none => cases he
            | some target => exact h.call hrw e he
        | write ok =>
            cases ok with
            | false => cases he
            | true => exact Entry.sound_writes he
        | _ => cases he

end Step

/-! ### Runs -/

section Runs

variable [Zero V] [DecidableEq Tid] {platform : Platform V} {s s' : State Tid V} {l : Label Tid V}
  {store : Store Tid Word V} {hist : History Tid V}

structure SnapshotInv (s : State Tid V) (store : Store Tid Word V) (hist : History Tid V) :
    Prop where
  current : ∀ tid, (hist.current tid).Snapshot store (s.thread tid)
  past : ∀ log ∈ hist.past, log.isRo = false → ∀ e ∈ log.entries,
    e.Sound (store.Shows (fun _ => 0) log.sampled)

theorem SnapshotInv.init (h : (system Tid platform).init s) :
    SnapshotInv s (Store.start fun _ => 0) (History.start Tid V) := by
  refine ⟨fun tid => ?_, by simp [History.start]⟩
  rw [h.1 tid]
  exact ⟨by simp [History.start, TxLog.start], trivial⟩

theorem SnapshotInv.step (hreach : (system Tid platform).Reachable s) (hw : WordsInv s store)
    (hfits : ReadsFit s l) (hstep : (system Tid platform).step s l s')
    (hlogs : LogsInv s store hist) (h : SnapshotInv s store hist) :
    SnapshotInv s' (recordStore s l store) (recordHistory s l hist) := by
  have hlater := hw.later (threadWf hreach l.tid) hstep
  obtain ⟨hmove, -, hother⟩ := system_step_move hstep
  refine ⟨fun tid => ?_, fun log hlog hrw e he => ?_⟩
  · by_cases heq : tid = l.tid
    · subst heq
      have hmover := (h.current l.tid).mover hw (threadMode hreach l.tid)
        (threadAnswers hreach l.tid) (align_pos_dvd hreach).2 hfits hmove
        (hist.returned.filterMap TxLog.version) (hlogs l.tid)
      simpa [recordHistory] using hmover.later hlater
    · rw [hother tid heq]
      simpa [recordHistory, heq] using (h.current tid).later hlater
  · rcases mem_past_recordHistory hlog with hpast | rfl
    · exact (h.past log hpast hrw e he).mono (hlater.shows log.sampled)
    · exact ((h.current l.tid).sound hrw e he).mono (hlater.shows _)

end Runs

end TransactionalMemory
