import TransactionalMemory.Proof.WriteSet

/-!
# What the client of a transaction has seen

The entries of the finished calls and of the call in progress, up to the turn its loop is at. At
every point before the decision of `tm_end` the sets of the transaction are those of this view.
-/

namespace TransactionalMemory

open Concurrency

variable {V Tid : Type}

def ReadPc.target : ReadPc V → List V
  | .word _ target | .load _ target | .copy _ _ target | .recheck _ _ _ target => target

/-- The points of `tm_end` up to its decision, on the way that may commit. -/
def EndPc.deciding : EndPc → Bool
  | .start | .tryLoad _ | .tryCas _ _ | .fetchAdd | .validate _ _ | .validated _ => true
  | _ => false

/-- The transaction of a thread and what its client has seen, as long as it may still commit. -/
def Thread.view (log : TxLog V) : Thread V → Option (Tx V × List (Entry V))
  | .live t | .allocating t _ _ | .freeing t _ => some (t, log.entries)
  | .reading t _ pc => some (t, log.entries ++ Entry.reads log.words pc.target log.own)
  | .writing t _ i => some (t, log.entries ++ (Entry.writes log.words log.values).take i)
  | .returning r (some t) => some (t, log.entries ++ log.answered r)
  | .ending t pc => if pc.deciding then some (t, log.entries) else none
  | _ => none

def ReadPc.Missed (log : TxLog V) : ReadPc V → Prop
  | .word _ _ => True
  | .load i target | .copy i _ target | .recheck i _ _ target => ∀ w, log.words[i]? = some w →
      lastWritten (log.entries ++ Entry.reads log.words target log.own) w = none

def ReadPc.Counted (log : TxLog V) : ReadPc V → Prop
  | .word i target => target.length = i ∧ log.own.length = i
  | .load i target | .copy i _ target =>
      i < log.words.length ∧ target.length = i ∧ log.own.length = i
  | .recheck i _ _ target => i < log.words.length ∧ target.length = i ∧
      ∃ own, log.own = own ++ [false] ∧ own.length = i

def Thread.Counted (log : TxLog V) : Thread V → Prop
  | .beginning _ _ => log.entries = []
  | .reading _ c pc => CallWords c.seg c.startWord c.numWords log.words ∧ pc.Counted log
  | _ => True

def Thread.BufferedCall (tm : Tm V) (log : TxLog V) : Thread V → Prop
  | .reading _ c pc => c.align = tm.align ∧ tm.NamesRange c.source log.words ∧ pc.Missed log
  | .writing _ c _ => CallWords c.seg c.idxStart c.numWords log.words ∧
      tm.NamesRange c.target log.words ∧ c.source = log.values
  | _ => True

structure TxLog.Buffered (tm : Tm V) (bit : Int → BitVec 64) (thread : Thread V) (log : TxLog V) :
    Prop where
  sets : ∀ t view, thread.view log = some (t, view) → t.isRo = false → t.Buffers tm bit view
  call : thread.BufferedCall tm log

section Moves

variable {tm tm' : Tm V} {bit : Int → BitVec 64} {thread thread' : Thread V} {log : TxLog V}
  {choice : Choice V} {event : Event V} {platform : Platform V}

theorem TxLog.Buffered.keep (h : log.Buffered tm bit thread) (halign : tm'.align = tm.align)
    (hkeep : (thread.view log).isSome →
      ∀ spot g seg, tm.InstalledAt spot g seg → tm'.InstalledAt spot g seg) :
    log.Buffered tm' bit thread := by
  refine ⟨fun t view hview hrw => ?_, ?_⟩
  · exact (h.sets t view hview hrw).keep halign (hkeep (by rw [hview]; rfl))
  · have hcall := h.call
    cases thread with
    | reading t c pc =>
        obtain ⟨hc, hnames, hmissed⟩ := hcall
        exact ⟨by rw [hc, halign], hnames.keep halign (hkeep rfl), hmissed⟩
    | writing t c i =>
        obtain ⟨hwords, hnames, hsource⟩ := hcall
        exact ⟨hwords, hnames.keep halign (hkeep rfl), hsource⟩
    | _ => trivial

theorem Thread.tx_of_view {t : Tx V} {view : List (Entry V)}
    (h : thread.view log = some (t, view)) : thread.tx = some t := by
  cases thread with
  | ending t pc =>
      simp only [Thread.view] at h
      split at h
      · obtain ⟨rfl, -⟩ := Prod.mk.inj (Option.some.inj h)
        rfl
      · cases h
  | returning r t =>
      cases t with
      | none => cases h
      | some t =>
          obtain ⟨rfl, -⟩ := Prod.mk.inj (Option.some.inj h)
          rfl
  | live | reading | writing | allocating | freeing =>
      obtain ⟨rfl, -⟩ := Prod.mk.inj (Option.some.inj h)
      rfl
  | _ => cases h

/-- A thread whose transaction may still commit has its hold. -/
theorem Thread.holds_of_view (h : (thread.view log).isSome) : thread.holds = true := by
  cases thread with
  | ending t pc => cases pc <;> first | rfl | cases h
  | returning r t =>
      cases t with
      | none => cases h
      | some t =>
          cases r with
          | begin valid => cases valid <;> rfl
          | _ => rfl
  | idle | beginning isRo pc => cases h
  | _ => rfl

theorem ThreadMove.holds_before (h : ThreadMove platform tm choice thread event thread')
    (hview : (thread'.view log).isSome) : thread.holds = true := by
  rcases h.holds (Thread.holds_of_view hview) with hbefore | ⟨htx, -⟩
  · exact hbefore
  · cases thread' with
    | returning r t => cases htx; cases hview
    | idle | beginning isRo pc => cases hview
    | _ => cases htx

theorem ReadCall.curr_eq {c : ReadCall} {i : Nat} {curr : Addr} (hcurr : c.curr i = some curr)
    (halign : c.align = tm.align) : curr = c.source + BitVec.ofNat 64 (i * tm.align) := by
  unfold ReadCall.curr checkedInt at hcurr
  split at hcurr
  · rw [halign, ← Nat.cast_mul, Option.map_some, BitVec.ofInt_natCast] at hcurr
    exact (Option.some.inj hcurr).symm
  · cases hcurr

/-- A move that neither the sets nor the view feel. -/
theorem TxLog.Buffered.same {log' : TxLog V} (h : log.Buffered tm bit thread)
    (hview : ∀ t view, thread'.view log' = some (t, view) →
      ∃ t', thread.view log = some (t', view) ∧ t.isRo = t'.isRo ∧ t.ws = t'.ws ∧
        t.wsBloom = t'.wsBloom ∧ t.rs = t'.rs)
    (hcall : thread'.BufferedCall tm log') : log'.Buffered tm bit thread' := by
  refine ⟨fun t view hafter hrw => ?_, hcall⟩
  obtain ⟨t', hbefore, hro, hws, hbloom, hrs⟩ := hview t view hafter
  have hsets := h.sets t' view hbefore (hro ▸ hrw)
  exact ⟨by rw [hws]; exact hsets.lookup, by rw [hws]; exact hsets.nodup,
    by rw [hws]; exact hsets.names, by rw [hws, hbloom]; exact hsets.bloom, hsets.answered,
    by rw [hws, hrs]; exact hsets.tracked⟩

theorem TxLog.Buffered.read {t : Tx V} {c : ReadCall} {pc : ReadPc V} {before : List Nat}
    (hpos : 0 < tm.align) (htable : tm.TableInv)
    (hmalloc : choice.mallocOk 0 = true) (hrw : t.isRo = false)
    (hwords : CallWords c.seg c.startWord c.numWords log.words) (hcounted : pc.Counted log)
    (h : log.Buffered tm platform.bit (.reading t c pc))
    (hmove : TmReadMove platform tm choice t c pc event thread') :
    (log.next tm (.reading t c pc) before event).Buffered tm platform.bit thread' := by
  have hlength := hwords.length
  obtain ⟨halign, hnames, hmissed⟩ := h.call
  have hsets := h.sets t _ rfl hrw
  cases hmove with
  | @hit i target curr item hi hcurr hit =>
      have hword := hwords.word i (by omega)
      have hname := hnames i _ hword
      rw [← ReadCall.curr_eq hcurr halign] at hname
      obtain ⟨-, -, hlast⟩ := hsets.of_hit hpos hname hit
      refine ⟨fun t' view hview _ => ?_, halign, hnames, trivial⟩
      obtain ⟨rfl, rfl⟩ := Prod.mk.inj (Option.some.inj hview)
      obtain ⟨htarget, hown⟩ := hcounted
      have hread := hsets.read_own hlast
      rw [ReadPc.target, List.append_assoc,
        ← Entry.reads_concat (hown.trans htarget.symm) (htarget.symm ▸ hword)] at hread
      exact hread
  | @miss i target curr hi hcurr hmiss =>
      refine ⟨h.sets, halign, hnames, fun w hw => ?_⟩
      have hname := hnames i w hw
      rw [← ReadCall.curr_eq hcurr halign] at hname
      exact hsets.of_miss htable hname hmiss
  | done => exact ⟨h.sets, trivial⟩
  | refused | changed => exact ⟨fun _ _ hview => (nomatch hview), trivial⟩
  | loaded => exact ⟨h.sets, halign, hnames, hmissed⟩
  | @copied i versionRead target w hword =>
      obtain ⟨-, htarget, hown⟩ := hcounted
      have hsame : Entry.reads log.words target (log.own ++ [false]) =
          Entry.reads log.words target log.own :=
        Entry.reads_own_append (hown.trans htarget.symm)
      refine ⟨fun t' view hview _ => ?_, halign, hnames, fun w' hw' => ?_⟩
      · obtain ⟨rfl, rfl⟩ := Prod.mk.inj (Option.some.inj hview)
        rw [ReadPc.target, ← hsame] at hsets
        exact hsets
      · have hlast := hmissed w' hw'
        rw [← hsame] at hlast
        exact hlast
  | @confirmed i versionRead x target w t' ok hword hread hadd =>
      obtain ⟨hi, htarget, own, hown, hlength'⟩ := hcounted
      have hw := hwords.wordAt (by omega) hword
      refine ⟨fun t'' view hview _ => ?_, halign, hnames, trivial⟩
      obtain ⟨rfl, rfl⟩ := Prod.mk.inj (Option.some.inj hview)
      rw [hmalloc] at hadd
      have hread := hsets.read_region (x := x) hrw (hmissed w hw) hadd
      have hsame : Entry.reads log.words target (own ++ [false]) =
          Entry.reads log.words target own :=
        Entry.reads_own_append (hlength'.trans htarget.symm)
      rw [ReadPc.target, hown, hsame, List.append_assoc,
        ← Entry.reads_concat (hlength'.trans htarget.symm) (htarget.symm ▸ hw), ← hown] at hread
      exact hread

theorem Entry.take_writes {words : List Word} {values : List V} {i : Nat} {w : Word} {x : V}
    (hw : words[i]? = some w) (hx : values[i]? = some x) :
    (Entry.writes words values).take (i + 1) =
      (Entry.writes words values).take i ++ [.write w x] := by
  rw [List.take_add_one, Entry.writes, List.getElem?_map, zip_getElem? hw hx]
  rfl

theorem TxLog.Buffered.write {t : Tx V} {c : WriteCall V} {i : Nat} {before : List Nat}
    (hbit : ∀ pos, platform.bit pos ≠ 0#64) (hpos : 0 < tm.align) (htable : tm.TableInv)
    (hrw : t.isRo = false) (h : log.Buffered tm platform.bit (.writing t c i))
    (hmove : TmWriteMove platform tm choice t c i event thread') :
    (log.next tm (.writing t c i) before event).Buffered tm platform.bit thread' := by
  obtain ⟨hwords, hnames, hsource⟩ := h.call
  have hsets := h.sets t _ rfl hrw
  have hlength := hwords.length
  cases hmove with
  | done hi =>
      refine ⟨fun t' view hview hrw' => h.sets t' view ?_ hrw', trivial⟩
      rw [← hview]
      have hall : (Entry.writes log.words log.values).take i = Entry.writes log.words log.values :=
        List.take_of_length_le (by simp [Entry.writes]; omega)
      change some (t, log.entries ++ (Entry.writes log.words log.values).take i) = _
      rw [hall]
      rfl
  | refused | noMemory => exact ⟨fun _ _ hview => (nomatch hview), trivial⟩
  | @overwritten w x item hi hword hfree hold hx hit =>
      have hword := hwords.wordAt hi hword
      obtain ⟨hfind, rfl, -⟩ := hsets.of_hit hpos (hnames i w hword) hit
      refine ⟨fun t' view hview _ => ?_, hwords, hnames, hsource⟩
      obtain ⟨rfl, rfl⟩ := Prod.mk.inj (Option.some.inj hview)
      have hwrite := hsets.overwritten (x := x) hfind
      rw [List.append_assoc, ← Entry.take_writes hword (hsource ▸ hx)] at hwrite
      exact hwrite
  | @appended w x t' hi hword hfree hold hx hmiss happend =>
      have hword := hwords.wordAt hi hword
      have hlast := hsets.of_miss htable (hnames i w hword) hmiss
      refine ⟨fun t' view hview _ => ?_, hwords, hnames, hsource⟩
      obtain ⟨rfl, rfl⟩ := Prod.mk.inj (Option.some.inj hview)
      have hwrite := hsets.appended hbit (hnames i w hword) hlast happend
      rw [List.append_assoc, ← Entry.take_writes hword (hsource ▸ hx)] at hwrite
      exact hwrite

end Moves

section Step

variable {platform : Platform V} {s s' : State Tid V} {l : Label Tid V}
  {store : Store Tid Word V} {log : TxLog V}

/-- The ranges that transactions write have word indices that `int` holds and end where the offset
of an address does. -/
def WritesFit (s : State Tid V) (l : Label Tid V) : Prop :=
  ∀ t source size target, s.thread l.tid = .live t → l.event = .call (.write source size target) →
    s.tm.WordsFit target size ∧ offsetFromVa target + size ≤ 2 ^ 48

theorem Tx.start_buffers {tm : Tm V} {bit : Int → BitVec 64} {rv : Int} {isRo : Bool} {bloom : Bf} :
    (Tx.start rv isRo bloom : Tx V).Buffers tm bit [] :=
  ⟨rfl, List.nodup_nil, fun _ h => (nomatch h), fun _ h => (nomatch h), answered_nil,
    fun _ _ h => (nomatch h)⟩

theorem Thread.Counted.mover (halign : 8 ∣ s.tm.align) (hreads : ReadsFit s l)
    (hmove : ThreadMove platform s.tm l.choice (s.thread l.tid) l.event (s'.thread l.tid))
    (before : List Nat) (h : (s.thread l.tid).Counted log) :
    (s'.thread l.tid).Counted (log.next s.tm (s.thread l.tid) before l.event) := by
  unfold ReadsFit at hreads
  generalize s.thread l.tid = thread, l.event = event, s'.thread l.tid = thread' at *
  cases hmove with
  | start => rfl
  | @call t event thread' hcall =>
      cases hcall with
      | read hrange hrw hread =>
          exact ⟨tmReadCall_words halign hrange (hreads t _ _ rfl hrw rfl) hread, rfl, rfl⟩
      | _ => trivial
  | begin hbegin => cases hbegin <;> first | exact h | trivial
  | @read t c pc event thread' hread =>
      obtain ⟨hwords, hcounted⟩ := h
      have hlength := hwords.length
      cases hread with
      | hit hi =>
          obtain ⟨htarget, hown⟩ := hcounted
          exact ⟨hwords, by simp [htarget], by simp [TxLog.next, hown]⟩
      | miss hi => exact ⟨hwords, by simp only [TxLog.next]; omega, hcounted⟩
      | loaded => exact ⟨hwords, hcounted⟩
      | copied =>
          obtain ⟨hi, htarget, hown⟩ := hcounted
          exact ⟨hwords, hi, htarget, log.own, rfl, hown⟩
      | confirmed =>
          obtain ⟨hi, htarget, own, hown, hcount⟩ := hcounted
          exact ⟨hwords, by simp [htarget], by simp [TxLog.next, hown, hcount]⟩
      | done | refused | changed => trivial
  | roRead hmove | write hmove | alloc hmove | free hmove | finish hmove => cases hmove <;> trivial
  | cleanup | retIdle | retLive => trivial

/-- **One step of a thread** keeps its sets those of what its client has seen. -/
theorem TxLog.Buffered.mover (hbit : ∀ pos, platform.bit pos ≠ 0#64) (hmode : (s.thread l.tid).Mode)
    (hpos : 0 < s.tm.align) (halign : 8 ∣ s.tm.align) (htable : s.tm.TableInv)
    (hmalloc : l.choice.mallocOk 0 = true) (hreads : ReadsFit s l) (hwrites : WritesFit s l)
    (hmove : ThreadMove platform s.tm l.choice (s.thread l.tid) l.event (s'.thread l.tid))
    (before : List Nat) (hcounted : (s.thread l.tid).Counted log)
    (h : log.Buffered s.tm platform.bit (s.thread l.tid)) :
    (log.next s.tm (s.thread l.tid) before l.event).Buffered s.tm platform.bit
      (s'.thread l.tid) := by
  unfold ReadsFit at hreads
  unfold WritesFit at hwrites
  generalize s.thread l.tid = thread, l.event = event, s'.thread l.tid = thread' at *
  cases hmove with
  | start => exact ⟨fun _ _ hview => (by cases hview), trivial⟩
  | @call t event thread' hcall =>
      cases hcall with
      | @read source size g c hrange hrw hread =>
          obtain ⟨-, hend⟩ := hreads t _ _ rfl hrw rfl
          obtain ⟨-, hsource, hcalign, -⟩ :=
            tmReadCall_fields halign hrange (hreads t _ _ rfl hrw rfl) hread
          refine ⟨by simpa [TxLog.next, Thread.view, ReadPc.target] using h.sets, hcalign, ?_,
            trivial⟩
          rw [hsource]
          exact namesRange_named hpos hrange (by omega)
      | @write source size target g hrange hrw hlength =>
          obtain ⟨hfit, hend⟩ := hwrites t _ _ _ rfl rfl
          refine ⟨by simpa [TxLog.next, Thread.view] using h.sets, ?_, ?_, rfl⟩
          · exact tmWriteCall_words hrange hfit
          · exact namesRange_named hpos hrange hend
      | roRead => exact ⟨fun _ _ hview => (by cases hview), trivial⟩
      | alloc | free | finish => exact ⟨h.sets, trivial⟩
  | @begin isRo pc event thread' hbegin =>
      have hempty : log.entries = [] := hcounted
      cases hbegin with
      | started =>
          refine ⟨fun t view hview _ => ?_, trivial⟩
          obtain ⟨rfl, rfl⟩ := Prod.mk.inj (Option.some.inj hview)
          simpa [TxLog.next, TxLog.answered, hempty] using Tx.start_buffers
      | _ => exact ⟨fun _ _ hview => (by cases hview), trivial⟩
  | @read t c pc event thread' hread =>
      exact h.read hpos htable hmalloc hmode hcounted.1 hcounted.2 hread
  | @write t c i event thread' hwrite => exact h.write hbit hpos htable hmode hwrite
  | @roRead t c pc event thread' hread =>
      cases hread with
      | done =>
          refine ⟨fun t' view hview hrw => ?_, trivial⟩
          obtain ⟨rfl, -⟩ := Prod.mk.inj (Option.some.inj hview)
          exact absurd (hrw.symm.trans hmode) (by decide)
      | _ => exact ⟨fun _ _ hview => (by cases hview), trivial⟩
  | @alloc t size pc event thread' halloc =>
      have hentries := h.sets t log.entries rfl
      cases halloc with
      | initLocks | pushStore =>
          refine ⟨fun t' view hview hrw => ?_, trivial⟩
          obtain ⟨rfl, rfl⟩ := Prod.mk.inj (Option.some.inj hview)
          simpa [TxLog.next, TxLog.answered] using hentries hrw
      | _ => exact ⟨h.sets, trivial⟩
  | @free t target event thread' hfree =>
      cases hfree with
      | first => exact ⟨fun _ _ hview => (by cases hview), trivial⟩
      | queued =>
          refine h.same (fun t' view hview => ?_) trivial
          obtain ⟨rfl, rfl⟩ := Prod.mk.inj (Option.some.inj hview)
          exact ⟨t, by simp [Thread.view, TxLog.next, TxLog.answered], rfl, rfl, rfl, rfl⟩
  | @finish t pc event thread' hfinish =>
      cases hfinish with
      | sort hrw hne =>
          refine ⟨fun t' view hview hrw => ?_, trivial⟩
          obtain ⟨rfl, rfl⟩ := Prod.mk.inj (Option.some.inj hview)
          exact (h.sets t log.entries rfl hrw).sorted (platform.qsort_perm _ _)
      | locked | tryLoad | cas | fetchAddSkip | fetchAdd | validateDone | validateErased
      | validate => exact ⟨h.sets, trivial⟩
      | copied =>
          refine ⟨fun t' view hview => ?_, trivial⟩
          split at hview <;> cases hview
      | _ => exact ⟨fun _ _ hview => (by cases hview), trivial⟩
  | cleanup => exact ⟨fun _ _ hview => (by cases hview), trivial⟩
  | retIdle => exact ⟨fun _ _ hview => (by cases hview), trivial⟩
  | retLive => exact ⟨h.sets, trivial⟩

def BufferedInv (platform : Platform V) (s : State Tid V) (hist : History Tid V) : Prop :=
  ∀ tid, (hist.current tid).Buffered s.tm platform.bit (s.thread tid)

def CountedInv (s : State Tid V) (hist : History Tid V) : Prop :=
  ∀ tid, (s.thread tid).Counted (hist.current tid)

variable [Zero V] [DecidableEq Tid] {hist : History Tid V}

theorem CountedInv.init (h : (system Tid platform).init s) :
    CountedInv s (History.start Tid V) := by
  intro tid
  rw [h.1 tid]
  trivial

theorem CountedInv.step (hreach : (system Tid platform).Reachable s) (hreads : ReadsFit s l)
    (hstep : (system Tid platform).step s l s') (h : CountedInv s hist) :
    CountedInv s' (recordHistory s l hist) := by
  obtain ⟨hmove, -, hother⟩ := system_step_move hstep
  intro tid
  by_cases heq : tid = l.tid
  · subst heq
    have hmover := (h l.tid).mover (align_pos_dvd hreach).2 hreads hmove
      (hist.returned.filterMap TxLog.version)
    simpa [recordHistory] using hmover
  · rw [hother tid heq]
    simpa [recordHistory, heq] using h tid

theorem BufferedInv.init (h : (system Tid platform).init s) :
    BufferedInv platform s (History.start Tid V) := by
  intro tid
  rw [h.1 tid]
  exact ⟨fun _ _ hview => (nomatch hview), trivial⟩

theorem BufferedInv.step (hbit : ∀ pos, platform.bit pos ≠ 0#64)
    (hreach : ((system Tid platform).restrict NoFailure).Reachable s) (hfailure : NoFailure s l)
    (hreads : ReadsFit s l) (hwrites : WritesFit s l) (hstep : (system Tid platform).step s l s')
    (hcounted : CountedInv s hist) (h : BufferedInv platform s hist) :
    BufferedInv platform s' (recordHistory s l hist) := by
  have hsystem := hreach.of_restrict
  obtain ⟨hpos, hdvd⟩ := align_pos_dvd hsystem
  obtain ⟨hmove, htm, hother⟩ := system_step_move hstep
  have halign : s'.tm.align = s.tm.align := by rw [htm, Tm.align_after]
  intro tid
  by_cases heq : tid = l.tid
  · subst heq
    have hmover := (h l.tid).mover hbit (threadMode hsystem l.tid) hpos hdvd (tableInv hsystem)
      (hfailure.1 0) hreads hwrites hmove (hist.returned.filterMap TxLog.version) (hcounted l.tid)
    simpa [recordHistory] using hmover.keep halign fun hview _ _ _ hinst =>
      installed_step hreach hstep (hmove.holds_before hview) hinst
  · rw [hother tid heq]
    simpa [recordHistory, heq] using (h tid).keep halign fun hview _ _ _ hinst =>
      installed_step hreach hstep (Thread.holds_of_view hview) hinst

end Step

end TransactionalMemory
