import TransactionalMemory.Proof.Extension
import TransactionalMemory.Proof.Installed

/-!
# One range read

`ro_transaction_read` looks at the versions of its range, copies the range, and looks at the
versions again. Between the two looks it fixes a moment: the contents that memory had when the first
loop ended. A word whose version is the same in both looks held that content throughout, and so did
the copy. A word past the locks of its segment is never written at all.
-/

namespace TransactionalMemory

open Concurrency

variable {V Tid : Type}

/-! ### Words that nobody writes -/

section Steps

variable [Zero V] [DecidableEq Tid] {platform : Platform V} {s s' : State Tid V} {l : Label Tid V}

/-- A segment has fewer than `2 ^ 31` locks. -/
theorem numWords_lt (h : (system Tid platform).Reachable s) :
    ∀ g seg, s.tm.segment g = some seg → seg.numWords < 2 ^ 31 := by
  refine h.invariant (P := fun s => ∀ g seg, s.tm.segment g = some seg → seg.numWords < 2 ^ 31)
    (fun s hs g seg hseg => ?_) fun s l s' _ ih hstep g seg hseg => ?_
  · obtain ⟨-, choice, size, align, -, -, -, -, hcreate⟩ := hs
    obtain ⟨-, -, htm⟩ := tmCreate_eq hcreate
    by_cases heq : g = 0
    · obtain rfl : (⟨size, toInt (size / align : Nat), .ready⟩ : Segment) = seg := by
        simpa [htm, Tm.created, heq] using hseg
      have := (toInt_mem (size / align : Nat)).2
      simp only
      omega
    · simp [htm, Tm.created, Tm.bare, heq] at hseg
  · obtain ⟨hmove, htm, -⟩ := system_step_move hstep
    -- a step that sets fields of one segment
    have hset : ∀ {g' : SegId} {f : Segment → Segment},
        s'.tm.segment = Function.update s.tm.segment g' ((s.tm.segment g').map f) →
        (∀ seg : Segment, seg.numWords < 2 ^ 31 → (f seg).numWords < 2 ^ 31) →
        seg.numWords < 2 ^ 31 := by
      intro g' f hsegment hf
      rw [hsegment] at hseg
      by_cases heq : g = g'
      · subst heq
        rw [Function.update_self, Option.map_eq_some_iff] at hseg
        obtain ⟨seg', hseg', rfl⟩ := hseg
        exact hf _ (ih g seg' hseg')
      · rw [Function.update_of_ne heq] at hseg
        exact ih g seg hseg
    cases hmove.spotMove with
    | quiet hlock hhead hnode hvaN hvaArr hsegment hbefore hafter =>
        rw [htm, hsegment] at hseg
        exact ih g seg hseg
    | @alloc t size pc hbefore hmove =>
        generalize l.event = event, s'.thread l.tid = thread' at hmove htm
        cases hmove with
        | initStruct =>
            by_cases heq : g = s.tm.segmentCount
            · obtain rfl : (⟨0, 0, .raw⟩ : Segment) = seg := by
                simpa [htm, Tm.after, Tm.apply, heq] using hseg
              decide
            · exact ih g seg (by simpa [htm, Tm.after, Tm.apply, heq] using hseg)
        | initData =>
            have hfill := (toInt_mem (size / s.tm.align : Nat)).2
            exact hset (f := fun seg =>
                { seg with numWords := toInt (size / s.tm.align : Nat), state := .filled })
              (by rw [htm]; rfl) fun _ _ => by simp only; omega
        | initLocks =>
            exact hset (f := fun seg => { seg with size := _, state := .ready }) (by rw [htm]; rfl)
              fun _ h => h
        | noData | noLocks =>
            exact hset (f := fun seg => { seg with state := .broken }) (by rw [htm]; rfl)
              fun _ h => h
        | _ => rw [htm] at hseg; exact ih g seg hseg
    | @deleted x g' seg' hevent hdrains hafter hspot' =>
        have hsegment : s'.tm.segment = Function.update s.tm.segment g' none := by
          rw [htm, hevent]
          simp [Tm.after, Tm.apply, Tm.deleteSegment, hspot']
        by_cases heq : g = g'
        · simp [hsegment, heq] at hseg
        · exact ih g seg (by simpa [hsegment, heq] using hseg)

/-- Of a finished segment only words that have a lock are written. -/
theorem data_kept (hsegments : SegmentsInv s) (hwf : (s.thread l.tid).Wf)
    (hstep : (system Tid platform).step s l s') {w : Word} {seg : Segment}
    (hseg : s.tm.segment w.seg = some seg) (hready : seg.state = .ready)
    (hinvalid : s.tm.valid w = false) : s'.tm.data w = s.tm.data w := by
  obtain ⟨hmove, htm, -⟩ := system_step_move hstep
  rw [htm]
  cases hmove.wordMove hwf with
  | quiet hstore hlock hdata => rw [hdata]
  | @filled g numWords hevent hbuilding =>
      have hne : w.seg ≠ g := by
        rintro rfl
        obtain ⟨seg', hseg', hstate⟩ := hsegments.building _ _ _ hbuilding
        obtain rfl : seg = seg' := by simpa [hseg] using hseg'
        simp [hstate] at hready
      simp [hevent, Tm.after, Tm.apply, hne]
  | @put _ _ w' _ hevent hvalid =>
      have hne : w ≠ w' := by
        rintro rfl
        simp [hvalid] at hinvalid
      simp [hevent, Tm.after, Tm.apply, hne]
  | readied hevent => rw [hevent]; rfl
  | locked hevent | unlocked hevent | drew hevent | decided hevent | released hevent
    | returned hevent => simp [hevent, Tm.after, Tm.apply]

omit [Zero V] in
theorem Tm.valid_congr {tm tm' : Tm V} {w : Word} (h : tm'.segment w.seg = tm.segment w.seg) :
    tm'.valid w = tm.valid w := by
  simp [Tm.valid, h]

end Steps

/-! ### The loops of `ro_transaction_read` -/

/-- What a read in progress is about: the words of its range, and what memory held after each step
since the call. -/
structure ReadRecord (V : Type) where
  words : List Word
  instants : List (Word → V)

section Invariant

variable [Zero V]

/-- The word held `m w` when its version was first seen, and so did the copy of it. -/
structure Frozen (tm : Tm V) (store : Store Tid Word V) (m : Word → V) (w : Word)
    (prev : Option Int) (copy : Option V) : Prop where
  unwritten : tm.valid w = false → tm.data w = m w ∧ ∀ x ∈ copy, x = m w
  copied : tm.valid w = true → ∃ v : Nat, prev = some (v : Int) ∧ store.Copied w v (m w) ∧
    ∀ x ∈ copy, store.Copied w v x

structure Confirmed (tm : Tm V) (store : Store Tid Word V) (m : Word → V) (words : List Word)
    (i : Nat) (prev : List Int) (values : List V) : Prop where
  length : values.length = words.length
  frozen : ∀ (j : Nat) w, words[j]? = some w → Frozen tm store m w prev[j]? values[j]?
  same : ∀ (j : Nat) w, words[j]? = some w → j < i → values[j]? = some (m w)

def RoPc.Ranged (tm : Tm V) (store : Store Tid Word V) (r : ReadRecord V) : RoPc V → Prop
  | .pre i prev =>
      prev.length = i ∧ ∀ (j : Nat) w, r.words[j]? = some w → tm.valid w = true → j < i →
      ∃ v : Nat, prev[j]? = some (v : Int) ∧ v ≤ store.version w
  | .copy prev target => ∃ m ∈ r.instants, target.length = r.words.length ∧
      ∀ (j : Nat) w, r.words[j]? = some w → Frozen tm store m w prev[j]? (target[j]?.join)
  | .post i prev target => ∃ m ∈ r.instants, ∃ values, target = values.map some ∧
      Confirmed tm store m r.words i prev values
  | .loadClock i _ prev target | .revalidate i _ _ _ prev target => ∃ m ∈ r.instants, ∃ values,
      target = values.map some ∧ Confirmed tm store m r.words (i + 1) prev values

/-- At one instant of the call the range held what the call delivers. -/
def ReadRecord.Atomic (r : ReadRecord V) (target : List V) : Prop :=
  ∃ m ∈ r.instants, target = r.words.map m

/-- The loops over the locks visit the words of the range, or the range lies past all locks. -/
structure RoCall.Visits (c : RoCall) (tm : Tm V) (words : List Word) : Prop where
  data : CallWords c.seg c.firstWord c.words words
  locks : CallWords c.seg c.startIdx c.numWords words ∨ ∀ w ∈ words, tm.valid w = false
  segment : ∃ seg, tm.segment c.seg = some seg ∧ seg.state = .ready

def Thread.Ranged (tm : Tm V) (store : Store Tid Word V) (r : ReadRecord V) : Thread V → Prop
  | .roReading _ c pc => c.Visits tm r.words ∧ pc.Ranged tm store r
  | .returning (.read (some target)) (some t) => t.isRo = true → r.Atomic target
  | _ => True

variable {tm tm' : Tm V} {store store' : Store Tid Word V} {m : Word → V} {w : Word}
  {r r' : ReadRecord V} {thread : Thread V}

theorem Frozen.later {prev : Option Int} {copy : Option V} (h : Frozen tm store m w prev copy)
    (hlater : Store.Later (fun _ => 0) store store') (hvalid : tm'.valid w = tm.valid w)
    (hdata : tm.valid w = false → tm'.data w = tm.data w) : Frozen tm' store' m w prev copy := by
  refine ⟨fun hinvalid => ?_, fun hval => ?_⟩
  · rw [hvalid] at hinvalid
    rw [hdata hinvalid]
    exact h.unwritten hinvalid
  · rw [hvalid] at hval
    obtain ⟨v, hprev, hmoment, hcopy⟩ := h.copied hval
    exact ⟨v, hprev, hlater.copied _ _ _ hmoment, fun x hx => hlater.copied _ _ _ (hcopy x hx)⟩

theorem Confirmed.later {words : List Word} {i : Nat} {prev : List Int} {values : List V}
    (h : Confirmed tm store m words i prev values) (hlater : Store.Later (fun _ => 0) store store')
    (hvalid : ∀ w ∈ words, tm'.valid w = tm.valid w)
    (hdata : ∀ w ∈ words, tm.valid w = false → tm'.data w = tm.data w) :
    Confirmed tm' store' m words i prev values :=
  ⟨h.length, fun j w hw => (h.frozen j w hw).later hlater (hvalid w (List.mem_of_getElem? hw))
    (hdata w (List.mem_of_getElem? hw)), h.same⟩

/-- The other threads' steps keep a range read on its way. -/
theorem Thread.Ranged.later (h : thread.Ranged tm store r)
    (hlater : Store.Later (fun _ => 0) store store') (hwords : r'.words = r.words)
    (hinstants : ∀ m ∈ r.instants, m ∈ r'.instants)
    (hsegment : thread.holds = true → ∀ g seg, tm.segment g = some seg → seg.state = .ready →
      tm'.segment g = some seg)
    (hdata : ∀ w seg, tm.segment w.seg = some seg → seg.state = .ready → tm.valid w = false →
      tm'.data w = tm.data w) : thread.Ranged tm' store' r' := by
  cases thread with
  | roReading t c pc =>
      obtain ⟨⟨hcopies, hlocks, seg, hseg, hready⟩, hpc⟩ := h
      have hwordSeg : ∀ w ∈ r.words, w.seg = c.seg := by
        intro w hw
        obtain ⟨j, hj⟩ := List.mem_iff_getElem?.mp hw
        rw [hcopies.word j (List.getElem?_eq_some_iff.mp hj).1] at hj
        rw [← Option.some.inj hj]
      have hseg' := hsegment rfl _ _ hseg hready
      have hvalid : ∀ w ∈ r.words, tm'.valid w = tm.valid w := fun w hw =>
        Tm.valid_congr (by rw [hwordSeg w hw, hseg', hseg])
      have hkept : ∀ w ∈ r.words, tm.valid w = false → tm'.data w = tm.data w := fun w hw =>
        hdata w seg (by rw [hwordSeg w hw, hseg]) hready
      refine ⟨⟨by rwa [hwords], ?_, seg, hseg', hready⟩, ?_⟩
      · rw [hwords]
        exact hlocks.imp_right fun hinvalid w hw => by rw [hvalid w hw, hinvalid w hw]
      · cases pc with
        | pre i prev =>
            obtain ⟨hlength, hprev⟩ := hpc
            refine ⟨hlength, fun j w hw hval hj => ?_⟩
            rw [hwords] at hw
            rw [hvalid w (List.mem_of_getElem? hw)] at hval
            obtain ⟨v, hv, hle⟩ := hprev j w hw hval hj
            exact ⟨v, hv, hle.trans (hlater.version_le w)⟩
        | copy prev target =>
            obtain ⟨m, hm, hlength, hfrozen⟩ := hpc
            refine ⟨m, hinstants m hm, by rw [hwords, hlength], fun j w hw => ?_⟩
            rw [hwords] at hw
            exact (hfrozen j w hw).later hlater (hvalid w (List.mem_of_getElem? hw))
              (hkept w (List.mem_of_getElem? hw))
        | post i prev target | loadClock i versionRead prev target
          | revalidate i k versionRead nextRv prev target =>
            obtain ⟨m, hm, values, htarget, hconfirmed⟩ := hpc
            refine ⟨m, hinstants m hm, values, htarget, ?_⟩
            rw [hwords]
            exact hconfirmed.later hlater hvalid hkept
  | returning answer t =>
      cases answer with
      | read target =>
          cases target with
          | none => trivial
          | some target =>
              cases t with
              | none => trivial
              | some t =>
                  intro hro
                  obtain ⟨m, hm, htarget⟩ := h hro
                  exact ⟨m, hinstants m hm, by rw [hwords, htarget]⟩
      | _ => trivial
  | _ => trivial

omit [Zero V] in
theorem RoCall.Visits.index {c : RoCall} {words : List Word} (h : c.Visits tm words) {i : Nat}
    (hi : (i : Int) < c.numWords) (hword : tm.wordAt c.seg (c.startIdx + i) = some w) {w' : Word}
    (hw' : words[i]? = some w') (hvalid : tm.valid w' = true) : w' = w := by
  rcases h.locks with hlocks | hinvalid
  · rw [hlocks.wordAt hi hword] at hw'
    exact (Option.some.inj hw').symm
  · simp [hinvalid w' (List.mem_of_getElem? hw')] at hvalid

/-- **The second look.** A word whose version is still the one seen first holds what it held at the
moment between the two loops, and what was copied. -/
theorem Confirmed.step {s : State Tid V} {c : RoCall} {words : List Word} {i : Nat}
    {prev : List Int} {values : List V} (hw : WordsInv s store) (hvisits : c.Visits s.tm words)
    (h : Confirmed s.tm store m words i prev values) (hi : (i : Int) < c.numWords)
    (hword : s.tm.wordAt c.seg (c.startIdx + i) = some w)
    (hread : prev[i]? = some (vlReadVersion (s.tm.lock w))) :
    Confirmed s.tm store m words (i + 1) prev values := by
  refine ⟨h.length, h.frozen, fun j w' hw' hj => ?_⟩
  rcases Nat.lt_succ_iff_lt_or_eq.mp hj with hlt | rfl
  · exact h.same j w' hw' hlt
  · have hlt : j < values.length := by
      rw [h.length]
      exact (List.getElem?_eq_some_iff.mp hw').1
    have hvalue : values[j]? = some values[j] := List.getElem?_eq_getElem hlt
    have hfrozen := h.frozen j w' hw'
    rw [hvalue] at hfrozen ⊢
    congr 1
    cases hvalid : s.tm.valid w' with
    | false => exact (hfrozen.unwritten hvalid).2 _ rfl
    | true =>
        obtain rfl := hvisits.index hi hword hw' hvalid
        obtain ⟨v, hprev, hmoment, hcopy⟩ := hfrozen.copied hvalid
        have hversion : vlReadVersion (s.tm.lock w') = v := by
          rw [hread] at hprev
          exact Option.some.inj hprev
        obtain ⟨howner, hstore⟩ := hw.readVersion_eq (by omega : vlReadVersion (s.tm.lock w') ≠ -1)
        have hsame : store.version w' = v := by omega
        have hclean : store.dirty w' = false := hw.inv.not_dirty (by simp [howner])
        rw [← (hcopy _ rfl).2 hsame hclean, ← hmoment.2 hsame hclean]

/-! ### One move of `ro_transaction_read` -/

namespace RoPc.Ranged

variable {s : State Tid V} {c : RoCall} {i k : Nat} {prev : List Int} {target : List (Option V)}

theorem pre (hw : WordsInv s store) (hvisits : c.Visits s.tm r.words)
    (h : (RoPc.pre i prev : RoPc V).Ranged s.tm store r) (hi : (i : Int) < c.numWords)
    (hword : s.tm.wordAt c.seg (c.startIdx + i) = some w)
    (hread : vlReadVersion (s.tm.lock w) ≠ -1) :
    (RoPc.pre (i + 1) (prev ++ [vlReadVersion (s.tm.lock w)]) : RoPc V).Ranged s.tm store r := by
  obtain ⟨rfl, hprev⟩ := h
  refine ⟨by simp, fun j w' hw' hvalid hj => ?_⟩
  rcases Nat.lt_succ_iff_lt_or_eq.mp hj with hlt | rfl
  · obtain ⟨v, hv, hle⟩ := hprev j w' hw' hvalid hlt
    exact ⟨v, by rw [List.getElem?_append_left hlt, hv], hle⟩
  · obtain rfl := hvisits.index hi hword hw' hvalid
    obtain ⟨-, hversion⟩ := hw.readVersion_eq hread
    exact ⟨store.version w', by simp [hversion], le_rfl⟩

/-- The moment of the read is the end of the first loop. -/
theorem preDone (hw : WordsInv s store) (hvisits : c.Visits s.tm r.words)
    (h : (RoPc.pre i prev : RoPc V).Ranged s.tm store r) (hi : ¬ (i : Int) < c.numWords)
    (hnow : s.tm.data ∈ r.instants) :
    (RoPc.copy prev (List.replicate c.words none) : RoPc V).Ranged s.tm store r := by
  obtain ⟨hlength, hprev⟩ := h
  refine ⟨s.tm.data, hnow, ?_, fun j w hword => ?_⟩
  · rw [List.length_replicate]
    have := hvisits.data.length
    omega
  · have hj := (List.getElem?_eq_some_iff.mp hword).1
    have hnone : (List.replicate c.words (none : Option V))[j]?.join = none := by
      rw [List.getElem?_replicate]
      split <;> rfl
    rw [hnone]
    refine ⟨fun _ => ⟨rfl, by simp⟩, fun hvalid => ?_⟩
    have hdone : j < i := by
      rcases hvisits.locks with hlocks | hinvalid
      · have := hlocks.length
        omega
      · simp [hinvalid w (List.mem_of_getElem? hword)] at hvalid
    obtain ⟨v, hv, hle⟩ := hprev j w hword hvalid hdone
    refine ⟨v, hv, ?_, by simp⟩
    rw [hw.data]
    exact Store.copied_cell hle

omit [Zero V] in
theorem copyDone (h : (RoPc.copy prev target).Ranged s.tm store r)
    (hall : target.all Option.isSome = true) :
    (RoPc.post 0 prev target).Ranged s.tm store r := by
  obtain ⟨m, hm, hlength, hfrozen⟩ := h
  obtain ⟨values, rfl⟩ := exists_values hall
  refine ⟨m, hm, values, rfl, by simpa using hlength, fun j w hword => ?_,
    fun j _ _ hj => absurd hj (Nat.not_lt_zero j)⟩
  have hjoin : (values.map some)[j]?.join = values[j]? := by
    rw [List.getElem?_map]
    cases values[j]? <;> rfl
  have hcell := hfrozen j w hword
  rwa [hjoin] at hcell

/-- A word is copied between its two looks, in any order of the words. -/
theorem copied (hw : WordsInv s store) (hvisits : c.Visits s.tm r.words)
    (h : (RoPc.copy prev target).Ranged s.tm store r) (hk : target[k]? = some none) :
    (RoPc.copy prev (target.set k (some (s.tm.data ⟨c.seg, c.firstWord + k⟩)))).Ranged s.tm store
      r := by
  obtain ⟨m, hm, hlength, hfrozen⟩ := h
  refine ⟨m, hm, by rw [List.length_set, hlength], fun j w hword => ?_⟩
  have hcell := hfrozen j w hword
  by_cases heq : j = k
  · subst heq
    have hj := (List.getElem?_eq_some_iff.mp hk).1
    obtain rfl : (⟨c.seg, c.firstWord + j⟩ : Word) = w := by
      rw [hvisits.data.word j (hlength ▸ hj)] at hword
      exact Option.some.inj hword
    rw [List.getElem?_set_self hj]
    refine ⟨fun hinvalid => ⟨(hcell.unwritten hinvalid).1, ?_⟩, fun hvalid => ?_⟩
    · rintro x ⟨⟩
      exact (hcell.unwritten hinvalid).1
    · obtain ⟨v, hv, hmoment, -⟩ := hcell.copied hvalid
      refine ⟨v, hv, hmoment, ?_⟩
      rintro x ⟨⟩
      rw [hw.data]
      exact Store.copied_cell hmoment.1
  · rwa [List.getElem?_set_ne (Ne.symm heq)]

omit [Zero V] in
/-- After the second loop the buffer is the range at the moment between the two. -/
theorem done (hvisits : c.Visits s.tm r.words) (h : (RoPc.post i prev target).Ranged s.tm store r)
    (hi : ¬ (i : Int) < c.numWords) : r.Atomic target.reduceOption := by
  obtain ⟨m, hm, values, rfl, hconfirmed⟩ := h
  refine ⟨m, hm, ?_⟩
  rw [reduceOption_map_some]
  apply List.ext_getElem?
  intro j
  rw [List.getElem?_map]
  cases hword : r.words[j]? with
  | none =>
      have := List.getElem?_eq_none_iff.mp hword
      exact List.getElem?_eq_none_iff.mpr (by rw [hconfirmed.length]; exact this)
  | some w =>
      have hj := (List.getElem?_eq_some_iff.mp hword).1
      cases hvalid : s.tm.valid w with
      | true =>
          refine hconfirmed.same j w hword ?_
          rcases hvisits.locks with hlocks | hinvalid
          · have := hlocks.length
            omega
          · simp [hinvalid w (List.mem_of_getElem? hword)] at hvalid
      | false =>
          have hlt : j < values.length := by rw [hconfirmed.length]; exact hj
          have hfrozen := hconfirmed.frozen j w hword
          rw [List.getElem?_eq_getElem hlt] at hfrozen ⊢
          exact congrArg some ((hfrozen.unwritten hvalid).2 _ rfl)

theorem recorded (hw : WordsInv s store) (hvisits : c.Visits s.tm r.words)
    (h : (RoPc.post i prev target).Ranged s.tm store r) (hi : (i : Int) < c.numWords)
    (hword : s.tm.wordAt c.seg (c.startIdx + i) = some w)
    (hread : prev[i]? = some (vlReadVersion (s.tm.lock w))) :
    ∃ m ∈ r.instants, ∃ values, target = values.map some ∧
      Confirmed s.tm store m r.words (i + 1) prev values := by
  obtain ⟨m, hm, values, htarget, hconfirmed⟩ := h
  exact ⟨m, hm, values, htarget, hconfirmed.step hw hvisits hi hword hread⟩

omit [Zero V] in
/-- A record of the same words with more instants. -/
theorem mono {pc : RoPc V} (h : pc.Ranged s.tm store r) (hwords : r'.words = r.words)
    (hinstants : ∀ m ∈ r.instants, m ∈ r'.instants) : pc.Ranged s.tm store r' := by
  cases pc with
  | pre i prev =>
      obtain ⟨hlength, hprev⟩ := h
      exact ⟨hlength, by rwa [hwords]⟩
  | copy prev target =>
      obtain ⟨m, hm, hcopied⟩ := h
      exact ⟨m, hinstants m hm, by rwa [hwords]⟩
  | post i prev target | loadClock i versionRead prev target
    | revalidate i k versionRead nextRv prev target =>
      obtain ⟨m, hm, values, htarget, hconfirmed⟩ := h
      exact ⟨m, hinstants m hm, values, htarget, by rwa [hwords]⟩

theorem step {choice : Choice V} {t : Tx V} {pc : RoPc V} {event : Event V} {thread' : Thread V}
    (hw : WordsInv s store) (hvisits : c.Visits s.tm r.words) (h : pc.Ranged s.tm store r)
    (hmove : RoReadMove s.tm choice t c pc event thread') (hwords : r'.words = r.words)
    (hinstants : ∀ m ∈ r.instants, m ∈ r'.instants) (hnow : s.tm.data ∈ r'.instants) :
    thread'.Ranged s.tm store r' := by
  replace hvisits : c.Visits s.tm r'.words := by rwa [hwords]
  replace h := h.mono hwords hinstants
  cases hmove with
  | preLocked | changed | notRecorded | stale | notExtended => trivial
  | pre hi hword hread => exact ⟨hvisits, h.pre hw hvisits hi hword hread⟩
  | preDone hi => exact ⟨hvisits, h.preDone hw hvisits hi hnow⟩
  | copyDone hall => exact ⟨hvisits, h.copyDone hall⟩
  | copied hk => exact ⟨hvisits, h.copied hw hvisits hk⟩
  | done hi => exact fun _ => h.done hvisits hi
  | newer hi hword hread | recorded hi hword hread =>
      exact ⟨hvisits, h.recorded hw hvisits hi hword hread⟩
  | clock | revalidated | extended => exact ⟨hvisits, h⟩

end RoPc.Ranged

end Invariant

end TransactionalMemory
