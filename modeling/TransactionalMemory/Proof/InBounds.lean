import TransactionalMemory.Proof.Installed
import TransactionalMemory.Proof.Ranges

/-!
# Calls stay in bounds

What the interface asks of its clients, with the sizes that the code's `int` arithmetic holds, and
what a call knows from then on: its words lie in its segment, its loop counters in its arrays, and
a finished segment has as many words as its size says.
-/

namespace TransactionalMemory

open Concurrency

variable {V Tid : Type}

/-- What a client may ask for: a range inside one segment, no write or free in a read-only
transaction, a free of an installed segment. `int` holds the number of words of a segment, and the
byte offsets of a read in a read-write transaction. -/
def Tm.Allows (tm : Tm V) (t : Tx V) : Call V → Prop
  | .begin _ | .finish => True
  | .read source size => (tm.range source size).isSome ∧ (t.isRo = false → tm.ReadFits source size)
  | .write source size target =>
      (tm.range target size).isSome ∧ t.isRo = false ∧ source.length = size / tm.align
  | .alloc size => 0 < size ∧ size < 2 ^ 64 ∧ tm.align ∣ size ∧ size / tm.align < 2 ^ 31
  | .free target => t.isRo = false ∧ ∃ g seg, tm.InstalledAt (indexFromVa target).toNat g seg

instance (tm : Tm V) (addr : Addr) :
    Decidable (∃ g seg, tm.InstalledAt (indexFromVa addr).toNat g seg) :=
  match hspot : tm.vaArr (indexFromVa addr).toNat with
  | .garbage => isFalse fun ⟨_, _, hinst⟩ => by cases hspot.symm.trans hinst.1
  | .null => isFalse fun ⟨_, _, hinst⟩ => by cases hspot.symm.trans hinst.1
  | .segment g =>
      match hseg : tm.segment g with
      | none => isFalse fun ⟨_, _, hinst⟩ => by
          cases hspot.symm.trans hinst.1
          cases hseg.symm.trans hinst.2.1
      | some seg =>
          decidable_of_iff (seg.state = .ready) ⟨fun hready => ⟨g, seg, hspot, hseg, hready⟩,
            fun ⟨_, _, hinst⟩ => by
              cases hspot.symm.trans hinst.1
              cases hseg.symm.trans hinst.2.1
              exact hinst.2.2⟩

instance (tm : Tm V) (t : Tx V) : (call : Call V) → Decidable (tm.Allows t call)
  | .begin _ | .finish => isTrue trivial
  | .read _ _ => inferInstanceAs (Decidable (_ ∧ (_ → _)))
  | .write _ _ _ => inferInstanceAs (Decidable (_ ∧ _ ∧ _))
  | .alloc _ => inferInstanceAs (Decidable (_ ∧ _ ∧ _ ∧ _))
  | .free _ => inferInstanceAs (Decidable (_ ∧ _))

def CallsAllowed (s : State Tid V) (l : Label Tid V) : Prop :=
  ∀ t call, s.thread l.tid = .live t → l.event = .call call → s.tm.Allows t call

/-! ### What a call in progress covers -/

def Tm.Covers (tm : Tm V) (g : SegId) (start n : Int) : Prop :=
  0 ≤ start ∧ ∃ seg, tm.segment g = some seg ∧ seg.state = .ready ∧ start + n ≤ seg.numWords

def ReadPc.turn : ReadPc V → Option Nat
  | .word _ _ => none
  | .load i _ | .copy i _ _ | .recheck i _ _ _ => some i

def RoPc.turn : RoPc V → Option Nat
  | .loadClock i _ _ _ | .revalidate i _ _ _ _ _ => some i
  | _ => none

def EndPc.InBounds (t : Tx V) : EndPc → Prop
  | .tryCas i _ | .release _ i => i < t.ws.length
  | .rollback i _ => i ≤ t.ws.length
  | _ => True

def AllocPc.InBounds (tm : Tm V) (size : Nat) : AllocPc → Prop
  | .initLocks _ g => ∃ seg, tm.segment g = some seg ∧ seg.numWords = (size / tm.align : Nat)
  | _ => True

def Thread.InBounds (tm : Tm V) : Thread V → Prop
  | .reading _ c pc => tm.Covers c.seg c.startWord c.numWords ∧ c.align = tm.align ∧
      (c.startWord + c.numWords) * c.align ≤ 2 ^ 31 ∧ ∀ i, pc.turn = some i → (i : Int) < c.numWords
  | .roReading _ c pc => tm.Covers c.seg c.startIdx c.numWords ∧
      ∀ i, pc.turn = some i → (i : Int) < c.numWords
  | .writing _ c _ => tm.Covers c.seg c.idxStart c.numWords ∧ c.numWords = c.source.length
  | .allocating _ size pc => tm.align ∣ size ∧ size / tm.align < 2 ^ 31 ∧ pc.InBounds tm size
  | .ending t pc => pc.InBounds t
  | _ => True

def Tx.NoNull (t : Tx V) : Prop :=
  t.isRo = true → ∀ rs, t.rs = some rs → ∀ item ∈ rs, item.versionedLock ≠ none

theorem Tm.Covers.wordAt {tm : Tm V} {g : SegId} {start n : Int} (h : tm.Covers g start n) {i : Nat}
    (hi : (i : Int) < n) : ∃ w, tm.wordAt g (start + i) = some w := by
  obtain ⟨hstart, seg, hseg, hready, hend⟩ := h
  have hpos : 0 ≤ start + i := by omega
  have hlt : (((start + i).toNat : Nat) : Int) < seg.numWords := by omega
  have hvalid : tm.valid ⟨g, (start + i).toNat⟩ = true := by
    simp only [Tm.valid, hseg, hready, hlt, and_self, decide_true]
  exact ⟨_, if_pos ⟨hpos, hvalid⟩⟩

/-- Every finished segment has as many words as its size says, and `int` holds their number. -/
def Tm.Whole (tm : Tm V) : Prop :=
  ∀ g seg, tm.segment g = some seg → seg.state = .ready →
    seg.numWords < 2 ^ 31 ∧ (seg.size : Int) = seg.numWords * tm.align

theorem Tm.Whole.covers {tm : Tm V} (h : tm.Whole) (halign : 0 < tm.align) {addr : Addr}
    {size : Nat} {g : SegId} (hrange : tm.range addr size = some g) :
    tm.Covers g (offsetFromVa addr / tm.align : Nat) (size / tm.align : Nat) ∧
      tm.WordsFit addr size := by
  obtain ⟨seg, -, hseg, hready, -, ⟨n, rfl⟩, ⟨k, hk⟩, hend⟩ := Tm.range_eq_some hrange
  obtain ⟨hlt, hwhole⟩ := h g seg hseg hready
  have hwords : (k + n : Int) ≤ seg.numWords := by
    have hend' : (tm.align : Int) * (k + n) ≤ tm.align * seg.numWords := by
      rw [mul_comm (tm.align : Int) seg.numWords, ← hwhole, mul_add]
      rw [hk] at hend
      exact_mod_cast hend
    exact Int.le_of_mul_le_mul_left hend' (by exact_mod_cast halign)
  unfold Tm.WordsFit
  rw [hk, Nat.mul_div_cancel_left _ halign, Nat.mul_div_cancel_left _ halign]
  exact ⟨⟨by omega, seg, hseg, hready, hwords⟩, by omega⟩

/-! ### What a move keeps -/

section Moves

variable [Zero V] {platform : Platform V} {tm : Tm V} {choice : Choice V}
  {thread thread' : Thread V} {event : Event V}

omit [Zero V] in
theorem CallMove.inBounds {t : Tx V} (hmove : CallMove tm t event thread') (hwhole : tm.Whole)
    (halign : 0 < tm.align ∧ 8 ∣ tm.align)
    (hallowed : ∀ call, event = .call call → tm.Allows t call) : thread'.InBounds tm := by
  cases hmove with
  | @roRead source size g c hrange hro hcall =>
      obtain ⟨hcovers, hfits⟩ := hwhole.covers halign.1 hrange
      obtain ⟨-, hc⟩ := roTransactionReadCall_eq_some hcall
      have hfirst : toInt (offsetFromVa source / tm.align : Nat) =
          (offsetFromVa source / tm.align : Nat) :=
        toInt_natCast ((Nat.le_add_right _ _).trans_lt hfits)
      have hcount : toInt (size / tm.align : Nat) = (size / tm.align : Nat) :=
        toInt_natCast ((Nat.le_add_left _ _).trans_lt hfits)
      rw [hfirst, hcount] at hc
      have hseg : c.seg = g := by rw [hc]
      have hstart : c.startIdx = (offsetFromVa source / tm.align : Nat) := by rw [hc]
      have hnum : c.numWords = (size / tm.align : Nat) := by rw [hc]
      refine ⟨?_, fun i hi => by cases hi⟩
      rw [hseg, hstart, hnum]
      exact hcovers
  | @read source size g c hrange hrw hcall =>
      obtain ⟨hcovers, -⟩ := hwhole.covers halign.1 hrange
      have hfits := (hallowed _ rfl).2 hrw
      obtain ⟨hseg, -, hcalign, hstart, hnum⟩ := tmReadCall_fields halign.2 hrange hfits hcall
      refine ⟨?_, hcalign, ?_, fun i hi => by cases hi⟩
      · rw [hseg, hstart, hnum]
        exact hcovers
      · have hle : (offsetFromVa source / tm.align + size / tm.align) * tm.align ≤ 2 ^ 31 := by
          rw [Nat.add_mul]
          exact (Nat.add_le_add (Nat.div_mul_le_self _ _) (Nat.div_mul_le_self _ _)).trans hfits.2
        rw [hstart, hnum, hcalign]
        exact_mod_cast hle
  | @write source size target g hrange hrw hlength =>
      obtain ⟨hcovers, hfits⟩ := hwhole.covers halign.1 hrange
      have hstart : toInt (offsetFromVa target / tm.align : Nat) =
          (offsetFromVa target / tm.align : Nat) :=
        toInt_natCast ((Nat.le_add_right _ _).trans_lt hfits)
      have hnum : toInt (size / tm.align : Nat) = (size / tm.align : Nat) :=
        toInt_natCast ((Nat.le_add_left _ _).trans_lt hfits)
      refine ⟨?_, ?_⟩
      · simp only [tmWriteCall, hstart, hnum]
        exact hcovers
      · simp only [tmWriteCall, hnum, hlength]
  | alloc =>
      obtain ⟨-, -, hdvd, hlt⟩ := hallowed _ rfl
      exact ⟨hdvd, hlt, trivial⟩
  | free => trivial
  | finish => trivial

omit [Zero V] in
theorem TmEndMove.inBounds {t : Tx V} {pc : EndPc}
    (hmove : TmEndMove platform tm t pc event thread')
    (h : pc.InBounds t) (tm' : Tm V) : thread'.InBounds tm' := by
  cases hmove with
  | refused hi => exact (List.getElem?_eq_some_iff.mp hi).1.le
  | tryLoad hi | copy hi => exact (List.getElem?_eq_some_iff.mp hi).1
  | casLost => exact Nat.le_of_lt h
  | rollback => exact h
  | copied => split <;> trivial
  | _ => trivial

theorem TmAllocMove.inBounds {t : Tx V} {size : Nat} {pc : AllocPc}
    (hmove : TmAllocMove tm choice t size pc event thread')
    (hraw : ∀ spot g, pc = .initData spot g → ∃ seg, tm.segment g = some seg)
    (h : (Thread.allocating t size pc : Thread V).InBounds tm) :
    thread'.InBounds (tm.after event) := by
  obtain ⟨hdvd, hlt, -⟩ := h
  cases hmove with
  | @initData spot g =>
      obtain ⟨seg, hseg⟩ := hraw spot g rfl
      have hcount : toInt (size / tm.align : Nat) = (size / tm.align : Nat) := toInt_natCast hlt
      refine ⟨hdvd, hlt, { seg with numWords := (size / tm.align : Nat), state := .filled },
        ?_, rfl⟩
      simp only [Tm.after, Tm.apply, Tm.setSegment, hcount, Function.update_self, hseg,
        Option.map_some]
  | initLocks | pushStore => trivial
  | _ => exact ⟨by rw [Tm.align_after]; exact hdvd, by rw [Tm.align_after]; exact hlt, trivial⟩

theorem ThreadMove.inBounds (hmove : ThreadMove platform tm choice thread event thread')
    (hwhole : tm.Whole) (halign : 0 < tm.align ∧ 8 ∣ tm.align)
    (hallowed : ∀ t call, thread = .live t → event = .call call → tm.Allows t call)
    (hraw : ∀ t size spot g, thread = .allocating t size (.initData spot g) →
      ∃ seg, tm.segment g = some seg)
    (h : thread.InBounds tm) : thread'.InBounds (tm.after event) := by
  cases hmove with
  | @call t event thread' hcall =>
      have hkept := hcall.inBounds hwhole halign fun call hevent => hallowed t call rfl hevent
      cases hcall <;> exact hkept
  | read hread =>
      obtain ⟨hcovers, hcalign, hend, hturn⟩ := h
      cases hread with
      | miss hi => exact ⟨hcovers, hcalign, hend, fun j hj => by cases hj; exact hi⟩
      | hit | confirmed => exact ⟨hcovers, hcalign, hend, fun j hj => by cases hj⟩
      | loaded | copied =>
          exact ⟨hcovers, hcalign, hend, fun j hj => by cases hj; exact hturn _ rfl⟩
      | _ => trivial
  | roRead hread =>
      obtain ⟨hcovers, hturn⟩ := h
      cases hread with
      | newer hi => exact ⟨hcovers, fun j hj => by cases hj; exact hi⟩
      | clock | revalidated => exact ⟨hcovers, fun j hj => by cases hj; exact hturn _ rfl⟩
      | pre | preDone | copyDone | copied | recorded | extended =>
          exact ⟨hcovers, fun j hj => by cases hj⟩
      | _ => trivial
  | write hwrite =>
      cases hwrite with
      | overwritten | appended => exact h
      | _ => trivial
  | @alloc t size pc event thread' halloc =>
      exact halloc.inBounds (fun spot g hpc => hraw t size spot g (by rw [hpc])) h
  | finish hend => exact hend.inBounds h _
  | begin hbegin => cases hbegin <;> trivial
  | free hfree => cases hfree <;> trivial
  | start | cleanup | retIdle | retLive => trivial

omit [Zero V] in
theorem Tx.NoNull.congr {t t' : Tx V} (h : t.NoNull) (hro : t'.isRo = t.isRo) (hrs : t'.rs = t.rs) :
    t'.NoNull := by
  unfold Tx.NoNull
  rw [hro, hrs]
  exact h

omit [Zero V] in
theorem Tx.NoNull.addToReadset {t t' : Tx V} {w : Word} {versionRead : Int} {reallocOk ok : Bool}
    (h : t.NoNull) (hadd : t.addToReadset w versionRead reallocOk = .next (ok, t')) :
    t'.NoNull := by
  obtain ⟨rs, hrs, ⟨-, rfl, -⟩ | ⟨-, -, sz, rfl⟩ | ⟨-, -, sz, rfl⟩⟩ := Tx.addToReadset_cases hadd
  · exact h
  · intro _ rs' hrs'
    cases hrs'
  · intro hro rs' hrs' item hmem
    obtain rfl := Option.some.inj hrs'
    rcases List.mem_append.mp hmem with hmem | hmem
    · exact h hro rs hrs item hmem
    · obtain rfl := List.mem_singleton.mp hmem
      exact Option.some_ne_none _

omit [Zero V] in
theorem ThreadMove.noNull (hmove : ThreadMove platform tm choice thread event thread')
    (hmode : thread.Mode) (h : ∀ t, thread.tx = some t → t.NoNull) :
    ∀ t, thread'.tx = some t → t.NoNull := by
  intro t' ht'
  cases hmove with
  | call hcall => cases hcall <;> exact h t' ht'
  | begin hbegin =>
      cases hbegin with
      | started =>
          obtain rfl := Option.some.inj ht'
          intro _ rs hrs item hmem
          obtain rfl := Option.some.inj hrs
          cases hmem
      | _ => cases ht'
  | @read t _ _ _ _ hread =>
      cases hread with
      | confirmed hw hversion hadd =>
          obtain rfl := Option.some.inj ht'
          exact (h t rfl).addToReadset hadd
      | _ => exact h t' ht'
  | @roRead t _ _ _ _ hread =>
      cases hread with
      | recorded hi hw hversion hold hadd | notRecorded hi hw hversion hold hadd =>
          obtain rfl := Option.some.inj ht'
          exact (h t rfl).addToReadset hadd
      | extended hrs hk hw hadd | notExtended hrs hk hw hadd =>
          obtain rfl := Option.some.inj ht'
          refine Tx.NoNull.addToReadset ?_ hadd
          exact (h t rfl).congr rfl rfl
      | _ => exact h t' ht'
  | write hwrite =>
      cases hwrite with
      | overwritten =>
          obtain rfl := Option.some.inj ht'
          exact (h _ rfl).congr rfl rfl
      | appended hi hw hfree hold hx hmiss happend =>
          obtain rfl := Option.some.inj ht'
          obtain ⟨rs, sz, -, rfl⟩ := Tx.append_eq happend
          intro hro
          rw [show _ = false from hmode] at hro
          cases hro
      | _ => exact h t' ht'
  | alloc halloc => cases halloc <;> exact h t' ht'
  | free hfree =>
      cases hfree with
      | first => exact h t' ht'
      | queued =>
          obtain rfl := Option.some.inj ht'
          exact (h _ rfl).congr rfl rfl
  | finish hend =>
      cases hend with
      | sort =>
          obtain rfl := Option.some.inj ht'
          exact (h _ rfl).congr rfl rfl
      | early | noBatch | wrunlock => cases ht'
      | _ => exact h t' ht'
  | start | cleanup | retIdle => cases ht'
  | retLive => exact h t' ht'

end Moves

/-! ### What the other threads keep -/

section Runs

variable [Zero V] [DecidableEq Tid] {platform : Platform V} {s s' : State Tid V} {l : Label Tid V}

/-- Nobody else touches a segment under construction. -/
theorem SegmentsInv.building_kept (h : SegmentsInv s) (hstep : (system Tid platform).step s l s')
    {tid : Tid} (hne : tid ≠ l.tid) {g : SegId} {state : SegState}
    (hbuilding : (s.thread tid).building = some (g, state)) :
    s'.tm.segment g = s.tm.segment g := by
  obtain ⟨hmove, htm, -⟩ := system_step_move hstep
  have hother : ∀ {g' : SegId} {state' : SegState} {f : Segment → Segment},
      (s.thread l.tid).building = some (g', state') →
      (s.tm.setSegment g' f).segment g = s.tm.segment g := by
    intro g' state' f hmover
    have hdiff : g ≠ g' := fun heq =>
      hne (h.distinct tid l.tid g state state' hbuilding (heq ▸ hmover))
    simp only [Tm.setSegment, Function.update_of_ne hdiff]
  rw [htm]
  cases hmove.segmentMove with
  | quiet hsame hsegment hcount => rw [hsegment]
  | started hevent =>
      have hdiff : g ≠ s.tm.segmentCount := (h.lt_count hbuilding).ne
      rw [hevent]
      simp only [Tm.after, Tm.apply, Function.update_of_ne hdiff]
  | filled hevent hbefore =>
      rw [hevent]
      exact hother hbefore
  | readied hevent hbefore =>
      rw [hevent]
      exact hother hbefore
  | failed hevent hbefore =>
      rcases hevent with hevent | hevent <;> rw [hevent] <;> exact hother hbefore
  | @deleted spot hevent hbefore hafter hready =>
      rw [hevent]
      simp only [Tm.after, Tm.apply, Tm.deleteSegment]
      split
      · rename_i g' hspot
        obtain ⟨seg, hseg, hstate⟩ := hready g' hspot
        have hdiff : g ≠ g' := by
          rintro rfl
          obtain ⟨seg', hseg', hstate'⟩ := h.building tid g state hbuilding
          obtain rfl := Option.some.inj (hseg.symm.trans hseg')
          exact (s.thread tid).building_ne_ready g ((hstate'.symm.trans hstate) ▸ hbuilding)
        simp only [Function.update_of_ne hdiff]
      · rfl

theorem Tm.Covers.keep (hreach : (system Tid platform).Reachable s)
    (hstep : (system Tid platform).step s l s') {tid : Tid} (hheld : (s.thread tid).holds = true)
    {g : SegId} {start n : Int} (h : s.tm.Covers g start n) : s'.tm.Covers g start n := by
  obtain ⟨hstart, seg, hseg, hready, hend⟩ := h
  exact ⟨hstart, seg, segment_kept hreach hstep hheld hseg hready, hready, hend⟩

theorem align_step (hstep : (system Tid platform).step s l s') : s'.tm.align = s.tm.align := by
  obtain ⟨-, htm, -⟩ := system_step_move hstep
  rw [htm, Tm.align_after]

/-- A step leaves the calls of the other threads in bounds. -/
theorem Thread.InBounds.keep (hreach : (system Tid platform).Reachable s)
    (hstep : (system Tid platform).step s l s') {tid : Tid} (hne : tid ≠ l.tid)
    (h : (s.thread tid).InBounds s.tm) : (s.thread tid).InBounds s'.tm := by
  have halign := align_step hstep
  cases hthread : s.thread tid with
  | reading t c pc =>
      rw [hthread] at h
      obtain ⟨hcovers, hcalign, hend, hturn⟩ := h
      exact ⟨hcovers.keep hreach hstep (by rw [hthread]; rfl), by rw [hcalign, halign], hend, hturn⟩
  | roReading t c pc =>
      rw [hthread] at h
      exact ⟨h.1.keep hreach hstep (by rw [hthread]; rfl), h.2⟩
  | writing t c i =>
      rw [hthread] at h
      exact ⟨h.1.keep hreach hstep (by rw [hthread]; rfl), h.2⟩
  | allocating t size pc =>
      rw [hthread] at h
      obtain ⟨hdvd, hlt, hpc⟩ := h
      refine ⟨halign ▸ hdvd, halign ▸ hlt, ?_⟩
      cases pc with
      | initLocks spot g =>
          have hbuilding : (s.thread tid).building = some (g, .filled) := by rw [hthread]; rfl
          have hkept := (segmentsInv hreach).building_kept hstep hne hbuilding
          obtain ⟨seg, hseg, hnum⟩ := hpc
          exact ⟨seg, hkept.trans hseg, by rw [hnum, halign]⟩
      | _ => trivial
  | ending t pc =>
      rw [hthread] at h
      exact h
  | _ => trivial

/-- A finished segment is whole: `segment_init` was called with the size that it stores. -/
theorem Tm.Whole.step (hbounds : ∀ tid, (s.thread tid).InBounds s.tm)
    (hstep : (system Tid platform).step s l s') (h : s.tm.Whole) : s'.tm.Whole := by
  obtain ⟨hmove, htm, -⟩ := system_step_move hstep
  have halign := align_step hstep
  intro g seg hseg hready
  rw [halign]
  cases hmove.spotMove with
  | quiet hlock hhead hnode hvaN hvaArr hsegment =>
      rw [htm, hsegment] at hseg
      exact h g seg hseg hready
  | @alloc t size pc hbefore hmove =>
      have hmover := hbounds l.tid
      rw [hbefore] at hmover
      obtain ⟨hdvd, hlt, hpc⟩ := hmover
      rw [htm] at hseg
      generalize l.event = event, s'.thread l.tid = thread' at hmove hseg
      cases hmove with
      | initStruct =>
          simp only [Tm.after, Tm.apply, Function.update_apply] at hseg
          split at hseg
          · obtain rfl := Option.some.inj hseg
            cases hready
          · exact h g seg hseg hready
      | initData | noData | noLocks =>
          simp only [Tm.after, Tm.apply, Tm.setSegment, Function.update_apply] at hseg
          split at hseg
          · obtain ⟨seg', -, rfl⟩ := Option.map_eq_some_iff.mp hseg
            cases hready
          · exact h g seg hseg hready
      | initLocks =>
          simp only [Tm.after, Tm.apply, Tm.setSegment, Function.update_apply] at hseg
          split at hseg
          · obtain ⟨seg', hseg', rfl⟩ := Option.map_eq_some_iff.mp hseg
            obtain ⟨seg'', hseg'', hnum⟩ := hpc
            obtain rfl := Option.some.inj (hseg'.symm.trans hseg'')
            refine ⟨by rw [hnum]; exact_mod_cast hlt, ?_⟩
            rw [hnum]
            exact_mod_cast (Nat.div_mul_cancel hdvd).symm
          · exact h g seg hseg hready
      | _ => exact h g seg hseg hready
  | @deleted spot g' seg' hevent hdrains hafter hspot =>
      rw [htm, hevent] at hseg
      simp only [Tm.after, Tm.apply, Tm.deleteSegment, hspot, Function.update_apply] at hseg
      split at hseg
      · cases hseg
      · exact h g seg hseg hready

theorem noNull (hreach : (system Tid platform).Reachable s) (tid : Tid) :
    ∀ t, (s.thread tid).tx = some t → t.NoNull := by
  have hkept : (s.thread tid).Mode ∧ ∀ t, (s.thread tid).tx = some t → t.NoNull :=
    thread_invariant (P := fun thread => thread.Mode ∧ ∀ t, thread.tx = some t → t.NoNull)
      ⟨trivial, fun t ht => by cases ht⟩
      (fun _ _ _ _ _ hmove h => ⟨hmove.mode h.1, hmove.noNull h.1 h.2⟩) hreach tid
  exact hkept.2

end Runs

end TransactionalMemory
