import TransactionalMemory.Proof.SimulatedCommit

/-!
# Calls and answers beside the reference

A call of a sequential history starts on both sides, and when it returns the reference makes its one
step: the answers agree, and the relation holds again with what the reference has then.
-/

namespace TransactionalMemory

open Concurrency

variable {V Tid : Type} [Zero V] {platform : Platform V} {tm : Tm V} {choice : Choice V}
  {thread thread' : Thread V} {r r' : Mirror V} {event : Event V}

/-! ### What a step outside a call leaves -/

omit [Zero V] in
theorem Mirror.Wf.move (h : r.Wf) (hblock : r'.block = r.block)
    (hstart : r'.region.start = r.region.start) (hallocs : r'.region.allocs = r.region.allocs)
    (hsegment : r'.region.segment = r.region.segment)
    (hcount : r'.region.blockCount = r.region.blockCount) : r'.Wf := by
  constructor
  · rw [hblock, hstart]
    exact h.first
  · rw [hsegment, hstart, hallocs]
    exact h.start
  · rw [hblock, hsegment]
    exact h.injective
  · rw [hblock, hsegment]
    exact h.placed
  · rw [hallocs, hsegment]
    exact h.listed
  · rw [hallocs]
    exact h.nodup
  · rw [hsegment, hcount]
    exact h.segment_lt
  · rw [hblock, hcount]
    exact h.block_lt

omit [Zero V] in
theorem Mirror.Shown.move (h : r.Shown tm thread) (hblock : r'.block = r.block)
    (halign : r'.region.align = r.region.align) (hsegment : r'.region.segment = r.region.segment)
    (hword : (thread'.reached r').word = (thread.reached r).word)
    (hpending : thread'.pending = thread.pending)
    (htx : ∀ t, thread'.tx = some t → thread.tx = some t)
    (hcall : ∀ b, r.call ≠ some (.free ⟨b, 0⟩)) : r'.Shown tm thread' := by
  have hvalue : tm.value thread' = tm.value thread := by
    unfold Tm.value
    rw [hpending]
  refine ⟨halign.trans h.align, ?_, fun spot b hb hn => ?_⟩
  · rw [hblock, hsegment, hvalue, hword]
    exact h.memory
  · rw [hblock] at hb
    rw [hsegment] at hn
    obtain ⟨hqueued, hown⟩ := h.unfreed spot b hb hn
    exact ⟨hqueued, fun t ht hmem => absurd (hown t (htx t ht) hmem) (hcall b)⟩

/-! ### Calls -/

omit [Zero V] in
theorem Reference.Region.store_nil (region : Reference.Region V) (p : Reference.Ptr) :
    region.store p [] = region := by
  simp [Reference.Region.store]

/-- **A call of a sequential history** is the same call on both sides. -/
theorem Simulates.called {s : State Tid V} {tid : Tid} {call : Call V}
    (h : Simulates platform s.tm r (s.thread tid)) (hanswers : (s.thread tid).Answers)
    (hmode : (s.thread tid).Mode) (hmalloc : ∀ i, choice.mallocOk i = true)
    (hlegal : r.Legal s tid call)
    (hmove : ThreadMove platform s.tm choice (s.thread tid) (.call call) thread') :
    Simulates platform s.tm { r with call := r.translate (s.thread tid) call } thread' := by
  have halone := h.alone.step hmalloc hanswers hmode h.serves hmove
  have hwf : Mirror.Wf { r with call := r.translate (s.thread tid) call } :=
    h.wf.move rfl rfl rfl rfl rfl
  have halign := h.shown.align
  generalize hevent : Event.call call = event at hmove halone
  generalize s.thread tid = thread at h hmove hwf halone ⊢
  cases hmove with
  | start =>
      cases hevent
      have hnone : r.call = none := h.serves
      exact ⟨halone, h.shown.move rfl rfl rfl rfl rfl (by rintro t ⟨⟩) (by simp [hnone]), rfl,
        h.locked, hwf⟩
  | @call t event' thread'' hmove =>
      have hnone : r.call = none := h.serves
      have hshown : ∀ {call' : Option (Reference.Call V)} {thread'' : Thread V},
          (thread''.reached { r with call := call' }).word = r.region.word →
          thread''.pending = t.writes → (∀ t', thread''.tx = some t' → some t = some t') →
          Mirror.Shown { r with call := call' } s.tm thread'' :=
        fun hword hpending htx => h.shown.move rfl rfl rfl hword hpending htx (by simp [hnone])
      cases hmove with
      | @roRead source size g c hrange hro hcall =>
          cases hevent
          obtain ⟨p, g', hranged⟩ := hlegal.ranged halign h.shown.memory
          obtain rfl : g = g' := Option.some.inj (hrange.symm.trans hranged.range)
          have htranslate : r.translate (.live t) (.read source size) = some (.read p size) := by
            simp [Mirror.translate, hranged.pointer]
          exact ⟨halone, hshown rfl rfl fun _ => id, ⟨source, size, p, g, htranslate, hlegal,
            hranged.pointer, hrange, hcall, Nat.zero_le _, rfl⟩, h.locked, hwf⟩
      | @read source size g c hrange hrw hcall =>
          cases hevent
          obtain ⟨p, g', hranged⟩ := hlegal.ranged halign h.shown.memory
          obtain rfl : g = g' := Option.some.inj (hrange.symm.trans hranged.range)
          have htranslate : r.translate (.live t) (.read source size) = some (.read p size) := by
            simp [Mirror.translate, hranged.pointer]
          exact ⟨halone, hshown rfl rfl fun _ => id, ⟨source, size, p, g, htranslate, hlegal,
            hranged.pointer, hrange, hcall, Nat.zero_le _, rfl⟩, h.locked, hwf⟩
      | @write source size target g hrange hrw hlength =>
          cases hevent
          obtain ⟨-, hin, hwidth⟩ := hlegal
          obtain ⟨p, g', hranged⟩ := hin.ranged halign h.shown.memory
          obtain rfl : g = g' := Option.some.inj (hrange.symm.trans hranged.range)
          have htranslate : r.translate (.live t) (.write source size target) =
              some (.write source size p) := by
            simp [Mirror.translate, hranged.pointer]
          refine ⟨halone, hshown ?_ rfl fun _ => id, ⟨source, size, target, p, g, htranslate, hin,
            hranged.pointer, hrange, rfl, hwidth, Nat.zero_le _⟩, h.locked, hwf⟩
          simp only [Thread.reached, htranslate, List.take_zero, Reference.Region.store_nil]
      | @alloc size hpos hsize hdvd =>
          cases hevent
          obtain ⟨-, -, hsmall, -, hspots⟩ := hlegal
          exact ⟨halone, hshown rfl rfl fun _ => id, ⟨rfl, hpos, hsmall, hdvd, hspots⟩,
            h.locked, hwf⟩
      | @free target hrw =>
          cases hevent
          obtain ⟨-, b, hb, hp⟩ := hlegal
          have htranslate : r.translate (.live t) (.free target) = some (.free ⟨b, 0⟩) := by
            simp [Mirror.translate, hp]
          exact ⟨halone, hshown rfl rfl fun _ => id, ⟨b, hb, htranslate, hp⟩, h.locked, hwf⟩
      | finish =>
          cases hevent
          exact ⟨halone, hshown rfl rfl fun _ => id, ⟨rfl, hlegal⟩, h.locked, hwf⟩
  | begin hmove | read hmove | roRead hmove | write hmove | alloc hmove | free hmove
  | finish hmove =>
      cases hmove <;> cases hevent
  | cleanup | retIdle | retLive => cases hevent

/-! ### Answers -/

section Alloc

variable {size spot x : Nat} {b : Reference.BlockId}

/-- One more segment, all zero, in a new block of the reference and at `spot`. -/
def Mirror.grown (r : Mirror V) (size spot : Nat) : Mirror V where
  region := { r.region with
    allocs := r.region.blockCount :: r.region.allocs
    segment := Function.update r.region.segment r.region.blockCount (some size)
    blockCount := r.region.blockCount + 1
    word := Function.update r.region.word r.region.blockCount fun _ => 0 }
  block := Function.update r.block spot (some r.region.blockCount)
  call := none

omit [Zero V] in
theorem Mirror.Wf.fresh (h : r.Wf) : r.region.segment r.region.blockCount = none := by
  by_contra hlive
  exact absurd (h.segment_lt _ hlive) (Nat.lt_irrefl _)

theorem Mirror.grown_block_spot : (r.grown size spot).block spot = some r.region.blockCount :=
  Function.update_self _ _ _

theorem Mirror.grown_block_of_ne (hne : x ≠ spot) : (r.grown size spot).block x = r.block x :=
  Function.update_of_ne hne _ _

theorem Mirror.grown_segment_self :
    (r.grown size spot).region.segment r.region.blockCount = some size :=
  Function.update_self _ _ _

theorem Mirror.grown_segment_of_ne (hne : b ≠ r.region.blockCount) :
    (r.grown size spot).region.segment b = r.region.segment b :=
  Function.update_of_ne hne _ _

/-- The new block is at the new spot, and is none of the old ones. -/
theorem Mirror.Wf.grown_block (h : r.Wf) (hx : (r.grown size spot).block x = some b) :
    x = spot ∧ b = r.region.blockCount ∨
      x ≠ spot ∧ r.block x = some b ∧ b ≠ r.region.blockCount := by
  by_cases heq : x = spot
  · subst heq
    exact Or.inl ⟨rfl, Option.some.inj (hx.symm.trans grown_block_spot)⟩
  · rw [grown_block_of_ne heq] at hx
    exact Or.inr ⟨heq, hx, (h.block_lt x b hx).ne⟩

theorem Mirror.Wf.grown (h : r.Wf)
    (hvacant : ∀ b, r.block spot = some b → r.region.segment b = none) :
    (r.grown size spot).Wf := by
  have hkeep : ∀ {x b}, r.block x = some b → r.region.segment b ≠ none →
      (r.grown size spot).block x = some b := by
    intro x b hx hlive
    refine (grown_block_of_ne ?_).trans hx
    rintro rfl
    exact hlive (hvacant b hx)
  have hstart : r.region.start ≠ r.region.blockCount := (h.segment_lt _ h.start.1).ne
  refine ⟨hkeep h.first h.start.1, ⟨?_, ?_⟩, fun x x' b hx hx' hlive => ?_, fun b hlive => ?_,
    fun b hmem => ?_, ?_, fun b hlive => ?_, fun x b hx => ?_⟩
  · change (r.grown size spot).region.segment r.region.start ≠ none
    rw [grown_segment_of_ne hstart]
    exact h.start.1
  · exact List.not_mem_cons_of_ne_of_not_mem hstart h.start.2
  · rcases h.grown_block hx with ⟨rfl, hb⟩ | ⟨-, hold, hb⟩
    · rcases h.grown_block hx' with ⟨rfl, -⟩ | ⟨-, -, hb'⟩
      · rfl
      · exact absurd hb hb'
    · rcases h.grown_block hx' with ⟨-, hb'⟩ | ⟨-, hold', -⟩
      · exact absurd hb' hb
      · rw [grown_segment_of_ne hb] at hlive
        exact h.injective x x' b hold hold' hlive
  · by_cases hb : b = r.region.blockCount
    · exact ⟨spot, hb ▸ grown_block_spot⟩
    · rw [grown_segment_of_ne hb] at hlive
      obtain ⟨x, hx⟩ := h.placed b hlive
      exact ⟨x, hkeep hx hlive⟩
  · rcases List.mem_cons.mp hmem with rfl | hmem
    · rw [grown_segment_self]
      exact Option.some_ne_none _
    · have hlive := h.listed b hmem
      rw [grown_segment_of_ne (h.segment_lt b hlive).ne]
      exact hlive
  · exact List.nodup_cons.mpr ⟨fun hmem => h.listed _ hmem h.fresh, h.nodup⟩
  · by_cases hb : b = r.region.blockCount
    · exact hb ▸ Nat.lt_add_one _
    · rw [grown_segment_of_ne hb] at hlive
      exact Nat.lt_succ_of_lt (h.segment_lt b hlive)
  · rcases h.grown_block hx with ⟨-, rfl⟩ | ⟨-, hold, -⟩
    · exact Nat.lt_add_one _
    · exact Nat.lt_succ_of_lt (h.block_lt x b hold)

/-- The new segment is installed at its spot with its zeros, and nobody frees it. -/
theorem Mirror.Shown.grown {t : Tx V} {g : SegId} (hwf : r.Wf) (h : r.Shown tm thread)
    (htx : thread.tx = some t) (hpending : thread.pending = t.writes)
    (hreached : thread.reached r = r.region) (hcall : ∀ b, r.call ≠ some (.free ⟨b, 0⟩))
    (hspot : spot < 65535) (hsize : size < 2 ^ 31) (haligned : tm.align ∣ size)
    (hinst : tm.InstalledAt spot g ⟨size, toInt (size / tm.align : Nat), .ready⟩)
    (hzero : ∀ k, tm.value (.live t) ⟨g, k⟩ = 0)
    (hqueued : (spot : Int) ∉ tm.toFree) (hown : (spot : Int) ∉ t.toFree) :
    (r.grown size spot).Shown tm (.live t) := by
  refine ⟨h.align, fun x b n hx hn => ?_, fun x b hx hn => ?_⟩
  · rcases hwf.grown_block hx with ⟨rfl, rfl⟩ | ⟨-, hold, hb⟩
    · obtain rfl := Option.some.inj (grown_segment_self.symm.trans hn)
      refine ⟨hspot, hsize, haligned, g, hinst, fun k _ => ?_⟩
      change Function.update r.region.word r.region.blockCount (fun _ => 0) _ k = _
      rw [Function.update_self, hzero]
    · rw [grown_segment_of_ne hb] at hn
      obtain ⟨hlt, hlt', haligned', g', hinst', hwords⟩ := h.memory x b n hold hn
      refine ⟨hlt, hlt', haligned', g', hinst', fun k hk => ?_⟩
      change Function.update r.region.word r.region.blockCount (fun _ => 0) b k = _
      have hword := hwords k hk
      rw [hreached, Tm.value, hpending] at hword
      rw [Function.update_of_ne hb]
      exact hword
  · rcases hwf.grown_block hx with ⟨rfl, -⟩ | ⟨-, hold, hb⟩
    · refine ⟨hqueued, fun t' ht' hmem => ?_⟩
      obtain rfl := Option.some.inj ht'
      exact absurd hmem hown
    · rw [grown_segment_of_ne hb] at hn
      obtain ⟨hqueued', hown'⟩ := h.unfreed x b hold hn
      exact ⟨hqueued', fun t' ht' hmem => absurd (hown' t' (htx.trans ht') hmem) (hcall b)⟩

end Alloc

/-- What a `tm_alloc` leaves: one more segment on both sides, all zero. -/
theorem Simulates.allocReturned {t : Tx V} {target : Addr}
    (h : Simulates platform tm r (.returning (.alloc (.success target)) (some t)))
    (hdvd : 8 ∣ tm.align) (hpos : 0 < tm.align) (halone : tm.Alone (.live t)) :
    ∃ call answer region, r.call = some call ∧ r.region.run call = .next (answer, region) ∧
      r.Agree (.alloc (.success target)) answer ∧
      Simulates platform tm ⟨region, r.place (.alloc (.success target)) answer, none⟩
        (.live t) := by
  obtain ⟨size, spot, g, hcall, rfl, hspot, hsize, haligned, hinst, hzero, hvacant, hqueued,
    hown⟩ := h.serves
  have halign : (if r.region.align < 8 then 8 else r.region.align) = r.region.align := by
    rw [h.shown.align, if_neg (Nat.not_lt.mpr (Nat.le_of_dvd hpos hdvd))]
  have hmemalign : posixMemalign r.region.align true = true := by
    simp [posixMemalign, h.shown.align, hdvd]
  let b := r.region.blockCount
  have hrun : r.region.run (.alloc size) =
      .next (.alloc (some ⟨b, 0⟩), (r.grown size spot).region) := by
    simp only [Reference.Region.run, Reference.tmAlloc, halign, hmemalign, if_true, Mirror.grown, b]
  have hindex : (indexFromVa (vaFromIndex spot 0)).toNat = spot :=
    indexFromVa_vaFromIndex hspot (by decide)
  have hplace : r.place (.alloc (.success (vaFromIndex spot 0))) (.alloc (some ⟨b, 0⟩)) =
      (r.grown size spot).block := by
    simp only [Mirror.place, hindex, Mirror.grown, b]
  refine ⟨_, _, _, hcall, hrun, ⟨spot, b, rfl, rfl, hspot, hvacant⟩, ?_⟩
  rw [hplace]
  exact ⟨halone, h.shown.grown h.wf rfl rfl rfl (by simp [hcall]) hspot hsize haligned hinst hzero
    hqueued hown, rfl, h.locked, h.wf.grown hvacant⟩

/-- What a `tm_free` leaves: one segment less for the reference, still there in the region. -/
theorem Simulates.freeReturned {t : Tx V}
    (h : Simulates platform tm r (.returning (.free true) (some t))) (halone : tm.Alone (.live t)) :
    ∃ call answer region, r.call = some call ∧ r.region.run call = .next (answer, region) ∧
      r.Agree (.free true) answer ∧
      Simulates platform tm ⟨region, r.place (.free true) answer, none⟩ (.live t) := by
  obtain ⟨b, hb, hcall⟩ := h.serves
  let region : Reference.Region V := { r.region with
    allocs := r.region.allocs.erase b
    segment := Function.update r.region.segment b none }
  have hrun : r.region.run (.free ⟨b, 0⟩) = .next (.free true, region) := by
    simp only [Reference.Region.run, Reference.tmFree, hb, and_self, if_true, region]
  have hlive : ∀ {b'}, region.segment b' ≠ none → b' ≠ b ∧ r.region.segment b' ≠ none := by
    intro b' hn
    have hne : b' ≠ b := by
      rintro rfl
      exact hn (Function.update_self _ _ _)
    exact ⟨hne, Function.update_of_ne hne none r.region.segment ▸ hn⟩
  have hsegment : ∀ {b'}, b' ≠ b → region.segment b' = r.region.segment b' :=
    fun hne => Function.update_of_ne hne _ _
  refine ⟨_, _, region, hcall, hrun, ⟨rfl, rfl⟩, halone,
    ⟨h.shown.align, fun x b' n hx hn => ?_, fun x b' hx hn => ?_⟩, rfl, h.locked, ?_⟩
  · have hn : region.segment b' = some n := hn
    have hne : b' ≠ b := (hlive (by rw [hn]; exact Option.some_ne_none n)).1
    exact h.shown.memory x b' n hx ((hsegment hne).symm.trans hn)
  · obtain ⟨hne, hn⟩ := hlive hn
    obtain ⟨hqueued, hown⟩ := h.shown.unfreed x b' hx hn
    refine ⟨hqueued, fun t' ht' hmem => ?_⟩
    -- only the segment of this very call was on the list of the transaction
    have hfree := hown t' ht' hmem
    rw [hcall] at hfree
    cases hfree
    exact absurd rfl hne
  · have hstart : r.region.start ≠ b := fun heq => h.wf.start.2 (heq ▸ hb)
    refine ⟨h.wf.first, ⟨?_, fun hmem => h.wf.start.2 (List.mem_of_mem_erase hmem)⟩,
      fun x x' b' hx hx' hn => h.wf.injective x x' b' hx hx' (hlive hn).2,
      fun b' hn => h.wf.placed b' (hlive hn).2, fun b' hmem => ?_, h.wf.nodup.erase b,
      fun b' hn => h.wf.segment_lt b' (hlive hn).2, h.wf.block_lt⟩
    · rw [hsegment hstart]
      exact h.wf.start.1
    · obtain ⟨hne, hmem⟩ := h.wf.nodup.mem_erase_iff.mp hmem
      rw [hsegment hne]
      exact h.wf.listed b' hmem

/-- **Every answer** is that of the reference, which has then made its step. -/
theorem Simulates.returned {ret : Ret V} (h : Simulates platform tm r thread)
    (hfacts : SoloFacts platform tm thread) (hanswers : thread.Answers)
    (hmalloc : ∀ i, choice.mallocOk i = true)
    (hmove : ThreadMove platform tm choice thread (.ret ret) thread') :
    ∃ call answer region, r.call = some call ∧ r.region.run call = .next (answer, region) ∧
      r.Agree ret answer ∧ Simulates platform tm ⟨region, r.place ret answer, none⟩ thread' := by
  have halone : tm.Alone thread' := h.alone.step hmalloc hanswers hfacts.mode h.serves hmove
  have hshown : ∀ {region}, region.align = r.region.align → region.segment = r.region.segment →
      region.word = (thread.reached r).word → thread'.pending = thread.pending →
      (∀ t, thread'.tx = some t → thread.tx = some t) →
      (thread'.reached ⟨region, r.block, none⟩).word = region.word →
      (∀ b, r.call ≠ some (.free ⟨b, 0⟩)) → Mirror.Shown ⟨region, r.block, none⟩ tm thread' :=
    fun halign hsegment hword hpending htx hreached hcall =>
      h.shown.move rfl halign hsegment (hreached.trans hword) hpending htx hcall
  rcases hmove.of_ret rfl with ⟨t, rfl, rfl⟩ | ⟨rfl, rfl⟩
  · cases ret with
    | begin valid =>
        cases valid with
        | false => exact h.serves.elim
        | true =>
            have hcall : r.call = some (.begin t.isRo) := h.serves
            obtain ⟨hreaders, hwriter⟩ := h.locked
            cases hro : t.isRo with
            | true =>
                have hrun : r.region.run (.begin true) =
                    .next (.begin true, { r.region with readers := r.region.readers + 1 }) := by
                  simp [Reference.Region.run, Reference.tmBegin, hwriter]
                refine ⟨_, _, _, hro ▸ hcall, hrun, ⟨rfl, rfl⟩, halone,
                  hshown rfl rfl rfl rfl (fun _ => id) rfl (by simp [hcall]), rfl, ?_,
                  h.wf.move rfl rfl rfl rfl rfl⟩
                exact ⟨by simp [hro, hreaders], by simp [hro, hwriter]⟩
            | false =>
                have hrun : r.region.run (.begin false) =
                    .next (.begin true, { r.region with writer := true }) := by
                  simp [Reference.Region.run, Reference.tmBegin, hwriter, hreaders]
                refine ⟨_, _, _, hro ▸ hcall, hrun, ⟨rfl, rfl⟩, halone,
                  hshown rfl rfl rfl rfl (fun _ => id) rfl (by simp [hcall]), rfl, ?_,
                  h.wf.move rfl rfl rfl rfl rfl⟩
                exact ⟨by simp [hro, hreaders], by simp [hro]⟩
    | read result =>
        cases result with
        | none => exact h.serves.elim
        | some target =>
            obtain ⟨p, size, hcall, hbounds, htarget⟩ := h.serves
            have hrun : r.region.run (.read p size) =
                .next (.read true (r.region.load p (size / r.region.align)), r.region) := by
              simp [Reference.Region.run, Reference.tmRead, hbounds]
            exact ⟨_, _, _, hcall, hrun, ⟨congrArg some htarget, rfl⟩, halone,
              hshown rfl rfl rfl rfl (fun _ => id) rfl (by simp [hcall]), rfl, h.locked,
              h.wf.move rfl rfl rfl rfl rfl⟩
    | write ok =>
        cases ok with
        | false => exact h.serves.elim
        | true =>
            obtain ⟨source, size, p, hcall, hbounds, hlength⟩ := h.serves
            have hrun : r.region.run (.write source size p) =
                .next (.write true, r.region.store p source) := by
              simp [Reference.Region.run, Reference.tmWrite, hbounds, ← hlength]
            have hreached : (r.region.store p source).word =
                ((Thread.returning (.write true) (some t)).reached r).word := by
              simp only [Thread.reached, hcall]
            exact ⟨_, _, _, hcall, hrun, ⟨rfl, rfl⟩, halone,
              hshown rfl rfl hreached rfl (fun _ => id) rfl (by simp [hcall]), rfl, h.locked,
              h.wf.move rfl rfl rfl rfl rfl⟩
    | alloc result =>
        cases result with
        | nomem => exact h.serves.elim
        | success target => exact h.allocReturned hfacts.align_dvd hfacts.align_pos halone
    | free ok =>
        cases ok with
        | false => exact h.serves.elim
        | true => exact h.freeReturned halone
    | finish committed => cases committed <;> exact h.serves.elim
  · cases ret with
    | finish committed =>
        cases committed with
        | false => exact h.serves.elim
        | true =>
            obtain ⟨isRo, hcall, hreaders, hwriter⟩ := h.locked
            cases isRo with
            | true =>
                refine ⟨_, _, _, hcall, rfl, ⟨rfl, rfl⟩, halone,
                  hshown rfl rfl rfl rfl (fun _ => id) rfl (by simp [hcall]), rfl, ?_,
                  h.wf.move rfl rfl rfl rfl rfl⟩
                exact ⟨by simp [Reference.tmEnd, hreaders], by simp [Reference.tmEnd, hwriter]⟩
            | false =>
                refine ⟨_, _, _, hcall, rfl, ⟨rfl, rfl⟩, halone,
                  hshown rfl rfl rfl rfl (fun _ => id) rfl (by simp [hcall]), rfl, ?_,
                  h.wf.move rfl rfl rfl rfl rfl⟩
                exact ⟨by simp [Reference.tmEnd, hreaders], by simp [Reference.tmEnd]⟩
    | begin valid => cases valid <;> exact h.serves.elim
    | read result => cases result <;> exact h.serves.elim
    | write ok | free ok => cases ok <;> exact h.serves.elim
    | alloc result => cases result <;> exact h.serves.elim

end TransactionalMemory
