import TransactionalMemory.Proof.Sequential

/-!
# The one thread that moves

In a sequential history all threads but one are idle, and what the invariants of all interleavings
say about the region then speaks of that thread only: every lock that it does not hold is free and
no newer than the clock.
-/

namespace TransactionalMemory

open Concurrency

variable {V Tid : Type}

def Thread.buffered : Thread V → Option (Tx V)
  | .live t | .allocating t _ _ | .freeing t _ | .reading t _ _ | .writing t _ _ => some t
  | .returning _ t => t
  | .ending t pc => if pc.deciding then some t else none
  | _ => none

theorem Thread.view_of_buffered {thread : Thread V} {t : Tx V} (h : thread.buffered = some t)
    (log : TxLog V) : ∃ view, thread.view log = some (t, view) := by
  cases thread with
  | returning r t' =>
      obtain rfl : t' = some t := h
      exact ⟨_, rfl⟩
  | ending t' pc =>
      have hif : (if pc.deciding then some t' else none) = some t := h
      by_cases hpc : pc.deciding = true
      · rw [if_pos hpc] at hif
        obtain rfl := Option.some.inj hif
        exact ⟨log.entries, by rw [view, if_pos hpc]⟩
      · rw [if_neg hpc] at hif
        cases hif
  | live | allocating | freeing | reading | writing =>
      obtain rfl := Option.some.inj h
      exact ⟨_, rfl⟩
  | _ => cases h

def Tm.Spotted (tm : Tm V) (spot : Int) : Prop :=
  ∃ (n : Nat) (g : SegId) (seg : Segment), spot = n ∧ tm.InstalledAt n g seg

theorem spotted_of_refers {tm : Tm V} {spots : List Int} {freed : List (Option SegId)}
    (h : List.Forall₂ tm.Refers spots freed) : ∀ spot ∈ spots, tm.Spotted spot := by
  induction h with
  | nil => simp
  | cons hrefers _ ih =>
      obtain ⟨n, g, seg, hspot, -, hinst⟩ := hrefers
      intro spot hmem
      rcases List.mem_cons.mp hmem with rfl | hmem
      · exact ⟨n, g, seg, hspot, hinst⟩
      · exact ih spot hmem

/-- What holds of the region and of the only thread that is not idle. -/
structure SoloFacts [Zero V] (platform : Platform V) (tm : Tm V) (thread : Thread V) : Prop where
  table : tm.TableInv
  align_pos : 0 < tm.align
  align_dvd : 8 ∣ tm.align
  clock_nonneg : 0 ≤ tm.globalVersion
  clock_lt : tm.globalVersion < 2 ^ 30
  lock : ∀ w, w ∉ thread.held →
    ∃ v : Nat, tm.lock w = lockWord v false ∧ (v : Int) ≤ tm.globalVersion
  mode : thread.Mode
  wf : thread.Wf
  buffers : ∀ t, thread.buffered = some t → t.isRo = false → ∃ view, t.Buffers tm platform.bit view
  committed : ∀ wv writes written, thread.stage = .committed wv writes written →
    (writes.map Prod.fst).Nodup
  pointers : thread.holds = true → ∀ t w, thread.tx = some t → t.Points w → tm.valid w = true
  own : thread.holds = true → ∀ t, thread.tx = some t → ∀ spot ∈ t.toFree, tm.Spotted spot
  queued : ∀ spot ∈ tm.toFree, tm.Spotted spot ∨
    ∃ n : Nat, spot = n ∧ tm.vaArr n = .null ∧ thread.drains = true
  unopened : ∀ w, tm.Unopened w.seg → tm.data w = 0
  building : ∀ g state, thread.building = some (g, state) →
    ∃ seg, tm.segment g = some seg ∧ seg.state = state
  claim_lt : ∀ spot, thread.claim = some spot → spot < tm.vaN
  vacant : ∀ spot, thread.vacant = some spot → ∀ g, tm.vaArr spot ≠ .segment g
  facts : ∀ pc, thread.allocPc = some pc → pc.Facts tm
  node : ∀ n, thread.node = some n → tm.node n ≠ none
  head : ∀ n, tm.emptySpots = some n → tm.node n ≠ none

variable [Zero V] [DecidableEq Tid] {platform : Platform V} {s s' : State Tid V} {l : Label Tid V}
  {tid : Tid}

theorem soloFacts (hbit : ∀ pos, platform.bit pos ≠ 0#64)
    (h : ((system Tid platform).restrict SequentialOk).Reachable s) (hsolo : Solo s tid) :
    SoloFacts platform s.tm (s.thread tid) := by
  have hsystem := h.of_restrict
  have hfailures : ((system Tid platform).restrict NoFailure).Reachable s :=
    h.restrict_le fun _ _ hok => hok.2.1.1
  have hfreed :
    ((system Tid platform).restrict fun s l => NoFailure s l ∧ FreesInstalled s l).Reachable
      s := h.restrict_le fun _ _ hok => ⟨hok.2.1.1, hok.2.2⟩
  obtain ⟨store, hstore⟩ := h.exists_observe (Store.start fun _ => 0) recordStore
  obtain ⟨hist, hhist⟩ := h.exists_observe (History.start Tid V) recordHistory
  obtain ⟨gens, hgens⟩ := hfreed.exists_observe ⟨fun _ => none, fun _ => [], [], [], [], []⟩
    recordGenerations
  have hw : WordsInv s store := wordsInv (fun _ _ hok => hok.1) hstore
  have hsets : SetsInv platform s hist := setsInv (fun _ _ hok => hok.2.1) hbit hhist
  have hkept : GenerationsInv s gens := generationsInv hgens
  obtain ⟨cells, hspots⟩ := spotsInv (fun _ _ hreach _ => pushesAlone_of_noFailure hreach) hfailures
  have hentries : EntriesInv s := entriesInv (fun _ _ hok => hok.2)
    (fun _ _ hreach _ => pushesAlone_of_noFailure hreach) hfailures
  have hclock := hw.clock
  have hbound := hw.bound
  obtain ⟨hpos, hdvd⟩ := align_pos_dvd hsystem
  refine ⟨tableInv hsystem, hpos, hdvd, by omega, by omega, fun w hw' => ?_, threadMode hsystem tid,
    threadWf hsystem tid, fun t ht hrw => ?_, fun wv writes written hstage => ?_,
    fun hholds t w ht hpoints => ?_, fun hholds t ht => ?_, fun spot hmem => ?_,
    fun w hunopened => ?_, fun g state => (segmentsInv hsystem).building tid g state,
    fun spot => hspots.circulation.claim_lt tid spot, fun spot => hentries.vacant tid spot,
    fun pc => hspots.facts tid pc, fun n => hspots.node_ne tid n, fun n hn => ?_⟩
  · have howner : store.owner w = none := by
      by_contra howned
      obtain ⟨u, hu⟩ := Option.ne_none_iff_exists'.mp howned
      have hheld := (hw.held w u).mp hu
      by_cases heq : u = tid
      · exact hw' (heq ▸ hheld)
      · rw [hsolo u heq] at hheld
        cases hheld
    refine ⟨store.version w, by rw [hw.lock w, howner]; rfl, ?_⟩
    have := hw.inv.version_le w
    omega
  · obtain ⟨view, hview⟩ := Thread.view_of_buffered ht (hist.current tid)
    exact ⟨view, (hsets.buffered tid).sets t view hview hrw⟩
  · have hagrees := hw.stage tid
    rw [hstage] at hagrees
    obtain ⟨c, -, -, -, hnodup, -⟩ := hagrees
    exact hnodup
  · exact (((pointersInv hfailures) tid hholds).1 t w ht hpoints).1
  · exact spotted_of_refers (hkept.own tid t hholds ht)
  · obtain ⟨i, hi⟩ := List.getElem?_of_mem hmem
    obtain ⟨freed, -, hrefers | ⟨⟨n, g, hspot, -, -, -, hnull⟩, u, hdrains⟩⟩ :=
      forall₂_getElem? hkept.queued hi
    · obtain ⟨n, g, seg, hspot, -, hinst⟩ := hrefers
      exact Or.inl ⟨n, g, seg, hspot, hinst⟩
    · have hu : u = tid := by
        by_contra heq
        rw [hsolo u heq] at hdrains
        cases hdrains
      exact Or.inr ⟨n, hspot, hnull, hu ▸ hdrains⟩
  · rw [hw.data w]
    exact (hw.unopened w hunopened).2.2
  · have hlinked := hspots.linked
    rw [hn] at hlinked
    cases hlinked with
    | cons hcell _ => simp [hcell]

end TransactionalMemory
