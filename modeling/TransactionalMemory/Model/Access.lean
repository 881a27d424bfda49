import TransactionalMemory.Model.Thread

/-!
# `tm_read`, `ro_transaction_read` and `tm_write`

The three ways to a word. The read-write path narrows the byte offset to `int` before it divides by
the alignment, the other two divide first.
-/

namespace TransactionalMemory

variable {V : Type} [Zero V] (platform : Platform V) (tm : Tm V) (choice : Choice V)

def tmReadCall (s : SegId) (source : Addr) (size : Nat) : Option ReadCall :=
  let align := toInt tm.align
  if align = 0 then none
  else some {
    seg := s
    source := source
    align := align
    numWords := toInt (size / toSizeT align : Nat)
    startWord := (toInt (offsetFromVa source)).tdiv align }

def ReadCall.curr (c : ReadCall) (i : Nat) : Option Addr :=
  (checkedInt (i * c.align)).map fun offset => c.source + BitVec.ofInt 64 offset

/-- The word that `tm_read` copies from: its byte offset is computed as an `int`. -/
def ReadCall.wordAt (c : ReadCall) (i : Nat) : Option Word :=
  if checkedInt ((c.startWord + i) * c.align) = none then none
  else tm.wordAt c.seg (c.startWord + i)

def tmReadStep (t : Tx V) (c : ReadCall) : ReadPc V → Move V
  | .word i target =>
      if (i : Int) < c.numWords then
        match c.curr i with
        | none => .crash
        | some curr =>
            match t.lookup platform.bit curr with
            | some item =>
                .op (.ownWord item.value) (.reading t c (.word (i + 1) (target ++ [item.value])))
            | none => .op .tau (.reading t c (.load i target))
      else .op .tau (.returning (.read (some target)) (some t))
  | .load i target =>
      match tm.wordAt c.seg (c.startWord + i) with
      | none => .crash
      | some w =>
          let read := vlReadVersion (tm.lock w)
          if read = -1 ∨ t.rv < read then .op (.loadLock w (tm.lock w)) (.aborting t (.read none))
          else .op (.loadLock w (tm.lock w)) (.reading t c (.copy i read target))
  | .copy i versionRead target =>
      match c.wordAt tm i with
      | none => .crash
      | some w => .op (.copyOut w (tm.data w))
          (.reading t c (.recheck i versionRead (tm.data w) target))
  | .recheck i versionRead x target =>
      match tm.wordAt c.seg (c.startWord + i) with
      | none => .crash
      | some w =>
          if vlReadVersion (tm.lock w) ≠ versionRead then
            .op (.loadLock w (tm.lock w)) (.aborting t (.read none))
          else
            -- the result of `add_to_readset` is ignored here
            match t.addToReadset w versionRead (choice.mallocOk 0) with
            | .next (_, t') =>
                .op (.loadLock w (tm.lock w)) (.reading t' c (.word (i + 1) (target ++ [x])))
            | _ => .crash

/-- The locals of `ro_transaction_read` when its first loop starts; `none` where the assertion
fails. -/
def roTransactionReadCall (s : SegId) (source : Addr) (size : Nat) : Option RoCall :=
  let numWords := toInt (size / tm.align : Nat)
  if 0 < numWords then
    some {
      seg := s
      startIdx := toInt (offsetFromVa source / tm.align : Nat)
      numWords := numWords
      firstWord := offsetFromVa source / tm.align
      words := size / tm.align }
  else none

/-- The end of one turn of the post-validation loop. -/
def roRecord (t : Tx V) (c : RoCall) (w : Word) (i : Nat) (versionRead : Int) (prev : List Int)
    (target : List (Option V)) (o : Op V) : Move V :=
  match t.addToReadset w versionRead (choice.mallocOk 0) with
  | .next (true, t') => .op o (.roReading t' c (.post (i + 1) prev target))
  | .next (false, t') => .op o (.aborting t' (.read none))
  | _ => .crash

def roTransactionReadStep (t : Tx V) (c : RoCall) : RoPc V → Move V
  | .pre i prev =>
      if (i : Int) < c.numWords then
        match tm.wordAt c.seg (c.startIdx + i) with
        | none => .crash
        | some w =>
            let read := vlReadVersion (tm.lock w)
            if read = -1 then .op (.loadLock w (tm.lock w)) (.aborting t (.read none))
            else .op (.loadLock w (tm.lock w)) (.roReading t c (.pre (i + 1) (prev ++ [read])))
      else .op .tau (.roReading t c (.copy prev (List.replicate c.words none)))
  | .copy prev target =>
      if target.all Option.isSome then .op .tau (.roReading t c (.post 0 prev target))
      else
        match target[choice.word]? with
        | some none =>
            let w : Word := ⟨c.seg, c.firstWord + choice.word⟩
            .op (.copyOut w (tm.data w))
              (.roReading t c (.copy prev (target.set choice.word (some (tm.data w)))))
        | _ => .blocked
  | .post i prev target =>
      if (i : Int) < c.numWords then
        match tm.wordAt c.seg (c.startIdx + i) with
        | none => .crash
        | some w =>
            let read := vlReadVersion (tm.lock w)
            if prev[i]? ≠ some read then .op (.loadLock w (tm.lock w)) (.aborting t (.read none))
            else if t.rv < read then
              .op (.loadLock w (tm.lock w)) (.roReading t c (.loadClock i read prev target))
            else roRecord choice t c w i read prev target (.loadLock w (tm.lock w))
      else .op .tau (.returning (.read (some target.reduceOption)) (some t))
  | .loadClock i versionRead prev target =>
      .op (.loadClock tm.globalVersion)
        (.roReading t c (.revalidate i 0 versionRead tm.globalVersion prev target))
  | .revalidate i k versionRead nextRv prev target =>
      match t.rs with
      | none => .crash
      | some rs =>
          match rs[k]? with
          | some ⟨_, none⟩ => .crash
          | some ⟨recorded, some w⟩ =>
              if tm.valid w then
                if vlReadVersion (tm.lock w) ≠ recorded then
                  .op (.loadLock w (tm.lock w)) (.aborting t (.read none))
                else
                  .op (.loadLock w (tm.lock w))
                    (.roReading t c (.revalidate i (k + 1) versionRead nextRv prev target))
              else .crash
          | none =>
              match tm.wordAt c.seg (c.startIdx + i) with
              | none => .crash
              | some w =>
                  roRecord choice { t with rv := nextRv } c w i versionRead prev target .tau

def tmWriteCall (s : SegId) (source : List V) (size : Nat) (target : Addr) : WriteCall V where
  seg := s
  source := source
  target := target
  idxStart := toInt (offsetFromVa target / tm.align : Nat)
  numWords := toInt (size / tm.align : Nat)

def WriteCall.curr (c : WriteCall V) (i : Nat) : Addr := c.target + BitVec.ofNat 64 (i * tm.align)

/-- `tm_write`, at turn `i` of its loop. -/
def tmWriteStep (t : Tx V) (c : WriteCall V) (i : Nat) : Move V :=
  if (i : Int) < c.numWords then
    match tm.wordAt c.seg (c.idxStart + i) with
    | none => .crash
    | some w =>
        let read := vlReadVersion (tm.lock w)
        if read = -1 ∨ t.rv < read then .op (.loadLock w (tm.lock w)) (.aborting t (.write false))
        else
          match c.source[i]? with
          | none => .crash
          | some x =>
              match t.lookup platform.bit (c.curr tm i) with
              | some _ =>
                  .op (.loadLock w (tm.lock w))
                    (.writing { t with ws := Tx.overwrite t.ws (c.curr tm i) x } c (i + 1))
              | none =>
                  match t.append platform.bit (c.curr tm i) x w (choice.mallocOk 0)
                      (choice.mallocOk 1) with
                  | .next (some t') => .op (.loadLock w (tm.lock w)) (.writing t' c (i + 1))
                  | .next none => .op (.loadLock w (tm.lock w)) (.aborting t (.write false))
                  | _ => .crash
  else .op .tau (.returning (.write true) (some t))

end TransactionalMemory
