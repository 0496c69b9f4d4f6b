import LinearNats.Run
import LinearNats.Table

/-! The batches a stream has registered (`type batching` in server/jetstream_batching.go) and their
inactivity timers. A timer can fire at any moment; its callback then waits for the lock. What is
sent to the publishers is left out. -/
namespace LinearNats.Batching
open List Table

/-- A `time.Timer` of `time.AfterFunc`, and how many of its callbacks wait for the lock. -/
structure Timer where
  armed : Bool
  waiting : Nat
  deriving DecidableEq

namespace Timer

def new : Timer := ⟨true, 0⟩

def stop (t : Timer) : Timer × Bool := ({ t with armed := false }, t.armed)
def reset (t : Timer) : Timer × Bool := ({ t with armed := true }, t.armed)

def fire (t : Timer) : Timer := if t.armed then ⟨false, t.waiting + 1⟩ else t

def Alive (t : Timer) : Prop := t.armed ∨ 0 < t.waiting

instance (t : Timer) : Decidable t.Alive := inferInstanceAs (Decidable (_ ∨ _))

end Timer

/-- A batch that is no longer registered has no timer. -/
structure AtomicBatch where
  timer : Option Timer
  lseq : Nat
  deriving DecidableEq

structure FastBatch where
  timer : Option Timer
  lseq : Nat
  pseq : Nat
  fseq : Nat
  pending : Nat
  ackMessages : Nat
  maxAckMessages : Nat
  gapOk : Bool
  commit : Bool
  deriving DecidableEq

/-- The two tables, and what this stream has added to the two global counters. -/
structure Batches where
  atomic : List (String × AtomicBatch)
  fast : List (String × FastBatch)
  inflightAtomic : Int
  inflightFast : Int
  deriving DecidableEq

/-- `type FastBatch`: what the reply subject of a message says about its batch. -/
structure FastMsg where
  id : String
  seq : Nat
  flow : Nat
  ping : Bool
  gapOk : Bool
  commit : Bool
  commitEob : Bool
  deriving DecidableEq

inductive Check
  | pass
  | duplicate
  | fail
  deriving DecidableEq

/-- The limits on inflight batches, and how many other streams have. -/
structure Limits where
  perStream : Nat
  total : Nat
  elsewhere : Nat
  deriving DecidableEq

namespace Batches

/-! ### Fast batches -/

def cleanupFast (s : Batches) (id : String) (b : FastBatch) : Batches × FastBatch :=
  match b.timer with
  | none => (s, b)
  | some _ =>
    ({ s with fast := Table.erase s.fast id, inflightFast := s.inflightFast - 1 },
      { b with timer := none })

def putFast (s : Batches) (id : String) (b : FastBatch) : Batches :=
  if b.timer.isSome then { s with fast := Table.set s.fast id b } else s

def initialAck (registered maxAckMessages : Nat) : Nat :=
  if 1 < registered then 1 else min 500 maxAckMessages

def newFastBatch (s : Batches) (id : String) (gapOk : Bool) (maxAckMessages : Nat) :
    Batches × FastBatch :=
  -- It is registered first, and so counts itself.
  let registered := (Table.erase s.fast id).length + 1
  let b : FastBatch :=
    ⟨some .new, 0, 0, 0, 0, initialAck registered maxAckMessages, maxAckMessages, gapOk, false⟩
  ({ s with fast := Table.set s.fast id b }, b)

def resetCleanupTimer (b : FastBatch) : FastBatch × Bool :=
  if b.commit then (b, true)
  else match b.timer with
    | none => (b, false)
    | some t => ({ b with timer := some t.reset.1 }, t.reset.2)

def rampAck (registered ackMessages limit : Nat) : Nat :=
  let maxAckMessages := min (max (500 / registered) 1) limit
  if ackMessages < maxAckMessages then min (ackMessages * 2) maxAckMessages
  else if maxAckMessages < ackMessages then max (ackMessages / 2) maxAckMessages
  else ackMessages

def checkFlowControl (s : Batches) (b : FastBatch) : FastBatch :=
  if b.pseq < (b.fseq + b.ackMessages) % 2 ^ 64 then b
  else { b with
    fseq := b.fseq + (b.pseq - b.fseq) / b.ackMessages * b.ackMessages
    ackMessages := rampAck s.fast.length b.ackMessages b.maxAckMessages }

/-- The last value tells that the batch is finished. -/
def fastBatchCommit (s : Batches) (id : String) (b : FastBatch) : Batches × FastBatch × Bool :=
  match b.timer with
  | none => (s, b, true)
  | some t =>
    if b.commit = false ∧ t.stop.2 = false then (s, { b with timer := some t.stop.1 }, true)
    else
      let b := { b with timer := some (if b.commit then t else t.stop.1), commit := true }
      if b.lseq = b.pseq then
        let (s, b) := s.cleanupFast id b
        (s, b, true)
      else (s, b, false)

/-- The batch ends here; it is cleaned up if everything is persisted. -/
def endFast (s : Batches) (id : String) (b : FastBatch) : Batches :=
  match s.fastBatchCommit id b with
  | (s, b, true) =>
    let (s, b) := s.cleanupFast id b
    s.putFast id b
  | (s, b, false) => s.putFast id b

def proposeFast (s : Batches) (m : FastMsg) (check : Check) (b : FastBatch) : Batches :=
  if check = .pass then s.putFast m.id { b with pending := b.pending + 1 }
  else
    let b :=
      if check = .duplicate ∧ b.pending = 0 then s.checkFlowControl { b with pseq := m.seq } else b
    if check = .duplicate ∧ m.commit = false then s.putFast m.id b
    else if m.gapOk = false ∧ b.lseq = 1 then
      let (s, b) := s.cleanupFast m.id b
      s.putFast m.id b
    else if m.gapOk then s.putFast m.id b
    else s.endFast m.id (if check = .duplicate then b else { b with lseq := b.lseq - 1 })

/-- `fires`: the timer fires while the message is worked on. -/
def midway (fires : Bool) (b : FastBatch) : FastBatch :=
  if fires then { b with timer := b.timer.map Timer.fire } else b

def acceptFast (s : Batches) (m : FastMsg) (check : Check) (fires : Bool) (b : FastBatch) :
    Batches :=
  if m.commit then
    if m.commitEob then
      s.endFast m.id (midway fires
        { b with
          lseq := b.lseq - 1
          pseq := if b.pending = 0 then b.lseq - 1 else b.pseq })
    else
      let (s, b, _) := s.fastBatchCommit m.id (midway fires b)
      s.proposeFast m check b
  else s.proposeFast m check (midway fires b)

def pingFast (s : Batches) (m : FastMsg) (fires cleanup : Bool) (b : FastBatch) : Batches :=
  if b.lseq < m.seq ∨ cleanup then
    if b.gapOk ∧ cleanup = false then
      s.putFast m.id (s.checkFlowControl
        { b with lseq := m.seq, pseq := if b.pending = 0 then m.seq else b.pseq })
    else s.endFast m.id (midway fires b)
  else s.putFast m.id b

/-- A message of a registered batch. `apiLevel`: the message requires more than the server has. -/
def onFast (s : Batches) (m : FastMsg) (apiLevel : Bool) (check : Check) (fires : Bool)
    (b : FastBatch) : Batches :=
  if apiLevel then
    let (s, b) := s.cleanupFast m.id b
    s.putFast m.id b
  else
    let (b, live) := resetCleanupTimer b
    if m.ping then s.pingFast m fires (!live) b
    else if b.commit then s.putFast m.id b
    else if b.lseq + 1 ≠ m.seq ∨ live = false then
      if b.gapOk ∧ live ∧ b.lseq + 1 < m.seq then
        s.acceptFast m check fires { b with lseq := m.seq }
      else s.endFast m.id (midway fires b)
    else s.acceptFast m check fires { b with lseq := b.lseq + 1 }

def processFast (s : Batches) (limits : Limits) (m : FastMsg) (apiLevel : Bool) (check : Check)
    (fires : Bool) : Batches :=
  match Table.get s.fast m.id with
  | some b => s.onFast m apiLevel check fires b
  | none =>
    if m.seq ≠ 1 then s
    else if limits.perStream < s.fast.length + 1 then s
    else if limits.total < s.inflightFast + 1 + limits.elsewhere then s
    else
      let (s, b) := { s with inflightFast := s.inflightFast + 1 }.newFastBatch m.id m.gapOk m.flow
      s.onFast m apiLevel check fires b

/-- A message of a batch was persisted. The flag says that its own PubAck is to be sent. -/
def fastBatchRegisterSequences (s : Batches) (isLeader : Bool) (m : FastMsg) : Batches × Bool :=
  match Table.get s.fast m.id, isLeader with
  | some b, true =>
    let b := { b with pending := b.pending - 1 }
    let b := { b with pseq := if b.pending = 0 then b.lseq else m.seq }
    if b.lseq = b.pseq ∧ b.commit then
      let skipped := b.pending = 0
      let (s, b) := s.cleanupFast m.id b
      (s.putFast m.id b, !skipped)
    else (s.putFast m.id (s.checkFlowControl b), false)
  | some b, false =>
    if m.commit then
      let (s, b) := s.cleanupFast m.id b
      (s.putFast m.id b, false)
    else
      match resetCleanupTimer b with
      | (b, true) => (s.putFast m.id { b with pseq := m.seq, lseq := m.seq }, false)
      | (_, false) =>
        -- The timer has fired: the batch is written over and its callback finds no timer.
        let (s, b) := s.newFastBatch m.id m.gapOk m.flow
        (s.putFast m.id { b with pseq := m.seq, lseq := m.seq }, false)
  | none, _ =>
    if m.commit then (s, false)
    else
      let (s, b) := { s with inflightFast := s.inflightFast + 1 }.newFastBatch m.id m.gapOk m.flow
      (s.putFast m.id { b with pseq := m.seq, lseq := m.seq }, false)

def fastBatchReset (s : Batches) (id : String) (b : FastBatch) : Batches :=
  match b.timer with
  | none => (s.cleanupFast id b).1
  | some t =>
    if b.commit = false ∧ t.stop.2 = false then (s.cleanupFast id b).1
    else s.putFast id
      { b with
        timer := some ⟨true, t.waiting⟩
        ackMessages := initialAck s.fast.length b.maxAckMessages
        commit := false
        pending := 0
        fseq := b.pseq
        lseq := b.pseq }

/-! ### Atomic batches -/

def cleanupAtomic (s : Batches) (id : String) (b : AtomicBatch) : Batches :=
  match b.timer with
  | none => s
  | some _ => { s with atomic := Table.erase s.atomic id, inflightAtomic := s.inflightAtomic - 1 }

end Batches

inductive CommitHeader
  | absent
  | commit
  | eob
  | unknown
  deriving DecidableEq

/-- A message of an atomic batch. `apiLevel` as above; `opens`, `stores` and `flushes` tell whether
its store can be made, takes the message, and writes out what it holds; `file` is the kind of that
store. -/
structure AtomicMsg where
  id : String
  seq : Nat
  commit : CommitHeader
  apiLevel : Bool
  file : Bool
  opens : Bool
  stores : Bool
  flushes : Bool
  fires : Bool
  deriving DecidableEq

namespace Batches

def commitAtomic (s : Batches) (m : AtomicMsg) (b : AtomicBatch) (t : Timer) : Batches :=
  let t := if m.fires then t.fire else t
  -- `readyForCommit`; on failure there is no cleanup
  if t.stop.2 = false ∨ m.flushes = false then
    { s with atomic := Table.set s.atomic m.id { b with timer := some t.stop.1 } }
  else s.cleanupAtomic m.id b

def onAtomic (s : Batches) (maxSize : Nat) (m : AtomicMsg) (b : AtomicBatch) : Batches :=
  match b.timer with
  | none => s
  | some t =>
    let commit := m.commit = .commit ∨ m.commit = .eob
    if m.commit = .unknown then s.cleanupAtomic m.id b
    else if m.apiLevel then s.cleanupAtomic m.id b
    else if b.lseq + 1 ≠ m.seq ∨ t.reset.2 = false ∨ (m.seq = 1 ∧ m.commit = .eob) then
      s.cleanupAtomic m.id b
    else if maxSize < m.seq then s.cleanupAtomic m.id b
    else if (¬ commit ∨ m.file) ∧ m.stores = false then s.cleanupAtomic m.id b
    else
      let b : AtomicBatch := ⟨some t.reset.1, b.lseq + 1⟩
      if ¬ commit then { s with atomic := Table.set s.atomic m.id b }
      else s.commitAtomic m b t.reset.1

/-- `processJetStreamAtomicBatchMsg`, once it holds the lock of the batches. A batch that is
committed is cleaned up, also when its checks fail. -/
def processAtomic (s : Batches) (limits : Limits) (maxSize : Nat) (m : AtomicMsg) : Batches :=
  match Table.get s.atomic m.id with
  | some b => s.onAtomic maxSize m b
  | none =>
    if m.seq ≠ 1 then s
    else if limits.perStream < s.atomic.length + 1 then s
    else if limits.total < s.inflightAtomic + 1 + limits.elsewhere then s
    else if m.opens = false then s
    else
      let b : AtomicBatch := ⟨some .new, 0⟩
      { s with
        atomic := Table.set s.atomic m.id b
        inflightAtomic := s.inflightAtomic + 1 }.onAtomic maxSize m b

end Batches

inductive BatchOp
  | fast (limits : Limits) (m : FastMsg) (apiLevel : Bool) (check : Check) (fires : Bool)
  | persisted (isLeader : Bool) (m : FastMsg)
  | reset (id : String)
  | fireFast (id : String)
  | expireFast (id : String)
  | atomic (limits : Limits) (maxSize : Nat) (m : AtomicMsg)
  | fireAtomic (id : String)
  | expireAtomic (id : String)
  deriving DecidableEq

namespace Batches

def fireFast (s : Batches) (id : String) (b : FastBatch) : Batches :=
  s.putFast id { b with timer := b.timer.map Timer.fire }

def expireFast (s : Batches) (id : String) (b : FastBatch) : Batches :=
  match b.timer with
  | some t => if 0 < t.waiting then (s.cleanupFast id b).1 else s
  | none => s

def fireAtomic (s : Batches) (id : String) (b : AtomicBatch) : Batches :=
  { s with atomic := Table.set s.atomic id { b with timer := b.timer.map Timer.fire } }

def expireAtomic (s : Batches) (id : String) (b : AtomicBatch) : Batches :=
  match b.timer with
  | some t => if 0 < t.waiting then s.cleanupAtomic id b else s
  | none => s

def whenRegistered {B : Type} (s : Batches) (found : Option B) (act : B → Batches) : Batches :=
  match found with
  | some b => act b
  | none => s

def step (s : Batches) : BatchOp → Batches
  | .fast limits m apiLevel check fires => s.processFast limits m apiLevel check fires
  | .persisted isLeader m => (s.fastBatchRegisterSequences isLeader m).1
  | .reset id => s.whenRegistered (Table.get s.fast id) (s.fastBatchReset id)
  | .fireFast id => s.whenRegistered (Table.get s.fast id) (s.fireFast id)
  | .expireFast id => s.whenRegistered (Table.get s.fast id) (s.expireFast id)
  | .atomic limits maxSize m => s.processAtomic limits maxSize m
  | .fireAtomic id => s.whenRegistered (Table.get s.atomic id) (s.fireAtomic id)
  | .expireAtomic id => s.whenRegistered (Table.get s.atomic id) (s.expireAtomic id)

def empty : Batches := ⟨[], [], 0, 0⟩

end Batches

/-! ### What is kept -/

namespace FastBatch

def Bounds (b : FastBatch) : Prop := b.fseq ≤ b.pseq ∧ b.pseq ≤ b.lseq

/-- The timer runs, or the commit waits for a message to be persisted. -/
def Held (b : FastBatch) : Prop := ∃ t, b.timer = some t ∧ (t.Alive ∨ b.commit ∧ 0 < b.pending)

structure Kept (b : FastBatch) : Prop where
  bounds : b.Bounds
  held : b.Held

end FastBatch

/-- No batch is orphaned, and the counters are right. -/
structure Accounted (s : Batches) : Prop where
  fast : ∀ id b, Table.get s.fast id = some b → b.Kept
  fastKeys : (s.fast.map Prod.fst).Nodup
  inflightFast : s.inflightFast = s.fast.length
  atomic : ∀ id b, Table.get s.atomic id = some b → ∃ t, b.timer = some t ∧ t.Alive
  atomicKeys : (s.atomic.map Prod.fst).Nodup
  inflightAtomic : s.inflightAtomic = s.atomic.length

/-- The same for all but the fast batch `id`. -/
structure Apart (s : Batches) (id : String) : Prop where
  others : ∀ other c, other ≠ id → Table.get s.fast other = some c → c.Kept
  fastKeys : (s.fast.map Prod.fst).Nodup
  atomic : ∀ id b, Table.get s.atomic id = some b → ∃ t, b.timer = some t ∧ t.Alive
  atomicKeys : (s.atomic.map Prod.fst).Nodup
  inflightAtomic : s.inflightAtomic = s.atomic.length

/-- The batch `id` is worked on as `b`, whatever the table holds for it. -/
structure Working (s : Batches) (id : String) (b : FastBatch) : Prop extends Apart s id where
  inflightFast : s.inflightFast = s.fast.length
  registered : b.timer.isSome = (Table.get s.fast id).isSome

section

variable {s : Batches} {id : String} {b c : FastBatch}

theorem Accounted.apart (accounted : Accounted s) (id : String) : Apart s id where
  others := fun other c _ entry => accounted.fast other c entry
  fastKeys := accounted.fastKeys
  atomic := accounted.atomic
  atomicKeys := accounted.atomicKeys
  inflightAtomic := accounted.inflightAtomic

theorem Accounted.working (accounted : Accounted s) (found : Table.get s.fast id = some b) :
    Working s id b where
  toApart := accounted.apart id
  inflightFast := accounted.inflightFast
  registered := by
    obtain ⟨t, timer, _⟩ := (accounted.fast id b found).held
    rw [timer, found]
    rfl

theorem Working.congr (working : Working s id b) (same : c.timer.isSome = b.timer.isSome) :
    Working s id c :=
  { working with registered := same.trans working.registered }

theorem length_set {V : Type} {t : List (String × V)} (keys : (t.map Prod.fst).Nodup)
    (there : (Table.get t id).isSome) (v : V) : (Table.set t id v).length = t.length := by
  obtain ⟨old, found⟩ := Option.isSome_iff_exists.mp there
  rw [Table.set, length_cons]
  exact length_erase keys found

theorem Working.put (working : Working s id b) (kept : b.timer.isSome → b.Kept) :
    Accounted (s.putFast id b) := by
  rw [Batches.putFast]
  split
  next live =>
    have there : (Table.get s.fast id).isSome := working.registered ▸ live
    refine { working with
      fast := ?_, fastKeys := keys_set working.fastKeys id b, inflightFast := ?_ }
    · intro other c found
      rw [get_set] at found
      split at found
      · cases found
        exact kept live
      next differs => exact working.others other c (fun same => differs same.symm) found
    · show s.inflightFast = ((Table.set s.fast id b).length : Int)
      rw [length_set working.fastKeys there]
      exact working.inflightFast
  next gone =>
    have absent : Table.get s.fast id = none := by
      rw [← Option.not_isSome_iff_eq_none, ← working.registered]
      exact gone
    refine { working with fast := fun other c found => ?_ }
    by_cases same : other = id
    · rw [same, absent] at found
      cases found
    · exact working.others other c same found

theorem Working.cleanup (working : Working s id b) :
    Working (s.cleanupFast id b).1 id (s.cleanupFast id b).2 ∧
      (s.cleanupFast id b).2.timer = none := by
  rw [Batches.cleanupFast]
  cases timer : b.timer with
  | none => exact ⟨working, timer⟩
  | some t =>
    have there : (Table.get s.fast id).isSome := by rw [← working.registered, timer]; rfl
    obtain ⟨old, found⟩ := Option.isSome_iff_exists.mp there
    have shorter := length_erase working.fastKeys found
    refine ⟨⟨⟨?_, keys_erase working.fastKeys id, working.atomic, working.atomicKeys,
      working.inflightAtomic⟩, ?_, ?_⟩, rfl⟩
    · intro other c differs entry
      exact working.others other c differs (get_of_erase entry).2
    · show s.inflightFast - 1 = ((Table.erase s.fast id).length : Int)
      rw [working.inflightFast]
      omega
    · show false = (Table.get (Table.erase s.fast id) id).isSome
      rw [get_erase, if_pos rfl]
      rfl

theorem Working.cleaned (working : Working s id b) :
    Accounted ((s.cleanupFast id b).1.putFast id (s.cleanupFast id b).2) ∧
      Accounted (s.cleanupFast id b).1 := by
  obtain ⟨after, gone⟩ := working.cleanup
  have put := after.put (fun live => by rw [gone] at live; cases live)
  refine ⟨put, ?_⟩
  rw [Batches.putFast, gone] at put
  exact put

theorem checkFlowControl_spec (s : Batches) (bounds : b.Bounds) :
    ∃ fseq ack, s.checkFlowControl b = { b with fseq := fseq, ackMessages := ack } ∧
      fseq ≤ b.pseq := by
  rw [Batches.checkFlowControl]
  split
  · exact ⟨b.fseq, b.ackMessages, rfl, bounds.1⟩
  refine ⟨_, _, rfl, ?_⟩
  have steps := Nat.div_mul_le_self (b.pseq - b.fseq) b.ackMessages
  have := bounds.1
  omega

theorem checkFlowControl_kept (s : Batches) (kept : b.Kept) : (s.checkFlowControl b).Kept := by
  obtain ⟨fseq, ack, same, low⟩ := checkFlowControl_spec s kept.bounds
  rw [same]
  exact ⟨⟨low, kept.bounds.2⟩, kept.held⟩

theorem Working.putChecked (working : Working s id b) (kept : b.Kept) :
    Accounted (s.putFast id (s.checkFlowControl b)) := by
  obtain ⟨fseq, ack, same, _⟩ := checkFlowControl_spec s kept.bounds
  have timer : (s.checkFlowControl b).timer = b.timer := by rw [same]
  exact (working.congr (by rw [timer])).put (fun _ => checkFlowControl_kept s kept)

variable {t : Timer}

theorem fastBatchCommit_spec (working : Working s id b) (timer : b.timer = some t) :
    (∃ s' c, s.fastBatchCommit id b = (s', c, true) ∧ Working s' id c ∧
        (b.lseq = b.pseq ∨ b.commit = false ∧ t.armed = false ∧
          c = { b with timer := some t.stop.1 })) ∨
      (s.fastBatchCommit id b =
        (s, { b with timer := some (if b.commit then t else t.stop.1), commit := true }, false) ∧
        b.lseq ≠ b.pseq) := by
  rw [Batches.fastBatchCommit, timer]
  dsimp only
  split
  next stopped =>
    exact .inl ⟨s, _, rfl, working.congr (by rw [timer]; rfl), .inr ⟨stopped.1, stopped.2, rfl⟩⟩
  split
  next same =>
    have after := Working.cleanup (working.congr
      (c := { b with timer := some (if b.commit then t else t.stop.1), commit := true })
      (by rw [timer]; rfl))
    exact .inl ⟨_, _, rfl, after.1, .inl same⟩
  next differs => exact .inr ⟨rfl, differs⟩

/-- What a batch needs to be ended: something to wait for, nothing to wait for, or a callback. -/
def Endable (b : FastBatch) (t : Timer) : Prop :=
  0 < b.pending ∨ b.pseq = b.lseq ∨ 0 < t.waiting ∨ b.commit ∧ t.Alive

theorem endFast_accounted (working : Working s id b) (bounds : b.Bounds) (timer : b.timer = some t)
    (endable : Endable b t) : Accounted (s.endFast id b) := by
  rw [Batches.endFast]
  rcases fastBatchCommit_spec working timer with ⟨s', c, done, after, _⟩ | ⟨waits, differs⟩
  · rw [done]
    exact after.cleaned.1
  rw [waits]
  have after := working.congr
    (c := { b with timer := some (if b.commit then t else t.stop.1), commit := true })
    (by rw [timer]; rfl)
  refine after.put (fun _ => ⟨bounds, _, rfl, ?_⟩)
  rcases endable with pending | same | waiting | ⟨commit, alive⟩
  · exact .inr ⟨rfl, pending⟩
  · exact absurd same.symm differs
  · left
    split
    · exact .inr waiting
    · exact .inr waiting
  · left
    rw [if_pos commit]
    exact alive

structure Taken (b : FastBatch) (m : FastMsg) : Prop where
  low : b.fseq ≤ b.pseq
  below : b.pseq < m.seq
  next : b.lseq = m.seq

theorem Taken.bounds {m : FastMsg} (taken : Taken b m) : b.Bounds :=
  ⟨taken.low, by rw [taken.next]; exact Nat.le_of_lt taken.below⟩

/-- A commit of a batch with gaps has something to wait for when its own message is refused. -/
def GapSafe (b : FastBatch) (m : FastMsg) (check : Check) : Prop :=
  m.commit → m.gapOk → check ≠ .pass → 0 < b.pending

/-- A refused message ends a batch without gaps; what was persisted is then the message before, or
there is more to come. -/
def FailSafe (b : FastBatch) (m : FastMsg) (check : Check) : Prop :=
  check = .fail → m.gapOk = false → 0 < b.pending ∨ b.pseq + 1 = m.seq

theorem proposeFast_accounted {m : FastMsg} {check : Check} (working : Working s m.id b)
    (taken : Taken b m) (timer : b.timer = some t) (committing : b.commit → m.commit)
    (held : t.Alive ∨ b.commit) (gap : t.Alive ∨ GapSafe b m check)
    (fail : 0 < t.waiting ∨ FailSafe b m check) : Accounted (s.proposeFast m check b) := by
  rw [Batches.proposeFast]
  split
  · have after := working.congr (c := { b with pending := b.pending + 1 }) rfl
    refine after.put (fun _ => ⟨taken.bounds, t, timer, ?_⟩)
    exact held.imp_right (fun commit => ⟨commit, Nat.succ_pos _⟩)
  next pass =>
  obtain ⟨c, noted, bounds, same, persisted, unchanged⟩ : ∃ c : FastBatch,
      (if check = .duplicate ∧ b.pending = 0 then s.checkFlowControl { b with pseq := m.seq }
        else b) = c ∧ c.Bounds ∧
      (c.timer = b.timer ∧ c.commit = b.commit ∧ c.pending = b.pending ∧ c.lseq = b.lseq) ∧
      (check = .duplicate → 0 < b.pending ∨ c.pseq = m.seq) ∧ (check ≠ .duplicate → c = b) := by
    refine ⟨_, rfl, ?_⟩
    split
    next repeated =>
      have raised : ({ b with pseq := m.seq } : FastBatch).Bounds :=
        ⟨Nat.le_trans taken.low (Nat.le_of_lt taken.below), Nat.le_of_eq taken.next.symm⟩
      obtain ⟨fseq, ack, same, low⟩ := checkFlowControl_spec s raised
      rw [same]
      exact ⟨⟨low, raised.2⟩, ⟨rfl, rfl, rfl, rfl⟩, fun _ => .inr rfl,
        fun fresh => absurd repeated.1 fresh⟩
    next other =>
      refine ⟨taken.bounds, ⟨rfl, rfl, rfl, rfl⟩, fun repeated => .inl ?_, fun _ => rfl⟩
      exact Nat.pos_of_ne_zero (fun zero => other ⟨repeated, zero⟩)
  obtain ⟨timer', commit', pending', lseq'⟩ := same
  dsimp only
  rw [noted]
  have after : Working s m.id c := working.congr (by rw [timer'])
  have alive (alive : t.Alive) : c.Kept := ⟨bounds, t, timer'.trans timer, .inl alive⟩
  split
  next skips =>
    refine after.put (fun _ => alive (held.resolve_right (fun commit => ?_)))
    have := committing commit
    rw [skips.2] at this
    cases this
  split
  · exact after.cleaned.1
  split
  next gapOk =>
    refine after.put (fun _ => ?_)
    rcases held with lives | commit
    · exact alive lives
    rcases gap with lives | safe
    · exact alive lives
    · refine ⟨bounds, t, timer'.trans timer, .inr ⟨commit'.trans commit, ?_⟩⟩
      rw [pending']
      exact safe (committing commit) gapOk pass
  next gapOk =>
  split
  next repeated =>
    refine endFast_accounted after bounds (timer'.trans timer) ?_
    rcases persisted repeated with pending | same
    · exact .inl (pending' ▸ pending)
    · exact .inr (.inl (same.trans (lseq'.trans taken.next).symm))
  next repeated =>
  rw [unchanged repeated]
  have failed : check = .fail := by
    cases check with
    | pass => exact absurd rfl pass
    | duplicate => exact absurd rfl repeated
    | fail => rfl
  have back : ({ b with lseq := b.lseq - 1 } : FastBatch).Bounds := by
    refine ⟨taken.low, ?_⟩
    show b.pseq ≤ b.lseq - 1
    have := taken.below
    have := taken.next
    omega
  refine endFast_accounted (working.congr rfl) back timer ?_
  rcases fail with waiting | safe
  · exact .inr (.inr (.inl waiting))
  rcases safe failed (Bool.eq_false_iff.mpr gapOk) with pending | last
  · exact .inl pending
  refine .inr (.inl ?_)
  show b.pseq = b.lseq - 1
  have := taken.next
  omega

theorem Timer.fire_spec (t : Timer) : t.waiting ≤ t.fire.waiting ∧ (t.Alive → t.fire.Alive) := by
  rw [Timer.fire]
  split
  · exact ⟨Nat.le_succ _, fun _ => .inr (Nat.succ_pos _)⟩
  · exact ⟨Nat.le_refl _, fun alive => alive⟩

theorem midway_alive (timer : b.timer = some t) (fires : Bool) :
    ∃ t', Batches.midway fires b = { b with timer := some t' } ∧ t.waiting ≤ t'.waiting ∧
      (t.Alive → t'.Alive) := by
  rw [Batches.midway]
  cases fires with
  | false => exact ⟨t, by rw [← timer]; rfl, Nat.le_refl _, fun alive => alive⟩
  | true => exact ⟨t.fire, by rw [if_pos rfl, timer]; rfl, t.fire_spec⟩

/-- The end of a batch, with the timer firing halfway or not. -/
theorem breakOff_accounted (fires : Bool) (working : Working s id b) (bounds : b.Bounds)
    (timer : b.timer = some t) (endable : Endable b t) :
    Accounted (s.endFast id (Batches.midway fires b)) := by
  obtain ⟨t', halfway, waiting, alive⟩ := midway_alive timer fires
  rw [halfway]
  refine endFast_accounted (working.congr (by rw [timer]; rfl)) bounds rfl ?_
  rcases endable with pending | same | waits | ⟨commit, lives⟩
  · exact .inl pending
  · exact .inr (.inl same)
  · exact .inr (.inr (.inl (Nat.lt_of_lt_of_le waits waiting)))
  · exact .inr (.inr (.inr ⟨commit, alive lives⟩))

theorem acceptFast_accounted {m : FastMsg} {check : Check} (fires : Bool)
    (working : Working s m.id b) (taken : Taken b m) (timer : b.timer = some t) (armed : t.armed)
    (fresh : b.commit = false)
    (safe : m.commit = false ∨ m.commitEob = false → GapSafe b m check ∧ FailSafe b m check) :
    Accounted (s.acceptFast m check fires b) := by
  have low := taken.low
  have below := taken.below
  have next := taken.next
  obtain ⟨t', halfway, _, lives⟩ := midway_alive timer fires
  have alive : t'.Alive := lives (.inl armed)
  have here := working.congr (c := { b with timer := some t' }) (by rw [timer]; rfl)
  rw [Batches.acceptFast]
  split
  next commit =>
    split
    · have bounds : b.fseq ≤ (if b.pending = 0 then b.lseq - 1 else b.pseq) ∧
          (if b.pending = 0 then b.lseq - 1 else b.pseq) ≤ b.lseq - 1 := by
        split <;> omega
      refine breakOff_accounted fires (working.congr rfl) bounds timer ?_
      by_cases none_ : b.pending = 0
      · exact .inr (.inl (if_pos none_))
      · exact .inl (Nat.pos_of_ne_zero none_)
    next eob =>
    rw [halfway]
    obtain ⟨gap, fail⟩ := safe (.inr (Bool.eq_false_iff.mpr eob))
    rcases fastBatchCommit_spec here rfl with ⟨s', c, done, after, why⟩ | ⟨waits, _⟩
    · rw [done]
      rcases why with same | ⟨_, off, rfl⟩
      · have same : b.lseq = b.pseq := same
        omega
      · have waiting : 0 < t'.waiting := alive.resolve_left (fun on => by rw [off] at on; cases on)
        exact proposeFast_accounted after ⟨low, below, next⟩ rfl (fun _ => commit)
          (.inl (.inr waiting)) (.inl (.inr waiting)) (.inl waiting)
    · rw [waits]
      exact proposeFast_accounted (here.congr rfl) ⟨low, below, next⟩ rfl (fun _ => commit)
        (.inr rfl) (.inr gap) (.inr fail)
  next commit =>
    rw [halfway]
    obtain ⟨gap, fail⟩ := safe (.inl (Bool.eq_false_iff.mpr commit))
    exact proposeFast_accounted here ⟨low, below, next⟩ rfl
      (fun committed => by rw [fresh] at committed; cases committed) (.inl alive) (.inl alive)
      (.inr fail)

/-- How a message makes the code end a batch. -/
def BreaksOff (b : FastBatch) (m : FastMsg) : Prop :=
  if m.ping then b.lseq < m.seq ∧ b.gapOk = false
  else b.lseq + 1 ≠ m.seq ∧ (b.gapOk = false ∨ m.seq ≤ b.lseq)

instance (b : FastBatch) (m : FastMsg) : Decidable (BreaksOff b m) :=
  inferInstanceAs (Decidable (if m.ping then _ else _))

/-- The message stops the timer of a batch for which nothing is pending and which is not finished:
it breaks off a batch that is behind, or it is refused and ends one that is behind, or it commits a
batch in which gaps are allowed and is refused. -/
def Strands (b : FastBatch) (m : FastMsg) (check : Check) : Prop :=
  b.commit = false ∧ b.pending = 0 ∧
    (BreaksOff b m ∧ b.pseq ≠ b.lseq ∨
      ¬ BreaksOff b m ∧ m.ping = false ∧ (m.commit = false ∨ m.commitEob = false) ∧
        (m.commit ∧ m.gapOk ∧ check ≠ .pass ∨
          m.gapOk = false ∧ check = .fail ∧ b.pseq + 1 ≠ m.seq))

instance (b : FastBatch) (m : FastMsg) (check : Check) : Decidable (Strands b m check) :=
  inferInstanceAs (Decidable (_ ∧ _ ∧ _))

theorem safe_of_not_strands {m : FastMsg} {check : Check} (fresh : b.commit = false)
    (goesOn : ¬ BreaksOff b m) (ping : m.ping = false) (safe : ¬ Strands b m check)
    (ends : m.commit = false ∨ m.commitEob = false) : GapSafe b m check ∧ FailSafe b m check := by
  constructor
  · intro commit gapOk refused
    by_contra none_
    exact safe ⟨fresh, by omega, .inr ⟨goesOn, ping, ends, .inl ⟨commit, gapOk, refused⟩⟩⟩
  · intro failed gapFail
    by_contra none_
    rw [not_or] at none_
    exact safe ⟨fresh, by omega, .inr ⟨goesOn, ping, ends, .inr ⟨gapFail, failed, none_.2⟩⟩⟩

theorem pingFast_accounted {m : FastMsg} (fires cleanup : Bool) (working : Working s m.id b)
    (kept : b.Kept) (timer : b.timer = some t)
    (ends : cleanup ∨ b.lseq < m.seq ∧ b.gapOk = false → Endable b t) :
    Accounted (s.pingFast m fires cleanup b) := by
  rw [Batches.pingFast]
  split
  next ahead =>
    split
    next goesOn =>
      have high : b.lseq < m.seq :=
        ahead.resolve_right (fun gone => by rw [goesOn.2] at gone; cases gone)
      obtain ⟨low, top⟩ := kept.bounds
      have raised : FastBatch.Kept
          { b with lseq := m.seq, pseq := if b.pending = 0 then m.seq else b.pseq } := by
        refine ⟨?_, kept.held⟩
        show b.fseq ≤ (if b.pending = 0 then m.seq else b.pseq) ∧
          (if b.pending = 0 then m.seq else b.pseq) ≤ m.seq
        split <;> omega
      have here := working.congr
        (c := { b with lseq := m.seq, pseq := if b.pending = 0 then m.seq else b.pseq }) rfl
      exact here.putChecked raised
    next stops =>
      refine breakOff_accounted fires working kept.bounds timer (ends ?_)
      rcases ahead with high | gone
      · cases cleanup with
        | true => exact .inl rfl
        | false => exact .inr ⟨high, Bool.eq_false_iff.mpr (fun gapOk => stops ⟨gapOk, rfl⟩)⟩
      · exact .inl gone
  · exact working.put (fun _ => kept)

theorem onFast_accounted {m : FastMsg} {apiLevel : Bool} {check : Check} {fires : Bool}
    (working : Working s m.id b) (kept : b.Kept) (safe : ¬ Strands b m check) :
    Accounted (s.onFast m apiLevel check fires b) := by
  obtain ⟨t, timer, held⟩ := kept.held
  obtain ⟨low, high⟩ := kept.bounds
  rw [Batches.onFast]
  split
  · exact working.cleaned.1
  rw [Batches.resetCleanupTimer]
  by_cases commit : b.commit
  · -- A committing batch only ever takes a ping.
    have endable : Endable b t := by
      rcases held with alive | pending
      · exact .inr (.inr (.inr ⟨commit, alive⟩))
      · exact .inl pending.2
    rw [if_pos commit]
    dsimp only
    split
    · exact pingFast_accounted fires _ working kept timer (fun _ => endable)
    · exact working.put (fun _ => kept)
  have fresh : b.commit = false := Bool.eq_false_iff.mpr commit
  have alive : t.Alive := held.resolve_right (fun both => commit both.1)
  rw [if_neg commit, timer]
  dsimp only [Timer.reset]
  have here := working.congr (c := { b with timer := some { t with armed := true } })
    (by rw [timer]; rfl)
  have waits (off : t.armed = false) : 0 < t.waiting :=
    alive.resolve_left (fun on => by rw [off] at on; cases on)
  have settled (breaks : BreaksOff b m) : 0 < b.pending ∨ b.pseq = b.lseq := by
    by_contra behind
    rw [not_or] at behind
    exact safe ⟨fresh, by omega, .inl ⟨breaks, behind.2⟩⟩
  by_cases ping : m.ping
  · rw [if_pos ping]
    refine pingFast_accounted fires _ here ⟨kept.bounds, _, rfl, .inl (.inl rfl)⟩ rfl ?_
    rintro (gone | ahead)
    · exact .inr (.inr (.inl (waits (by simpa using gone))))
    · have breaks : BreaksOff b m := by
        rw [BreaksOff, if_pos ping]
        exact ahead
      exact (settled breaks).imp_right .inl
  have data : m.ping = false := Bool.eq_false_iff.mpr ping
  have goesOn (next : b.lseq + 1 = m.seq ∨ b.gapOk = true ∧ b.lseq < m.seq) : ¬ BreaksOff b m := by
    rw [BreaksOff, if_neg ping]
    rintro ⟨differs, gap | behind⟩
    · rcases next with same | ⟨gapOk, _⟩
      · exact differs same
      · rw [gap] at gapOk
        cases gapOk
    · omega
  rw [if_neg ping, if_neg commit]
  split
  next next =>
    split
    next gap =>
      have both := safe_of_not_strands fresh (goesOn (.inr ⟨gap.1, by omega⟩)) data safe
      refine acceptFast_accounted fires (here.congr rfl) ⟨low, ?_, rfl⟩ rfl rfl fresh both
      show b.pseq < m.seq
      omega
    next gap =>
    refine breakOff_accounted fires here kept.bounds rfl ?_
    by_cases off : t.armed = false
    · exact .inr (.inr (.inl (waits off)))
    have differs := next.resolve_right off
    have breaks : BreaksOff b m := by
      rw [BreaksOff, if_neg ping]
      refine ⟨differs, ?_⟩
      by_cases gapOk : b.gapOk = true
      · refine .inr (Nat.le_of_not_lt (fun above => gap ⟨gapOk, ?_, by omega⟩))
        simpa using off
      · exact .inl (Bool.eq_false_iff.mpr gapOk)
    exact (settled breaks).imp_right .inl
  next next =>
    rw [not_or, not_not] at next
    have both := safe_of_not_strands fresh (goesOn (.inl next.1)) data safe
    refine acceptFast_accounted fires (here.congr rfl) ⟨low, ?_, next.1⟩ rfl rfl fresh both
    show b.pseq < m.seq
    omega

/-! ### Registering -/

def Fresh (b : FastBatch) (gapOk : Bool) : Prop :=
  b.timer = some .new ∧ b.lseq = 0 ∧ b.pseq = 0 ∧ b.fseq = 0 ∧ b.pending = 0 ∧ b.commit = false ∧
    b.gapOk = gapOk

theorem Fresh.kept {gapOk : Bool} (fresh : Fresh b gapOk) : b.Kept := by
  obtain ⟨timer, lseq, pseq, fseq, _⟩ := fresh
  refine ⟨⟨?_, ?_⟩, _, timer, .inl (.inl rfl)⟩
  · rw [fseq]
    exact Nat.zero_le _
  · rw [pseq]
    exact Nat.zero_le _

/-- The new batch takes the place of whatever was registered as `id`. -/
theorem newFastBatch_working (gapOk : Bool) (maxAckMessages : Nat) (apart : Apart s id)
    (counted : s.inflightFast = (Table.erase s.fast id).length + 1) :
    ∃ s' c, s.newFastBatch id gapOk maxAckMessages = (s', c) ∧ Working s' id c ∧ Fresh c gapOk := by
  refine ⟨_, _, rfl, ⟨⟨?_, keys_set apart.fastKeys id _, apart.atomic, apart.atomicKeys,
    apart.inflightAtomic⟩, ?_, ?_⟩, rfl, rfl, rfl, rfl, rfl, rfl, rfl⟩
  · intro other c differs found
    rw [get_set, if_neg (fun same => differs same.symm)] at found
    exact apart.others other c differs found
  · show s.inflightFast = ((Table.set s.fast id _).length : Int)
    rw [counted, Table.set, length_cons]
    rfl
  · show true = (Table.get (Table.set s.fast id _) id).isSome
    rw [get_set, if_pos rfl]
    rfl

theorem registerFast_working (accounted : Accounted s) (absent : Table.get s.fast id = none)
    (gapOk : Bool) (maxAckMessages : Nat) :
    ∃ s' c, { s with inflightFast := s.inflightFast + 1 }.newFastBatch id gapOk maxAckMessages =
      (s', c) ∧ Working s' id c ∧ Fresh c gapOk := by
  refine newFastBatch_working gapOk maxAckMessages ?_ ?_
  · exact { accounted.apart id with }
  · show s.inflightFast + 1 = ((Table.erase s.fast id).length : Int) + 1
    rw [erase_of_none absent, accounted.inflightFast]

def started (m : FastMsg) : FastBatch := ⟨some .new, 0, 0, 0, 0, 0, m.flow, m.gapOk, false⟩

theorem strands_started {m : FastMsg} {check : Check} (fresh : Fresh b m.gapOk)
    (strands : Strands b m check) : Strands (started m) m check := by
  obtain ⟨_, lseq, pseq, _, pending, commit, gapOk⟩ := fresh
  simp only [Strands, BreaksOff, lseq, pseq, pending, commit, gapOk] at strands
  simpa only [Strands, BreaksOff, started] using strands

theorem processFast_accounted (accounted : Accounted s) {limits : Limits} {m : FastMsg}
    {apiLevel : Bool} {check : Check} {fires : Bool}
    (safe : ¬ Strands ((Table.get s.fast m.id).getD (started m)) m check) :
    Accounted (s.processFast limits m apiLevel check fires) := by
  rw [Batches.processFast]
  cases found : Table.get s.fast m.id with
  | some b =>
    rw [found] at safe
    exact onFast_accounted (accounted.working found) (accounted.fast _ _ found) safe
  | none =>
    rw [found] at safe
    dsimp only
    split
    · exact accounted
    split
    · exact accounted
    split
    · exact accounted
    obtain ⟨s', c, made, working, fresh⟩ := registerFast_working accounted found m.gapOk m.flow
    rw [made]
    exact onFast_accounted working fresh.kept (fun strands => safe (strands_started fresh strands))

/-! ### Persisted messages, resets and timers -/

/-- A persisted message lies between what was acknowledged and what was taken. The leader looks at
it only while more is pending, a follower unless it commits. -/
def InRange (b : FastBatch) (isLeader : Bool) (m : FastMsg) : Prop :=
  if isLeader then 1 < b.pending → b.fseq ≤ m.seq ∧ m.seq ≤ b.lseq
  else m.commit = false → b.fseq ≤ m.seq

instance (b : FastBatch) (isLeader : Bool) (m : FastMsg) : Decidable (InRange b isLeader m) :=
  inferInstanceAs (Decidable (if isLeader then _ else _))

theorem registerLeader_accounted (accounted : Accounted s) {m : FastMsg}
    (found : Table.get s.fast m.id = some b)
    (range : 1 < b.pending → b.fseq ≤ m.seq ∧ m.seq ≤ b.lseq) :
    Accounted (s.fastBatchRegisterSequences true m).1 := by
  have kept := accounted.fast _ _ found
  obtain ⟨t, timer, held⟩ := kept.held
  obtain ⟨low, high⟩ := kept.bounds
  have bounds : b.fseq ≤ (if b.pending - 1 = 0 then b.lseq else m.seq) ∧
      (if b.pending - 1 = 0 then b.lseq else m.seq) ≤ b.lseq := by
    split
    · omega
    · exact range (by omega)
  have working := (accounted.working found).congr
    (c := { b with pending := b.pending - 1, pseq := if b.pending - 1 = 0 then b.lseq else m.seq }) rfl
  rw [Batches.fastBatchRegisterSequences.eq_def, found]
  dsimp only
  by_cases done : b.lseq = (if b.pending - 1 = 0 then b.lseq else m.seq) ∧ b.commit = true
  · rw [if_pos done]
    exact working.cleaned.1
  rw [if_neg done]
  refine working.putChecked ⟨bounds, t, timer, held.imp_right (fun both => ⟨both.1, ?_⟩)⟩
  -- A commit with nothing left pending would have been finished.
  show 0 < b.pending - 1
  by_contra none_
  exact done ⟨(if_pos (by omega)).symm, both.1⟩

theorem Working.record (working : Working s id b) (held : b.Held) {seq : Nat}
    (low : b.fseq ≤ seq) : Accounted (s.putFast id { b with pseq := seq, lseq := seq }) :=
  (working.congr (c := { b with pseq := seq, lseq := seq }) rfl).put
    (fun _ => ⟨⟨low, Nat.le_refl _⟩, held⟩)

theorem registerFollower_accounted (accounted : Accounted s) {m : FastMsg}
    (found : Table.get s.fast m.id = some b) (range : m.commit = false → b.fseq ≤ m.seq) :
    Accounted (s.fastBatchRegisterSequences false m).1 := by
  have working := accounted.working found
  have kept := accounted.fast _ _ found
  obtain ⟨t, timer, held⟩ := kept.held
  rw [Batches.fastBatchRegisterSequences.eq_def, found]
  dsimp only
  split
  · exact working.cleaned.1
  next commits =>
  rw [Batches.resetCleanupTimer]
  have low := range (Bool.eq_false_iff.mpr commits)
  by_cases commit : b.commit = true
  · rw [if_pos commit]
    exact working.record kept.held low
  rw [if_neg commit, timer]
  cases armed : t.armed with
  | true =>
    simp only [Timer.reset, armed]
    have here := working.congr (c := { b with timer := some { t with armed := true } })
      (by rw [timer]; rfl)
    exact here.record ⟨_, rfl, .inl (.inl rfl)⟩ low
  | false =>
    simp only [Timer.reset, armed]
    have counted : s.inflightFast = (Table.erase s.fast m.id).length + 1 := by
      have shorter := length_erase accounted.fastKeys found
      rw [accounted.inflightFast]
      omega
    obtain ⟨s', c, made, after, fresh⟩ :=
      newFastBatch_working m.gapOk m.flow (accounted.apart m.id) counted
    rw [made]
    exact after.record fresh.kept.held (by rw [fresh.2.2.2.1]; exact Nat.zero_le _)

theorem register_accounted (accounted : Accounted s) {isLeader : Bool} {m : FastMsg}
    (range : ∀ b ∈ Table.get s.fast m.id, InRange b isLeader m) :
    Accounted (s.fastBatchRegisterSequences isLeader m).1 := by
  cases found : Table.get s.fast m.id with
  | some b =>
    have inside := range b found
    cases isLeader with
    | true => exact registerLeader_accounted accounted found inside
    | false => exact registerFollower_accounted accounted found inside
  | none =>
    rw [Batches.fastBatchRegisterSequences.eq_def, found]
    dsimp only
    split
    · exact accounted
    · obtain ⟨s', c, made, working, fresh⟩ := registerFast_working accounted found m.gapOk m.flow
      rw [made]
      exact working.record fresh.kept.held (by rw [fresh.2.2.2.1]; exact Nat.zero_le _)

section

variable (accounted : Accounted s) (found : Table.get s.fast id = some b)

include accounted found

theorem fastBatchReset_accounted : Accounted (s.fastBatchReset id b) := by
  have working := accounted.working found
  obtain ⟨t, timer, _⟩ := (accounted.fast _ _ found).held
  rw [Batches.fastBatchReset, timer]
  dsimp only
  split
  · exact working.cleaned.2
  · exact (working.congr (by rw [timer]; rfl)).put
      (fun _ => ⟨⟨Nat.le_refl _, Nat.le_refl _⟩, _, rfl, .inl (.inl rfl)⟩)

theorem fireFast_accounted : Accounted (s.fireFast id b) := by
  have kept := accounted.fast _ _ found
  obtain ⟨t, timer, held⟩ := kept.held
  have fired : b.timer.map Timer.fire = some t.fire := by rw [timer]; rfl
  rw [Batches.fireFast, fired]
  exact ((accounted.working found).congr (by rw [timer]; rfl)).put
    (fun _ => ⟨kept.bounds, t.fire, rfl, held.imp_left t.fire_spec.2⟩)

theorem expireFast_accounted : Accounted (s.expireFast id b) := by
  rw [Batches.expireFast]
  split
  · split
    · exact (accounted.working found).cleaned.2
    · exact accounted
  · exact accounted

end

/-! ### Atomic batches -/

theorem setAtomic_accounted (accounted : Accounted s) {old c : AtomicBatch}
    (found : Table.get s.atomic id = some old) (timer : c.timer = some t) (alive : t.Alive) :
    Accounted { s with atomic := Table.set s.atomic id c } := by
  refine { accounted with
    atomic := all_set accounted.atomic id ⟨t, timer, alive⟩
    atomicKeys := keys_set accounted.atomicKeys id c, inflightAtomic := ?_ }
  show s.inflightAtomic = ((Table.set s.atomic id c).length : Int)
  rw [length_set accounted.atomicKeys (by rw [found]; rfl)]
  exact accounted.inflightAtomic

theorem cleanupAtomic_accounted (accounted : Accounted s) {old c : AtomicBatch}
    (found : Table.get s.atomic id = some old) : Accounted (s.cleanupAtomic id c) := by
  rw [Batches.cleanupAtomic]
  split
  · exact accounted
  have shorter := length_erase accounted.atomicKeys found
  refine { accounted with
    atomic := all_erase accounted.atomic id
    atomicKeys := keys_erase accounted.atomicKeys id, inflightAtomic := ?_ }
  show s.inflightAtomic - 1 = ((Table.erase s.atomic id).length : Int)
  rw [accounted.inflightAtomic]
  omega

/-- A batch that commits can write out what it has staged. -/
def Flushes (m : AtomicMsg) : Prop := m.commit = .commit ∨ m.commit = .eob → m.flushes = true

instance (m : AtomicMsg) : Decidable (Flushes m) := inferInstanceAs (Decidable (_ → _))

section

variable (accounted : Accounted s)

include accounted

theorem onAtomic_accounted {maxSize : Nat} {m : AtomicMsg} {c : AtomicBatch}
    (found : Table.get s.atomic m.id = some c) (flushes : Flushes m) :
    Accounted (s.onAtomic maxSize m c) := by
  have cleaned : Accounted (s.cleanupAtomic m.id c) := cleanupAtomic_accounted accounted found
  rw [Batches.onAtomic]
  split
  · exact accounted
  next t timer =>
  dsimp only
  split
  · exact cleaned
  split
  · exact cleaned
  split
  · exact cleaned
  split
  · exact cleaned
  split
  · exact cleaned
  split
  · exact setAtomic_accounted accounted found rfl (.inl rfl)
  next commits =>
  have flushed := flushes (not_not.mp commits)
  rw [Batches.commitAtomic]
  dsimp only
  cases fires : m.fires with
  | false =>
    have ready : ¬ (t.reset.1.stop.2 = false ∨ m.flushes = false) := by
      rw [flushed]
      exact not_or.mpr ⟨Bool.noConfusion, Bool.noConfusion⟩
    rw [if_neg Bool.false_ne_true, if_neg ready]
    exact cleanupAtomic_accounted accounted found
  | true =>
    -- The timer has fired since it was reset, so its callback waits and the batch stays.
    rw [if_pos rfl, if_pos (.inl rfl)]
    exact setAtomic_accounted accounted found rfl (.inr (Nat.succ_pos _))

theorem registerAtomic_accounted (absent : Table.get s.atomic id = none) :
    Accounted { s with
      atomic := Table.set s.atomic id ⟨some .new, 0⟩, inflightAtomic := s.inflightAtomic + 1 } := by
  refine { accounted with
    atomic := all_set accounted.atomic id ⟨_, rfl, .inl rfl⟩
    atomicKeys := keys_set accounted.atomicKeys id _, inflightAtomic := ?_ }
  show s.inflightAtomic + 1 = ((Table.set s.atomic id _).length : Int)
  rw [Table.set, erase_of_none absent, length_cons, accounted.inflightAtomic]
  rfl

theorem processAtomic_accounted {limits : Limits} {maxSize : Nat} {m : AtomicMsg}
    (flushes : Flushes m) : Accounted (s.processAtomic limits maxSize m) := by
  rw [Batches.processAtomic]
  cases found : Table.get s.atomic m.id with
  | some c => exact onAtomic_accounted accounted found flushes
  | none =>
    dsimp only
    split
    · exact accounted
    split
    · exact accounted
    split
    · exact accounted
    split
    · exact accounted
    exact onAtomic_accounted (registerAtomic_accounted accounted found)
      (by rw [get_set, if_pos rfl]) flushes

theorem fireAtomic_accounted {c : AtomicBatch} (found : Table.get s.atomic id = some c) :
    Accounted (s.fireAtomic id c) := by
  obtain ⟨t, timer, alive⟩ := accounted.atomic _ _ found
  rw [Batches.fireAtomic]
  exact setAtomic_accounted accounted found (by rw [timer]; rfl) (t.fire_spec.2 alive)

theorem expireAtomic_accounted {c : AtomicBatch} (found : Table.get s.atomic id = some c) :
    Accounted (s.expireAtomic id c) := by
  rw [Batches.expireAtomic]
  split
  · split
    · exact cleanupAtomic_accounted accounted found
    · exact accounted
  · exact accounted

end

/-! ### Runs -/

/-- What a step needs so that no batch is orphaned. -/
def Safe (s : Batches) : BatchOp → Prop
  | .fast _ m _ check _ => ¬ Strands ((Table.get s.fast m.id).getD (started m)) m check
  | .persisted isLeader m => ∀ b ∈ Table.get s.fast m.id, InRange b isLeader m
  | .atomic _ _ m => Flushes m
  | _ => True

instance (s : Batches) : DecidablePred (Safe s)
  | .fast _ _ _ _ _ => inferInstanceAs (Decidable (¬ _))
  | .persisted _ m =>
    match found : Table.get s.fast m.id with
    | none => .isTrue (fun b there => by rw [found] at there; cases there)
    | some c =>
      decidable_of_iff (InRange c _ m) ⟨
        fun inside b there => by rw [found] at there; cases there; exact inside,
        fun all => all c found⟩
  | .atomic _ _ m => inferInstanceAs (Decidable (Flushes m))
  | .reset _ | .fireFast _ | .expireFast _ | .fireAtomic _ | .expireAtomic _ => .isTrue trivial

theorem whenRegistered_accounted {B : Type} (accounted : Accounted s) {found : Option B}
    {act : B → Batches} (acts : ∀ b, found = some b → Accounted (act b)) :
    Accounted (s.whenRegistered found act) := by
  rw [Batches.whenRegistered.eq_def]
  split
  · exact acts _ rfl
  · exact accounted

theorem step_accounted (accounted : Accounted s) {op : BatchOp} (safe : Safe s op) :
    Accounted (s.step op) := by
  cases op with
  | fast => exact processFast_accounted accounted safe
  | persisted => exact register_accounted accounted safe
  | atomic => exact processAtomic_accounted accounted safe
  | reset =>
    exact whenRegistered_accounted accounted (fun _ found => fastBatchReset_accounted accounted found)
  | fireFast =>
    exact whenRegistered_accounted accounted (fun _ found => fireFast_accounted accounted found)
  | expireFast =>
    exact whenRegistered_accounted accounted (fun _ found => expireFast_accounted accounted found)
  | fireAtomic =>
    exact whenRegistered_accounted accounted (fun _ found => fireAtomic_accounted accounted found)
  | expireAtomic =>
    exact whenRegistered_accounted accounted (fun _ found => expireAtomic_accounted accounted found)

theorem empty_accounted : Accounted .empty :=
  ⟨nofun, nodup_nil, rfl, nofun, nodup_nil, rfl⟩

end

/-- No batch is orphaned in a run whose steps are all safe. -/
theorem batches_accounted (ops : List BatchOp) (safe : Along Batches.step Safe .empty ops) :
    Accounted (run Batches.step .empty ops) :=
  along_invariant Batches.step Safe Accounted (fun _ _ accounted here => step_accounted accounted here)
    empty_accounted ops safe

/-- A batch in which gaps are allowed loses a message to a check, goes on and is committed, while
another one times out and an atomic one is staged. -/
def ordinary : List BatchOp :=
  let limits : Limits := ⟨10, 10, 0⟩
  let first : FastMsg := ⟨"b", 1, 10, false, true, false, false⟩
  let last : FastMsg := ⟨"b", 3, 10, false, true, true, false⟩
  [.fast limits first false .pass false, .fast limits { first with seq := 2 } false .fail false,
    .fast limits { first with id := "c" } false .pass false, .persisted true first,
    .atomic limits 10 ⟨"a", 1, .absent, false, true, true, true, true, false⟩, .fireFast "c",
    .fast limits last false .pass false, .expireFast "c"]

theorem batches_accounted_ordinary :
    Along Batches.step Safe .empty ordinary ∧
      ((run Batches.step .empty ordinary).fast.map Prod.fst = ["b"]) ∧
      ((run Batches.step .empty ordinary).atomic.map Prod.fst = ["a"]) ∧
      Accounted (run Batches.step .empty ordinary) :=
  have safe : Along Batches.step Safe .empty ordinary := by decide +kernel
  ⟨safe, by decide +kernel, by decide +kernel, batches_accounted ordinary safe⟩

/-- The first message of a batch in which gaps are allowed also commits it, and a check fails. -/
theorem refused_commit_orphans :
    ∃ b t, Table.get (Batches.empty.step
        (.fast ⟨10, 10, 0⟩ ⟨"b", 1, 10, false, true, true, false⟩ false .fail false)).fast "b" =
          some b ∧
      b.timer = some t ∧ ¬ t.Alive ∧ b.commit ∧ b.pending = 0 := by
  refine ⟨_, _, rfl, rfl, ?_⟩
  decide +kernel

end LinearNats.Batching
