import LinearNats.Scan
import LinearNats.Table
import LinearNats.Server.Header

/-! A consumer without replicas and its store: deliveries, acknowledgements, redelivery and the
floors below which everything is done. Map iterations take their order as an argument. The
counters of `rdc` are 64 bit words and wrap; sequences are natural numbers. -/
namespace LinearNats.JetStream
open Server Scan

inductive AckPolicy where
  | ackNone
  | ackAll
  | ackExplicit
  | ackFlowControl
  deriving DecidableEq

structure Pending where
  sequence : Nat
  timestamp : Int
  deriving DecidableEq

structure SequencePair where
  consumer : Nat
  stream : Nat
  deriving DecidableEq

abbrev PendingMap := List (Nat × Pending)

structure ConsumerConfig where
  ackPolicy : AckPolicy
  maxDeliver : Int
  ackWait : Int
  backOff : List Int
  flowControl : Bool
  pull : Bool

def word : Nat := 2 ^ 64

/-- The floors after the entry at `sseq` went: up to just below the next pending one. -/
def nextFloor (pending : PendingMap) (dseq sseq last : Nat) : SequencePair :=
  match firstIn (fun ss => (Table.get pending ss).isSome) (sseq + 1) last with
  | none => ⟨dseq, sseq⟩
  | some ss =>
    match Table.get pending ss with
    | some p => if 0 < p.sequence then ⟨p.sequence - 1, ss - 1⟩ else ⟨dseq, sseq⟩
    | none => ⟨dseq, sseq⟩

/-! The store of the consumer. -/

structure ConsumerState where
  delivered : SequencePair
  ackFloor : SequencePair
  pending : PendingMap
  redelivered : List (Nat × Nat)

inductive ConsumerStoreErr where
  | errNoAckPolicy
  | errStoreMsgNotFound
  | badAckFloorForConsumer
  | badAckFloorForStream
  | badPendingEntry
  | errStoreOldUpdate
  deriving DecidableEq

namespace ConsumerState

def update (s state : ConsumerState) : ConsumerState × Option ConsumerStoreErr :=
  if state.delivered.consumer < state.ackFloor.consumer then (s, some .badAckFloorForConsumer)
  else if state.delivered.stream < state.ackFloor.stream then (s, some .badAckFloorForStream)
  else if state.pending.any (fun (seq, _) =>
      decide (seq ≤ state.ackFloor.stream ∨ state.delivered.stream < seq)) then
    (s, some .badPendingEntry)
  else if state.delivered.consumer < s.delivered.consumer ∨
      state.ackFloor.stream < s.ackFloor.stream then (s, some .errStoreOldUpdate)
  else (state, none)

def trackDelivered (s : ConsumerState) (dseq sseq : Nat) (ts : Int) : PendingMap :=
  if sseq ≤ s.delivered.stream then
    match Table.get s.pending sseq with
    | some p => Table.set s.pending sseq { p with timestamp := ts }
    | none => s.pending
  else Table.set s.pending sseq ⟨dseq, ts⟩

def updateDelivered (s : ConsumerState) (cfg : ConsumerConfig) (dseq sseq dc : Nat) (ts : Int) :
    ConsumerState × Option ConsumerStoreErr :=
  if dc ≠ 1 ∧ cfg.ackPolicy = .ackNone then (s, some .errNoAckPolicy)
  -- An old delivery can come again from the replicas' log.
  else if dseq ≤ s.ackFloor.consumer then (s, none)
  else if cfg.ackPolicy ≠ .ackNone then
    let pending := s.trackDelivered dseq sseq ts
    let s := { s with
      pending := pending
      delivered := ⟨max s.delivered.consumer dseq, max s.delivered.stream sseq⟩ }
    if 1 < dc then
      let maxdc := (cfg.maxDeliver % word).toNat
      ({ s with
        pending := if 0 < maxdc ∧ maxdc < dc then Table.erase s.pending sseq else s.pending
        redelivered := if (Table.get s.redelivered sseq).getD 0 < dc - 1 then
          Table.set s.redelivered sseq (dc - 1) else s.redelivered }, none)
    else (s, none)
  else
    ({ s with
      delivered := ⟨max s.delivered.consumer dseq, max s.delivered.stream sseq⟩
      ackFloor :=
        ⟨if s.delivered.consumer < dseq then dseq else s.ackFloor.consumer,
         if s.delivered.stream < sseq then sseq else s.ackFloor.stream⟩ }, none)

def remove (s : ConsumerState) (seq : Nat) : ConsumerState :=
  { s with pending := Table.erase s.pending seq, redelivered := Table.erase s.redelivered seq }

def removeDown (s : ConsumerState) : Nat → Nat → ConsumerState
  | 0, _ => s
  | count + 1, seq => if s.pending = [] then s else removeDown (s.remove seq) count (seq - 1)

def gap (sseq floor : Nat) : Nat := if floor ≤ sseq then sseq - floor else sseq + word - floor

def removeThrough (s : ConsumerState) (sgap sseq : Nat) : ConsumerState :=
  if s.pending.length < sgap then
    ((s.pending.map Prod.fst).filter (fun seq => decide (seq ≤ sseq))).foldl remove s
  else s.removeDown sgap sseq

def ackExplicit (s : ConsumerState) (dseq sseq : Nat) (p : Pending) : ConsumerState :=
  let dseq := if p.sequence < dseq ∧ 0 < p.sequence then p.sequence else dseq
  let s := { s with pending := Table.erase s.pending sseq }
  if s.pending = [] then { s with ackFloor := s.delivered }
  else if dseq = s.ackFloor.consumer + 1 then
    { s with ackFloor :=
        if dseq < s.delivered.consumer then nextFloor s.pending dseq sseq s.delivered.stream
        else ⟨dseq, sseq⟩ }
  else s

def updateAcks (s : ConsumerState) (cfg : ConsumerConfig) (dseq sseq : Nat) :
    ConsumerState × Option ConsumerStoreErr :=
  if cfg.ackPolicy = .ackNone then (s, some .errNoAckPolicy)
  else
    let s := { s with redelivered := Table.erase s.redelivered sseq }
    if dseq ≤ s.ackFloor.consumer then (s, none)
    else match Table.get s.pending sseq with
      | none => (s, some .errStoreMsgNotFound)
      | some p =>
        if cfg.ackPolicy = .ackAll ∨ cfg.ackPolicy = .ackFlowControl then
          let sgap := gap sseq s.ackFloor.stream
          (removeThrough { s with ackFloor := ⟨dseq, sseq⟩ } sgap sseq, none)
        else (s.ackExplicit dseq sseq p, none)

end ConsumerState

/-! The consumer. -/

structure Consumer where
  cfg : ConsumerConfig
  leader : Bool
  subjf : List Bytes
  sseq : Nat
  dseq : Nat
  adflr : Nat
  asflr : Nat
  pending : PendingMap
  rdc : List (Nat × Nat)
  rdq : List Nat
  rdqi : Finset Nat
  store : ConsumerState

inductive Loaded where
  | found (ts : Int)
  | missing
  | failed
  deriving DecidableEq

namespace Consumer

def maxdc (o : Consumer) : Nat := o.cfg.maxDeliver.toNat

def updateDelivered (o : Consumer) (dseq sseq dc : Nat) (ts : Int) : Consumer :=
  { o with store := (o.store.updateDelivered o.cfg dseq sseq dc ts).1 }

def updateAcks (o : Consumer) (dseq sseq : Nat) : Consumer :=
  { o with store := (o.store.updateAcks o.cfg dseq sseq).1 }

def writeStoreState (o : Consumer) : Consumer :=
  { o with store := (o.store.update
      ⟨⟨o.dseq - 1, o.sseq - 1⟩, ⟨o.adflr, o.asflr⟩, o.pending, o.rdc⟩).1 }

/-! Delivery counts. -/

def redelivered (o : Consumer) (seq : Nat) : Nat := (Table.get o.rdc seq).getD 0

def deliveryCount (o : Consumer) (seq : Nat) : Nat :=
  if 1 ≤ o.redelivered seq then o.redelivered seq else 1

def incDeliveryCount (o : Consumer) (sseq : Nat) : Consumer × Nat :=
  let count := (o.redelivered sseq + 1) % word
  ({ o with rdc := Table.set o.rdc sseq count }, (count + 1) % word)

def decDeliveryCount (o : Consumer) (sseq : Nat) : Consumer :=
  { o with rdc := Table.set o.rdc sseq ((o.redelivered sseq + (word - 1)) % word) }

/-! The redelivery queue, with the set of its sequences beside it. -/

def addToRedeliverQueue (o : Consumer) (seqs : List Nat) : Consumer :=
  { o with rdq := o.rdq ++ seqs, rdqi := o.rdqi ∪ seqs.toFinset }

def removeFromRedeliverQueue (o : Consumer) (seq : Nat) : Consumer :=
  if seq ∈ o.rdqi ∧ seq ∈ o.rdq then
    if o.rdq.length = 1 then { o with rdq := [], rdqi := ∅ }
    else { o with rdq := o.rdq.erase seq, rdqi := o.rdqi.erase seq }
  else o

def getNextToRedeliver (o : Consumer) : Consumer × Option Nat :=
  match o.rdq with
  | [] => (o, none)
  | [seq] => ({ o with rdq := [], rdqi := ∅ }, some seq)
  | seq :: rest => ({ o with rdq := rest, rdqi := o.rdqi.erase seq }, some seq)

/-! Deliveries and the floors. -/

def trackPending (o : Consumer) (sseq dseq : Nat) (now : Int) : Consumer :=
  match Table.get o.pending sseq with
  | some p => { o with pending := Table.set o.pending sseq { p with timestamp := now } }
  | none => { o with pending := Table.set o.pending sseq ⟨dseq, now⟩ }

def deliverMsg (o : Consumer) (seq : Nat) (ts : Int) (dc : Nat) (now : Int) : Consumer :=
  let dseq := o.dseq
  let o := { o with dseq := o.dseq + 1 }.updateDelivered dseq seq dc ts
  if o.cfg.ackPolicy = .ackNone then { o with adflr := dseq, asflr := seq }
  else o.trackPending seq dseq now

def moveAckFloor (o : Consumer) (dseq sseq : Nat) : Consumer :=
  if o.pending = [] then { o with adflr := o.dseq - 1, asflr := o.sseq - 1 }
  else if dseq = o.adflr + 1 then
    let floor := nextFloor o.pending dseq sseq (o.sseq - 1)
    { o with adflr := floor.consumer, asflr := floor.stream }
  else o

def dropPending (o : Consumer) (seq dc : Nat) : Consumer :=
  match Table.get o.pending seq with
  | none => o
  | some p =>
    let o := { o with pending := Table.erase o.pending seq }.updateDelivered p.sequence seq dc
      p.timestamp
    o.moveAckFloor p.sequence seq

def hasMaxDeliveries (o : Consumer) (seq : Nat) : Consumer × Bool :=
  if o.maxdc = 0 then (o, false)
  else
    let dc := o.deliveryCount seq
    if o.maxdc ≤ dc then
      let o := o.dropPending seq dc
      ({ o with rdc := Table.set o.rdc seq dc }, true)
    else (o, false)

/-! Acknowledgements. -/

def remove (o : Consumer) (seq : Nat) : Consumer :=
  { o with
    pending := Table.erase o.pending seq
    rdc := Table.erase o.rdc seq }.removeFromRedeliverQueue seq

def removeDown (o : Consumer) : Nat → Nat → Consumer
  | 0, _ => o
  | count + 1, seq => if o.pending = [] then o else removeDown (o.remove seq) count (seq - 1)

def removeThrough (o : Consumer) (sgap sseq : Nat) : Consumer :=
  if o.pending.length < sgap then
    ((o.pending.map Prod.fst).filter (fun seq => decide (seq ≤ sseq))).foldl remove o
  else o.removeDown sgap sseq

def ackOne (o : Consumer) (sseq dseq : Nat) : Consumer × Nat :=
  match Table.get o.pending sseq with
  | some p =>
    ({ o with pending := Table.erase o.pending sseq }.moveAckFloor p.sequence sseq, p.sequence)
  | none => (o, dseq)

def processAckMsg (o : Consumer) (sseq dseq : Nat) : Consumer :=
  if o.sseq ≤ sseq ∧ o.cfg.flowControl = false then o
  else match o.cfg.ackPolicy with
    | .ackExplicit =>
      let (o, dseq) := o.ackOne sseq dseq
      let o := { o with rdc := Table.erase o.rdc sseq }.removeFromRedeliverQueue sseq
      o.updateAcks dseq sseq
    | .ackAll | .ackFlowControl =>
      if dseq ≤ o.adflr ∨ sseq ≤ o.asflr then o
      else
        let sgap := sseq - o.asflr
        let o := { o with adflr := dseq, asflr := sseq }.removeThrough sgap sseq
        o.updateAcks dseq sseq
    | .ackNone => o

def processTerm (o : Consumer) (sseq dseq : Nat) : Consumer := o.processAckMsg sseq dseq

/-- A delay puts the end of the wait at `delay` from now. -/
def processNak (o : Consumer) (sseq dseq dc : Nat) (delay : Option Int) (now : Int) : Consumer :=
  if dseq ≤ o.adflr ∨ o.dseq < dseq then o
  else match Table.get o.pending sseq, delay with
    | none, _ => o
    | some p, some delay =>
      let ts := now - o.cfg.ackWait + delay
      let o := o.removeFromRedeliverQueue sseq
      { o with pending := Table.set o.pending sseq { p with timestamp := ts } }.updateDelivered
        p.sequence sseq dc ts
    | some _, none => if sseq ∈ o.rdqi then o else o.addToRedeliverQueue [sseq]

def progressUpdate (o : Consumer) (seq : Nat) (now : Int) : Consumer :=
  match Table.get o.pending seq with
  | none => o
  | some p =>
    { o with pending := Table.set o.pending seq { p with timestamp := now } }.updateDelivered
      p.sequence seq 1 now

def didNotDeliver (o : Consumer) (seq : Nat) : Consumer :=
  let o := o.decDeliveryCount seq
  if o.cfg.pull ∧ (Table.get o.pending seq).isSome ∧ seq ∉ o.rdqi then o.addToRedeliverQueue [seq]
  else o

/-! Redelivery. -/

/-- No request waits for the message: the next call takes it again. -/
def putBack (o : Consumer) (seq dc : Nat) : Consumer :=
  if dc = 1 ∧ seq = o.sseq - 1 then { o with sseq := o.sseq - 1 }
  else if seq ∈ o.rdqi then o
  else (o.decDeliveryCount seq).addToRedeliverQueue [seq]

/-- A message that is due again, `dc` being the number of this delivery. -/
def attempt (o : Consumer) (seq dc : Nat) (loaded : Loaded) (request : Bool) (now : Int) :
    Consumer :=
  if 0 < o.maxdc ∧ o.maxdc < dc then o.dropPending seq dc
  else match loaded with
    | .found ts =>
      if o.cfg.pull = true ∧ request = false then o.putBack seq dc
      else o.deliverMsg seq ts dc now
    | .missing =>
      let o := o.decDeliveryCount seq
      match Table.get o.pending seq with
      | some p => o.processTerm seq p.sequence
      | none => o
    | .failed => o.decDeliveryCount seq

/-- One turn of the loop of `getNextMsg` over the redelivery queue, and the delivery of what it
finds. The lock is held until a message is found. -/
def redeliver (o : Consumer) (loaded : Loaded) (request : Bool) (now : Int) : Consumer :=
  match o.getNextToRedeliver with
  | (o, none) => o
  | (o, some seq) =>
    let (o, dc) := o.incDeliveryCount seq
    o.attempt seq dc loaded request now

/-! Messages whose wait is over. -/

def deadline (o : Consumer) (seq : Nat) : Int :=
  if o.cfg.backOff = [] then o.cfg.ackWait
  else
    let dc := if o.redelivered seq < word / 2 then o.redelivered seq else 0
    o.cfg.backOff.getD (min dc (o.cfg.backOff.length - 1)) 0

structure Sweep where
  o : Consumer
  expired : List Nat
  shouldUpdateState : Bool

/-- An entry that is queued already, or has reached the limit, does not expire again. -/
def Sweep.expire (s : Sweep) (seq : Nat) : Sweep :=
  if seq ∈ s.o.rdqi then s
  else
    let (o, hit) := s.o.hasMaxDeliveries seq
    if hit then { s with o := o } else { s with expired := s.expired ++ [seq] }

def Sweep.visit (fseq : Nat) (now : Int) (s : Sweep) (seq : Nat) : Sweep :=
  match Table.get s.o.pending seq with
  | none => s
  | some p =>
    if seq < fseq ∨ seq ≤ s.o.asflr then
      let o := s.o.remove seq
      { s with
        o := { o with asflr := max o.asflr seq, adflr := max o.adflr p.sequence }
        shouldUpdateState := true }
    else if s.o.deadline seq ≤ now - p.timestamp then s.expire seq
    else s

/-- The times of expired entries keep their order. -/
def shiftTimes (pending : PendingMap) (expired : List Nat) (now : Int) : PendingMap :=
  match expired with
  | [] => pending
  | first :: _ =>
    let off := now - ((Table.get pending first).map Pending.timestamp).getD 0
    pending.map (fun (seq, p) =>
      (seq, if seq ∈ expired then { p with timestamp := p.timestamp + off } else p))

def requeue (o : Consumer) (expired : List Nat) (now : Int) : Consumer :=
  if expired = [] then o
  else
    let expired := expired.insertionSort (· ≤ ·)
    let o := o.addToRedeliverQueue expired
    { o with pending := shiftTimes o.pending expired now }

/-- With more than 1024 entries an incoming acknowledgement stops the sweep where it is. -/
def checkPending (o : Consumer) (fseq : Nat) (now : Int) (order : List Nat) (bail : Option Nat) :
    Consumer :=
  match bail with
  | some visited =>
    if 1024 < o.pending.length then
      ((order.take visited).foldl (Sweep.visit fseq now) ⟨o, [], false⟩).o
    else o
  | none =>
    let s := order.foldl (Sweep.visit fseq now) ⟨o, [], false⟩
    let o := s.o.requeue s.expired now
    let o := if o.pending = [] then
      { o with rdq := [], rdqi := ∅, adflr := o.dseq - 1, asflr := o.sseq - 1 } else o
    if s.shouldUpdateState then o.writeStoreState else o

def forceExpirePending (o : Consumer) (now : Int) (order : List Nat) : Consumer :=
  let s := order.foldl Sweep.expire ⟨o, [], false⟩
  s.o.requeue s.expired now

/-! Purges of the stream. -/

def purgeEntry (isWider : Bool) (gone : Nat → Bool) (o : Consumer) (seq : Nat) : Consumer :=
  match Table.get o.pending seq with
  | none => o
  | some p =>
    if seq ≤ o.asflr ∨ isWider = true ∧ gone seq = true then
      let o := if o.adflr < p.sequence then
        { o with adflr := p.sequence, dseq := max o.dseq p.sequence } else o
      { o with
        pending := Table.erase o.pending seq
        rdc := Table.erase o.rdc seq }.updateAcks p.sequence seq
    else o

def purgeQueue (o : Consumer) : Consumer :=
  if o.rdq = [] then o
  else { o with rdq := [], rdqi := ∅ }.addToRedeliverQueue
    (o.rdq.filter (fun seq => decide (o.sseq ≤ seq)))

/-- The new start: without a first sequence everything for this consumer is gone. -/
def purgeStart (sseq slseq : Nat) (isWider : Bool) : Nat :=
  if sseq = 0 ∧ isWider = false then slseq + 1 else sseq

def purge (o : Consumer) (sseq slseq : Nat) (isWider : Bool) (gone : Nat → Bool)
    (order : List Nat) : Consumer :=
  if o.leader = false then o
  else
    let sseq := purgeStart sseq slseq isWider
    let o := { o with sseq := max o.sseq sseq }
    let o := if o.asflr < sseq then
      order.foldl (purgeEntry isWider gone) { o with asflr := sseq - 1 } else o
    let o := if o.pending = [] then
      { o with rdc := [], adflr := o.dseq - 1, asflr := o.sseq - 1 } else o
    o.purgeQueue.writeStoreState

end Consumer
end LinearNats.JetStream
