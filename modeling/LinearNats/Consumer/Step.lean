import LinearNats.Run
import LinearNats.Consumer.State

/-! The events of a consumer and its redelivery queue. Each function that decides between updates is
first brought to one update, so that later proofs only look at fields. -/
namespace LinearNats.JetStream
open Scan List Consumer

/-- What happens to a consumer. The stream's answers are part of the event: the message that comes
next or the end of the stream, whether a message due again is still there, the first sequence of the
stream. A list of last messages is done with its last one; the search then goes on at `resume`. -/
inductive Event where
  | deliver (seq : Nat) (resume : Option Nat) (ts now : Int)
  | skip (last : Nat)
  | redeliver (loaded : Loaded) (request : Bool) (now : Int)
  | ack (sseq dseq : Nat)
  | term (sseq dseq : Nat)
  | nak (sseq dseq dc : Nat) (delay : Option Int) (now : Int)
  | progress (seq : Nat) (now : Int)
  | didNotDeliver (seq : Nat)
  | checkPending (fseq : Nat) (now : Int) (order : List Nat) (bail : Option Nat)
  | forceExpirePending (now : Int) (order : List Nat)
  | purge (sseq slseq : Nat) (isWider : Bool) (gone : Nat → Bool) (order : List Nat)

/-- The sequence to go on from, a 64-bit number. -/
def nextSeq (seq : Nat) (resume : Option Nat) : Nat := (resume.getD seq + 1) % word

example : nextSeq (2 ^ 64 - 1) none = 0 := by decide

namespace Consumer

def step (o : Consumer) : Event → Consumer
  | .deliver seq resume ts now => { o with sseq := nextSeq seq resume }.deliverMsg seq ts 1 now
  | .skip last => if o.sseq ≤ last then { o with sseq := nextSeq last none } else o
  | .redeliver loaded request now => o.redeliver loaded request now
  | .ack sseq dseq => o.processAckMsg sseq dseq
  | .term sseq dseq => o.processTerm sseq dseq
  | .nak sseq dseq dc delay now => o.processNak sseq dseq dc delay now
  | .progress seq now => o.progressUpdate seq now
  | .didNotDeliver seq => o.didNotDeliver seq
  | .checkPending fseq now order bail => o.checkPending fseq now order bail
  | .forceExpirePending now order => o.forceExpirePending now order
  | .purge sseq slseq isWider gone order => o.purge sseq slseq isWider gone order

end Consumer

/-- The message that an event sends. Each delivery takes a consumer sequence of its own. -/
def deliveredBy (o : Consumer) : Event → Option Nat
  | .deliver seq _ _ _ => some seq
  | .redeliver loaded request now =>
    if o.dseq < (o.redeliver loaded request now).dseq then o.rdq.head? else none
  | _ => none

/-- A consumer and, beside it, what it has sent: stream and consumer sequence of each delivery, and
the deliveries that were reported as failed. -/
structure Journal where
  o : Consumer
  delivered : List (Nat × Nat)
  failed : List Nat

def Journal.step (j : Journal) (e : Event) : Journal where
  o := j.o.step e
  delivered := (deliveredBy j.o e).toList.map (fun seq => (seq, j.o.dseq)) ++ j.delivered
  failed := match e with
    | .didNotDeliver seq => seq :: j.failed
    | _ => j.failed

theorem Journal.step_none {j : Journal} {e : Event} (nothing : deliveredBy j.o e = none)
    (sent : ∀ seq, e ≠ .didNotDeliver seq) : j.step e = { j with o := j.o.step e } := by
  unfold Journal.step
  rw [nothing]
  split
  · exact absurd rfl (sent _)
  · rfl

theorem Journal.step_some {j : Journal} {e : Event} {seq : Nat}
    (one : deliveredBy j.o e = some seq) :
    j.step e = ⟨j.o.step e, (seq, j.o.dseq) :: j.delivered, j.failed⟩ := by
  unfold Journal.step
  rw [one]
  split
  · cases one
  · rfl

def Iterates (order : List Nat) (o : Consumer) : Prop :=
  order.Nodup ∧ ∀ seq, seq ∈ order ↔ (Table.get o.pending seq).isSome = true

/-- First deliveries go up. After the last 64-bit sequence the search would start again at 0, so no
run gets there. -/
def Valid (o : Consumer) : Event → Prop
  | .deliver seq resume _ _ =>
    o.sseq ≤ seq ∧ seq ≤ resume.getD seq ∧ resume.getD seq + 1 < word
  | .skip last => last + 1 < word
  | .checkPending _ _ order _ => Iterates order o
  | .forceExpirePending _ order => Iterates order o
  | .purge _ _ _ _ order => Iterates order o
  | _ => True

theorem Valid.deliver {o : Consumer} {seq : Nat} {resume : Option Nat} {ts now : Int}
    (valid : Valid o (.deliver seq resume ts now)) : o.sseq ≤ seq ∧ seq < nextSeq seq resume := by
  obtain ⟨ahead, resumes, fits⟩ := valid
  rw [nextSeq, Nat.mod_eq_of_lt fits]
  exact ⟨ahead, Nat.lt_succ_of_le resumes⟩

theorem Valid.skip {o : Consumer} {last : Nat} (valid : Valid o (.skip last)) :
    ∃ next, o.step (.skip last) = { o with sseq := next } ∧ o.sseq ≤ next := by
  rw [step]
  split
  next ahead =>
    have fits : last + 1 < word := valid
    refine ⟨last + 1, ?_, Nat.le_succ_of_le ahead⟩
    rw [nextSeq, Option.getD_none, Nat.mod_eq_of_lt fits]
  · exact ⟨o.sseq, rfl, le_rfl⟩

/-! One update for each function. -/

def floorAfter (pending : PendingMap) (sseq dseq adflr asflr : Nat) (d s : Nat) : SequencePair :=
  if pending = [] then ⟨dseq - 1, sseq - 1⟩
  else if d = adflr + 1 then nextFloor pending d s (sseq - 1)
  else ⟨adflr, asflr⟩

section Updates

variable {o : Consumer} {seq : Nat}

theorem moveAckFloor_eq (o : Consumer) (d s : Nat) : o.moveAckFloor d s =
    { o with
      adflr := (floorAfter o.pending o.sseq o.dseq o.adflr o.asflr d s).consumer
      asflr := (floorAfter o.pending o.sseq o.dseq o.adflr o.asflr d s).stream } := by
  simp only [moveAckFloor, floorAfter]
  split
  · rfl
  · split <;> rfl

theorem trackPending_eq (o : Consumer) (sseq dseq : Nat) (now : Int) : o.trackPending sseq dseq now =
    { o with pending := (Table.set o.pending sseq
        ⟨((Table.get o.pending sseq).map Pending.sequence).getD dseq, now⟩) } := by
  rw [trackPending]
  split <;> rename_i found <;> simp only [found, Option.map_some, Option.map_none, Option.getD_some,
    Option.getD_none]

theorem deliverMsg_eq (acks : o.cfg.ackPolicy ≠ .ackNone) (seq : Nat) (ts : Int) (dc : Nat)
    (now : Int) : o.deliverMsg seq ts dc now =
      { o with
        dseq := o.dseq + 1
        store := (o.store.updateDelivered o.cfg o.dseq seq dc ts).1
        pending := (Table.set o.pending seq
          ⟨((Table.get o.pending seq).map Pending.sequence).getD o.dseq, now⟩) } := by
  rw [deliverMsg]
  simp only [updateDelivered, if_neg acks, trackPending_eq]

theorem dropPending_none (absent : Table.get o.pending seq = none) (dc : Nat) :
    o.dropPending seq dc = o := by
  rw [dropPending, absent]

theorem dropPending_some {p : Pending} (found : Table.get o.pending seq = some p) (dc : Nat) :
    o.dropPending seq dc =
      { o with
        pending := Table.erase o.pending seq
        store := (o.store.updateDelivered o.cfg p.sequence seq dc p.timestamp).1
        adflr := (floorAfter (Table.erase o.pending seq) o.sseq o.dseq o.adflr o.asflr
          p.sequence seq).consumer
        asflr := (floorAfter (Table.erase o.pending seq) o.sseq o.dseq o.adflr o.asflr
          p.sequence seq).stream } := by
  rw [dropPending, found]
  dsimp only
  rw [moveAckFloor_eq]
  rfl

theorem erase_none {pending : PendingMap} (absent : Table.get pending seq = none) (other : Nat) :
    Table.get (Table.erase pending seq) other = Table.get pending other := by
  rw [Table.get_erase]
  split
  next same => rw [← same, absent]
  · rfl

theorem dropPending_get (o : Consumer) (seq dc other : Nat) :
    Table.get (o.dropPending seq dc).pending other =
      Table.get (Table.erase o.pending seq) other := by
  cases found : Table.get o.pending seq with
  | none => rw [dropPending_none found, erase_none found]
  | some p => rw [dropPending_some found]

def AtLimit (o : Consumer) (seq : Nat) : Prop := o.maxdc ≠ 0 ∧ o.maxdc ≤ o.deliveryCount seq

instance (o : Consumer) (seq : Nat) : Decidable (AtLimit o seq) :=
  inferInstanceAs (Decidable (_ ∧ _))

def exceed (o : Consumer) (seq : Nat) : Consumer :=
  { o.dropPending seq (o.deliveryCount seq) with
    rdc := Table.set (o.dropPending seq (o.deliveryCount seq)).rdc seq (o.deliveryCount seq) }

theorem hasMaxDeliveries_eq (o : Consumer) (seq : Nat) : o.hasMaxDeliveries seq =
    if AtLimit o seq then (exceed o seq, true) else (o, false) := by
  rw [hasMaxDeliveries]
  split
  next unlimited =>
    rw [if_neg (fun limit => limit.1 unlimited)]
  next unlimited =>
  by_cases reached : o.maxdc ≤ o.deliveryCount seq
  · rw [if_pos (show AtLimit o seq from ⟨unlimited, reached⟩)]
    simp only [if_pos reached]
    rfl
  · rw [if_neg (fun limit : AtLimit o seq => reached limit.2)]
    simp only [if_neg reached]

theorem expire_eq (s : Sweep) (seq : Nat) : s.expire seq =
    if seq ∈ s.o.rdqi then s
    else if AtLimit s.o seq then { s with o := exceed s.o seq }
    else { s with expired := s.expired ++ [seq] } := by
  rw [Sweep.expire, hasMaxDeliveries_eq]
  by_cases limit : AtLimit s.o seq
  · simp only [if_pos limit, if_true]
  · simp only [if_neg limit, Bool.false_eq_true, if_false]

def nextCount (o : Consumer) (seq : Nat) : Nat := (o.redelivered seq + 1) % word

def turned (o : Consumer) (seq : Nat) (rest : List Nat) : Consumer :=
  { o with
    rdq := rest
    rdqi := o.rdqi.erase seq
    rdc := Table.set o.rdc seq (nextCount o seq) }

end Updates

/-! The queue. -/

def Indexes (o : Consumer) : Prop := o.rdqi = o.rdq.toFinset ∧ o.rdq.Nodup

namespace Indexes

variable {o : Consumer} {seq : Nat}

theorem mem_iff (h : Indexes o) : seq ∈ o.rdqi ↔ seq ∈ o.rdq := by
  rw [h.1, mem_toFinset]

theorem erase (h : Indexes o) (seq : Nat) : o.rdqi.erase seq = (o.rdq.erase seq).toFinset := by
  ext other
  rw [h.1, Finset.mem_erase, mem_toFinset, mem_toFinset, h.2.mem_erase_iff]

theorem removeFromRedeliverQueue_eq (h : Indexes o) (seq : Nat) :
    o.removeFromRedeliverQueue seq =
      { o with rdq := o.rdq.erase seq, rdqi := o.rdqi.erase seq } := by
  rw [removeFromRedeliverQueue]
  by_cases inside : seq ∈ o.rdq
  · rw [if_pos ⟨h.mem_iff.mpr inside, inside⟩]
    split
    next single =>
      obtain ⟨only, same⟩ := length_eq_one_iff.mp single
      have is_seq : seq = only := by simpa [same] using inside
      have empty : o.rdq.erase seq = [] := by rw [same, is_seq]; simp
      rw [h.erase, empty, toFinset_nil]
    · rfl
  · rw [if_neg (fun both => inside both.2), erase_of_not_mem inside,
      Finset.erase_eq_of_notMem (fun there => inside (h.mem_iff.mp there))]

theorem remove_eq (h : Indexes o) (seq : Nat) : o.remove seq =
    { o with
      pending := Table.erase o.pending seq
      rdc := Table.erase o.rdc seq
      rdq := o.rdq.erase seq
      rdqi := o.rdqi.erase seq } := by
  rw [remove]
  exact @removeFromRedeliverQueue_eq
    { o with pending := Table.erase o.pending seq, rdc := Table.erase o.rdc seq } h seq

theorem getNextToRedeliver_cons (h : Indexes o) {rest : List Nat} (queue : o.rdq = seq :: rest) :
    o.getNextToRedeliver = ({ o with rdq := rest, rdqi := o.rdqi.erase seq }, some seq) := by
  rw [getNextToRedeliver]
  split
  next empty =>
    rw [queue] at empty
    cases empty
  next only single =>
    rw [queue] at single
    obtain ⟨rfl, rfl⟩ := List.cons.inj single
    rw [h.1, queue]
    simp
  next first others _ more =>
    rw [queue] at more
    obtain ⟨rfl, rfl⟩ := List.cons.inj more
    rfl

theorem redeliver_nil (queue : o.rdq = []) (loaded : Loaded) (request : Bool) (now : Int) :
    o.redeliver loaded request now = o := by
  rw [redeliver, getNextToRedeliver, queue]

theorem redeliver_cons (h : Indexes o) {rest : List Nat} (queue : o.rdq = seq :: rest)
    (loaded : Loaded) (request : Bool) (now : Int) : o.redeliver loaded request now =
      (turned o seq rest).attempt seq ((nextCount o seq + 1) % word) loaded request now := by
  rw [redeliver, h.getNextToRedeliver_cons queue]
  rfl

end Indexes

/-! Acknowledgements of one message. -/

section Explicit

variable {o : Consumer} {sseq : Nat}

theorem processAckMsg_ahead (ahead : o.sseq ≤ sseq) (ordinary : o.cfg.flowControl = false)
    (dseq : Nat) : o.processAckMsg sseq dseq = o := by
  rw [processAckMsg, if_pos ⟨ahead, ordinary⟩]

section

variable (explicit : o.cfg.ackPolicy = .ackExplicit) (indexes : Indexes o)
  (passed : ¬ (o.sseq ≤ sseq ∧ o.cfg.flowControl = false))

include explicit indexes passed

theorem processAckMsg_none (absent : Table.get o.pending sseq = none) (dseq : Nat) :
    o.processAckMsg sseq dseq =
      { o with
        rdc := Table.erase o.rdc sseq
        rdq := o.rdq.erase sseq
        rdqi := o.rdqi.erase sseq
        store := (o.store.updateAcks o.cfg dseq sseq).1 } := by
  rw [processAckMsg, if_neg passed, explicit]
  dsimp only
  rw [ackOne, absent]
  dsimp only
  rw [@Indexes.removeFromRedeliverQueue_eq { o with rdc := Table.erase o.rdc sseq } indexes]
  rfl

theorem processAckMsg_some {p : Pending} (found : Table.get o.pending sseq = some p) (dseq : Nat) :
    o.processAckMsg sseq dseq =
      { o with
        pending := Table.erase o.pending sseq
        adflr := (floorAfter (Table.erase o.pending sseq) o.sseq o.dseq o.adflr o.asflr
          p.sequence sseq).consumer
        asflr := (floorAfter (Table.erase o.pending sseq) o.sseq o.dseq o.adflr o.asflr
          p.sequence sseq).stream
        rdc := Table.erase o.rdc sseq
        rdq := o.rdq.erase sseq
        rdqi := o.rdqi.erase sseq
        store := (o.store.updateAcks o.cfg p.sequence sseq).1 } := by
  rw [processAckMsg, if_neg passed, explicit]
  dsimp only
  rw [ackOne, found]
  dsimp only
  rw [moveAckFloor_eq, Indexes.removeFromRedeliverQueue_eq (by exact indexes)]
  rfl

end

end Explicit

/-! Purges. -/

section Entries

variable {o : Consumer} {isWider : Bool} {gone : Nat → Bool} {order : List Nat}

theorem purgeEntry_pending (seq other : Nat) :
    Table.get (o.purgeEntry isWider gone seq).pending other =
      if seq = other ∧ (seq ≤ o.asflr ∨ isWider = true ∧ gone seq = true) then none
      else Table.get o.pending other := by
  rw [purgeEntry]
  split
  next absent =>
    split
    · rename_i both
      rw [← both.1, absent]
    · rfl
  rename_i p found
  split
  next goes =>
    have erased : Table.get (Table.erase o.pending seq) other =
        if seq = other ∧ (seq ≤ o.asflr ∨ isWider = true ∧ gone seq = true) then none
        else Table.get o.pending other := by
      rw [Table.get_erase]
      split
      next same =>
        rw [if_pos ⟨same, goes⟩]
      next same =>
        rw [if_neg (fun both => same both.1)]
    by_cases higher : o.adflr < p.sequence
    · simpa only [updateAcks, if_pos higher] using erased
    · simpa only [updateAcks, if_neg higher] using erased
  next goes =>
    rw [if_neg (fun both => goes both.2)]

/-- What the sweep of a purge leaves alone. -/
structure PurgeFrame (o o' : Consumer) : Prop where
  cfg : o'.cfg = o.cfg
  asflr : o'.asflr = o.asflr
  sseq : o'.sseq = o.sseq
  rdq : o'.rdq = o.rdq
  rdqi : o'.rdqi = o.rdqi

theorem purgeEntry_frame (o : Consumer) (seq : Nat) :
    PurgeFrame o (o.purgeEntry isWider gone seq) := by
  rw [purgeEntry]
  split
  · exact ⟨rfl, rfl, rfl, rfl, rfl⟩
  split
  · simp only [updateAcks]
    split <;> exact ⟨rfl, rfl, rfl, rfl, rfl⟩
  · exact ⟨rfl, rfl, rfl, rfl, rfl⟩

theorem purgeEntries_frame (o : Consumer) (order : List Nat) :
    PurgeFrame o (order.foldl (purgeEntry isWider gone) o) := by
  induction order generalizing o with
  | nil => exact ⟨rfl, rfl, rfl, rfl, rfl⟩
  | cons seq rest ih =>
    have step := @purgeEntry_frame isWider gone o seq
    have later := ih (o.purgeEntry isWider gone seq)
    exact ⟨later.cfg.trans step.cfg, later.asflr.trans step.asflr, later.sseq.trans step.sseq,
      later.rdq.trans step.rdq, later.rdqi.trans step.rdqi⟩

theorem purgeEntries_pending (order : List Nat) (other : Nat) :
    Table.get (order.foldl (purgeEntry isWider gone) o).pending other =
      if other ∈ order ∧ (other ≤ o.asflr ∨ isWider = true ∧ gone other = true) then none
      else Table.get o.pending other := by
  induction order generalizing o with
  | nil => simp
  | cons seq rest ih =>
    rw [foldl_cons, ih, purgeEntry_pending, (purgeEntry_frame o seq).asflr]
    by_cases goes : other ≤ o.asflr ∨ isWider = true ∧ gone other = true
    · by_cases same : seq = other
      · subst same
        simp [goes]
      · have other_seq : other ≠ seq := fun equal => same equal.symm
        simp only [goes, same, mem_cons, other_seq, false_or, false_and, if_false, and_true]
    · have kept : ¬ (seq = other ∧ (seq ≤ o.asflr ∨ isWider = true ∧ gone seq = true)) := by
        rintro ⟨rfl, goes'⟩
        exact goes goes'
      simp only [goes, and_false, if_false, if_neg kept]

def PurgesEntry (o : Consumer) (start : Nat) (isWider : Bool) (gone : Nat → Bool) (seq : Nat) :
    Prop :=
  o.asflr < start ∧ (seq < start ∨ isWider = true ∧ gone seq = true)

instance (o : Consumer) (start : Nat) (isWider : Bool) (gone : Nat → Bool) (seq : Nat) :
    Decidable (PurgesEntry o start isWider gone seq) := inferInstanceAs (Decidable (_ ∧ _))

def purgeSwept (o : Consumer) (start : Nat) (isWider : Bool) (gone : Nat → Bool)
    (order : List Nat) : Consumer :=
  if o.asflr < start then
    order.foldl (purgeEntry isWider gone)
      { o with sseq := max o.sseq start, asflr := start - 1 }
  else { o with sseq := max o.sseq start }

def purgeSettled (o : Consumer) : Consumer :=
  if o.pending = [] then { o with rdc := [], adflr := o.dseq - 1, asflr := o.sseq - 1 } else o

theorem purge_eq (leader : o.leader = true) (sseq slseq : Nat) :
    o.purge sseq slseq isWider gone order =
      (purgeSettled (purgeSwept o (purgeStart sseq slseq isWider) isWider gone
        order)).purgeQueue.writeStoreState := by
  rw [purge, if_neg (by rw [leader]; decide)]
  rfl

theorem purgeSettled_pending (o : Consumer) : (purgeSettled o).pending = o.pending := by
  rw [purgeSettled]
  split <;> rfl

theorem purgeSettled_frame (o : Consumer) : (purgeSettled o).cfg = o.cfg ∧
    (purgeSettled o).sseq = o.sseq ∧ (purgeSettled o).rdq = o.rdq ∧
      (purgeSettled o).rdqi = o.rdqi := by
  rw [purgeSettled]
  split <;> exact ⟨rfl, rfl, rfl, rfl⟩

theorem purgeSwept_frame (o : Consumer) (start : Nat) :
    (purgeSwept o start isWider gone order).cfg = o.cfg ∧
      (purgeSwept o start isWider gone order).sseq = max o.sseq start ∧
      (purgeSwept o start isWider gone order).rdq = o.rdq ∧
      (purgeSwept o start isWider gone order).rdqi = o.rdqi := by
  rw [purgeSwept]
  split
  · have frame := @purgeEntries_frame isWider gone
      { o with sseq := max o.sseq start, asflr := start - 1 } order
    exact ⟨frame.cfg, frame.sseq, frame.rdq, frame.rdqi⟩
  · exact ⟨rfl, rfl, rfl, rfl⟩

theorem purgeQueue_frame (o : Consumer) :
    o.purgeQueue.pending = o.pending ∧ o.purgeQueue.sseq = o.sseq := by
  rw [purgeQueue]
  split <;> exact ⟨rfl, rfl⟩

theorem purge_sseq (leader : o.leader = true) (sseq slseq : Nat) :
    (o.purge sseq slseq isWider gone order).sseq =
      max o.sseq (purgeStart sseq slseq isWider) := by
  rw [purge_eq leader]
  exact (purgeQueue_frame _).2.trans ((purgeSettled_frame _).2.1.trans (purgeSwept_frame o _).2.1)

theorem purgeSwept_get (o : Consumer) (start seq : Nat) :
    Table.get (purgeSwept o start isWider gone order).pending seq =
      if seq ∈ order ∧ PurgesEntry o start isWider gone seq then none
      else Table.get o.pending seq := by
  rw [purgeSwept]
  split
  next lower =>
    have swept := @purgeEntries_pending
      { o with sseq := max o.sseq start, asflr := start - 1 } isWider gone order seq
    have below : (seq ≤ start - 1 ∨ isWider = true ∧ gone seq = true) ↔
        PurgesEntry o start isWider gone seq := by
      rw [PurgesEntry, and_iff_right lower]
      exact or_congr_left (by omega)
    simp only [below] at swept
    exact swept
  next higher => rw [if_neg (fun both => higher both.2.1)]

theorem purge_pending (leader : o.leader = true) (sseq slseq : Nat)
    (all : ∀ seq, (Table.get o.pending seq).isSome = true → seq ∈ order) (seq : Nat) :
    (Table.get (o.purge sseq slseq isWider gone order).pending seq).isSome = true ↔
      (Table.get o.pending seq).isSome = true ∧
        ¬ PurgesEntry o (purgeStart sseq slseq isWider) isWider gone seq := by
  rw [purge_eq leader]
  change (Table.get (purgeQueue _).pending seq).isSome = true ↔ _
  rw [(purgeQueue_frame _).1, purgeSettled_pending, purgeSwept_get]
  split
  next taken => simp [taken.2]
  next kept => refine ⟨fun there => ⟨there, fun taken => kept ⟨all seq there, taken⟩⟩, And.left⟩

end Entries

/-! No event changes the configuration. -/

section Config

variable (o : Consumer)

theorem deliverMsg_cfg (seq : Nat) (ts : Int) (dc : Nat) (now : Int) :
    (o.deliverMsg seq ts dc now).cfg = o.cfg := by
  rw [deliverMsg]
  split
  · rfl
  · rw [trackPending_eq]
    rfl

theorem dropPending_cfg (seq dc : Nat) : (o.dropPending seq dc).cfg = o.cfg := by
  cases found : Table.get o.pending seq with
  | none => rw [dropPending_none found]
  | some p => rw [dropPending_some found]

theorem exceed_cfg (seq : Nat) : (exceed o seq).cfg = o.cfg := dropPending_cfg o seq _

/-- What taking out entries leaves alone. -/
structure Trimmed (o o' : Consumer) : Prop where
  cfg : o'.cfg = o.cfg
  sseq : o'.sseq = o.sseq
  dseq : o'.dseq = o.dseq
  adflr : o'.adflr = o.adflr
  asflr : o'.asflr = o.asflr
  store : o'.store = o.store

theorem Trimmed.refl : Trimmed o o := ⟨rfl, rfl, rfl, rfl, rfl, rfl⟩

theorem Trimmed.trans {o o' o'' : Consumer} (h : Trimmed o o') (h' : Trimmed o' o'') :
    Trimmed o o'' :=
  ⟨h'.cfg.trans h.cfg, h'.sseq.trans h.sseq, h'.dseq.trans h.dseq, h'.adflr.trans h.adflr,
    h'.asflr.trans h.asflr, h'.store.trans h.store⟩

theorem removeFromRedeliverQueue_trimmed (seq : Nat) :
    Trimmed o (o.removeFromRedeliverQueue seq) := by
  rw [removeFromRedeliverQueue]
  split
  · split <;> exact ⟨rfl, rfl, rfl, rfl, rfl, rfl⟩
  · exact .refl o

theorem remove_trimmed (seq : Nat) : Trimmed o (o.remove seq) := by
  have queue := removeFromRedeliverQueue_trimmed
    { o with pending := Table.erase o.pending seq, rdc := Table.erase o.rdc seq } seq
  exact { queue with }

theorem removeThrough_trimmed (sgap sseq : Nat) : Trimmed o (o.removeThrough sgap sseq) := by
  have each : ∀ (seqs : List Nat) (o : Consumer), Trimmed o (seqs.foldl remove o) := by
    intro seqs
    induction seqs with
    | nil => exact .refl
    | cons seq rest ih => exact fun o => (remove_trimmed o seq).trans (ih (o.remove seq))
  have down : ∀ (count seq : Nat) (o : Consumer), Trimmed o (o.removeDown count seq) := by
    intro count
    induction count with
    | zero => exact fun _ => .refl
    | succ count ih =>
      intro seq o
      rw [removeDown]
      split
      · exact .refl o
      · exact (remove_trimmed o seq).trans (ih (seq - 1) (o.remove seq))
  rw [removeThrough]
  split
  · exact each _ o
  · exact down _ _ o

theorem moveAckFloor_cfg (d s : Nat) : (o.moveAckFloor d s).cfg = o.cfg := by
  rw [moveAckFloor_eq]

theorem ackOne_cfg (sseq dseq : Nat) : (o.ackOne sseq dseq).1.cfg = o.cfg := by
  rw [ackOne]
  split
  · exact moveAckFloor_cfg _ _ _
  · rfl

theorem processAckMsg_cfg (sseq dseq : Nat) : (o.processAckMsg sseq dseq).cfg = o.cfg := by
  unfold processAckMsg
  split
  · rfl
  split
  · exact (removeFromRedeliverQueue_trimmed _ sseq).cfg.trans (ackOne_cfg o sseq dseq)
  · split
    · rfl
    · exact (removeThrough_trimmed _ _ _).cfg
  · split
    · rfl
    · exact (removeThrough_trimmed _ _ _).cfg
  · rfl

theorem processNak_cfg (sseq dseq dc : Nat) (delay : Option Int) (now : Int) :
    (o.processNak sseq dseq dc delay now).cfg = o.cfg := by
  unfold processNak
  split
  · rfl
  split
  · rfl
  · exact (removeFromRedeliverQueue_trimmed o sseq).cfg
  · split <;> rfl

theorem attempt_cfg (seq dc : Nat) (loaded : Loaded) (request : Bool) (now : Int) :
    (o.attempt seq dc loaded request now).cfg = o.cfg := by
  unfold attempt
  split
  · exact dropPending_cfg o seq dc
  split
  · split
    · rw [putBack]
      split
      · rfl
      · split <;> rfl
    · exact deliverMsg_cfg o _ _ _ _
  · dsimp only
    split
    · exact processAckMsg_cfg _ _ _
    · rfl
  · rfl

theorem getNextToRedeliver_cfg : o.getNextToRedeliver.1.cfg = o.cfg := by
  rw [getNextToRedeliver]
  split <;> rfl

theorem redeliver_cfg (loaded : Loaded) (request : Bool) (now : Int) :
    (o.redeliver loaded request now).cfg = o.cfg := by
  have popped := getNextToRedeliver_cfg o
  unfold redeliver
  generalize o.getNextToRedeliver = r at popped ⊢
  obtain ⟨o', seq⟩ := r
  cases seq with
  | none => exact popped
  | some seq => exact (attempt_cfg _ _ _ _ _ _).trans popped

theorem expire_cfg (s : Sweep) (seq : Nat) : (s.expire seq).o.cfg = s.o.cfg := by
  rw [expire_eq]
  split
  · rfl
  · split
    · exact exceed_cfg s.o seq
    · rfl

theorem visit_cfg (fseq : Nat) (now : Int) (s : Sweep) (seq : Nat) :
    (s.visit fseq now seq).o.cfg = s.o.cfg := by
  rw [Sweep.visit]
  split
  · rfl
  split
  · exact (remove_trimmed s.o seq).cfg
  · split
    · exact expire_cfg s seq
    · rfl

theorem sweep_cfg {visit : Sweep → Nat → Sweep}
    (one : ∀ s seq, (visit s seq).o.cfg = s.o.cfg) (order : List Nat) (s : Sweep) :
    (order.foldl visit s).o.cfg = s.o.cfg := by
  induction order generalizing s with
  | nil => rfl
  | cons seq rest ih => exact (ih (visit s seq)).trans (one s seq)

theorem requeue_cfg (expired : List Nat) (now : Int) : (o.requeue expired now).cfg = o.cfg := by
  rw [requeue]
  split <;> rfl

theorem checkPending_cfg (fseq : Nat) (now : Int) (order : List Nat) (bail : Option Nat) :
    (o.checkPending fseq now order bail).cfg = o.cfg := by
  unfold checkPending
  cases bail with
  | some visited =>
    dsimp only
    split
    · exact sweep_cfg (visit_cfg fseq now) _ _
    · rfl
  | none =>
    have swept := sweep_cfg (visit_cfg fseq now) order ⟨o, [], false⟩
    dsimp only
    generalize order.foldl (Sweep.visit fseq now) ⟨o, [], false⟩ = s at swept ⊢
    have requeued := (requeue_cfg s.o s.expired now).trans swept
    generalize s.o.requeue s.expired now = r at requeued ⊢
    split <;> split <;> exact requeued

theorem purge_cfg (sseq slseq : Nat) (isWider : Bool) (gone : Nat → Bool) (order : List Nat) :
    (o.purge sseq slseq isWider gone order).cfg = o.cfg := by
  cases leader : o.leader with
  | false => rw [purge, if_pos leader]
  | true =>
    rw [purge_eq leader]
    have queue : ∀ o : Consumer, o.purgeQueue.cfg = o.cfg := by
      intro o
      rw [purgeQueue]
      split <;> rfl
    exact (queue _).trans ((purgeSettled_frame _).1.trans (purgeSwept_frame o _).1)

theorem step_cfg (e : Event) : (o.step e).cfg = o.cfg := by
  cases e with
  | deliver seq resume ts now => exact deliverMsg_cfg _ seq ts 1 now
  | skip last =>
    rw [step]
    split <;> rfl
  | redeliver loaded request now => exact redeliver_cfg o loaded request now
  | ack sseq dseq => exact processAckMsg_cfg o sseq dseq
  | term sseq dseq => exact processAckMsg_cfg o sseq dseq
  | nak sseq dseq dc delay now => exact processNak_cfg o sseq dseq dc delay now
  | progress seq now =>
    change (o.progressUpdate seq now).cfg = o.cfg
    rw [progressUpdate]
    split <;> rfl
  | didNotDeliver seq =>
    change (o.didNotDeliver seq).cfg = o.cfg
    rw [didNotDeliver]
    split <;> rfl
  | checkPending fseq now order bail => exact checkPending_cfg o fseq now order bail
  | forceExpirePending now order =>
    exact (requeue_cfg _ _ _).trans (sweep_cfg expire_cfg order ⟨o, [], false⟩)
  | purge sseq slseq isWider gone order => exact purge_cfg o sseq slseq isWider gone order

end Config

end LinearNats.JetStream
