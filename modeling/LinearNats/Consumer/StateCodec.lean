import LinearNats.LittleEndian
import LinearNats.Table

/-! The bytes of a consumer's state: `encodeConsumerState` and `decodeConsumerState`. A map is the
list of its entries, written in the order in which the encoder goes over it. -/
namespace LinearNats.ConsumerCodec
open LittleEndian List

abbrev Bytes := List UInt8

structure SequencePair where
  consumer : UInt64
  stream : UInt64
  deriving DecidableEq

structure Pending where
  sequence : UInt64
  timestamp : Int64
  deriving DecidableEq

structure ConsumerState where
  delivered : SequencePair
  ackFloor : SequencePair
  pending : List (UInt64 × Pending)
  redelivered : List (UInt64 × UInt64)
  deriving DecidableEq

inductive StateErr where
  | corruptState
  | unsupportedVersion (version : UInt8)
  deriving DecidableEq

def magic : UInt8 := 22
def hdrLen : Nat := 2
def second : Int64 := 1000000000
def hbit : Nat := 2 ^ 63

def putSeq (seq : UInt64) : Bytes := putUvarint 10 seq.toNat

def encodePending (ackFloor : SequencePair) (mints : Int64) (e : UInt64 × Pending) : Bytes :=
  putSeq (e.1 - ackFloor.stream) ++ putSeq (e.2.sequence - ackFloor.consumer) ++
    putVarint (mints - e.2.timestamp / second)

def encodeRedelivered (ackFloor : SequencePair) (e : UInt64 × UInt64) : Bytes :=
  putSeq (e.1 - ackFloor.stream) ++ putSeq e.2

def encodeHeader (state : ConsumerState) : Bytes :=
  putSeq state.ackFloor.consumer ++ putSeq state.ackFloor.stream ++
    putSeq state.delivered.consumer ++ putSeq state.delivered.stream

def encodeAllPending (mints : Int64) (state : ConsumerState) : Bytes :=
  putUvarint 10 state.pending.length ++
    if state.pending = [] then []
    else putVarint mints ++ state.pending.flatMap (encodePending state.ackFloor mints)

def encodeAllRedelivered (state : ConsumerState) : Bytes :=
  putUvarint 10 state.redelivered.length ++
    state.redelivered.flatMap (encodeRedelivered state.ackFloor)

/-- `mints` is the current time in seconds. -/
def encodeConsumerState (mints : Int64) (state : ConsumerState) : Bytes :=
  [magic, 2] ++ (encodeHeader state ++ (encodeAllPending mints state ++ encodeAllRedelivered state))

def checkConsumerHeader : Bytes → Except StateErr UInt8
  | m :: version :: _ =>
    if m ≠ magic then .error .corruptState
    else if version = 1 ∨ version = 2 then .ok version
    else .error (.unsupportedVersion version)
  | _ => .error .corruptState

/-- The position `bi` is given by the bytes from it on, and `-1` by `none`. -/
abbrev Position := Option Bytes

def readSeq (bi : Position) : UInt64 × Position :=
  let (n, bi) := readUvarint bi
  (UInt64.ofNat n, bi)

def readPending (version : UInt8) (ackFloor : SequencePair) (mints : Int64) :
    Nat → Position → List (UInt64 × Pending) →
      Except StateErr (List (UInt64 × Pending) × Position)
  | 0, bi, pending => .ok (pending, bi)
  | n + 1, bi, pending =>
    let (sseq, bi) := readSeq bi
    let (dseq, bi) := if version = 2 then readSeq bi else (0, bi)
    let (ts, bi) := readVarint bi
    if bi = none then .error .corruptState
    else
      let sseq := sseq + ackFloor.stream
      if sseq = 0 then .error .corruptState
      else
        let dseq := if version = 2 then dseq + ackFloor.consumer else dseq
        let ts := if version = 1 then (ts + mints) * second else (mints - ts) * second
        readPending version ackFloor mints n bi (Table.set pending sseq ⟨dseq, ts⟩)

def readRedelivered (ackFloor : SequencePair) :
    Nat → Position → List (UInt64 × UInt64) → List (UInt64 × UInt64)
  | 0, _, redelivered => redelivered
  | k + 1, bi, redelivered =>
    let (seq, bi) := readSeq bi
    let (n, bi) := readSeq bi
    readRedelivered ackFloor k bi
      (if seq > 0 ∧ n > 0 then Table.set redelivered (seq + ackFloor.stream) n else redelivered)

def loopBound (n : Nat) : Nat := if n < hbit then n else 0

def readAllPending (version : UInt8) (ackFloor : SequencePair) (bi : Position) :
    Except StateErr (List (UInt64 × Pending) × Position) :=
  let (numPending, bi) := readUvarint bi
  if numPending > 0 then
    let (mints, bi) := readVarint bi
    readPending version ackFloor mints (loopBound numPending) bi []
  else .ok ([], bi)

def readAllRedelivered (ackFloor : SequencePair) (bi : Position) : List (UInt64 × UInt64) :=
  let (numRedelivered, bi) := readUvarint bi
  readRedelivered ackFloor (loopBound numRedelivered) bi []

/-- Version 1 stored `Delivered` as the difference to the floor, and as the next one to deliver. -/
def adjust (version : UInt8) (floor delivered : UInt64) : UInt64 :=
  if version = 1 ∧ floor > 1 then delivered + (floor - 1) else delivered

def readHeader (version : UInt8) (bi : Position) : SequencePair × SequencePair × Position :=
  let (ackConsumer, bi) := readSeq bi
  let (ackStream, bi) := readSeq bi
  let (consumer, bi) := readSeq bi
  let (stream, bi) := readSeq bi
  (⟨ackConsumer, ackStream⟩,
    ⟨adjust version ackConsumer consumer, adjust version ackStream stream⟩, bi)

def decodeConsumerState (buf : Bytes) : Except StateErr ConsumerState := do
  let version ← checkConsumerHeader buf
  let (ackFloor, delivered, bi) := readHeader version (some (buf.drop hdrLen))
  if bi = none then .error .corruptState
  else if hbit ≤ ackFloor.stream.toNat ∨ hbit ≤ delivered.stream.toNat then .error .corruptState
  else
    let (pending, bi) ← readAllPending version ackFloor bi
    return ⟨delivered, ackFloor, pending, readAllRedelivered ackFloor bi⟩

/-- What `Update` of a consumer's store accepts, with distinct keys and a length that is an `int`
as in every map, and positive counts of redeliveries. -/
structure Accepted (s : ConsumerState) : Prop where
  consumer : s.ackFloor.consumer ≤ s.delivered.consumer
  stream : s.ackFloor.stream ≤ s.delivered.stream
  small : s.delivered.stream.toNat < hbit
  within : ∀ e ∈ s.pending, s.ackFloor.stream < e.1 ∧ e.1 ≤ s.delivered.stream
  counted : ∀ e ∈ s.redelivered, 0 < e.2
  pendingKeys : (s.pending.map Prod.fst).Nodup
  redeliveredKeys : (s.redelivered.map Prod.fst).Nodup
  pendingLen : s.pending.length < hbit
  redeliveredLen : s.redelivered.length < hbit

def wholeSeconds (t : Int) : Int := t / 1000000000 * 1000000000

/-- The same pairs and redeliveries, and the same pending messages up to the whole second before
their time. -/
structure Survives (s s' : ConsumerState) : Prop where
  delivered : s'.delivered = s.delivered
  ackFloor : s'.ackFloor = s.ackFloor
  pending : ∀ seq, (Table.get s'.pending seq).map (fun p => (p.sequence, p.timestamp.toInt)) =
    (Table.get s.pending seq).map (fun p => (p.sequence, wholeSeconds p.timestamp.toInt))
  redelivered : ∀ seq, Table.get s'.redelivered seq = Table.get s.redelivered seq

/-! The division of a timestamp cuts towards zero. -/

def RoundsDown (t : Int64) : Prop := 0 ≤ t.toInt ∨ (1000000000 : Int) ∣ t.toInt

instance (t : Int64) : Decidable (RoundsDown t) := inferInstanceAs (Decidable (_ ∨ _))

theorem toInt_truncated (t : Int64) : (t / second * second).toInt =
    (t.toInt / 1000000000 + if RoundsDown t then 0 else 1) * 1000000000 := by
  have low := t.le_toInt
  have high := t.toInt_lt
  have unit : second.toInt = 1000000000 := by decide
  have quotient : t.toInt.tdiv 1000000000 =
      t.toInt / 1000000000 + if RoundsDown t then 0 else 1 := Int.tdiv_eq_ediv
  have fits : -2 ^ 63 ≤ t.toInt.tdiv 1000000000 * 1000000000 ∧
      t.toInt.tdiv 1000000000 * 1000000000 < 2 ^ 63 := by
    rw [quotient]
    split <;> unfold RoundsDown at * <;> omega
  rw [← quotient, Int64.toInt_mul, Int64.toInt_div, unit]
  generalize t.toInt.tdiv 1000000000 = q at fits
  have small : q.bmod (2 ^ 64) = q := Int.bmod_eq_of_le (by omega) (by omega)
  rw [small, Int.bmod_eq_of_le (by omega) (by omega)]

def truncated (p : Pending) : Pending := { p with timestamp := p.timestamp / second * second }

@[simp] theorem truncated_sequence (p : Pending) : (truncated p).sequence = p.sequence := by
  cases p
  rfl

theorem truncated_eq_iff (p : Pending) :
    (truncated p).timestamp.toInt = wholeSeconds p.timestamp.toInt ↔ RoundsDown p.timestamp := by
  rw [truncated, toInt_truncated, wholeSeconds]
  split
  next down => simp [down]
  next up => exact ⟨by omega, fun down => absurd down up⟩

/-! What the loops read back. -/

@[simp] theorem readSeq_put (seq : UInt64) (rest : Bytes) :
    readSeq (some (putSeq seq ++ rest)) = (seq, some rest) := by
  simp [readSeq, putSeq, readUvarint_put seq.toNat_lt]

theorem readPending_encode (ackFloor : SequencePair) (mints : Int64)
    (entries : List (UInt64 × Pending)) (rest : Bytes) (nonzero : ∀ e ∈ entries, e.1 ≠ 0)
    (acc : List (UInt64 × Pending)) :
    readPending 2 ackFloor mints entries.length
        (some (entries.flatMap (encodePending ackFloor mints) ++ rest)) acc =
      .ok (entries.foldl (fun t e => Table.set t e.1 (truncated e.2)) acc, some rest) := by
  induction entries generalizing acc with
  | nil => rfl
  | cons e entries ih =>
    have back (a b : Int64) : a - (a - b) = b := by grind
    have positive : e.1 ≠ 0 := nonzero e mem_cons_self
    have others := ih (fun e h => nonzero e (mem_cons_of_mem _ h))
    simp [readPending, encodePending, append_assoc, readVarint_put, back, positive, others,
      truncated]

theorem readRedelivered_encode (ackFloor : SequencePair) (entries : List (UInt64 × UInt64))
    (rest : Bytes) (counted : ∀ e ∈ entries, 0 < e.2) (acc : List (UInt64 × UInt64)) :
    readRedelivered ackFloor entries.length
        (some (entries.flatMap (encodeRedelivered ackFloor) ++ rest)) acc =
      (Table.erase entries ackFloor.stream).foldl (fun t e => Table.set t e.1 e.2) acc := by
  induction entries generalizing acc with
  | nil => rfl
  | cons e entries ih =>
    have positive : 0 < e.2 := counted e mem_cons_self
    have others := ih (fun e h => counted e (mem_cons_of_mem _ h))
    -- an entry at the floor is written as 0, which is read as an entry that is not there
    have written : 0 < e.1 - ackFloor.stream ↔ e.1 ≠ ackFloor.stream := by
      rw [UInt64.pos_iff_ne_zero]
      grind
    by_cases atFloor : e.1 = ackFloor.stream <;>
      simp [readRedelivered, encodeRedelivered, positive, written, atFloor, others, Table.erase]

theorem readHeader_encode (s : ConsumerState) (rest : Bytes) :
    readHeader 2 (some (encodeHeader s ++ rest)) = (s.ackFloor, s.delivered, some rest) := by
  simp [readHeader, encodeHeader, adjust]

theorem readAllPending_encode (mints : Int64) (s : ConsumerState) (accepted : Accepted s)
    (rest : Bytes) : readAllPending 2 s.ackFloor (some (encodeAllPending mints s ++ rest)) =
      .ok (s.pending.foldl (fun t e => Table.set t e.1 (truncated e.2)) [], some rest) := by
  have len := accepted.pendingLen
  have nonzero : ∀ e ∈ s.pending, e.1 ≠ 0 := by
    intro e member zero
    have above := (accepted.within e member).1
    rw [zero] at above
    exact absurd above (UInt64.not_lt_zero)
  have count : readUvarint (some (encodeAllPending mints s ++ rest)) =
      (s.pending.length, some ((if s.pending = [] then [] else
        putVarint mints ++ s.pending.flatMap (encodePending s.ackFloor mints)) ++ rest)) := by
    rw [encodeAllPending, append_assoc, readUvarint_put (by unfold hbit at len; omega)]
  rw [readAllPending, count]
  by_cases empty : s.pending = []
  · simp [empty]
  · have some_ : s.pending.length > 0 := length_pos_iff.mpr empty
    simp [empty, readVarint_put, loopBound, len, some_, readPending_encode _ _ _ _ nonzero]

theorem readAllRedelivered_encode (s : ConsumerState) (accepted : Accepted s) :
    readAllRedelivered s.ackFloor (some (encodeAllRedelivered s)) =
      (Table.erase s.redelivered s.ackFloor.stream).foldl (fun t e => Table.set t e.1 e.2) [] := by
  have len := accepted.redeliveredLen
  have entries := readRedelivered_encode s.ackFloor s.redelivered [] accepted.counted []
  rw [append_nil] at entries
  rw [readAllRedelivered, encodeAllRedelivered, readUvarint_put (by unfold hbit at len; omega)]
  simp [loopBound, len, entries]

theorem decode_encode (s : ConsumerState) (mints : Int64) (accepted : Accepted s) :
    decodeConsumerState (encodeConsumerState mints s) = .ok ⟨s.delivered, s.ackFloor,
      s.pending.foldl (fun t e => Table.set t e.1 (truncated e.2)) [],
      (Table.erase s.redelivered s.ackFloor.stream).foldl (fun t e => Table.set t e.1 e.2) []⟩ := by
  have header : checkConsumerHeader (encodeConsumerState mints s) = .ok 2 := by
    simp [encodeConsumerState, checkConsumerHeader]
  have body : (encodeConsumerState mints s).drop hdrLen =
      encodeHeader s ++ (encodeAllPending mints s ++ encodeAllRedelivered s) := rfl
  have small := accepted.small
  have below := UInt64.le_iff_toNat_le.mp accepted.stream
  have valid : ¬ (hbit ≤ s.ackFloor.stream.toNat ∨ hbit ≤ s.delivered.stream.toNat) := by omega
  rw [decodeConsumerState, header, body]
  simp only [bind, Except.bind, readHeader_encode, valid, reduceCtorEq, if_false,
    readAllPending_encode mints s accepted, readAllRedelivered_encode s accepted]
  rfl

/-- What comes back, and when it is the state that was written. -/
theorem survives_iff {s s' : ConsumerState} (delivered : s'.delivered = s.delivered)
    (ackFloor : s'.ackFloor = s.ackFloor)
    (pending : ∀ seq, Table.get s'.pending seq = (Table.get s.pending seq).map truncated)
    (redelivered : ∀ seq, Table.get s'.redelivered seq =
      if s.ackFloor.stream = seq then none else Table.get s.redelivered seq) :
    Survives s s' ↔ Table.get s.redelivered s.ackFloor.stream = none ∧
      ∀ seq p, Table.get s.pending seq = some p → RoundsDown p.timestamp := by
  constructor
  · intro survives
    refine ⟨by rw [← survives.redelivered, redelivered, if_pos rfl], fun seq p found => ?_⟩
    have same := survives.pending seq
    simp only [pending, found, Option.map_some, Option.some.injEq, Prod.mk.injEq] at same
    exact (truncated_eq_iff p).mp same.2
  · rintro ⟨free, down⟩
    refine ⟨delivered, ackFloor, fun seq => ?_, fun seq => ?_⟩
    · rw [pending]
      cases found : Table.get s.pending seq with
      | none => rfl
      | some p =>
        have whole := (truncated_eq_iff p).mpr (down seq p found)
        simp only [Option.map_some, truncated_sequence, whole]
    · rw [redelivered]
      split
      next atFloor => rw [← atFloor, free]
      · rfl

theorem consumer_state_round_trip_iff (s : ConsumerState) (mints : Int64) (accepted : Accepted s) :
    (∃ s', decodeConsumerState (encodeConsumerState mints s) = .ok s' ∧ Survives s s') ↔
      Table.get s.redelivered s.ackFloor.stream = none ∧
        ∀ seq p, Table.get s.pending seq = some p → RoundsDown p.timestamp := by
  have keys : ((Table.erase s.redelivered s.ackFloor.stream).map Prod.fst).Nodup :=
    accepted.redeliveredKeys.sublist (filter_sublist.map Prod.fst)
  rw [decode_encode s mints accepted]
  simp only [Except.ok.injEq, exists_eq_left']
  exact survives_iff rfl rfl
    (fun seq => by simpa using Table.get_foldl_set accepted.pendingKeys truncated [] seq)
    (fun seq => by simpa [Table.get_erase] using Table.get_foldl_set keys id [] seq)

theorem consumer_state_round_trip_below_floor :
    let s : ConsumerState := ⟨⟨7, 9⟩, ⟨4, 5⟩, [(6, ⟨5, 1500000000⟩)], [(3, 2), (6, 4)]⟩
    ∃ s', decodeConsumerState (encodeConsumerState 100 s) = .ok s' ∧ Survives s s' := by
  refine (consumer_state_round_trip_iff _ 100 ?_).mpr ⟨by decide, ?_⟩
  · exact ⟨by decide, by decide, by decide, by simp, by simp, by simp, by simp, by simp [hbit],
      by simp [hbit]⟩
  · intro seq p found
    have member := Table.mem_of_get found
    simp only [mem_singleton, Prod.mk.injEq] at member
    rw [member.2]
    decide

/-- The message at the ack floor was redelivered twice; the count is not there any more. -/
theorem redelivered_at_floor_lost :
    let s : ConsumerState := ⟨⟨7, 9⟩, ⟨4, 5⟩, [], [(5, 2)]⟩
    Accepted s ∧
      decodeConsumerState (encodeConsumerState 100 s) = .ok ⟨⟨7, 9⟩, ⟨4, 5⟩, [], []⟩ ∧
      ¬ Survives s ⟨⟨7, 9⟩, ⟨4, 5⟩, [], []⟩ := by
  refine ⟨?_, by decide +kernel, fun survives => ?_⟩
  · exact ⟨by decide, by decide, by decide, by simp, by simp, by simp, by simp, by simp [hbit],
      by simp [hbit]⟩
  · have lost := survives.redelivered 5
    revert lost
    decide

end LinearNats.ConsumerCodec
