import LinearNats.Table
import LinearNats.Scan
import LinearNats.Server.Header
import LinearNats.Stree.Match

/-! The memory store of a stream: the messages by sequence, their counters, the set of deleted
sequences, and the totals of each subject, whose first and last sequence are only marked as stale
when a message goes and are looked for when they are needed. Sums of sequences are taken modulo 2^64,
as the code's are. Its loops up to `lastSeq` are scans here; they end as long as `lastSeq` is not
2^64 - 1. The counts of messages and bytes are natural numbers: what they count is in memory. -/
namespace LinearNats.Store
open Server Scan

inductive DiscardPolicy where
  | discardOld
  | discardNew
  deriving DecidableEq

structure StreamConfig where
  discard : DiscardPolicy
  discardNewPer : Bool
  maxMsgs : Int
  maxBytes : Int
  maxMsgsPer : Int
  firstSeq : UInt64

structure StoreMsg where
  subj : Bytes
  hdr : Bytes
  msg : Bytes
  seq : Nat
  ts : Int
  deriving DecidableEq

structure SimpleState where
  msgs : Nat
  first : Nat
  last : Nat
  firstNeedsUpdate : Bool
  lastNeedsUpdate : Bool
  deriving DecidableEq

abbrev SubjectTree := List (Bytes × SimpleState)

/-- The tree in which the store keeps that map. -/
abbrev FssTree := Stree.SubjectTree SimpleState

inductive StoreErr where
  | errMaxMsgsPerSubject
  | errMaxMsgs
  | errMaxBytes
  | errSequenceMismatch
  | errPartialPurge
  deriving DecidableEq

structure MemStore where
  cfg : StreamConfig
  maxp : Int
  msgs : List StoreMsg
  stateMsgs : Nat
  stateBytes : Nat
  firstSeq : Nat
  lastSeq : Nat
  fss : SubjectTree
  dmap : Finset Nat

def u64 (n : Nat) : Nat := n % 2 ^ 64

theorem u64_of_lt {n : Nat} (fits : n < 2 ^ 64) : u64 n = n := Nat.mod_eq_of_lt fits

def memStoreMsgSize (subj hdr msg : Bytes) : Nat := subj.length + hdr.length + msg.length + 16

def StoreMsg.size (sm : StoreMsg) : Nat := memStoreMsgSize sm.subj sm.hdr sm.msg

def load (msgs : List StoreMsg) (seq : Nat) : Option StoreMsg :=
  msgs.find? (fun sm => sm.seq == seq)

def delete (msgs : List StoreMsg) (seq : Nat) : List StoreMsg :=
  msgs.filter (fun sm => sm.seq != seq)

def stored (msgs : List StoreMsg) (seq : Nat) : Bool := (load msgs seq).isSome

def noPivot : UInt8 := 127

/-- The tree never takes a subject with the byte it uses for "no pivot". -/
def SubjectTree.insert (fss : SubjectTree) (subj : Bytes) (ss : SimpleState) : SubjectTree :=
  if noPivot ∈ subj then fss else Table.set fss subj ss

def SimpleState.drop (ss : SimpleState) (seq : Nat) : SimpleState :=
  let left := ss.msgs - 1
  if left = 1 ∧ ss.lastNeedsUpdate = false ∧ seq ≠ ss.last then
    { ss with msgs := left, first := ss.last, firstNeedsUpdate := false }
  else if left = 1 ∧ ss.firstNeedsUpdate = false ∧ seq ≠ ss.first then
    { ss with msgs := left, last := ss.first, lastNeedsUpdate := false }
  else
    { ss with
      msgs := left
      firstNeedsUpdate := seq == ss.first || ss.firstNeedsUpdate
      lastNeedsUpdate := seq == ss.last || ss.lastNeedsUpdate }

def removeSeqPerSubject (fss : SubjectTree) (subj : Bytes) (seq : Nat) : SubjectTree :=
  match Table.get fss subj with
  | none => fss
  | some ss => if ss.msgs = 1 then Table.erase fss subj else Table.set fss subj (ss.drop seq)

def has (msgs : List StoreMsg) (subj : Bytes) (seq : Nat) : Bool :=
  (load msgs seq).any (fun sm => sm.subj == subj)

namespace MemStore

def recalculateFirst (ms : MemStore) (subj : Bytes) (ss : SimpleState) : SimpleState :=
  if ss.firstNeedsUpdate then
    match firstIn (has ms.msgs subj) (max (u64 (ss.first + 1)) ms.firstSeq) ss.last with
    | none => ss
    | some tseq =>
      -- The only message left is the last one too.
      if ss.msgs = 1 then
        { ss with first := tseq, firstNeedsUpdate := false, last := tseq, lastNeedsUpdate := false }
      else { ss with first := tseq, firstNeedsUpdate := false }
  else ss

def recalculateLast (ms : MemStore) (subj : Bytes) (ss : SimpleState) : SimpleState :=
  if ss.lastNeedsUpdate then
    match lastIn (has ms.msgs subj) ss.first (min (ss.last - 1) ms.lastSeq) with
    | none => ss
    | some tseq =>
      if ss.msgs = 1 then
        { ss with last := tseq, lastNeedsUpdate := false, first := tseq, firstNeedsUpdate := false }
      else { ss with last := tseq, lastNeedsUpdate := false }
  else ss

def recalculateForSubj (ms : MemStore) (subj : Bytes) (ss : SimpleState) : SimpleState :=
  ms.recalculateLast subj (ms.recalculateFirst subj ss)

/-- The totals of a subject brought up to date in the tree, as every reader does first. -/
def refresh (ms : MemStore) (subj : Bytes) (ss : SimpleState) : MemStore × SimpleState :=
  if ss.firstNeedsUpdate || ss.lastNeedsUpdate then
    let ss := ms.recalculateForSubj subj ss
    ({ ms with fss := Table.set ms.fss subj ss }, ss)
  else (ms, ss)

def updateFirstSeq (ms : MemStore) (seq : Nat) : MemStore :=
  if seq ≠ ms.firstSeq then ms
  else
    let next := (firstIn (stored ms.msgs) (u64 (ms.firstSeq + 1)) ms.lastSeq).getD
      (u64 (ms.lastSeq + 1))
    { ms with firstSeq := next, dmap := ms.dmap \ Finset.Ico ms.firstSeq next }

def removeMsg (ms : MemStore) (seq : Nat) : MemStore × Bool :=
  match load ms.msgs seq with
  | none => (ms, false)
  | some sm =>
    let ms :=
      if 0 < ms.stateMsgs then
        { ms with
          stateMsgs := ms.stateMsgs - 1
          stateBytes := ms.stateBytes - min sm.size ms.stateBytes }
      else ms
    let ms := updateFirstSeq { ms with dmap := insert seq ms.dmap } seq
    -- The message goes only after the per-subject totals.
    ({ ms with
        fss := removeSeqPerSubject ms.fss sm.subj seq
        msgs := delete ms.msgs seq }, true)

/-- `none` is the panic on a first sequence that is not stored. -/
def deleteFirstMsgOrPanic (ms : MemStore) : Option MemStore :=
  match ms.removeMsg ms.firstSeq with
  | (ms, true) => some ms
  | (_, false) => none

/-- Each round removes a message of the subject, so their number bounds the rounds. -/
def enforcePerSubjectLimitFrom (subj : Bytes) : Nat → MemStore → MemStore
  | 0, ms => ms
  | fuel + 1, ms =>
    match Table.get ms.fss subj with
    | none => ms
    | some ss =>
      if (ss.msgs : Int) ≤ ms.maxp then ms
      else
        let (ms, ss) := ms.refresh subj ss
        match ms.removeMsg ss.first with
        | (ms, true) => enforcePerSubjectLimitFrom subj fuel ms
        | (ms, false) => ms

def enforcePerSubjectLimit (ms : MemStore) (subj : Bytes) (ss : SimpleState) : MemStore :=
  if ms.maxp ≤ 0 then ms else enforcePerSubjectLimitFrom subj ss.msgs ms

def deleteWhile (exceeds : MemStore → Bool) : Nat → MemStore → Option MemStore
  | 0, ms => some ms
  | fuel + 1, ms =>
    if exceeds ms then
      match ms.deleteFirstMsgOrPanic with
      | none => none
      | some ms => deleteWhile exceeds fuel ms
    else some ms

def enforceMsgLimit (ms : MemStore) : Option MemStore :=
  if ms.cfg.discard ≠ .discardOld ∨ ms.cfg.maxMsgs ≤ 0 then some ms
  else deleteWhile (fun ms => ms.cfg.maxMsgs < ms.stateMsgs) (ms.stateMsgs + 1) ms

def enforceBytesLimit (ms : MemStore) : Option MemStore :=
  if ms.cfg.discard ≠ .discardOld ∨ ms.cfg.maxBytes ≤ 0 then some ms
  else deleteWhile (fun ms => ms.cfg.maxBytes < ms.stateBytes) (ms.stateMsgs + 1) ms

def jsMsgRollup : Bytes := ascii "Nats-Rollup"

def atSubjectLimit (ms : MemStore) (subj : Bytes) : Bool :=
  match Table.get ms.fss subj with
  | none => false
  | some ss => subj ≠ [] && 0 < ms.maxp && ms.maxp ≤ ss.msgs

/-- The checks of a stream that discards new messages. The one on bytes brings the totals of the
subject up to date, also when it then refuses the message. -/
def checkDiscardNew (ms : MemStore) (subj hdr msg : Bytes) : MemStore × Option StoreErr :=
  let asl := ms.atSubjectLimit subj
  let size := memStoreMsgSize subj hdr msg
  if asl && ms.cfg.discardNewPer && (sliceHeader jsMsgRollup hdr).getD [] == [] then
    (ms, some .errMaxMsgsPerSubject)
  else if 0 < ms.cfg.maxMsgs && ms.cfg.maxMsgs ≤ ms.stateMsgs && !asl then
    (ms, some .errMaxMsgs)
  else if 0 < ms.cfg.maxBytes && ms.cfg.maxBytes < ((ms.stateBytes + size : Nat) : Int) then
    if !asl then (ms, some .errMaxBytes)
    else
      match Table.get ms.fss subj with
      | none => (ms, some .errMaxBytes)
      | some ss =>
        let (ms, ss) := ms.refresh subj ss
        match load ms.msgs ss.first with
        | none => (ms, some .errMaxBytes)
        | some sm => if sm.size < size then (ms, some .errMaxBytes) else (ms, none)
  else (ms, none)

def addMsg (ms : MemStore) (sm : StoreMsg) : MemStore :=
  { ms with
    firstSeq := if ms.stateMsgs = 0 then sm.seq else ms.firstSeq
    msgs := delete ms.msgs sm.seq ++ [sm]
    stateMsgs := ms.stateMsgs + 1
    stateBytes := ms.stateBytes + sm.size
    lastSeq := sm.seq }

/-- Tracking by subject; a message without a subject is not tracked. -/
def trackSubject (ms : MemStore) (subj : Bytes) (seq : Nat) : MemStore :=
  if subj = [] then ms
  else
    match Table.get ms.fss subj with
    | none => { ms with fss := ms.fss.insert subj ⟨1, seq, seq, false, false⟩ }
    | some ss =>
      let ss := { ss with msgs := ss.msgs + 1, last := seq, lastNeedsUpdate := false }
      let ms := { ms with fss := Table.set ms.fss subj ss }
      if 0 < ms.maxp ∧ ms.maxp < ss.msgs then ms.enforcePerSubjectLimit subj ss else ms

def storeRawMsg (ms : MemStore) (subj hdr msg : Bytes) (seq : Nat) (ts : Int)
    (discardNewCheck : Bool) : Option (MemStore × Option StoreErr) :=
  let (ms, refused) :=
    if discardNewCheck && ms.cfg.discard = .discardNew then ms.checkDiscardNew subj hdr msg
    else (ms, none)
  match refused with
  | some err => some (ms, some err)
  | none =>
    if seq ≠ u64 (ms.lastSeq + 1) ∧ 0 < seq then some (ms, some .errSequenceMismatch)
    else
      let sm : StoreMsg := ⟨subj, hdr, msg, u64 (ms.lastSeq + 1), ts⟩
      match ((ms.addMsg sm).trackSubject subj sm.seq).enforceMsgLimit with
      | none => none
      | some ms =>
        match ms.enforceBytesLimit with
        | none => none
        | some ms => some (ms, none)

def storeMsg (ms : MemStore) (subj hdr msg : Bytes) (ts : Int) :
    Option (MemStore × Option StoreErr) :=
  ms.storeRawMsg subj hdr msg (u64 (ms.lastSeq + 1)) ts true

def skipMsgs (ms : MemStore) (seq num : Nat) : MemStore × Option StoreErr :=
  if seq ≠ u64 (ms.lastSeq + 1) ∧ 0 < seq then (ms, some .errSequenceMismatch)
  else
    let seq := u64 (ms.lastSeq + 1)
    -- `seq + num - 1` of 64-bit numbers
    let lseq := u64 (2 ^ 64 - 1 + seq + num)
    if ms.stateMsgs = 0 then ({ ms with lastSeq := lseq, firstSeq := u64 (lseq + 1) }, none)
    else ({ ms with lastSeq := lseq, dmap := ms.dmap ∪ Finset.Icc seq lseq }, none)

def skipMsg (ms : MemStore) (seq : Nat) : MemStore × Option StoreErr :=
  if seq ≠ u64 (ms.lastSeq + 1) ∧ 0 < seq then (ms, some .errSequenceMismatch)
  else
    let seq := u64 (ms.lastSeq + 1)
    if ms.stateMsgs = 0 then ({ ms with lastSeq := seq, firstSeq := u64 (seq + 1) }, none)
    else ({ ms with lastSeq := seq, dmap := insert seq ms.dmap }, none)

def emptied (ms : MemStore) (first last : Nat) : MemStore :=
  { ms with
    firstSeq := first, lastSeq := last, stateMsgs := 0, stateBytes := 0
    msgs := [], fss := [], dmap := ∅ }

def purge (ms : MemStore) (fseq : Nat) : MemStore × Except StoreErr Nat :=
  if fseq = 0 then (ms.emptied (u64 (ms.lastSeq + 1)) ms.lastSeq, .ok ms.msgs.length)
  else if fseq < ms.lastSeq then (ms, .error .errPartialPurge)
  else (ms.emptied fseq (fseq - 1), .ok ms.msgs.length)

/-- The loop that `compact` and `truncate` share: what it removes, how many and how many bytes. -/
def dropSeqs : List Nat → MemStore → MemStore × Nat × Nat
  | [], ms => (ms, 0, 0)
  | seq :: rest, ms =>
    match load ms.msgs seq with
    | some sm =>
      let (ms, purged, bytes) := dropSeqs rest
        { ms with
          fss := removeSeqPerSubject ms.fss sm.subj seq
          msgs := delete ms.msgs seq }
      (ms, purged + 1, bytes + sm.size)
    | none => dropSeqs rest { ms with dmap := ms.dmap.erase seq }

def subtract (ms : MemStore) (purged bytes : Nat) : MemStore × Nat :=
  let purged := min purged ms.stateMsgs
  ({ ms with
      stateMsgs := ms.stateMsgs - purged
      stateBytes := ms.stateBytes - min bytes ms.stateBytes }, purged)

def compact (ms : MemStore) (seq : Nat) : MemStore × Nat :=
  if seq = 0 then (ms.emptied (u64 (ms.lastSeq + 1)) ms.lastSeq, ms.msgs.length)
  else if seq < ms.firstSeq then (ms, 0)
  else if seq ≤ ms.lastSeq then
    let fseq := ms.firstSeq
    -- Without a message at or above `seq` the first sequence stays where it was.
    let (ms, seq) :=
      match firstIn (stored ms.msgs) seq ms.lastSeq with
      | some first => ({ ms with firstSeq := first }, first)
      | none => (ms, ms.lastSeq + 1)
    let (ms, purged, bytes) := dropSeqs (List.range' fseq (seq - fseq)).reverse ms
    ms.subtract purged bytes
  else (ms.emptied seq (seq - 1), ms.msgs.length)

def truncate (ms : MemStore) (seq : Nat) : MemStore :=
  if seq = 0 then ms.emptied 0 0
  else
    let (ms, purged, bytes) := dropSeqs (List.range' (seq + 1) (ms.lastSeq - seq)).reverse ms
    (({ ms with lastSeq := seq } : MemStore).subtract purged bytes).1

end MemStore

def newMemStore (cfg : StreamConfig) : MemStore :=
  let ms : MemStore := ⟨cfg, cfg.maxMsgsPer, [], 0, 0, 0, 0, [], ∅⟩
  if 0 < cfg.firstSeq then (ms.purge cfg.firstSeq.toNat).1 else ms

end LinearNats.Store
