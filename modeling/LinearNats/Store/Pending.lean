import LinearNats.Server.Subject
import LinearNats.Store.Mem
import LinearNats.Stree.Match

/-! How the memory store counts the messages from a sequence on: from the totals of the matching
subjects when no subject has messages on both sides, and otherwise by a scan of the wanted range or
of the unwanted one, whichever looks shorter. The totals are those that a walk over `tree` visits,
the subject tree that `fss` is the contents of; the scans compare the subjects themselves. The scans
over the whole map go through the messages in the order `iter`, since the map has none. -/
namespace LinearNats.Store
open Server Scan

structure Tally where
  msgs : Nat
  first : Nat
  last : Nat
  havePartial : Bool
  totalSkipped : Nat

namespace Tally

def zero : Tally := ⟨0, 0, 0, false, 0⟩

def update (lastPerSubject : Bool) (t : Tally) (fss : SimpleState) : Tally :=
  let msgs := if lastPerSubject then 1 else fss.msgs
  let first := if lastPerSubject then fss.last else fss.first
  { t with
    msgs := t.msgs + msgs
    first := if t.first = 0 ∨ first < t.first then first else t.first
    last := if t.last < fss.last then fss.last else t.last }

def visit (sseq : Nat) (lastPerSubject : Bool) (t : Tally) (fss : SimpleState) : Tally :=
  if sseq ≤ fss.first then t.update lastPerSubject fss
  else if sseq ≤ fss.last then { t.update lastPerSubject fss with havePartial := true }
  else { t with totalSkipped := t.totalSkipped + fss.msgs }

end Tally

/-- A scan that counts the messages it has not `seen` the subject of. Only a count of subjects
remembers what it has seen. -/
def scanCount (isMatch : Bytes → Bool) (lastPerSubject : Bool) (counts : StoreMsg → Bool) :
    List StoreMsg → List Bytes → Nat
  | [], _ => 0
  | sm :: rest, seen =>
    if sm.subj ∉ seen ∧ isMatch sm.subj then
      (if counts sm then 1 else 0) + scanCount isMatch lastPerSubject counts rest
        (if lastPerSubject then sm.subj :: seen else seen)
    else scanCount isMatch lastPerSubject counts rest seen

def scanSeen (isMatch : Bytes → Bool) (lastPerSubject : Bool) :
    List StoreMsg → List Bytes → List Bytes
  | [], seen => seen
  | sm :: rest, seen =>
    if sm.subj ∉ seen ∧ isMatch sm.subj ∧ lastPerSubject then
      scanSeen isMatch lastPerSubject rest (sm.subj :: seen)
    else scanSeen isMatch lastPerSubject rest seen

namespace MemStore

def upToDate (ms : MemStore) (subj : Bytes) (ss : SimpleState) : SimpleState :=
  if ss.firstNeedsUpdate || ss.lastNeedsUpdate then ms.recalculateForSubj subj ss else ss

/-- The tree with the totals of the matching subjects brought up to date. -/
def refreshMatching (ms : MemStore) (isMatch : Bytes → Bool) : MemStore :=
  { ms with
    fss := ms.fss.map (fun (subj, ss) =>
      (subj, if isMatch subj then ms.upToDate subj ss else ss)) }

def matching (ms : MemStore) (isMatch : Bytes → Bool) : List SimpleState :=
  (ms.fss.filter (fun (subj, _) => isMatch subj)).map Prod.snd

def between (ms : MemStore) (lo hi : Nat) : List StoreMsg :=
  (List.range' lo (hi - lo)).filterMap (load ms.msgs)

def wanted (ms : MemStore) (iter : List StoreMsg) (first last : Nat) : List StoreMsg :=
  if ms.msgs.length < last - first then
    iter.filter (fun sm => first ≤ sm.seq && sm.seq ≤ last)
  else ms.between first (last + 1)

def unwanted (ms : MemStore) (iter : List StoreMsg) (first : Nat) : List StoreMsg :=
  if ms.msgs.length < first - ms.firstSeq then iter.filter (fun sm => sm.seq < first)
  else ms.between ms.firstSeq first

/-- A message before the wanted range is taken off the total, but the last message of a subject
only stands for it if all of them are before the range. -/
def takesOff (ms : MemStore) (lastPerSubject : Bool) (first : Nat) (sm : StoreMsg) : Bool :=
  if lastPerSubject then
    match Table.get ms.fss sm.subj with
    | none => true
    | some tss => tss.last < first
  else true

def adjust (ms : MemStore) (isMatch : Bytes → Bool) (lastPerSubject : Bool)
    (iter : List StoreMsg) (first last : Nat) : Nat :=
  let before := ms.unwanted iter first
  scanCount isMatch lastPerSubject (ms.takesOff lastPerSubject first) before [] +
    scanCount isMatch lastPerSubject (fun _ => true) (ms.between (last + 1) ms.lastSeq)
      (scanSeen isMatch lastPerSubject before [])

/-- The count when some subject has messages on both sides of the start. -/
def partialCount (ms : MemStore) (isMatch : Bytes → Bool) (lastPerSubject : Bool)
    (iter : List StoreMsg) (sseq : Nat) (t : Tally) : Nat :=
  let first := if t.first < sseq then sseq else t.first
  if t.last - first < first - ms.firstSeq + ms.lastSeq - t.last then
    scanCount isMatch lastPerSubject (fun _ => true) (ms.wanted iter first t.last) []
  else u64 (2 ^ 64 + (t.msgs + t.totalSkipped) - ms.adjust isMatch lastPerSubject iter first t.last)

def firstFrom (ms : MemStore) (isMatch : Bytes → Bool) (iter : List StoreMsg) (first last : Nat) :
    Nat :=
  if 100 * ms.msgs.length < last - first then
    let low := iter.foldl (fun low sm =>
      if first ≤ sm.seq && sm.seq < last && isMatch sm.subj && sm.seq < low then sm.seq else low)
      ms.lastSeq
    if low < ms.lastSeq then low else first
  else (((ms.between first last).find? (fun sm => isMatch sm.subj)).map StoreMsg.seq).getD first

def partialFirst (ms : MemStore) (isMatch : Bytes → Bool) (iter : List StoreMsg) (sseq : Nat)
    (t : Tally) : Nat :=
  let first := if t.first < sseq then sseq else t.first
  if t.last - first < first - ms.firstSeq + ms.lastSeq - t.last then
    (((ms.wanted iter first t.last).find? (fun sm => isMatch sm.subj)).map StoreMsg.seq).getD 0
  else if t.first < sseq then ms.firstFrom isMatch iter first t.last else first

def tally (ms : MemStore) (isMatch : Bytes → Bool) (lastPerSubject : Bool) (sseq : Nat) : Tally :=
  (ms.matching isMatch).foldl (Tally.visit sseq lastPerSubject) .zero

def filteredFrom (ms : MemStore) (visited isMatch : Bytes → Bool) (iter : List StoreMsg)
    (sseq : Nat) (lastPerSubject : Bool) : MemStore × SimpleState :=
  let ms := ms.refreshMatching visited
  let t := ms.tally visited lastPerSubject sseq
  if t.havePartial then
    (ms, ⟨ms.partialCount isMatch lastPerSubject iter sseq t,
      ms.partialFirst isMatch iter sseq t, t.last, false, false⟩)
  else (ms, ⟨t.msgs, t.first, t.last, false, false⟩)

def filteredStateLocked (ms : MemStore) (tree : FssTree)
    (iter : List StoreMsg) (sseq : Nat) (filter : Bytes) (lastPerSubject : Bool) :
    MemStore × SimpleState :=
  let sseq := if sseq < ms.firstSeq then ms.firstSeq else sseq
  if ms.lastSeq < sseq then (ms, ⟨0, 0, 0, false, false⟩)
  else
    let isAll := filter = [] ∨ filter = fwcs
    if isAll ∧ sseq ≤ ms.firstSeq then
      let total := if lastPerSubject then ms.fss.length else ms.stateMsgs
      (ms, ⟨total, ms.firstSeq, ms.lastSeq, false, false⟩)
    else ms.filteredFrom (tree.visits (orAll filter)) (compareFn filter) iter sseq lastPerSubject

def filteredState (ms : MemStore) (tree : FssTree) (iter : List StoreMsg)
    (sseq : Nat) (subj : Bytes) : MemStore × SimpleState :=
  ms.filteredStateLocked tree iter sseq subj false

end MemStore
end LinearNats.Store
