import LinearNats.FileStore.Record

/-! A block's state rebuilt from the records in its file. Records are read one after the other up
to the first that is cut off or damaged; what each of them does to the counters, the first and
last sequence and the set of deleted sequences depends on the records before it. -/
namespace LinearNats.FileStore
open Server LittleEndian List

structure MsgId where
  seq : Nat
  ts : Int
  deriving DecidableEq

structure BlockState where
  msgs : Nat
  bytes : Nat
  rbytes : Nat
  first : MsgId
  last : MsgId
  dmap : Finset Nat
  lchk : Bytes
  deriving DecidableEq

def BlockState.fresh : BlockState := ⟨0, 0, 0, ⟨0, 0⟩, ⟨0, 0⟩, ∅, []⟩

structure Rebuild where
  mb : BlockState
  firstNeedsSet : Bool
  last : Nat
  tombstones : List Nat
  maxTombstone : MsgId
  deriving DecidableEq

namespace Rebuild

def addToDmap (r : Rebuild) (seq : Nat) : Rebuild :=
  if seq = 0 then r else { r with mb.dmap := insert seq r.mb.dmap }

def addRange (r : Rebuild) (seq : Nat) : Nat → Rebuild
  | 0 => r
  | count + 1 => (r.addToDmap seq).addRange (seq + 1) count

def updateLast (r : Rebuild) (seq : Nat) (ts : Int) : Rebuild :=
  if seq ≤ r.last then r
  else
    let r := if 0 < r.last ∧ seq ≠ r.last + 1 ∧ r.mb.msgs ≠ 0 then
      r.addRange (r.last + 1) (seq - (r.last + 1)) else r
    { r with last := seq, mb.last := ⟨seq, ts⟩ }

def deletedRecord (r : Rebuild) (seq : Nat) (ts : Int) : Rebuild :=
  if r.mb.first.seq ≤ seq then
    let r := r.updateLast seq ts
    if r.mb.msgs = 0 then { r with mb.first := ⟨seq + 1, 0⟩ }
    else if seq ≠ 0 then r.addToDmap seq
    else r
  else r

def storedRecord (r : Rebuild) (seq : Nat) (ts : Int) (rl : Nat) : Rebuild :=
  let r := if r.firstNeedsSet ∧ r.mb.first.seq ≤ seq then
    { r with mb.first := ⟨seq, ts⟩, firstNeedsSet := false } else r
  if seq ≤ r.last then r
  else
    let r := if seq ∈ r.mb.dmap then r
      else { r with mb.msgs := r.mb.msgs + 1, mb.bytes := r.mb.bytes + rl }
    r.updateLast seq ts

def tombstoneRecord (r : Rebuild) (seq : Nat) (ts : Int) : Rebuild :=
  { r with
    tombstones := r.tombstones ++ [seq]
    maxTombstone :=
      if r.maxTombstone.seq = 0 ∨ r.maxTombstone.seq < seq then ⟨seq, ts⟩ else r.maxTombstone }

def processRecord (r : Rebuild) (seq : Nat) (ts : Int) (rl : Nat) (checksum : Bytes) : Rebuild :=
  let r := { r with mb.lchk := checksum }
  if seq.testBit tbit then r.tombstoneRecord (clearBit seq tbit) ts
  else if seq = 0 ∨ seq.testBit ebit ∨ seq < r.mb.first.seq then
    r.deletedRecord (clearBit seq ebit) ts
  else r.storedRecord seq ts rl

/-- The loop, with the part of the buffer from `index` on. It stops at the end or at the first
record that cannot be used. -/
def loop (hh : Digest64) (r : Rebuild) (index : Nat) (buf : Bytes) :
    Rebuild × Option (Nat × BadMsg) :=
  if buf.length = 0 then (r, none)
  else if buf.length < msgHdrSize then
    (r, some (index, .messageOverrun index (index + buf.length)))
  else if Insane buf then
    (r, some (index, .sanityCheckFailed (dataLen buf) (subjLen buf) (recordLen buf)))
  else if hh.sum (checksumInput buf) ≠ storedChecksum buf then (r, some (index, .invalidChecksum))
  else
    loop hh (r.processRecord (recordSeq buf) (recordTs buf) (recordLen buf)
      (hh.sum (checksumInput buf))) (index + recordLen buf) (buf.drop (recordLen buf))
termination_by buf.length
decreasing_by
  rename_i sane _
  have long : msgHdrSize ≤ recordLen buf := by
    simp only [Insane, dataLen] at sane
    omega
  simp only [length_drop, msgHdrSize] at long ⊢
  omega

def settle (r : Rebuild) : Rebuild :=
  if r.mb.msgs = 0 then
    if 0 < r.mb.first.seq then { r with mb.last.seq := r.mb.first.seq - 1 }
    else if 0 < r.maxTombstone.seq then
      { r with
        mb.first := ⟨r.maxTombstone.seq + 1, 0⟩
        mb.last := if r.mb.last.seq = 0 then r.maxTombstone else r.mb.last }
    else r
  else r

end Rebuild

structure LostStreamData where
  msgs : List Nat
  bytes : Nat

structure Rebuilt where
  mb : BlockState
  tombstones : List Nat
  lost : Option LostStreamData
  err : Option BadMsg
  /-- The size the file is cut to. -/
  truncated : Option Nat

def rebuildStateFromBufLocked (hh : Digest64) (mb : BlockState) (buf : Bytes)
    (allowTruncate : Bool) : Rebuilt :=
  let startLastSeq := mb.last.seq
  let mb := { mb with msgs := 0, bytes := 0, rbytes := buf.length, last := ⟨0, 0⟩ }
  match Rebuild.loop hh ⟨mb, true, 0, [], ⟨0, 0⟩⟩ 0 buf with
  | (r, none) =>
    -- The deferred function does the same once more.
    ⟨r.settle.settle.mb, r.tombstones, none, none, none⟩
  | (r, some (index, err)) =>
    let lost : LostStreamData :=
      ⟨List.range' (r.mb.last.seq + 1) (startLastSeq - r.mb.last.seq), buf.length - index⟩
    if allowTruncate then
      let r := if recordHashSize ≤ index then
        { r with mb.lchk := slice buf (index - recordHashSize) index } else r
      ⟨r.settle.mb, r.tombstones, some lost, none, some index⟩
    else ⟨r.settle.mb, r.tombstones, some lost, some err, none⟩

inductive Kind where
  | stored
  | erased
  | skipped
  | tombstone
  deriving DecidableEq

def Kind.mark (kind : Kind) (seq : Nat) : Nat :=
  match kind with
  | .stored => seq
  | .erased | .skipped => setBit seq ebit
  | .tombstone => setBit seq tbit

structure Entry where
  kind : Kind
  seq : Nat
  ts : Int
  subj : Bytes
  hdr : Bytes
  msg : Bytes
  seq_pos : 0 < seq
  seq_lt : seq < 2 ^ 62
  ts_range : -2 ^ 63 ≤ ts ∧ ts < 2 ^ 63
  subj_le : subj.length ≤ 65535
  size_le : fileStoreMsgSize subj hdr msg ≤ rlBadThresh
  /-- An erased record has random bytes for its data, the two others have none. -/
  shape : match kind with
    | .stored => True
    | .erased => subj = [] ∧ hdr = [] ∧ ts = 0
    | .skipped | .tombstone => subj = [] ∧ hdr = [] ∧ msg = []

theorem setBit_lt {n bit width : Nat} (small : n < 2 ^ bit) (fits : bit < width) :
    setBit n bit < 2 ^ width := by
  rw [setBit_of_lt small]
  calc 2 ^ bit + n < 2 ^ bit + 2 ^ bit := by omega
    _ = 2 ^ (bit + 1) := by rw [Nat.pow_succ]; omega
    _ ≤ 2 ^ width := Nat.pow_le_pow_right (by omega) fits

theorem Kind.mark_lt (kind : Kind) {seq : Nat} (small : seq < 2 ^ 62) : kind.mark seq < 2 ^ 64 := by
  have low : seq < 2 ^ 63 := by omega
  cases kind with
  | stored =>
    simp only [mark]
    omega
  | erased => exact setBit_lt low (by decide)
  | skipped => exact setBit_lt low (by decide)
  | tombstone => exact setBit_lt small (by decide)

namespace Entry

def size (e : Entry) : Nat := fileStoreMsgSize e.subj e.hdr e.msg

def isMessage (e : Entry) : Bool := e.kind != .tombstone

def isStored (e : Entry) : Bool := e.kind == .stored

def record (e : Entry) : Record where
  seq := e.kind.mark e.seq
  ts := e.ts
  subj := e.subj
  hdr := e.hdr
  msg := e.msg
  seq_lt := e.kind.mark_lt e.seq_lt
  ts_range := e.ts_range
  subj_le := e.subj_le
  size_le := e.size_le

def write (e : Entry) (hh : Digest64) : Bytes := e.record.write hh

def process (e : Entry) (hh : Digest64) (r : Rebuild) : Rebuild :=
  r.processRecord (e.kind.mark e.seq) e.ts e.size (hh.sum e.record.hashed)

end Entry

def blockBytes (hh : Digest64) (es : List Entry) : Bytes := es.flatMap (fun e => e.write hh)

def complete : Nat → List Entry → List Entry
  | _, [] => []
  | n, e :: es => if e.size ≤ n then e :: complete (n - e.size) es else []

structure Content where
  entries : List Entry
  increasing : ((entries.filter Entry.isMessage).map Entry.seq).Pairwise (· < ·)

/-! From bytes to records. -/

namespace Entry

variable (e : Entry) (hh : Digest64)

@[simp] theorem write_length : (e.write hh).length = e.size := by
  rw [write, Record.write_eq_frame, Frame.bytes_length]
  exact e.record.clearBit_lenWord

theorem size_pos : msgHdrSize ≤ e.size := by
  simp only [size, fileStoreMsgSize, msgHdrSize]
  split <;> omega

/-! What a reader finds at a complete record, whatever follows it. -/

section Reading

variable (rest : Bytes)

theorem write_frame : e.write hh = (e.record.frame hh).bytes := e.record.write_eq_frame hh

theorem recordLen_write : recordLen (e.write hh ++ rest) = e.size := by
  rw [write_frame, Frame.recordLen_bytes]
  exact e.record.clearBit_lenWord

theorem recordSeq_write : recordSeq (e.write hh ++ rest) = e.kind.mark e.seq := by
  rw [write_frame, Frame.recordSeq_bytes]
  rfl

theorem recordTs_write : recordTs (e.write hh ++ rest) = e.ts := by
  rw [write_frame, Frame.recordTs_bytes]
  rfl

theorem sane_write : ¬ Insane (e.write hh ++ rest) := by
  rw [write_frame]
  exact Frame.sane_bytes _ _

theorem headed_write : ¬ (e.write hh ++ rest).length < msgHdrSize := by
  have long := e.size_pos
  simp only [length_append, write_length]
  omega

theorem filled_write : ¬ (e.write hh ++ rest).length = 0 := by
  have headed := e.headed_write hh rest
  simp only [msgHdrSize] at headed
  omega

end Reading

theorem loop_write (r : Rebuild) (index : Nat) (rest : Bytes) :
    Rebuild.loop hh r index (e.write hh ++ rest) =
      Rebuild.loop hh (e.process hh r) (index + e.size) rest := by
  have input : checksumInput (e.write hh ++ rest) = e.record.hashed := by
    rw [write_frame, Frame.checksumInput_bytes, e.record.frame_input]
  have summed : storedChecksum (e.write hh ++ rest) = hh.sum e.record.hashed := by
    rw [write_frame, Frame.storedChecksum_bytes]
    rfl
  rw [Rebuild.loop, if_neg (e.filled_write hh rest), if_neg (e.headed_write hh rest),
    if_neg (e.sane_write hh rest), if_neg (by rw [input, summed]; simp), recordLen_write, input,
    recordSeq_write, recordTs_write, drop_left' (e.write_length hh)]
  rfl

theorem loop_torn {n : Nat} (torn : n < e.size) (r : Rebuild) (index : Nat) :
    (Rebuild.loop hh r index ((e.write hh).take n)).1 = r := by
  have short : ((e.write hh).take n).length = n := by
    rw [length_take, write_length]
    omega
  by_cases none : n = 0
  · rw [Rebuild.loop, if_pos (by omega)]
  by_cases head : n < msgHdrSize
  · rw [Rebuild.loop, if_neg (by omega), if_pos (by omega)]
  -- The length word is there and asks for more than what is left.
  have insane : Insane ((e.write hh).take n) := by
    have cut : (e.write hh).take n = recordHeader e.record.lenWord (e.kind.mark e.seq) e.ts
        e.subj.length ++ (e.record.body ++ hh.sum e.record.hashed).take (n - msgHdrSize) := by
      rw [write, Record.write_eq_frame]
      change (recordHeader e.record.lenWord (e.kind.mark e.seq) e.ts e.subj.length ++
        (e.record.body ++ hh.sum e.record.hashed)).take n = _
      rw [take_append, recordHeader_length, take_of_length_le (by simp; omega)]
    have len : recordLen ((e.write hh).take n) = e.size := by
      rw [cut, recordLen, rawLen_header _ _ _ _ _ e.record.lenWord_lt]
      exact e.record.clearBit_lenWord
    simp only [Insane, len, short]
    omega
  rw [Rebuild.loop, if_neg (by omega), if_neg (by omega), if_pos insane]

end Entry

/-- The loop over a block cut off at any byte processes the complete records. -/
theorem loop_blockBytes (hh : Digest64) (es : List Entry) (n : Nat) (r : Rebuild) (index : Nat) :
    (Rebuild.loop hh r index ((blockBytes hh es).take n)).1 =
      (complete n es).foldl (fun r e => e.process hh r) r := by
  induction es generalizing n r index with
  | nil =>
    rw [blockBytes, flatMap_nil, take_nil, Rebuild.loop]
    rfl
  | cons e es ih =>
    simp only [blockBytes, flatMap_cons, complete]
    rw [take_append, e.write_length]
    by_cases fits : e.size ≤ n
    · rw [take_of_length_le (by simpa using fits), Entry.loop_write, if_pos fits]
      exact ih _ _ _
    · have nothing : n - e.size = 0 := by omega
      rw [nothing, take_zero, append_nil, if_neg fits]
      exact e.loop_torn hh (by omega) r index

/-! What each kind of record does. -/

namespace Rebuild

variable (r : Rebuild)

theorem addRange_eq {seq : Nat} (pos : 0 < seq) (count : Nat) :
    r.addRange seq count = { r with mb.dmap := r.mb.dmap ∪ Finset.Ico seq (seq + count) } := by
  induction count generalizing r seq with
  | zero => simp [addRange]
  | succ count ih =>
    have step : Finset.Ico seq (seq + (count + 1)) =
        insert seq (Finset.Ico (seq + 1) (seq + 1 + count)) := by
      ext x
      simp only [Finset.mem_Ico, Finset.mem_insert]
      omega
    rw [addRange, ih _ (by omega), addToDmap, if_neg (by omega), step]
    simp

theorem updateLast_eq {seq : Nat} (up : r.last < seq) (ts : Int) :
    r.updateLast seq ts = { r with
      last := seq
      mb.last := ⟨seq, ts⟩
      mb.dmap := if 0 < r.last ∧ r.mb.msgs ≠ 0 then r.mb.dmap ∪ Finset.Ioo r.last seq
        else r.mb.dmap } := by
  rw [updateLast, if_neg (by omega)]
  by_cases counted : 0 < r.last ∧ r.mb.msgs ≠ 0
  · by_cases next : seq = r.last + 1
    · have none : Finset.Ioo r.last seq = ∅ := by
        ext x
        simp only [Finset.mem_Ioo, Finset.notMem_empty, iff_false]
        omega
      simp only [counted, next]
      simp [none, ← next]
    · have gap : Finset.Ico (r.last + 1) (r.last + 1 + (seq - (r.last + 1))) =
          Finset.Ioo r.last seq := by
        ext x
        simp only [Finset.mem_Ico, Finset.mem_Ioo]
        omega
      rw [if_pos counted, if_pos ⟨counted.1, next, counted.2⟩, addRange_eq _ (by omega), gap]
  · rw [if_neg counted, if_neg (fun gap => counted ⟨gap.1, gap.2.2⟩)]

end Rebuild

namespace Entry

variable (e : Entry) (hh : Digest64) (r : Rebuild)

theorem process_tombstone (kind : e.kind = .tombstone) : e.process hh r =
    { r with mb.lchk := hh.sum e.record.hashed }.tombstoneRecord e.seq e.ts := by
  rw [process, Rebuild.processRecord, kind]
  simp [Kind.mark, @clearBit_setBit e.seq tbit e.seq_lt]

theorem process_deleted (kind : e.kind = .erased ∨ e.kind = .skipped) : e.process hh r =
    { r with mb.lchk := hh.sum e.record.hashed }.deletedRecord e.seq e.ts := by
  have small : e.seq < 2 ^ ebit := lt_trans e.seq_lt (by decide)
  have mark : e.kind.mark e.seq = setBit e.seq ebit := by
    rcases kind with kind | kind <;> rw [kind] <;> rfl
  have plain : (setBit e.seq ebit).testBit tbit = false := by
    rw [testBit_setBit_ne (by decide)]
    exact Nat.testBit_lt_two_pow e.seq_lt
  rw [process, Rebuild.processRecord, mark]
  simp [plain, clearBit_setBit small]

theorem process_stored (kind : e.kind = .stored) (above : r.mb.first.seq ≤ e.seq) :
    e.process hh r =
      { r with mb.lchk := hh.sum e.record.hashed }.storedRecord e.seq e.ts e.size := by
  have pos := e.seq_pos
  have small : e.seq < 2 ^ ebit := lt_trans e.seq_lt (by decide)
  have plain : e.seq.testBit tbit = false := Nat.testBit_lt_two_pow e.seq_lt
  have kept : ¬ (e.seq = 0 ∨ e.seq.testBit ebit = true ∨ e.seq < r.mb.first.seq) := by
    rw [Nat.testBit_lt_two_pow small]
    simp
    omega
  rw [process, Rebuild.processRecord, kind]
  simp only [Kind.mark, plain, Bool.false_eq_true, if_false]
  exact if_neg kept

end Entry

/-- The last message sequence after these records, when it was `last` before them. -/
def lastSeq (last : Nat) : List Entry → Nat
  | [] => last
  | e :: es => lastSeq (if e.isMessage then e.seq else last) es

/-- The first stored message follows directly on the message records before it, if there are
any. -/
def NoHeadGap (last : Nat) : List Entry → Prop
  | [] => True
  | e :: es =>
    if e.isStored then last = 0 ∨ e.seq = last + 1
    else NoHeadGap (if e.isMessage then e.seq else last) es

def Ascending (last : Nat) (es : List Entry) : Prop :=
  ((es.filter Entry.isMessage).map Entry.seq).Pairwise (· < ·) ∧
    ∀ e ∈ es, e.isMessage = true → last < e.seq

variable {es : List Entry}

theorem Ascending.tombstone {last : Nat} {e : Entry} (ascending : Ascending last (e :: es))
    (kind : e.isMessage = false) : Ascending last es := by
  refine ⟨?_, fun x member => ascending.2 x (mem_cons_of_mem _ member)⟩
  have pairs := ascending.1
  rwa [filter_cons_of_neg (by simp [kind])] at pairs

theorem Ascending.message {last : Nat} {e : Entry} (ascending : Ascending last (e :: es))
    (kind : e.isMessage = true) : last < e.seq ∧ Ascending e.seq es := by
  have pairs := ascending.1
  rw [filter_cons_of_pos kind, map_cons, pairwise_cons] at pairs
  refine ⟨ascending.2 e mem_cons_self kind, pairs.2, ?_⟩
  intro x member message
  exact pairs.1 _ (mem_map.mpr ⟨x, mem_filter.mpr ⟨member, message⟩, rfl⟩)

namespace Rebuild

/-- The state before the first stored message; `lseq` is the last erased or skipped one. -/
structure Bare (r : Rebuild) (lseq : Nat) : Prop where
  msgs : r.mb.msgs = 0
  bytes : r.mb.bytes = 0
  dmap : r.mb.dmap = ∅
  firstNeedsSet : r.firstNeedsSet = true
  last : r.last = lseq
  first : r.mb.first.seq = if lseq = 0 then 0 else lseq + 1

/-- The state from the first stored message on: what was stored so far, and what the set of
deleted sequences holds besides the sequences between `fseq` and `lseq`. -/
structure Filled (r : Rebuild) (fseq lseq : Nat) (extra : Finset Nat) (kept : List Entry) :
    Prop where
  msgs : r.mb.msgs = kept.length
  bytes : r.mb.bytes = (kept.map Entry.size).sum
  some : kept ≠ []
  least : fseq = (kept.map Entry.seq).head?.getD 0
  bounds : ∀ e ∈ kept, fseq ≤ e.seq ∧ e.seq ≤ lseq
  firstNeedsSet : r.firstNeedsSet = false
  first : r.mb.first.seq = fseq
  last : r.last = lseq
  mbLast : r.mb.last.seq = lseq
  ordered : 0 < fseq ∧ fseq ≤ lseq
  below : ∀ seq ∈ extra, seq < fseq
  dmap : ∀ seq, seq ∈ r.mb.dmap ↔
    seq ∈ extra ∨ (fseq ≤ seq ∧ seq ≤ lseq ∧ seq ∉ kept.map Entry.seq)

variable (hh : Digest64) {r : Rebuild} {e : Entry} {fseq lseq : Nat} {extra : Finset Nat}
  {kept : List Entry}

theorem Bare.tombstone (bare : Bare r lseq) (kind : e.kind = .tombstone) :
    Bare (e.process hh r) lseq := by
  rw [e.process_tombstone hh r kind]
  exact { bare with }

theorem Bare.first_le (bare : Bare r lseq) (up : lseq < e.seq) : r.mb.first.seq ≤ e.seq := by
  rw [bare.first]
  split <;> omega

theorem Bare.deleted (bare : Bare r lseq) (kind : e.kind = .erased ∨ e.kind = .skipped)
    (up : lseq < e.seq) : Bare (e.process hh r) e.seq := by
  have pos := e.seq_pos
  have low := bare.first_le up
  rw [e.process_deleted hh r kind, deletedRecord, if_pos low, updateLast_eq _ (by
    rw [bare.last]; exact up)]
  simp only [bare.msgs, if_true]
  exact ⟨rfl, bare.bytes, by simp [bare.dmap], bare.firstNeedsSet, rfl, (if_neg (by omega)).symm⟩

/-- The first stored message: the gap before it is taken for a gap between messages. -/
theorem Bare.stored (bare : Bare r lseq) (kind : e.kind = .stored) (up : lseq < e.seq) :
    Filled (e.process hh r) e.seq e.seq (if lseq = 0 then ∅ else Finset.Ioo lseq e.seq) [e] := by
  have low := bare.first_le up
  have news : ¬ e.seq ≤ r.last := by
    rw [bare.last]
    omega
  rw [e.process_stored hh r kind low, storedRecord]
  simp only [bare.firstNeedsSet, low, and_self, if_true, news, if_false, bare.dmap,
    Finset.notMem_empty, bare.msgs, bare.bytes]
  rw [updateLast_eq _ (by simpa using news)]
  refine ⟨by simp, by simp, by simp, by simp, by simp, rfl, rfl, rfl, rfl,
    ⟨e.seq_pos, le_refl _⟩, ?_, ?_⟩
  · intro seq member
    split at member
    · simp at member
    · exact (Finset.mem_Ioo.mp member).2
  · intro seq
    simp only [bare.last]
    by_cases zero : lseq = 0
    · simp [zero]
      omega
    · simp [zero, pos_of_ne_zero zero]
      omega

section

variable (filled : Filled r fseq lseq extra kept)

include filled

theorem Filled.tombstone (kind : e.kind = .tombstone) :
    Filled (e.process hh r) fseq lseq extra kept := by
  rw [e.process_tombstone hh r kind]
  exact { filled with }

theorem Filled.msgs_ne : r.mb.msgs ≠ 0 := by
  rw [filled.msgs]
  exact fun none => filled.some (length_eq_zero_iff.mp none)

theorem Filled.deleted (kind : e.kind = .erased ∨ e.kind = .skipped) (up : lseq < e.seq) :
    Filled (e.process hh r) fseq e.seq extra kept := by
  have ordered := filled.ordered
  have pos := e.seq_pos
  have low : r.mb.first.seq ≤ e.seq := by
    rw [filled.first]
    omega
  rw [e.process_deleted hh r kind, deletedRecord, if_pos low, updateLast_eq _ (by
    rw [filled.last]; exact up)]
  simp only [filled.msgs_ne, if_false, ne_eq, ne_of_gt pos, not_false_eq_true, if_true,
    addToDmap]
  refine { filled with
    bounds := ?_, last := rfl, mbLast := rfl, ordered := ⟨ordered.1, by omega⟩, dmap := ?_ }
  · intro x member
    have bound := filled.bounds x member
    omega
  · intro seq
    have known := filled.dmap seq
    have absent : e.seq ∉ kept.map Entry.seq := by
      intro member
      obtain ⟨x, inside, same⟩ := mem_map.mp member
      have bound := filled.bounds x inside
      omega
    have beyond : lseq < seq → seq ∉ kept.map Entry.seq := by
      intro more member
      obtain ⟨x, inside, same⟩ := mem_map.mp member
      have bound := filled.bounds x inside
      omega
    simp only [filled.last, and_true, show 0 < lseq by omega, if_true, Finset.mem_insert, Finset.mem_union, Finset.mem_Ioo, known]
    constructor
    · rintro (rfl | (old | ⟨inside, notStored⟩) | gap)
      · exact .inr ⟨by omega, le_refl _, absent⟩
      · exact .inl old
      · exact .inr ⟨inside, by omega, notStored.2⟩
      · exact .inr ⟨by omega, by omega, beyond gap.1⟩
    · rintro (old | ⟨above, atMost, notStored⟩)
      · exact .inr (.inl (.inl old))
      · by_cases before : seq ≤ lseq
        · exact .inr (.inl (.inr ⟨above, before, notStored⟩))
        · by_cases same : seq = e.seq
          · exact .inl same
          · exact .inr (.inr ⟨by omega, by omega⟩)

theorem Filled.stored (kind : e.kind = .stored) (up : lseq < e.seq) :
    Filled (e.process hh r) fseq e.seq extra (kept ++ [e]) := by
  have ordered := filled.ordered
  have low : r.mb.first.seq ≤ e.seq := by
    rw [filled.first]
    omega
  have news : ¬ e.seq ≤ r.last := by
    rw [filled.last]
    omega
  have absent : e.seq ∉ r.mb.dmap := by
    rw [filled.dmap]
    rintro (old | inside)
    · have := filled.below _ old
      omega
    · omega
  rw [e.process_stored hh r kind low, storedRecord]
  simp only [filled.firstNeedsSet, Bool.false_eq_true, false_and, if_false, news, absent]
  rw [updateLast_eq _ (by simpa using news)]
  refine ⟨by simp [filled.msgs], by simp [filled.bytes], by simp, ?_, ?_, rfl,
    filled.first, rfl, rfl, ⟨ordered.1, by omega⟩, filled.below, ?_⟩
  · obtain ⟨x, xs, shape⟩ := exists_cons_of_ne_nil filled.some
    rw [filled.least, shape]
    rfl
  · refine forall_mem_append.mpr ⟨fun x old => ?_, forall_mem_singleton.mpr (by omega)⟩
    have bound := filled.bounds x old
    omega
  · intro seq
    have known := filled.dmap seq
    have beyond : lseq < seq → seq ∉ kept.map Entry.seq := by
      intro more member
      obtain ⟨x, inside, same⟩ := mem_map.mp member
      have bound := filled.bounds x inside
      omega
    simp only [filled.last, Nat.succ_ne_zero, ne_eq, not_false_eq_true, and_true,
      show 0 < lseq by omega, if_true, Finset.mem_union, Finset.mem_Ioo, known, map_append,
      map_cons, map_nil, mem_append, mem_singleton, not_or]
    constructor
    · rintro ((old | ⟨above, atMost, notStored⟩) | gap)
      · exact .inl old
      · exact .inr ⟨above, by omega, notStored, by omega⟩
      · exact .inr ⟨by omega, by omega, beyond gap.1, by omega⟩
    · rintro (old | ⟨above, atMost, notStored, differ⟩)
      · exact .inl (.inl old)
      · by_cases before : seq ≤ lseq
        · exact .inl (.inr ⟨above, before, notStored⟩)
        · exact .inr ⟨by omega, by omega⟩

end

theorem Filled.run (es : List Entry) (filled : Filled r fseq lseq extra kept)
    (ascending : Ascending lseq es) :
    Filled (es.foldl (fun r e => e.process hh r) r) fseq (lastSeq lseq es) extra
      (kept ++ es.filter Entry.isStored) := by
  induction es generalizing r lseq kept with
  | nil => simpa [lastSeq] using filled
  | cons e es ih =>
    rw [foldl_cons, lastSeq]
    cases kind : e.kind with
    | tombstone =>
      have next := ih (filled.tombstone hh kind)
        (ascending.tombstone (by simp [Entry.isMessage, kind]))
      simpa [Entry.isMessage, Entry.isStored, kind] using next
    | stored =>
      obtain ⟨up, later⟩ := ascending.message (by simp [Entry.isMessage, kind])
      have next := ih (filled.stored hh kind up) later
      simpa [Entry.isMessage, Entry.isStored, kind] using next
    | erased =>
      obtain ⟨up, later⟩ := ascending.message (by simp [Entry.isMessage, kind])
      have next := ih (filled.deleted hh (.inl kind) up) later
      simpa [Entry.isMessage, Entry.isStored, kind] using next
    | skipped =>
      obtain ⟨up, later⟩ := ascending.message (by simp [Entry.isMessage, kind])
      have next := ih (filled.deleted hh (.inr kind) up) later
      simpa [Entry.isMessage, Entry.isStored, kind] using next

/-- All records: either none is stored, or the state is that of the stored ones, with a set of
further deleted sequences that is empty exactly if there is no gap before the first. -/
theorem Bare.run (es : List Entry) (bare : Bare r lseq) (ascending : Ascending lseq es) :
    (es.filter Entry.isStored = [] ∧ NoHeadGap lseq es ∧
        Bare (es.foldl (fun r e => e.process hh r) r) (lastSeq lseq es)) ∨
      ∃ fseq extra, (extra = ∅ ↔ NoHeadGap lseq es) ∧
        Filled (es.foldl (fun r e => e.process hh r) r) fseq (lastSeq lseq es) extra
          (es.filter Entry.isStored) := by
  induction es generalizing r lseq with
  | nil => exact .inl ⟨rfl, trivial, bare⟩
  | cons e es ih =>
    rw [foldl_cons, lastSeq]
    cases kind : e.kind with
    | tombstone =>
      have next := ih (bare.tombstone hh kind)
        (ascending.tombstone (by simp [Entry.isMessage, kind]))
      simpa [Entry.isMessage, Entry.isStored, kind, NoHeadGap] using next
    | stored =>
      obtain ⟨up, later⟩ := ascending.message (by simp [Entry.isMessage, kind])
      have next := (bare.stored hh kind up).run hh es later
      refine .inr ⟨_, _, ?_, by simpa [Entry.isMessage, Entry.isStored, kind] using next⟩
      simp only [NoHeadGap, Entry.isStored, kind, beq_self_eq_true, if_true]
      by_cases zero : lseq = 0
      · simp [zero]
      simp only [zero, if_false, false_or, Finset.eq_empty_iff_forall_notMem, Finset.mem_Ioo]
      constructor
      · intro none
        have := none (lseq + 1)
        omega
      · intro next seq
        omega
    | erased =>
      obtain ⟨up, later⟩ := ascending.message (by simp [Entry.isMessage, kind])
      have next := ih (bare.deleted hh (.inl kind) up) later
      simpa [Entry.isMessage, Entry.isStored, kind, NoHeadGap] using next
    | skipped =>
      obtain ⟨up, later⟩ := ascending.message (by simp [Entry.isMessage, kind])
      have next := ih (bare.deleted hh (.inr kind) up) later
      simpa [Entry.isMessage, Entry.isStored, kind, NoHeadGap] using next

end Rebuild

theorem complete_initial (n : Nat) (es : List Entry) : complete n es <+: es := by
  induction es generalizing n with
  | nil => exact prefix_rfl
  | cons e es ih =>
    rw [complete]
    split
    · exact (prefix_cons_inj e).mpr (ih _)
    · exact nil_prefix

theorem Content.ascending (c : Content) (n : Nat) : Ascending 0 (complete n c.entries) := by
  refine ⟨?_, fun e _ _ => e.seq_pos⟩
  have part := ((complete_initial n c.entries).sublist.filter Entry.isMessage).map Entry.seq
  exact c.increasing.sublist part

theorem lastSeq_of_none {last : Nat} (none : ¬ ∃ e ∈ es, e.isMessage = true) :
    lastSeq last es = last := by
  induction es with
  | nil => rfl
  | cons e es ih =>
    have plain : ¬ e.isMessage = true := fun message => none ⟨e, mem_cons_self, message⟩
    rw [lastSeq, if_neg plain]
    exact ih (fun ⟨x, member, message⟩ => none ⟨x, mem_cons_of_mem _ member, message⟩)

theorem lastSeq_mem {last : Nat} (some : ∃ e ∈ es, e.isMessage = true) :
    ∃ e ∈ es, e.isMessage = true ∧ e.seq = lastSeq last es := by
  induction es generalizing last with
  | nil =>
    obtain ⟨e, member, _⟩ := some
    exact absurd member not_mem_nil
  | cons e es ih =>
    rw [lastSeq]
    by_cases later : ∃ x ∈ es, x.isMessage = true
    · obtain ⟨x, member, message, same⟩ := ih later
      exact ⟨x, mem_cons_of_mem _ member, message, same⟩
    have here : e.isMessage = true := by
      obtain ⟨x, member, message⟩ := some
      rcases mem_cons.mp member with rfl | tail
      · exact message
      · exact absurd ⟨x, tail, message⟩ later
    refine ⟨e, mem_cons_self, here, ?_⟩
    rw [lastSeq_of_none later, if_pos here]

theorem le_lastSeq {last : Nat} (ascending : Ascending last es) :
    last ≤ lastSeq last es ∧ ∀ e ∈ es, e.isMessage = true → e.seq ≤ lastSeq last es := by
  induction es generalizing last with
  | nil => exact ⟨le_refl _, fun e member => absurd member not_mem_nil⟩
  | cons e es ih =>
    rw [lastSeq]
    cases kind : e.isMessage with
    | false =>
      obtain ⟨bound, each⟩ := ih (ascending.tombstone kind)
      exact ⟨bound, forall_mem_cons.mpr ⟨by simp [kind], each⟩⟩
    | true =>
      obtain ⟨up, later⟩ := ascending.message kind
      obtain ⟨bound, each⟩ := ih later
      exact ⟨le_trans (le_of_lt up) bound, forall_mem_cons.mpr ⟨fun _ => bound, each⟩⟩

/-- The rebuilt state is that of the records `es`. -/
def Recovered (mb : BlockState) (es : List Entry) : Prop :=
  let kept := es.filter Entry.isStored
  mb.msgs = kept.length ∧ mb.bytes = (kept.map Entry.size).sum ∧
    (kept ≠ [] →
      IsLeast {seq | ∃ e ∈ kept, e.seq = seq} mb.first.seq ∧
      IsGreatest {seq | ∃ e ∈ es, e.isMessage = true ∧ e.seq = seq} mb.last.seq ∧
      ∀ seq, seq ∈ mb.dmap ↔
        mb.first.seq ≤ seq ∧ seq ≤ mb.last.seq ∧ ∀ e ∈ kept, e.seq ≠ seq)

/-- Apart from the checksum, the rebuilt state is that of the loop over the complete records. -/
theorem rebuild_complete (hh : Digest64) (c : Content) (n : Nat) (allowTruncate : Bool) :
    ∃ r, r = (complete n c.entries).foldl (fun r e => e.process hh r)
        ⟨{ BlockState.fresh with rbytes := ((blockBytes hh c.entries).take n).length },
          true, 0, [], ⟨0, 0⟩⟩ ∧
      ∃ lchk r', (r' = { r with mb.lchk := lchk }.settle ∨
          r' = { r with mb.lchk := lchk }.settle.settle) ∧
        (rebuildStateFromBufLocked hh .fresh ((blockBytes hh c.entries).take n)
          allowTruncate).mb = r'.mb := by
  refine ⟨_, rfl, ?_⟩
  rw [← loop_blockBytes hh c.entries n _ 0]
  unfold rebuildStateFromBufLocked
  simp only [BlockState.fresh]
  generalize Rebuild.loop hh _ 0 _ = out
  obtain ⟨r, stop⟩ := out
  cases stop with
  | none => exact ⟨r.mb.lchk, _, .inr rfl, rfl⟩
  | some stop =>
    obtain ⟨index, err⟩ := stop
    cases allowTruncate with
    | true =>
      by_cases room : recordHashSize ≤ index
      · exact ⟨slice ((blockBytes hh c.entries).take n) (index - recordHashSize) index, _, .inl rfl,
          by simp [room]⟩
      · exact ⟨r.mb.lchk, _, .inl rfl, by simp [room]⟩
    | false => exact ⟨r.mb.lchk, _, .inl rfl, rfl⟩

namespace Rebuild

variable {r : Rebuild} {fseq lseq : Nat} {extra : Finset Nat} {kept : List Entry}

theorem settle_of_msgs (some : r.mb.msgs ≠ 0) : r.settle = r := by
  rw [settle, if_neg some]

theorem settle_counters (r : Rebuild) :
    r.settle.mb.msgs = r.mb.msgs ∧ r.settle.mb.bytes = r.mb.bytes := by
  unfold settle
  split
  · split
    · exact ⟨rfl, rfl⟩
    · split <;> exact ⟨rfl, rfl⟩
  · exact ⟨rfl, rfl⟩

theorem Filled.recovered_iff {es : List Entry}
    (filled : Filled r fseq (lastSeq 0 es) extra (es.filter Entry.isStored))
    (ascending : Ascending 0 es) : Recovered r.mb es ↔ extra = ∅ := by
  have least : IsLeast {seq | ∃ e ∈ es.filter Entry.isStored, e.seq = seq} fseq := by
    constructor
    · obtain ⟨x, xs, shape⟩ := exists_cons_of_ne_nil filled.some
      have head := filled.least
      rw [shape] at head ⊢
      exact ⟨x, mem_cons_self, head.symm⟩
    · rintro seq ⟨e, member, rfl⟩
      exact (filled.bounds e member).1
  have greatest : IsGreatest {seq | ∃ e ∈ es, e.isMessage = true ∧ e.seq = seq}
      (lastSeq 0 es) := by
    constructor
    · apply lastSeq_mem
      obtain ⟨x, member⟩ := exists_mem_of_ne_nil _ filled.some
      obtain ⟨inside, stored⟩ := mem_filter.mp member
      refine ⟨x, inside, ?_⟩
      simp only [Entry.isStored, beq_iff_eq] at stored
      simp [Entry.isMessage, stored]
    · rintro seq ⟨e, member, message, rfl⟩
      exact (le_lastSeq ascending).2 e member message
  have absent : ∀ seq, (∀ e ∈ es.filter Entry.isStored, e.seq ≠ seq) ↔
      seq ∉ (es.filter Entry.isStored).map Entry.seq := by
    intro seq
    simp [mem_map]
  simp only [Recovered, filled.msgs, filled.bytes, filled.first, filled.mbLast, true_and, least,
    greatest, absent, filled.dmap]
  constructor
  · intro holds
    rw [Finset.eq_empty_iff_forall_notMem]
    intro seq member
    have low := filled.below seq member
    have inside := (holds filled.some seq).mp (.inl member)
    omega
  · rintro rfl _ seq
    simp

theorem Bare.recovered {es : List Entry} {mb : BlockState} (none : es.filter Entry.isStored = [])
    (msgs : mb.msgs = 0) (bytes : mb.bytes = 0) : Recovered mb es := by
  simp [Recovered, none, msgs, bytes]

end Rebuild

theorem rebuild_recovers_iff (hh : Digest64) (c : Content) (n : Nat) (allowTruncate : Bool) :
    Recovered (rebuildStateFromBufLocked hh .fresh ((blockBytes hh c.entries).take n)
        allowTruncate).mb (complete n c.entries) ↔
      NoHeadGap 0 (complete n c.entries) := by
  obtain ⟨r, fold, lchk, r', settled, result⟩ := rebuild_complete hh c n allowTruncate
  have ascending := c.ascending n
  have start : Rebuild.Bare ⟨{ BlockState.fresh with
      rbytes := ((blockBytes hh c.entries).take n).length }, true, 0, [], ⟨0, 0⟩⟩ 0 :=
    ⟨rfl, rfl, rfl, rfl, rfl, rfl⟩
  rw [result]
  rcases start.run hh _ ascending with ⟨none, gapless, bare⟩ | ⟨fseq, extra, gapless, filled⟩
  · rw [← fold] at bare
    have counters : r'.mb.msgs = 0 ∧ r'.mb.bytes = 0 := by
      have once := Rebuild.settle_counters { r with mb.lchk := lchk }
      have twice := Rebuild.settle_counters { r with mb.lchk := lchk }.settle
      rcases settled with rfl | rfl
      · exact ⟨once.1.trans bare.msgs, once.2.trans bare.bytes⟩
      · exact ⟨twice.1.trans (once.1.trans bare.msgs), twice.2.trans (once.2.trans bare.bytes)⟩
    exact iff_of_true (Rebuild.Bare.recovered none counters.1 counters.2) gapless
  · rw [← fold] at filled
    have kept : Rebuild.Filled { r with mb.lchk := lchk } fseq _ extra _ := { filled with }
    have same : r' = { r with mb.lchk := lchk } := by
      rcases settled with rfl | rfl
      · exact Rebuild.settle_of_msgs kept.msgs_ne
      · rw [Rebuild.settle_of_msgs kept.msgs_ne, Rebuild.settle_of_msgs kept.msgs_ne]
    rw [same, kept.recovered_iff ascending, gapless]

def erasedEntry (seq : Nat) (pos : 0 < seq) (lt : seq < 2 ^ 62) : Entry where
  kind := .erased
  seq := seq
  ts := 0
  subj := []
  hdr := []
  msg := []
  seq_pos := pos
  seq_lt := lt
  ts_range := by decide
  subj_le := by decide
  size_le := by decide
  shape := ⟨rfl, rfl, rfl⟩

def storedEntry : Entry where
  kind := .stored
  seq := 5
  ts := 7
  subj := ascii "a"
  hdr := []
  msg := ascii "x"
  seq_pos := by decide
  seq_lt := by decide
  ts_range := by decide
  subj_le := by decide
  size_le := by decide
  shape := trivial

def erasedHead : Content where
  entries := [erasedEntry 1 (by decide) ordersMessage.plain,
    erasedEntry 2 (by decide) (by decide), storedEntry]
  increasing := by decide

theorem erasedHead_deletes_below_first :
    (rebuildStateFromBufLocked polyDigest .fresh (blockBytes polyDigest erasedHead.entries)
        false).mb.first.seq = 5 ∧
      (rebuildStateFromBufLocked polyDigest .fresh (blockBytes polyDigest erasedHead.entries)
        false).mb.dmap = {3, 4} ∧
      ¬ Recovered (rebuildStateFromBufLocked polyDigest .fresh
        (blockBytes polyDigest erasedHead.entries) false).mb erasedHead.entries := by
  have bytes : blockBytes polyDigest erasedHead.entries =
      (erasedEntry 1 (by decide) (by decide)).write polyDigest ++
        ((erasedEntry 2 (by decide) (by decide)).write polyDigest ++
          (storedEntry.write polyDigest ++ [])) := by
    simp [blockBytes, erasedHead]
  have first : (rebuildStateFromBufLocked polyDigest .fresh
      (blockBytes polyDigest erasedHead.entries) false).mb.first.seq = 5 := by
    rw [bytes, rebuildStateFromBufLocked, Entry.loop_write, Entry.loop_write, Entry.loop_write,
      Rebuild.loop]
    decide +kernel
  have dmap : (rebuildStateFromBufLocked polyDigest .fresh
      (blockBytes polyDigest erasedHead.entries) false).mb.dmap = {3, 4} := by
    rw [bytes, rebuildStateFromBufLocked, Entry.loop_write, Entry.loop_write, Entry.loop_write,
      Rebuild.loop]
    decide +kernel
  refine ⟨first, dmap, ?_⟩
  intro recovered
  have known := (recovered.2.2 (by decide)).2.2 3
  rw [first, dmap] at known
  have low := (known.mp (by decide)).1
  omega

end LinearNats.FileStore
