import LinearNats.LittleEndian
import LinearNats.Store.Mem

/-! The record of a message in a block file and the checksum that ends it. The writer hashes the
sequence, the time, the subject, the header and the payload; the three lengths that say where
those parts begin and end are not hashed. -/
namespace LinearNats.FileStore
open Server LittleEndian List

def msgHdrSize : Nat := 22
def recordHashSize : Nat := 8
def emptyRecordLen : Nat := msgHdrSize + recordHashSize
def rlBadThresh : Nat := 32 * 1024 * 1024

/-- The numbers of the bits that mark a record with headers, an erased sequence and a tombstone. -/
def hbit : Nat := 31
def ebit : Nat := 63
def tbit : Nat := 62

def setBit (n bit : Nat) : Nat := n ||| 2 ^ bit
def clearBit (n bit : Nat) : Nat := if n.testBit bit then n - 2 ^ bit else n

/-- `uint64(ts)` and its inverse `int64(u)`. -/
def uint64 (ts : Int) : Nat := (ts % 2 ^ 64).toNat
def int64 (u : Nat) : Int := if u < 2 ^ 63 then u else (u : Int) - 2 ^ 64

structure Digest64 where
  sum : Bytes → Bytes
  size : ∀ input, (sum input).length = recordHashSize

def fileStoreMsgSize (subj hdr msg : Bytes) : Nat :=
  if hdr.length = 0 then 22 + subj.length + msg.length + 8
  else 22 + subj.length + 4 + hdr.length + msg.length + 8

def recordHeader (l seq : Nat) (ts : Int) (slen : Nat) : Bytes :=
  putUint 4 l ++ (putUint 8 seq ++ putUint 8 (uint64 ts)) ++ putUint 2 slen

def writeMsgRecordLocked (hh : Digest64) (rl seq : Nat) (subj mhdr msg : Bytes) (ts : Int) :
    Bytes :=
  let hasHeaders := 0 < mhdr.length
  let l := if hasHeaders then setBit rl hbit else rl
  let hdr := recordHeader l seq ts subj.length
  let body := subj ++ ((if hasHeaders then putUint 4 mhdr.length ++ mhdr else []) ++ msg)
  hdr ++ (body ++ hh.sum (slice hdr 4 20 ++ (subj ++ (mhdr ++ msg))))

inductive BadMsg where
  | recordTooShort
  | sanityCheckFailed (dlen : Int) (slen rl : Nat)
  | invalidChecksum
  | invalidDataLength
  | subjectLengthGreaterThanData
  | subjectLengthGreaterThanEnd
  | invalidBufferIndex
  | messageLengthOrEndGreaterThanBuffer
  | messageLengthGreaterThanBuffer
  | messageOverrun (index lbuf : Nat)
  deriving DecidableEq

section Reader

variable (buf : Bytes)

def rawLen : Nat := getUint (slice buf 0 4)
def hasHeaders : Bool := (rawLen buf).testBit hbit
def recordLen : Nat := clearBit (rawLen buf) hbit
def dataLen : Int := (recordLen buf : Int) - msgHdrSize
def subjLen : Nat := getUint (slice buf 20 22)
def recordSeq : Nat := getUint (slice buf 4 12)
def recordTs : Int := int64 (getUint (slice buf 12 20))
def recordData : Bytes := slice buf msgHdrSize (recordLen buf)

/-- The test both readers make before they touch the data. -/
def Insane : Prop :=
  let shlen : Int := if hasHeaders buf then subjLen buf + 4 else subjLen buf
  dataLen buf < 0 ∨ shlen > dataLen buf - recordHashSize ∨ dataLen buf > recordLen buf ∨
    recordLen buf > buf.length ∨ recordLen buf > rlBadThresh

instance : Decidable (Insane buf) := by unfold Insane; infer_instance

def checksumInput : Bytes :=
  let data := recordData buf
  let dlen := (dataLen buf).toNat
  let start := if hasHeaders buf then subjLen buf + 4 else subjLen buf
  slice buf 4 20 ++ (slice data 0 (subjLen buf) ++ slice data start (dlen - recordHashSize))

def storedChecksum : Bytes :=
  (recordData buf).drop ((recordData buf).length - recordHashSize)

end Reader

def msgParts (data : Bytes) (slen stop : Nat) (headers : Bool) : Except BadMsg (Bytes × Bytes) :=
  if headers then
    if data.length < slen + 4 then .error .subjectLengthGreaterThanData
    else
      let hl := getUint (slice data slen (slen + 4))
      let bi := slen + 4
      if stop < bi then .error .invalidBufferIndex
      else
        let buf := slice data bi stop
        if buf.length < hl ∨ buf.length < stop - bi then
          .error .messageLengthOrEndGreaterThanBuffer
        else .ok (buf.take hl, slice buf hl (stop - bi))
  else if stop < slen then .error .subjectLengthGreaterThanEnd
  else
    let buf := slice data slen stop
    if buf.length < stop - slen then .error .messageLengthGreaterThanBuffer
    else .ok ([], buf.take (stop - slen))

/-- `hh` is nil for a record whose checksum was checked before. -/
def msgFromBufEx (hh : Option Digest64) (buf : Bytes) : Except BadMsg Store.StoreMsg :=
  if buf.length < emptyRecordLen then .error .recordTooShort
  else if Insane buf then
    .error (.sanityCheckFailed (dataLen buf) (subjLen buf) (recordLen buf))
  else if hh.any (fun hh => hh.sum (checksumInput buf) != storedChecksum buf) then
    .error .invalidChecksum
  else
    let data := recordData buf
    let slen := subjLen buf
    let seq := if (recordSeq buf).testBit ebit then 0 else recordSeq buf
    let stop := (dataLen buf).toNat - recordHashSize
    if data.length < stop then .error .invalidDataLength
    else
      match msgParts data slen stop (hasHeaders buf) with
      | .error err => .error err
      | .ok (hdr, msg) =>
        if 0 < slen ∧ data.length < slen then .error .subjectLengthGreaterThanData
        else .ok ⟨slice data 0 slen, hdr, msg, seq, recordTs buf⟩

def msgFromBuf (hh : Option Digest64) (buf : Bytes) : Except BadMsg Store.StoreMsg :=
  msgFromBufEx hh buf

structure Record where
  seq : Nat
  ts : Int
  subj : Bytes
  hdr : Bytes
  msg : Bytes
  seq_lt : seq < 2 ^ 64
  ts_range : -2 ^ 63 ≤ ts ∧ ts < 2 ^ 63
  subj_le : subj.length ≤ 65535
  size_le : fileStoreMsgSize subj hdr msg ≤ rlBadThresh

namespace Record

def size (r : Record) : Nat := fileStoreMsgSize r.subj r.hdr r.msg

def write (r : Record) (hh : Digest64) : Bytes :=
  writeMsgRecordLocked hh r.size r.seq r.subj r.hdr r.msg r.ts

def hashed (r : Record) : Bytes :=
  putUint 8 r.seq ++ putUint 8 (uint64 r.ts) ++ (r.subj ++ (r.hdr ++ r.msg))

def lenWord (r : Record) : Nat := if 0 < r.hdr.length then setBit r.size hbit else r.size

def body (r : Record) : Bytes :=
  r.subj ++ ((if 0 < r.hdr.length then putUint 4 r.hdr.length ++ r.hdr else []) ++ r.msg)

end Record

/-! Words of the fixed part. -/

variable {n bit : Nat} {hh : Digest64} {sm : Store.StoreMsg}

theorem clearBit_of_lt (small : n < 2 ^ bit) : clearBit n bit = n := by
  simp [clearBit, Nat.testBit_lt_two_pow small]

theorem setBit_of_lt (small : n < 2 ^ bit) : setBit n bit = 2 ^ bit + n := by
  have sum := Nat.two_pow_add_eq_or_of_lt small 1
  rw [mul_one] at sum
  rw [setBit, Nat.lor_comm, sum]

@[simp] theorem testBit_setBit (n bit : Nat) : (setBit n bit).testBit bit = true := by
  simp [setBit]

theorem testBit_setBit_ne {other : Nat} (differ : other ≠ bit) :
    (setBit n bit).testBit other = n.testBit other := by
  simp [setBit, differ.symm]

theorem clearBit_setBit (small : n < 2 ^ bit) : clearBit (setBit n bit) bit = n := by
  rw [clearBit, if_pos (testBit_setBit n bit), setBit_of_lt small, Nat.add_sub_cancel_left]

theorem uint64_lt (ts : Int) : uint64 ts < 2 ^ 64 := by
  unfold uint64
  omega

theorem int64_uint64 {ts : Int} (range : -2 ^ 63 ≤ ts ∧ ts < 2 ^ 63) : int64 (uint64 ts) = ts := by
  unfold int64 uint64
  split <;> omega

@[simp] theorem recordHeader_length (l seq : Nat) (ts : Int) (slen : Nat) :
    (recordHeader l seq ts slen).length = msgHdrSize := by
  simp [recordHeader, msgHdrSize]

section Header

variable (l seq : Nat) (ts : Int) (slen : Nat) (tail : Bytes)

theorem rawLen_header (fits : l < 2 ^ 32) : rawLen (recordHeader l seq ts slen ++ tail) = l := by
  have word : slice (recordHeader l seq ts slen ++ tail) 0 4 = putUint 4 l := by
    have split : recordHeader l seq ts slen ++ tail = [] ++ (putUint 4 l ++
        (putUint 8 seq ++ putUint 8 (uint64 ts) ++ putUint 2 slen ++ tail)) := by
      simp [recordHeader]
    rw [split, slice_middle (by simp) (by simp)]
  rw [rawLen, word, getUint_putUint_of_lt (by simpa using fits)]

theorem hashedWords_header : slice (recordHeader l seq ts slen ++ tail) 4 20 =
    putUint 8 seq ++ putUint 8 (uint64 ts) := by
  have split : recordHeader l seq ts slen ++ tail = putUint 4 l ++
      ((putUint 8 seq ++ putUint 8 (uint64 ts)) ++ (putUint 2 slen ++ tail)) := by
    simp [recordHeader]
  rw [split, slice_middle (by simp) (by simp)]

theorem recordSeq_header (fits : seq < 2 ^ 64) :
    recordSeq (recordHeader l seq ts slen ++ tail) = seq := by
  have word : slice (recordHeader l seq ts slen ++ tail) 4 12 = putUint 8 seq := by
    have split : recordHeader l seq ts slen ++ tail = putUint 4 l ++
        (putUint 8 seq ++ (putUint 8 (uint64 ts) ++ putUint 2 slen ++ tail)) := by
      simp [recordHeader]
    rw [split, slice_middle (by simp) (by simp)]
  rw [recordSeq, word, getUint_putUint_of_lt (by simpa using fits)]

theorem recordTs_header (range : -2 ^ 63 ≤ ts ∧ ts < 2 ^ 63) :
    recordTs (recordHeader l seq ts slen ++ tail) = ts := by
  have word : slice (recordHeader l seq ts slen ++ tail) 12 20 = putUint 8 (uint64 ts) := by
    have split : recordHeader l seq ts slen ++ tail = (putUint 4 l ++ putUint 8 seq) ++
        (putUint 8 (uint64 ts) ++ (putUint 2 slen ++ tail)) := by
      simp [recordHeader]
    rw [split, slice_middle (by simp) (by simp)]
  rw [recordTs, word, getUint_putUint_of_lt (by simpa using uint64_lt ts), int64_uint64 range]

theorem subjLen_header (fits : slen < 2 ^ 16) :
    subjLen (recordHeader l seq ts slen ++ tail) = slen := by
  have word : slice (recordHeader l seq ts slen ++ tail) 20 22 = putUint 2 slen := by
    have split : recordHeader l seq ts slen ++ tail = (putUint 4 l ++ putUint 8 seq ++
        putUint 8 (uint64 ts)) ++ (putUint 2 slen ++ tail) := by
      simp [recordHeader]
    rw [split, slice_middle (by simp) (by simp)]
  rw [subjLen, word, getUint_putUint_of_lt (by simpa using fits)]

theorem recordData_header {data rest : Bytes} (fits : l < 2 ^ 32)
    (len : clearBit l hbit = msgHdrSize + data.length) :
    recordData (recordHeader l seq ts slen ++ (data ++ rest)) = data := by
  rw [recordData, recordLen, rawLen_header _ _ _ _ _ fits, len]
  exact slice_middle (by simp) rfl

end Header

/-- A record as it lies in the file: the length words pass the sanity check, but need not be the
ones the record was written with. -/
structure Frame where
  l : Nat
  seq : Nat
  ts : Int
  slen : Nat
  body : Bytes
  sum : Bytes
  l_lt : l < 2 ^ 32
  seq_lt : seq < 2 ^ 64
  ts_range : -2 ^ 63 ≤ ts ∧ ts < 2 ^ 63
  slen_lt : slen < 2 ^ 16
  len : clearBit l hbit = msgHdrSize + (body.length + recordHashSize)
  sum_length : sum.length = recordHashSize
  room : (if l.testBit hbit then slen + 4 else slen) ≤ body.length
  size_le : clearBit l hbit ≤ rlBadThresh

namespace Frame

variable (f : Frame) (rest : Bytes)

def bytes : Bytes := recordHeader f.l f.seq f.ts f.slen ++ (f.body ++ f.sum)

def start : Nat := if f.l.testBit hbit then f.slen + 4 else f.slen

def input : Bytes :=
  putUint 8 f.seq ++ putUint 8 (uint64 f.ts) ++ (f.body.take f.slen ++ f.body.drop f.start)

theorem bytes_append :
    f.bytes ++ rest = recordHeader f.l f.seq f.ts f.slen ++ ((f.body ++ f.sum) ++ rest) := by
  simp [bytes]

@[simp] theorem bytes_length : f.bytes.length = clearBit f.l hbit := by
  simp [bytes, f.len, f.sum_length]

@[simp] theorem hasHeaders_bytes : hasHeaders (f.bytes ++ rest) = f.l.testBit hbit := by
  rw [bytes_append, hasHeaders, rawLen_header _ _ _ _ _ f.l_lt]

@[simp] theorem recordLen_bytes : recordLen (f.bytes ++ rest) = clearBit f.l hbit := by
  rw [bytes_append, recordLen, rawLen_header _ _ _ _ _ f.l_lt]

@[simp] theorem dataLen_bytes :
    dataLen (f.bytes ++ rest) = f.body.length + recordHashSize := by
  rw [dataLen, recordLen_bytes, f.len]
  push_cast
  ring

@[simp] theorem subjLen_bytes : subjLen (f.bytes ++ rest) = f.slen := by
  rw [bytes_append, subjLen_header _ _ _ _ _ f.slen_lt]

@[simp] theorem recordSeq_bytes : recordSeq (f.bytes ++ rest) = f.seq := by
  rw [bytes_append, recordSeq_header _ _ _ _ _ f.seq_lt]

@[simp] theorem recordTs_bytes : recordTs (f.bytes ++ rest) = f.ts := by
  rw [bytes_append, recordTs_header _ _ _ _ _ f.ts_range]

@[simp] theorem recordData_bytes : recordData (f.bytes ++ rest) = f.body ++ f.sum := by
  rw [bytes_append]
  apply recordData_header _ _ _ _ f.l_lt
  simp [f.len, f.sum_length]

@[simp] theorem storedChecksum_bytes : storedChecksum (f.bytes ++ rest) = f.sum := by
  simp [storedChecksum, f.sum_length]

theorem checksumInput_bytes : checksumInput (f.bytes ++ rest) = f.input := by
  have room := f.room
  have subject : slice (f.body ++ f.sum) 0 f.slen = f.body.take f.slen := by
    rw [slice_append_left (by split at room <;> omega)]
    simp [slice]
  have others : slice (f.body ++ f.sum) f.start f.body.length = f.body.drop f.start := by
    rw [slice_append_left (le_refl _)]
    simp [slice]
  have words : slice (f.bytes ++ rest) 4 20 = putUint 8 f.seq ++ putUint 8 (uint64 f.ts) := by
    rw [bytes_append, hashedWords_header]
  have stop : (dataLen (f.bytes ++ rest)).toNat - recordHashSize = f.body.length := by
    rw [dataLen_bytes]
    omega
  simp only [checksumInput, stop, recordData_bytes, subjLen_bytes, hasHeaders_bytes, words, subject]
  rw [← start, others, input]

theorem sane_bytes : ¬ Insane (f.bytes ++ rest) := by
  have room := f.room
  have size := f.size_le
  have len := f.len
  simp only [Insane, dataLen_bytes, subjLen_bytes, hasHeaders_bytes, recordLen_bytes,
    length_append, bytes_length]
  split at room <;> simp only [*, if_true, Bool.false_eq_true, if_false] <;> omega

theorem msgFromBuf_bytes (hh : Digest64) (fits : hh.sum f.input = f.sum) :
    msgFromBuf (some hh) (f.bytes ++ rest) =
      match msgParts (f.body ++ f.sum) f.slen f.body.length (f.l.testBit hbit) with
      | .error err => .error err
      | .ok (hdr, msg) => .ok ⟨f.body.take f.slen, hdr, msg,
          if f.seq.testBit ebit then 0 else f.seq, f.ts⟩ := by
  have room := f.room
  have long : ¬ (f.bytes ++ rest).length < emptyRecordLen := by
    simp [f.len, emptyRecordLen]
    omega
  have subject : slice (f.body ++ f.sum) 0 f.slen = f.body.take f.slen := by
    rw [slice_append_left (by split at room <;> omega)]
    simp [slice]
  have inside : ¬ (0 < f.slen ∧ (f.body ++ f.sum).length < f.slen) := by
    rw [length_append]
    split at room <;> omega
  have stop : (dataLen (f.bytes ++ rest)).toNat - recordHashSize = f.body.length := by
    rw [dataLen_bytes]
    omega
  have short : ¬ (f.body ++ f.sum).length < f.body.length := by simp
  have same : (some hh).any (fun hh => hh.sum (checksumInput (f.bytes ++ rest)) !=
      storedChecksum (f.bytes ++ rest)) = false := by
    simp [checksumInput_bytes, fits]
  rw [msgFromBuf, msgFromBufEx, if_neg long, if_neg (sane_bytes f rest), same]
  simp only [Bool.false_eq_true, if_false, stop, recordData_bytes, subjLen_bytes,
    hasHeaders_bytes, recordSeq_bytes, recordTs_bytes, subject, if_neg inside, if_neg short]

end Frame

theorem msgParts_plain {body sum : Bytes} {slen : Nat} (inside : slen ≤ body.length) :
    msgParts (body ++ sum) slen body.length false = .ok ([], body.drop slen) := by
  have part : slice (body ++ sum) slen body.length = body.drop slen := by
    rw [slice_append_left (le_refl _)]
    simp [slice]
  have whole : (body.drop slen).take (body.length - slen) = body.drop slen :=
    take_of_length_le (by simp)
  simp [msgParts, part, whole, not_lt.mpr inside]

theorem msgParts_headers {before hdr msg sum : Bytes} {hl : Bytes} (word : hl.length = 4)
    (len : getUint hl ≤ (hdr ++ msg).length) :
    msgParts (before ++ (hl ++ (hdr ++ msg)) ++ sum) before.length
        (before ++ (hl ++ (hdr ++ msg))).length true =
      .ok ((hdr ++ msg).take (getUint hl), (hdr ++ msg).drop (getUint hl)) := by
  have length : slice (before ++ (hl ++ (hdr ++ msg)) ++ sum) before.length
      (before.length + 4) = hl := by
    rw [append_assoc, append_assoc]
    exact slice_middle rfl (by omega)
  have part : slice (before ++ (hl ++ (hdr ++ msg)) ++ sum) (before.length + 4)
      (before ++ (hl ++ (hdr ++ msg))).length = hdr ++ msg := by
    have regroup : before ++ (hl ++ (hdr ++ msg)) ++ sum = (before ++ hl) ++ ((hdr ++ msg) ++ sum) := by
      simp
    rw [regroup]
    apply slice_middle
    · simp [word]
    · simp [word]
      omega
  have rest : slice (hdr ++ msg) (getUint hl)
      ((before ++ (hl ++ (hdr ++ msg))).length - (before.length + 4)) =
      (hdr ++ msg).drop (getUint hl) := by
    rw [slice, take_of_length_le]
    simp [word]
    omega
  have long : ¬ (before ++ (hl ++ (hdr ++ msg)) ++ sum).length < before.length + 4 := by
    simp [word]
  have after : ¬ (before ++ (hl ++ (hdr ++ msg))).length < before.length + 4 := by
    simp [word]
  have fits : ¬ ((hdr ++ msg).length < getUint hl ∨ (hdr ++ msg).length <
      (before ++ (hl ++ (hdr ++ msg))).length - (before.length + 4)) := by
    simp [word] at len ⊢
    omega
  simp only [msgParts, if_true, length, part, rest, if_neg long, if_neg after, if_neg fits]

namespace Record

variable (r : Record) (hh : Digest64)

theorem size_lt : r.size < 2 ^ hbit := by
  have le := r.size_le
  simp only [size, hbit, rlBadThresh] at le ⊢
  omega

theorem lenWord_testBit : r.lenWord.testBit hbit = decide (0 < r.hdr.length) := by
  unfold lenWord
  split
  · simp [*]
  · rw [Nat.testBit_lt_two_pow r.size_lt]
    simp [*]

theorem clearBit_lenWord : clearBit r.lenWord hbit = r.size := by
  unfold lenWord
  split
  · exact clearBit_setBit r.size_lt
  · exact clearBit_of_lt r.size_lt

theorem lenWord_lt : r.lenWord < 2 ^ 32 := by
  have small := r.size_lt
  have flagged := setBit_of_lt small
  simp only [lenWord, hbit] at *
  split <;> omega

theorem size_body : r.size = msgHdrSize + (r.body.length + recordHashSize) := by
  simp only [size, fileStoreMsgSize, body, msgHdrSize, recordHashSize]
  split <;> split <;> simp <;> omega

def frame : Frame where
  l := r.lenWord
  seq := r.seq
  ts := r.ts
  slen := r.subj.length
  body := r.body
  sum := hh.sum r.hashed
  l_lt := r.lenWord_lt
  seq_lt := r.seq_lt
  ts_range := r.ts_range
  slen_lt := by
    have le := r.subj_le
    omega
  len := by rw [r.clearBit_lenWord, r.size_body]
  sum_length := hh.size _
  room := by
    rw [r.lenWord_testBit]
    by_cases headers : 0 < r.hdr.length <;> simp [body, headers]
  size_le := by
    rw [r.clearBit_lenWord]
    exact r.size_le

theorem write_eq_frame : r.write hh = (r.frame hh).bytes := by
  have words : slice (recordHeader r.lenWord r.seq r.ts r.subj.length) 4 20 =
      putUint 8 r.seq ++ putUint 8 (uint64 r.ts) := by
    have read := hashedWords_header r.lenWord r.seq r.ts r.subj.length []
    rwa [append_nil] at read
  change recordHeader r.lenWord r.seq r.ts r.subj.length ++ (r.body ++ hh.sum
    (slice (recordHeader r.lenWord r.seq r.ts r.subj.length) 4 20 ++
      (r.subj ++ (r.hdr ++ r.msg)))) = _
  rw [words]
  rfl

theorem frame_input : (r.frame hh).input = r.hashed := by
  have drop : r.body.drop (r.frame hh).start = r.hdr ++ r.msg := by
    simp only [Frame.start, frame, r.lenWord_testBit, body]
    by_cases headers : 0 < r.hdr.length
    · simp only [headers, decide_true, if_true]
      rw [← append_assoc, ← append_assoc, append_assoc _ r.hdr]
      exact drop_left' (by simp)
    have none : r.hdr = [] := by
      cases shape : r.hdr with
      | nil => rfl
      | cons b bs => simp [shape] at headers
    simp [none]
  have take : r.body.take r.subj.length = r.subj := by simp [body]
  simp only [Frame.input, hashed]
  rw [show (r.frame hh).body = r.body from rfl, show (r.frame hh).slen = r.subj.length from rfl,
    take, drop]
  rfl

theorem msgFromBuf_write (rest : Bytes) :
    msgFromBuf (some hh) (r.write hh ++ rest) =
      .ok ⟨r.subj, r.hdr, r.msg, if r.seq.testBit ebit then 0 else r.seq, r.ts⟩ := by
  have parts : msgParts ((r.frame hh).body ++ (r.frame hh).sum) (r.frame hh).slen
      (r.frame hh).body.length ((r.frame hh).l.testBit hbit) = .ok (r.hdr, r.msg) := by
    simp only [frame, r.lenWord_testBit, body]
    by_cases headers : 0 < r.hdr.length
    · have small : r.hdr.length < 256 ^ 4 := by
        have le := r.size_lt
        simp only [size, fileStoreMsgSize, hbit] at le
        split at le <;> omega
      have len := getUint_putUint_of_lt small
      simp only [headers, decide_true, if_true, append_assoc]
      have read := @msgParts_headers r.subj r.hdr r.msg (hh.sum r.hashed) _
        (putUint_length 4 r.hdr.length) (by simp [len])
      simpa [len] using read
    · have none : r.hdr = [] := length_eq_zero_iff.mp (by omega)
      have read := @msgParts_plain (r.subj ++ r.msg) (hh.sum r.hashed) r.subj.length (by simp)
      simpa [none] using read
  have subject : (r.frame hh).body.take (r.frame hh).slen = r.subj := by simp [frame, body]
  rw [write_eq_frame, Frame.msgFromBuf_bytes _ _ _ (congrArg hh.sum (r.frame_input hh)), parts,
    subject]
  rfl

end Record

/-! What the reader accepts. -/

theorem msgParts_ok {data hdr msg : Bytes} {slen stop : Nat} {headers : Bool}
    (ok : msgParts data slen stop headers = .ok (hdr, msg)) :
    hdr ++ msg = slice data (if headers then slen + 4 else slen) stop := by
  unfold msgParts at ok
  cases headers with
  | true =>
    simp only [if_true] at ok ⊢
    split at ok
    · cases ok
    split at ok
    · cases ok
    split at ok
    · cases ok
    obtain ⟨rfl, rfl⟩ := Prod.mk.inj (Except.ok.inj ok)
    have whole : (slice data (slen + 4) stop).take (stop - (slen + 4)) =
        slice data (slen + 4) stop :=
      take_of_length_le (by simp; omega)
    generalize getUint (slice data slen (slen + 4)) = hl
    generalize slice data (slen + 4) stop = part at whole ⊢
    rw [slice, whole]
    exact take_append_drop _ _
  | false =>
    simp only [Bool.false_eq_true, if_false] at ok ⊢
    split at ok
    · cases ok
    split at ok
    · cases ok
    · obtain ⟨rfl, rfl⟩ := Prod.mk.inj (Except.ok.inj ok)
      rw [nil_append]
      exact take_of_length_le (by simp; omega)

theorem msgFromBuf_ok {buf : Bytes} (ok : msgFromBuf (some hh) buf = .ok sm) :
    ¬ Insane buf ∧ emptyRecordLen ≤ buf.length ∧
      hh.sum (checksumInput buf) = storedChecksum buf ∧
      checksumInput buf = slice buf 4 20 ++ (sm.subj ++ (sm.hdr ++ sm.msg)) ∧
      sm.seq = (if (recordSeq buf).testBit ebit then 0 else recordSeq buf) ∧
      sm.ts = recordTs buf := by
  unfold msgFromBuf msgFromBufEx at ok
  split at ok
  · cases ok
  rename_i long
  split at ok
  · cases ok
  rename_i sane
  split at ok
  · cases ok
  rename_i summed
  simp only at ok
  split at ok
  · cases ok
  split at ok
  · cases ok
  rename_i hdr msg parts
  split at ok
  · cases ok
  have shape := Except.ok.inj ok
  subst shape
  refine ⟨sane, by omega, by simpa using summed, ?_, rfl, rfl⟩
  simp only [checksumInput, msgParts_ok parts]

structure Message extends Record where
  plain : seq < 2 ^ 62

def Message.storeMsg (m : Message) : Store.StoreMsg := ⟨m.subj, m.hdr, m.msg, m.seq, m.ts⟩

/-- The hash taken as injective and the checksum as not computed anew: bytes that pass the
checksum test are the bytes that were hashed. -/
def Genuine (hh : Digest64) (r : Record) (buf : Bytes) : Prop :=
  ¬ Insane buf → hh.sum (checksumInput buf) = storedChecksum buf → checksumInput buf = r.hashed

/-- The reader gets the message back, and from altered bytes it gets nothing else. The record is
followed by whatever the block holds after it. -/
def Protected (hh : Digest64) (m : Message) : Prop :=
  (∀ rest, msgFromBuf (some hh) (m.write hh ++ rest) = .ok m.storeMsg) ∧
    ∀ altered rest, altered.length = (m.write hh).length →
      Genuine hh m.toRecord (altered ++ rest) →
      (∃ err, msgFromBuf (some hh) (altered ++ rest) = .error err) ∨
        msgFromBuf (some hh) (altered ++ rest) = .ok m.storeMsg

theorem Message.not_erased (m : Message) : m.seq.testBit ebit = false :=
  Nat.testBit_lt_two_pow (lt_trans m.plain (by decide))

variable {m : Message}

/-- What the checksum does protect: the sequence, the time and the parts put together. -/
theorem Genuine.content {buf : Bytes} (genuine : Genuine hh m.toRecord buf)
    (ok : msgFromBuf (some hh) buf = .ok sm) :
    sm.seq = m.seq ∧ sm.ts = m.ts ∧
      sm.subj ++ (sm.hdr ++ sm.msg) = m.subj ++ (m.hdr ++ m.msg) := by
  obtain ⟨sane, long, summed, input, seq, ts⟩ := msgFromBuf_ok ok
  have same := genuine sane summed
  rw [input, Record.hashed] at same
  have words : (slice buf 4 20).length = (putUint 8 m.seq ++ putUint 8 (uint64 m.ts)).length := by
    simp only [emptyRecordLen, msgHdrSize, recordHashSize] at long
    simp
    omega
  obtain ⟨head, content⟩ := append_inj same words
  have first : recordSeq buf = m.seq := by
    have word := congrArg (List.take 8) head
    rw [take_slice (by omega), take_left' (by simp)] at word
    rw [recordSeq, word, getUint_putUint_of_lt (by simpa using m.seq_lt)]
  have second : recordTs buf = m.ts := by
    have word := congrArg (List.drop 8) head
    rw [drop_slice, drop_left' (by simp)] at word
    rw [recordTs, word, getUint_putUint_of_lt (by simpa using uint64_lt m.ts),
      int64_uint64 m.ts_range]
  refine ⟨?_, by rw [ts, second], content⟩
  rw [seq, first, m.not_erased]
  rfl

/-- A record without headers read with another subject length. -/
def Message.resplit (m : Message) (hh : Digest64) (bare : m.hdr = []) (slen : Nat)
    (small : slen < 2 ^ 16) (inside : slen ≤ (m.subj ++ m.msg).length) : Frame :=
  { m.frame hh with
    slen := slen
    slen_lt := small
    room := by
      have plain : (m.frame hh).l.testBit hbit = false := by
        simp [Record.frame, m.lenWord_testBit, bare]
      have body : (m.frame hh).body = m.subj ++ m.msg := by simp [Record.frame, Record.body, bare]
      rw [plain, body]
      simpa using inside }

theorem Message.msgFromBuf_resplit (m : Message) (hh : Digest64) (bare : m.hdr = []) (slen : Nat)
    (small : slen < 2 ^ 16) (inside : slen ≤ (m.subj ++ m.msg).length) :
    (m.resplit hh bare slen small inside).input = m.hashed ∧
      msgFromBuf (some hh) ((m.resplit hh bare slen small inside).bytes ++ []) =
        .ok ⟨(m.subj ++ m.msg).take slen, [], (m.subj ++ m.msg).drop slen, m.seq, m.ts⟩ := by
  have plain : m.lenWord.testBit hbit = false := by simp [m.lenWord_testBit, bare]
  have body : m.body = m.subj ++ m.msg := by simp [Record.body, bare]
  have input : (m.resplit hh bare slen small inside).input = m.hashed := by
    simp only [Frame.input, Frame.start, Message.resplit, Record.frame, plain, body, Record.hashed,
      bare, Bool.false_eq_true, if_false, nil_append]
    rw [take_append_drop]
  refine ⟨input, ?_⟩
  rw [Frame.msgFromBuf_bytes _ _ _ (congrArg hh.sum input)]
  simp only [Message.resplit, Record.frame, plain, body, msgParts_plain inside, m.not_erased,
    Bool.false_eq_true, if_false]

/-- A record with headers whose header length is read as another number. -/
def Message.resize (m : Message) (hh : Digest64) (hl : Nat) (headers : 0 < m.hdr.length) : Frame :=
  { m.frame hh with
    body := m.subj ++ (putUint 4 hl ++ (m.hdr ++ m.msg))
    len := by
      have len := (m.frame hh).len
      simpa [Record.frame, Record.body, headers] using len
    room := by
      have flagged : (m.frame hh).l.testBit hbit = true := by
        simpa [Record.frame, m.lenWord_testBit] using headers
      rw [flagged]
      simp [Record.frame] }

theorem Message.msgFromBuf_resize (m : Message) (hh : Digest64) (hl : Nat)
    (headers : 0 < m.hdr.length) (small : hl < 256 ^ 4) (inside : hl ≤ (m.hdr ++ m.msg).length) :
    (m.resize hh hl headers).input = m.hashed ∧
      msgFromBuf (some hh) ((m.resize hh hl headers).bytes ++ []) =
        .ok ⟨m.subj, (m.hdr ++ m.msg).take hl, (m.hdr ++ m.msg).drop hl, m.seq, m.ts⟩ := by
  have flagged : m.lenWord.testBit hbit = true := by simpa [m.lenWord_testBit] using headers
  have input : (m.resize hh hl headers).input = m.hashed := by
    have drop : (m.subj ++ (putUint 4 hl ++ (m.hdr ++ m.msg))).drop (m.subj.length + 4) =
        m.hdr ++ m.msg := by
      rw [← append_assoc]
      exact drop_left' (by simp)
    simp only [Frame.input, Frame.start, Message.resize, Record.frame, flagged, Record.hashed,
      if_true, drop, take_left]
  have word := getUint_putUint_of_lt small
  have parts := @msgParts_headers m.subj m.hdr m.msg (hh.sum m.hashed) _ (putUint_length 4 hl)
    (by rw [word]; exact inside)
  rw [word] at parts
  refine ⟨input, ?_⟩
  rw [Frame.msgFromBuf_bytes _ _ _ (congrArg hh.sum input)]
  simp only [Message.resize, Record.frame, flagged, parts, m.not_erased, take_left,
    Bool.false_eq_true, if_false]

theorem Protected.frame (protect : Protected hh m) {f : Frame} (input : f.input = m.hashed)
    (ok : msgFromBuf (some hh) (f.bytes ++ []) = .ok sm) (word : f.l = m.lenWord) :
    sm = m.storeMsg := by
  have long : f.bytes.length = (m.write hh).length := by
    rw [m.write_eq_frame, Frame.bytes_length, Frame.bytes_length, word]
    rfl
  have genuine : Genuine hh m.toRecord (f.bytes ++ []) := by
    intro _ _
    rw [Frame.checksumInput_bytes, input]
  rcases protect.2 f.bytes [] long genuine with ⟨err, refused⟩ | read
  · rw [ok] at refused
    cases refused
  · rw [ok] at read
    exact Except.ok.inj read

theorem Protected.hdr_nil (protect : Protected hh m) : m.hdr = [] := by
  by_contra some
  have headers : 0 < m.hdr.length := length_pos_iff.mpr some
  obtain ⟨input, ok⟩ := m.msgFromBuf_resize hh 0 headers (by norm_num) (by simp)
  have same := protect.frame input ok rfl
  exact some (congrArg Store.StoreMsg.hdr same).symm

theorem Protected.content_nil (protect : Protected hh m) : m.subj = [] ∧ m.msg = [] := by
  have bare := protect.hdr_nil
  have subject : m.subj = [] := by
    obtain ⟨input, ok⟩ := m.msgFromBuf_resplit hh bare 0 (by norm_num) (by simp)
    have same := protect.frame input ok rfl
    exact (congrArg Store.StoreMsg.subj same).symm
  refine ⟨subject, ?_⟩
  -- With an empty subject the first byte of the payload can be read as one.
  by_contra payload
  have long : 1 ≤ (m.subj ++ m.msg).length := by
    rw [length_append]
    have := length_pos_iff.mpr payload
    omega
  obtain ⟨input, ok⟩ := m.msgFromBuf_resplit hh bare 1 (by norm_num) long
  have same := protect.frame input ok rfl
  have none : (m.subj ++ m.msg).take 1 = m.subj := congrArg Store.StoreMsg.subj same
  have one := congrArg List.length none
  rw [length_take, subject] at one
  rw [subject] at long
  simp only [length_nil] at one
  omega

theorem record_protected_iff (hh : Digest64) (m : Message) :
    Protected hh m ↔ m.subj = [] ∧ m.hdr = [] ∧ m.msg = [] := by
  constructor
  · intro protect
    exact ⟨protect.content_nil.1, protect.hdr_nil, protect.content_nil.2⟩
  · rintro ⟨subject, header, payload⟩
    constructor
    · intro rest
      rw [m.msgFromBuf_write, m.not_erased]
      rfl
    · intro altered rest _ genuine
      cases read : msgFromBuf (some hh) (altered ++ rest) with
      | error err => exact .inl ⟨err, rfl⟩
      | ok sm =>
        right
        obtain ⟨seq, ts, content⟩ := genuine.content read
        rw [subject, header, payload, append_nil, append_nil,
          append_eq_nil_iff, append_eq_nil_iff] at content
        obtain ⟨subjEq, hdrEq, msgEq⟩ := content
        cases sm
        simp_all [Message.storeMsg]

def polyDigest : Digest64 where
  sum input := putUint 8 (input.foldl (fun acc b => acc * 31 + b.toNat) 7)
  size := by simp [recordHashSize]

def ordersMessage : Message where
  seq := 1
  ts := 5
  subj := ascii "orders"
  hdr := []
  msg := ascii "x"
  seq_lt := by decide
  ts_range := by decide
  subj_le := by decide
  size_le := by decide
  plain := by decide

/-- The subject length at offset 20 changed to 0: the subject is read as a part of the payload. -/
theorem subject_length_not_protected :
    ((ordersMessage.write polyDigest).set 20 0).length =
        (ordersMessage.write polyDigest).length ∧
      Genuine polyDigest ordersMessage.toRecord ((ordersMessage.write polyDigest).set 20 0) ∧
      msgFromBuf (some polyDigest) ((ordersMessage.write polyDigest).set 20 0) =
        .ok ⟨[], [], ascii "ordersx", 1, 5⟩ ∧
      ordersMessage.storeMsg = ⟨ascii "orders", [], ascii "x", 1, 5⟩ ∧
      ¬ Protected polyDigest ordersMessage := by
  have input : checksumInput ((ordersMessage.write polyDigest).set 20 0) =
      ordersMessage.hashed := by decide +kernel
  refine ⟨length_set, fun _ _ => input, by decide +kernel, by decide +kernel, ?_⟩
  intro protect
  exact absurd protect.content_nil.1 (by decide +kernel)

end LinearNats.FileStore
