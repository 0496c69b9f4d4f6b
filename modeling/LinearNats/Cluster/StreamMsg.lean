import LinearNats.Checked

/-! The entries of a replicated stream: `encodeStreamMsgAllowCompressAndBatch` and what
`applyStreamEntries` reads from its bytes. -/
namespace LinearNats.Cluster
open LittleEndian Checked List

abbrev Bytes := List UInt8

def streamMsgOp : UInt8 := 4
def compressedStreamMsgOp : UInt8 := 11
def batchMsgOp : UInt8 := 13
def batchCommitMsgOp : UInt8 := 14

def compressThreshold : Nat := 8192
def maxUint16 : Nat := 65535
def maxUint32 : Nat := 4294967295

inductive MsgError where
  | badStreamMsg
  | badCompression
  deriving DecidableEq

abbrev Decoded := Except (Stop MsgError)

/-- The block format of the S2 library. `maxEncodedLen` has no value for a length that is too large
to encode. -/
structure S2 where
  encode : Bytes → Bytes
  decode : Bytes → Option Bytes
  maxEncodedLen : Nat → Option Nat
  decode_encode : ∀ b, decode (encode b) = some b
  grows : ∀ n k m, maxEncodedLen (n + k) = some m → ∃ l, maxEncodedLen n = some l ∧ l + k ≤ m

/-- `s2.Encode(dst, src)`: `dst` afterwards, and the result. It is in `dst` if there is room for
the worst case. -/
def S2.encodeInto (s2 : S2) (dst src : Bytes) : Option (Bytes × Bytes) :=
  match s2.maxEncodedLen src.length with
  | none => none
  | some n =>
    let out := s2.encode src
    some (if n ≤ dst.length then out ++ dst.drop out.length else dst, out)

structure StreamMsg where
  subject : Bytes
  reply : Bytes
  hdr : Bytes
  msg : Bytes
  lseq : UInt64
  ts : Int64
  sourced : Bool
  deriving DecidableEq

structure BatchId where
  id : Bytes
  seq : UInt64
  commit : Bool
  deriving DecidableEq

namespace StreamMsg

def clip (n : Nat) (bytes : Bytes) : Bytes := bytes.take n

def total (m : StreamMsg) : Nat :=
  (clip maxUint16 m.subject).length + (clip maxUint16 m.reply).length +
    (clip maxUint16 m.hdr).length + (clip maxUint32 m.msg).length

def field (width : Nat) (bytes : Bytes) : Bytes := putUint width bytes.length ++ bytes

def body (m : StreamMsg) : Bytes :=
  putUint 8 m.lseq.toNat ++ (putUint 8 m.ts.toUInt64.toNat ++ (field 2 (clip maxUint16 m.subject) ++
    (field 2 (clip maxUint16 m.reply) ++ (field 2 (clip maxUint16 m.hdr) ++
      (field 4 (clip maxUint32 m.msg) ++ putUvarint 10 (if m.sourced then 1 else 0))))))

end StreamMsg

/-- What stands before the operation. A batch without an id is none. -/
def batchPrelude (b : BatchId) : Bytes :=
  if b.id = [] then []
  else (if b.commit then batchCommitMsgOp else batchMsgOp) ::
    (StreamMsg.field 2 (StreamMsg.clip maxUint16 b.id) ++ putUvarint 10 b.seq.toNat)

def elen (m : StreamMsg) (b : BatchId) : Nat :=
  1 + 8 + 8 + m.total + (2 + 2 + 2 + 4 + 8) +
    (if b.id = [] then 0 else 2 + (StreamMsg.clip maxUint16 b.id).length + 8)

/-- `none` is a panic: a slice of a negative length, or a source that is too large. -/
def encodeStreamMsgAllowCompressAndBatch (s2 : S2) (m : StreamMsg) (b : BatchId) : Option Bytes :=
  let pre := batchPrelude b
  let buf := pre ++ streamMsgOp :: m.body
  let opIndex := pre.length
  if compressThreshold < m.total then
    match s2.maxEncodedLen (elen m b) with
    | none => none
    | some size =>
      match s2.encodeInto (List.replicate (size - (opIndex + 1)) 0) m.body with
      | none => none
      | some (dst, ebuf) =>
        let nbuf := pre ++ compressedStreamMsgOp :: dst
        some (if ebuf.length < buf.length then nbuf.take (ebuf.length + opIndex + 1) else buf)
  else some buf

def decodeStreamMsg (buf : Bytes) : Decoded StreamMsg := do
  need .badStreamMsg 26 buf
  let lseq ← uint 8 buf
  let buf ← from_ 8 buf
  let ts ← uint 8 buf
  let buf ← from_ 8 buf
  let (subject, buf) ← sized .badStreamMsg 2 buf
  need .badStreamMsg 2 buf
  let (reply, buf) ← sized .badStreamMsg 2 buf
  need .badStreamMsg 2 buf
  let (hdr, buf) ← sized .badStreamMsg 2 buf
  need .badStreamMsg 4 buf
  let (msg, buf) ← sized .badStreamMsg 4 buf
  let flags := ((uvarint buf).map Prod.fst).getD 0
  return ⟨subject, reply, hdr, msg, UInt64.ofNat lseq, (UInt64.ofNat ts).toInt64, flags % 2 = 1⟩

def decodeBatchMsg (buf : Bytes) : Decoded (Bytes × UInt64 × UInt8 × Bytes) := do
  need .badStreamMsg 2 buf
  let (id, buf) ← sized .badStreamMsg 2 buf
  match uvarint buf with
  | none => .error (.fail .badStreamMsg)
  | some (seq, n) =>
    match buf.drop n with
    | [] => .error .panic
    | op :: mbuf => return (id, UInt64.ofNat seq, op, mbuf)

def decodeOp (s2 : S2) (op : UInt8) (mbuf : Bytes) : Decoded StreamMsg :=
  if op = compressedStreamMsgOp then
    match s2.decode mbuf with
    | none => .error (.fail .badCompression)
    | some mbuf => decodeStreamMsg mbuf
  else decodeStreamMsg mbuf

def decodeEntry (s2 : S2) : Bytes → Decoded (StreamMsg × Option BatchId)
  | [] => .error .panic
  | op :: buf =>
    if op = batchMsgOp ∨ op = batchCommitMsgOp then do
      let (id, seq, mop, mbuf) ← decodeBatchMsg buf
      let m ← decodeOp s2 mop mbuf
      return (m, some ⟨id, seq, op = batchCommitMsgOp⟩)
    else do
      let m ← decodeOp s2 op buf
      return (m, none)

/-! ### Hostile bytes -/

theorem decodeStreamMsg_returns (buf : Bytes) : Returns (decodeStreamMsg buf) := by
  refine (returns_need _ _ _).bind (fun _ passed => ?_)
  have long := of_need passed
  rw [uint_ok (by omega), ok_bind, from_ok (by omega), ok_bind, uint_ok (by simp; omega), ok_bind,
    from_ok (by simp; omega), ok_bind]
  refine (returns_sized _ (by simp; omega)).bind (fun _ _ => ?_)
  refine (returns_need _ _ _).bind (fun _ reply => ?_)
  refine (returns_sized _ (of_need reply)).bind (fun _ _ => ?_)
  refine (returns_need _ _ _).bind (fun _ hdr => ?_)
  refine (returns_sized _ (of_need hdr)).bind (fun _ _ => ?_)
  refine (returns_need _ _ _).bind (fun _ msg => ?_)
  exact (returns_sized _ (of_need msg)).bind (fun _ _ => returns_ok _)

def EndsAfterSeq (buf : Bytes) : Prop :=
  let n := 2 + getUint (buf.take 2)
  2 ≤ buf.length ∧ n ≤ buf.length ∧
    (uvarint (buf.drop n)).any (fun p => decide (buf.length ≤ n + p.2)) = true

theorem decodeBatchMsg_returns_iff (buf : Bytes) :
    Returns (decodeBatchMsg buf) ↔ ¬ EndsAfterSeq buf := by
  by_cases short : buf.length < 2
  · simp [decodeBatchMsg, need, short, EndsAfterSeq, Returns, Nat.not_le_of_lt short]
  have two : 2 ≤ buf.length := by omega
  by_cases cut : buf.length < 2 + getUint (buf.take 2)
  · have few : buf.length - 2 < getUint (buf.take 2) := by omega
    simp [decodeBatchMsg, need, short, EndsAfterSeq, Returns, sized, uint_ok two, from_ok two, few,
      Nat.not_le_of_lt cut]
  have enough : ¬ buf.length - 2 < getUint (buf.take 2) := by omega
  have value : decodeBatchMsg buf =
      match uvarint (buf.drop (2 + getUint (buf.take 2))) with
      | none => .error (.fail .badStreamMsg)
      | some (seq, n) =>
        match (buf.drop (2 + getUint (buf.take 2))).drop n with
        | [] => .error .panic
        | op :: mbuf => .ok ((buf.drop 2).take (getUint (buf.take 2)), UInt64.ofNat seq, op, mbuf) := by
    simp [decodeBatchMsg, need, short, sized, uint_ok two, from_ok two, enough, pure, Except.pure]
  rw [value]
  cases read : uvarint (buf.drop (2 + getUint (buf.take 2))) with
  | none => simp [Returns, EndsAfterSeq, read]
  | some p =>
    obtain ⟨seq, n⟩ := p
    have ends : EndsAfterSeq buf ↔ buf.length ≤ 2 + getUint (buf.take 2) + n := by
      simp [EndsAfterSeq, read, two, le_of_not_gt cut]
    dsimp only
    cases rest : (buf.drop (2 + getUint (buf.take 2))).drop n with
    | nil =>
      rw [drop_drop, drop_eq_nil_iff] at rest
      simp [Returns, ends, rest]
    | cons op mbuf =>
      have more := congrArg List.length rest
      rw [drop_drop, length_drop, length_cons] at more
      have goesOn : ¬ buf.length ≤ 2 + getUint (buf.take 2) + n := by omega
      simp [Returns, ends, goesOn]

/-! ### Round trip -/

structure StreamMsg.Fits (m : StreamMsg) : Prop where
  subject : m.subject.length ≤ maxUint16
  reply : m.reply.length ≤ maxUint16
  hdr : m.hdr.length ≤ maxUint16
  msg : m.msg.length ≤ maxUint32

theorem StreamMsg.clip_of_le {n : Nat} {bytes : Bytes} (fits : bytes.length ≤ n) :
    clip n bytes = bytes := take_of_length_le fits

theorem decodeStreamMsg_body {m : StreamMsg} (fits : m.Fits) : decodeStreamMsg m.body = .ok m := by
  have lseq : m.lseq.toNat < 256 ^ 8 := m.lseq.toNat_lt
  have ts : m.ts.toUInt64.toNat < 256 ^ 8 := m.ts.toUInt64.toNat_lt
  have small (bytes : Bytes) (short : bytes.length ≤ maxUint16) : bytes.length < 256 ^ 2 :=
    lt_of_le_of_lt short (by decide)
  have large : m.msg.length < 256 ^ 4 := lt_of_le_of_lt fits.msg (by decide)
  have flags (n : Nat) (bit : n < 2) : ((uvarint (putUvarint 10 n)).map Prod.fst).getD 0 = n := by
    have read := uvarint_putUvarint (n := n) (by omega) []
    rw [append_nil] at read
    simp [read]
  have long : 26 ≤ m.body.length := by
    simp only [StreamMsg.body, StreamMsg.field, length_append, putUint_length]
    omega
  rw [decodeStreamMsg, need, if_neg (by omega), ok_bind]
  simp only [StreamMsg.body, StreamMsg.field, StreamMsg.clip_of_le fits.subject,
    StreamMsg.clip_of_le fits.reply, StreamMsg.clip_of_le fits.hdr, StreamMsg.clip_of_le fits.msg,
    append_assoc, uint_putUint lseq, uint_putUint ts, from_putUint, ok_bind,
    sized_append _ (small _ fits.subject), sized_append _ (small _ fits.reply),
    sized_append _ (small _ fits.hdr), sized_append _ large,
    need_append _ (le_of_eq (putUint_length _ _).symm), pure, Except.pure]
  have sourced : decide ((if m.sourced = true then 1 else 0) % 2 = 1) = m.sourced := by
    cases m.sourced <;> rfl
  rw [flags _ (by split <;> omega), sourced]
  simp

theorem putUvarint_length_le (room n : Nat) : (putUvarint room n).length ≤ room := by
  induction room generalizing n with
  | zero => simp [putUvarint]
  | succ room ih =>
    rw [putUvarint]
    split
    · simp
    · simpa using ih (n / 128)

theorem StreamMsg.body_length (m : StreamMsg) : m.body.length = m.total + 27 := by
  have flag : (putUvarint 10 (if m.sourced = true then 1 else 0)).length = 1 := by
    cases m.sourced <;> rfl
  simp only [body, field, total, length_append, putUint_length, flag]
  omega

theorem prelude_fits (m : StreamMsg) (b : BatchId) :
    ∃ k, elen m b = m.body.length + k ∧ (batchPrelude b).length + 1 ≤ k := by
  refine ⟨elen m b - m.body.length, ?_, ?_⟩
  · rw [m.body_length, elen]
    omega
  · have seq := putUvarint_length_le 10 b.seq.toNat
    rw [m.body_length, elen, batchPrelude]
    split
    · simp
      omega
    · simp only [StreamMsg.field, length_cons, length_append, putUint_length]
      omega

def Encodable (s2 : S2) (m : StreamMsg) (b : BatchId) : Prop :=
  compressThreshold < m.total → (s2.maxEncodedLen (elen m b)).isSome

theorem encode_shape {s2 : S2} {m : StreamMsg} {b : BatchId} (encodable : Encodable s2 m b) :
    encodeStreamMsgAllowCompressAndBatch s2 m b = some (batchPrelude b ++ streamMsgOp :: m.body) ∨
      encodeStreamMsgAllowCompressAndBatch s2 m b =
        some (batchPrelude b ++ compressedStreamMsgOp :: s2.encode m.body) := by
  by_cases compress : compressThreshold < m.total
  · obtain ⟨size, sized⟩ := Option.isSome_iff_exists.mp (encodable compress)
    obtain ⟨k, capacity, room⟩ := prelude_fits m b
    obtain ⟨n, worst, grows⟩ := s2.grows _ _ _ (capacity ▸ sized)
    have inside : n ≤ size - ((batchPrelude b).length + 1) := by omega
    have cut (out rest : Bytes) : (batchPrelude b ++ compressedStreamMsgOp :: (out ++ rest)).take
        (out.length + (batchPrelude b).length + 1) = batchPrelude b ++ compressedStreamMsgOp :: out := by
      rw [← cons_append, ← append_assoc, take_left']
      simp
      omega
    simp only [encodeStreamMsgAllowCompressAndBatch, if_pos compress, sized, S2.encodeInto, worst,
      length_replicate, if_pos inside, cut]
    split
    · exact .inr rfl
    · exact .inl rfl
  · exact .inl (by simp [encodeStreamMsgAllowCompressAndBatch, compress])

theorem decodeEntry_prelude {s2 : S2} {m : StreamMsg} {b : BatchId} (short : b.id.length ≤ maxUint16)
    {op : UInt8} {mbuf : Bytes} (plain : op = streamMsgOp ∨ op = compressedStreamMsgOp)
    (read : decodeOp s2 op mbuf = .ok m) :
    decodeEntry s2 (batchPrelude b ++ op :: mbuf) =
      .ok (m, if b.id = [] then none else some b) := by
  have other : ¬ (op = batchMsgOp ∨ op = batchCommitMsgOp) := by
    rcases plain with rfl | rfl <;> decide
  by_cases none_ : b.id = []
  · simp [batchPrelude, none_, decodeEntry, other, read, pure, Except.pure]
  have small : b.id.length < 256 ^ 2 := lt_of_le_of_lt short (by decide)
  have batch : decodeBatchMsg (StreamMsg.field 2 b.id ++ (putUvarint 10 b.seq.toNat ++ op :: mbuf)) =
      .ok (b.id, b.seq, op, mbuf) := by
    rw [decodeBatchMsg, StreamMsg.field, append_assoc,
      need_append _ (le_of_eq (putUint_length _ _).symm), ok_bind, sized_append _ small, ok_bind]
    simp only [uvarint_putUvarint b.seq.toNat_lt, drop_left, pure, Except.pure, UInt64.ofNat_toNat]
  obtain ⟨id, seq, commit⟩ := b
  cases commit <;>
    simp [batchPrelude, none_, StreamMsg.clip_of_le short, decodeEntry, batch, read, pure, Except.pure,
      batchMsgOp, batchCommitMsgOp]

/-- Entries are read back exactly if what is compressed can be; the decoder of a message always
returns; that of a batch does unless the bytes end with the sequence. -/
theorem stream_entries_round_trip_iff (s2 : S2) (m : StreamMsg) (b : BatchId) (fits : m.Fits)
    (short : b.id.length ≤ maxUint16) (buf : Bytes) :
    ((∃ bytes, encodeStreamMsgAllowCompressAndBatch s2 m b = some bytes ∧
        decodeEntry s2 bytes = .ok (m, if b.id = [] then none else some b)) ↔ Encodable s2 m b) ∧
      Returns (decodeStreamMsg buf) ∧ (Returns (decodeBatchMsg buf) ↔ ¬ EndsAfterSeq buf) := by
  refine ⟨⟨?_, ?_⟩, decodeStreamMsg_returns buf, decodeBatchMsg_returns_iff buf⟩
  · rintro ⟨bytes, encoded, -⟩ compress
    rw [encodeStreamMsgAllowCompressAndBatch, if_pos compress] at encoded
    cases size : s2.maxEncodedLen (elen m b) with
    | none => simp [size] at encoded
    | some n => rfl
  · intro encodable
    rcases encode_shape encodable with encoded | encoded
    · exact ⟨_, encoded, decodeEntry_prelude short (.inl rfl) (decodeStreamMsg_body fits)⟩
    · refine ⟨_, encoded, decodeEntry_prelude short (.inr rfl) ?_⟩
      rw [decodeOp, if_pos rfl, s2.decode_encode]
      exact decodeStreamMsg_body fits

def stored : S2 where
  encode := id
  decode := some
  maxEncodedLen n := if n ≤ maxUint32 then some n else none
  decode_encode _ := rfl
  grows n k m fits := by
    split at fits
    · exact ⟨n, if_pos (by omega), le_of_eq (Option.some.inj fits)⟩
    · contradiction

/-- A short message that commits a batch. -/
theorem stream_entries_round_trip_commit :
    ∃ bytes, encodeStreamMsgAllowCompressAndBatch stored ⟨[97], [], [], [1, 2], 7, -1, true⟩
        ⟨[98], 300, true⟩ = some bytes ∧
      decodeEntry stored bytes = .ok (⟨[97], [], [], [1, 2], 7, -1, true⟩, some ⟨[98], 300, true⟩) :=
  (stream_entries_round_trip_iff stored ⟨[97], [], [], [1, 2], 7, -1, true⟩ ⟨[98], 300, true⟩
    ⟨by decide, by decide, by decide, by decide⟩ (by decide) []).1.mpr (fun large => by
      exact absurd large (by decide))

/-- A batch entry that ends with its sequence. -/
theorem batch_entry_cut : decodeBatchMsg [0, 0, 0] = .error .panic := rfl

end LinearNats.Cluster
