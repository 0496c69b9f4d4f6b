import LinearNats.Checked

/-! The encoding of append entries. An entry's data may lie in the array behind the buffer that is
written to, as it does when a leader encodes an entry it has decoded again for a catch-up. -/
namespace LinearNats.Raft.Wire
open LittleEndian Checked List

abbrev Bytes := List UInt8

def idLen : Nat := 8
def appendEntryBaseLen : Nat := idLen + 4 * 8 + 2
def maxUint16 : Nat := 65535
def maxInt32 : Nat := 2147483647

/-- Bytes of their own, or a part of the array behind the buffer. -/
inductive Data where
  | own (bytes : Bytes)
  | within (start stop : Nat)
  deriving DecidableEq

namespace Data

def length : Data → Nat
  | own bytes => bytes.length
  | within start stop => stop - start

def read (array : Bytes) : Data → Bytes
  | own bytes => bytes
  | within start stop => slice array start stop

end Data

structure Entry where
  type : UInt8
  data : Data
  deriving DecidableEq

structure AppendEntry where
  leader : Bytes
  term : UInt64
  commit : UInt64
  pterm : UInt64
  pindex : UInt64
  entries : List Entry
  lterm : UInt64
  deriving DecidableEq

inductive CodecError where
  | leaderLen
  | tooManyEntries
  | badAppendEntry
  deriving DecidableEq

structure Writer where
  array : Bytes
  len : Nat

namespace Writer

/-- Inside the capacity, an append writes into the array. -/
def append (w : Writer) (bytes : Bytes) : Writer :=
  ⟨w.array.take w.len ++ (bytes ++ w.array.drop (w.len + bytes.length)), w.len + bytes.length⟩

/-- The data is read when its turn comes, from `source`. -/
def entry (source : Writer → Bytes) (w : Writer) (e : Entry) : Writer :=
  let w := w.append (putUint 4 (1 + e.data.length))
  let w := w.append [e.type]
  w.append (e.data.read (source w))

end Writer

namespace AppendEntry

def encodedLen (ae : AppendEntry) : Nat :=
  appendEntryBaseLen + (ae.entries.map (fun e => e.data.length + 1 + 4)).sum +
    (putUvarint 10 ae.lterm.toNat).length

def writeHead (buf : Bytes) (ae : AppendEntry) : Writer :=
  let w : Writer := ⟨ae.leader ++ buf.drop ae.leader.length, idLen⟩
  let w := w.append (putUint 8 ae.term.toNat)
  let w := w.append (putUint 8 ae.commit.toNat)
  let w := w.append (putUint 8 ae.pterm.toNat)
  let w := w.append (putUint 8 ae.pindex.toNat)
  w.append (putUint 2 ae.entries.length)

def writeMessage (source : Writer → Bytes) (buf : Bytes) (ae : AppendEntry) : Writer :=
  (ae.entries.foldl (Writer.entry source) (ae.writeHead buf)).append
    (putUvarint 10 ae.lterm.toNat)

/-- `array` is the one behind the given buffer, from its start to its capacity. The results are
that array afterwards and the buffer that is returned. -/
def encode (array : Bytes) (ae : AppendEntry) : Except CodecError (Bytes × Bytes) :=
  if ae.leader.length ≠ idLen ∧ ae.leader.length ≠ 0 then .error .leaderLen
  else if maxUint16 < ae.entries.length then .error .tooManyEntries
  else if ae.entries.any (fun e => maxInt32 < e.data.length) then .error .badAppendEntry
  else if ae.encodedLen ≤ array.length then
    let w := ae.writeMessage Writer.array array
    .ok (w.array, w.array.take w.len)
  else
    let w := ae.writeMessage (fun _ => array) (List.replicate ae.encodedLen 0)
    .ok (array, w.array.take w.len)

end AppendEntry

abbrev Decoded (α : Type) := Except (Stop CodecError) α

/-- A number read from `msg[i:]`. -/
def uintAt (width : Nat) (msg : Bytes) (i : Nat) : Decoded Nat := do
  let rest ← from_ i msg
  uint width rest

def index (msg : Bytes) (i : Nat) : Decoded UInt8 :=
  if i < msg.length then .ok (msg.getD i 0) else .error .panic

/-- `msg[i:j]`. The capacity would do for Go; here the bytes have to be in the message. -/
def part (msg : Bytes) (i j : Nat) : Decoded Data :=
  if i ≤ j ∧ j ≤ msg.length then .ok (.within i j) else .error .panic

def decodeEntries (msg : Bytes) : Nat → Nat → Decoded (List Entry × Nat)
  | 0, ri => .ok ([], ri)
  | ne + 1, ri =>
    if msg.length - ri < 4 then .error (.fail .badAppendEntry)
    else do
      let ml ← uintAt 4 msg ri
      let ri := ri + 4
      if ml ≤ 0 ∨ msg.length < ri + ml then .error (.fail .badAppendEntry)
      else
        let type ← index msg ri
        let data ← part msg (ri + 1) (ri + ml)
        let (entries, stop) ← decodeEntries msg ne (ri + ml)
        .ok (⟨type, data⟩ :: entries, stop)

/-- Not copied: the data of the entries is a part of the message. -/
def decodeAppendEntry (msg : Bytes) : Decoded AppendEntry :=
  if msg.length < appendEntryBaseLen then .error (.fail .badAppendEntry)
  else do
    let leader ← part msg 0 idLen
    let term ← uintAt 8 msg 8
    let commit ← uintAt 8 msg 16
    let pterm ← uintAt 8 msg 24
    let pindex ← uintAt 8 msg 32
    let ne ← uintAt 2 msg 40
    let (entries, ri) ← decodeEntries msg ne appendEntryBaseLen
    let rest ← from_ ri msg
    .ok
      { leader := leader.read msg
        term := UInt64.ofNat term
        commit := UInt64.ofNat commit
        pterm := UInt64.ofNat pterm
        pindex := UInt64.ofNat pindex
        entries := entries
        -- Bytes after the entries that are no varint leave the term at zero.
        lterm := UInt64.ofNat (((uvarint rest).map Prod.fst).getD 0) }

theorem uintAt_inside {width : Nat} {msg : Bytes} {i : Nat} (inside : i + width ≤ msg.length) :
    uintAt width msg i = .ok (getUint (slice msg i (i + width))) := by
  have enough : width ≤ (msg.drop i).length := by
    rw [length_drop]
    omega
  rw [uintAt, from_ok (by omega), ok_bind, uint_ok enough, slice, drop_take, Nat.add_sub_cancel_left]

/-- One round, when the size of the entry can be read: nothing else can be out of range. -/
theorem decodeEntries_succ {msg : Bytes} {ri : Nat} (inside : ri + 4 ≤ msg.length) (ne : Nat) :
    decodeEntries msg (ne + 1) ri =
      let ml := getUint (slice msg ri (ri + 4))
      if ml = 0 ∨ msg.length < ri + 4 + ml then .error (.fail .badAppendEntry)
      else decodeEntries msg ne (ri + 4 + ml) >>= fun r =>
        .ok (⟨msg.getD (ri + 4) 0, .within (ri + 5) (ri + 4 + ml)⟩ :: r.1, r.2) := by
  rw [decodeEntries, if_neg (by omega), uintAt_inside inside, ok_bind]
  simp only [Nat.le_zero]
  split
  · rfl
  next fits =>
    rw [index, if_pos (by omega), ok_bind, part, if_pos (by omega), ok_bind]

/-- The fields before the entries are there in every message that is long enough. -/
theorem decodeAppendEntry_eq {msg : Bytes} (long : appendEntryBaseLen ≤ msg.length) :
    decodeAppendEntry msg =
      decodeEntries msg (getUint (slice msg 40 42)) appendEntryBaseLen >>= fun r =>
        from_ r.2 msg >>= fun rest =>
        .ok
          { leader := slice msg 0 idLen
            term := UInt64.ofNat (getUint (slice msg 8 16))
            commit := UInt64.ofNat (getUint (slice msg 16 24))
            pterm := UInt64.ofNat (getUint (slice msg 24 32))
            pindex := UInt64.ofNat (getUint (slice msg 32 40))
            entries := r.1
            lterm := UInt64.ofNat (((uvarint rest).map Prod.fst).getD 0) } := by
  have base : appendEntryBaseLen = 42 := rfl
  rw [decodeAppendEntry, if_neg (by omega), part, if_pos ⟨Nat.zero_le _, by rw [idLen]; omega⟩,
    ok_bind]
  simp only [uintAt_inside (by omega : 8 + 8 ≤ msg.length),
    uintAt_inside (by omega : 16 + 8 ≤ msg.length), uintAt_inside (by omega : 24 + 8 ≤ msg.length),
    uintAt_inside (by omega : 32 + 8 ≤ msg.length), uintAt_inside (by omega : 40 + 2 ≤ msg.length),
    ok_bind]
  rfl

/-! ### The bytes of an encoded entry -/

abbrev Content := UInt8 × Bytes

def record (c : Content) : Bytes := putUint 4 (1 + c.2.length) ++ (c.1 :: c.2)

def records (cs : List Content) : Bytes := cs.flatMap record

def head (ae : AppendEntry) (count : Nat) : Bytes :=
  ae.leader ++ (putUint 8 ae.term.toNat ++ (putUint 8 ae.commit.toNat ++
    (putUint 8 ae.pterm.toNat ++ (putUint 8 ae.pindex.toNat ++ putUint 2 count))))

/-- Where the entries of a message lie that start at `pos`. -/
def layout (pos : Nat) : List Content → List Entry
  | [] => []
  | c :: cs => ⟨c.1, .within (pos + 5) (pos + 5 + c.2.length)⟩ :: layout (pos + 5 + c.2.length) cs

theorem records_cons (c : Content) (cs : List Content) :
    records (c :: cs) = record c ++ records cs := flatMap_cons

theorem record_length (c : Content) : (record c).length = 5 + c.2.length := by
  simp [record]
  omega

theorem head_length {ae : AppendEntry} (leader : ae.leader.length = idLen) (count : Nat) :
    (head ae count).length = appendEntryBaseLen := by
  simp [head, leader, appendEntryBaseLen]

theorem layout_length (pos : Nat) (cs : List Content) : (layout pos cs).length = cs.length := by
  induction cs generalizing pos with
  | nil => rfl
  | cons c cs ih => rw [layout, length_cons, length_cons, ih]

/-! ### Writing -/

theorem append_room (done junk bytes : Bytes) :
    Writer.append ⟨done ++ junk, done.length⟩ bytes =
      ⟨(done ++ bytes) ++ junk.drop bytes.length, (done ++ bytes).length⟩ := by
  simp [Writer.append, drop_append]

theorem append_same {array done bytes rest : Bytes} {len : Nat}
    (same : array = done ++ (bytes ++ rest)) (at_ : len = done.length) :
    Writer.append ⟨array, len⟩ bytes = ⟨array, len + bytes.length⟩ := by
  simp only [Writer.append, same, at_, Writer.mk.injEq, and_true]
  simp [drop_append]

structure Reads (source : Writer → Bytes) (e : Entry) (c : Content) : Prop where
  type : e.type = c.1
  length : e.data.length = c.2.length
  data : ∀ w, e.data.read (source w) = c.2

theorem entry_room {source : Writer → Bytes} {e : Entry} {c : Content} (reads : Reads source e c)
    (done junk : Bytes) :
    Writer.entry source ⟨done ++ junk, done.length⟩ e =
      ⟨(done ++ record c) ++ junk.drop (record c).length, (done ++ record c).length⟩ := by
  rw [Writer.entry, reads.data, append_room, append_room, append_room, reads.length, reads.type,
    record_length]
  simp [record, drop_drop]

theorem entries_room {source : Writer → Bytes} {es : List Entry} {cs : List Content}
    (reads : List.Forall₂ (Reads source) es cs) (done junk : Bytes) :
    es.foldl (Writer.entry source) ⟨done ++ junk, done.length⟩ =
      ⟨(done ++ records cs) ++ junk.drop (records cs).length, (done ++ records cs).length⟩ := by
  induction reads generalizing done junk with
  | nil => simp [records]
  | @cons e c es cs first _ ih =>
    rw [foldl_cons, entry_room first, ih, records_cons]
    simp [drop_drop]

theorem entry_same {array done rest : Bytes} {len : Nat} {c : Content}
    (same : array = done ++ (record c ++ rest)) (at_ : len = done.length) :
    Writer.entry Writer.array ⟨array, len⟩ ⟨c.1, .within (len + 5) (len + 5 + c.2.length)⟩ =
      ⟨array, len + (record c).length⟩ := by
  have size : (Data.within (len + 5) (len + 5 + c.2.length)).length = c.2.length := by
    rw [Data.length]
    omega
  have one : array = done ++ (putUint 4 (1 + c.2.length) ++ ([c.1] ++ (c.2 ++ rest))) := by
    rw [same, record, append_assoc]
    rfl
  have two : array = (done ++ putUint 4 (1 + c.2.length)) ++ ([c.1] ++ (c.2 ++ rest)) := by
    rw [one, append_assoc]
  have three : array = (done ++ (putUint 4 (1 + c.2.length) ++ [c.1])) ++ (c.2 ++ rest) := by
    rw [one]
    simp
  have bytes : slice array (len + 5) (len + 5 + c.2.length) = c.2 := by
    rw [three]
    exact slice_middle (by simp [at_]) rfl
  rw [Writer.entry, size, append_same one at_]
  dsimp only
  rw [append_same two (by simp [at_])]
  dsimp only [Data.read]
  rw [bytes, append_same three (by simp [at_]), record_length]
  simp only [putUint_length, length_singleton, Writer.mk.injEq, true_and]
  omega

theorem entries_same (cs : List Content) {array done rest : Bytes} {len : Nat}
    (same : array = done ++ (records cs ++ rest)) (at_ : len = done.length) :
    (layout len cs).foldl (Writer.entry Writer.array) ⟨array, len⟩ =
      ⟨array, len + (records cs).length⟩ := by
  induction cs generalizing len done with
  | nil => rfl
  | cons c cs ih =>
    have split : array = done ++ (record c ++ (records cs ++ rest)) := by
      rw [same, records_cons, append_assoc]
    have next : array = (done ++ record c) ++ (records cs ++ rest) := by
      rw [split, append_assoc]
    have pos : len + 5 + c.2.length = len + (record c).length := by
      rw [record_length]
      omega
    rw [layout, foldl_cons, entry_same split at_, pos, ih next (by simp [at_])]
    simp [records_cons, add_assoc]

/-! ### Reading -/

def Fits (cs : List Content) : Prop := ∀ c ∈ cs, 1 + c.2.length < 256 ^ 4

theorem decodeEntries_records {cs : List Content} (fits : Fits cs) (before after : Bytes) :
    decodeEntries (before ++ (records cs ++ after)) cs.length before.length =
      .ok (layout before.length cs, before.length + (records cs).length) := by
  induction cs generalizing before with
  | nil => rfl
  | cons c cs ih =>
    have split : before ++ (records (c :: cs) ++ after) =
        (before ++ record c) ++ (records cs ++ after) := by
      simp [records_cons]
    have pos : (before ++ record c).length = before.length + 5 + c.2.length := by
      rw [length_append, record_length]
      omega
    have rest := ih (fun other inside => fits other (mem_cons_of_mem c inside))
      (before ++ record c)
    have total : before.length + 5 + c.2.length ≤
        ((before ++ record c) ++ (records cs ++ after)).length := by
      rw [length_append, pos]
      omega
    have ml : getUint (slice ((before ++ record c) ++ (records cs ++ after)) before.length
        (before.length + 4)) = 1 + c.2.length := by
      rw [append_assoc, record, append_assoc, slice_middle rfl (by rw [putUint_length]),
        getUint_putUint_of_lt (fits c mem_cons_self)]
    have type : ((before ++ record c) ++ (records cs ++ after)).getD (before.length + 4) 0 =
        c.1 := by
      rw [record]
      simp [getD_eq_getElem?_getD]
    have here : before.length + 4 + (1 + c.2.length) = (before ++ record c).length := by omega
    rw [split, length_cons, decodeEntries_succ (by omega)]
    dsimp only
    rw [ml, if_neg (by omega), type, here, rest, ok_bind, layout, ← pos]
    simp [records_cons, add_assoc]

/-- What the loop accepts is a list of records, and it ends where they do. -/
theorem decodeEntries_inv {msg : Bytes} {ne ri : Nat} {es : List Entry} {stop : Nat}
    (inside : ri ≤ msg.length) (accepted : decodeEntries msg ne ri = .ok (es, stop)) :
    ∃ cs after, msg = msg.take ri ++ (records cs ++ after) ∧ cs.length = ne ∧ Fits cs ∧
      es = layout ri cs ∧ stop = ri + (records cs).length := by
  induction ne generalizing ri es with
  | zero =>
    obtain ⟨rfl, rfl⟩ : [] = es ∧ ri = stop := by simpa [decodeEntries] using accepted
    refine ⟨[], msg.drop ri, by simp [records], rfl, ?_, rfl, rfl⟩
    intro c none_
    cases none_
  | succ ne ih =>
    have enough : ri + 4 ≤ msg.length := by
      by_contra short
      rw [decodeEntries, if_pos (by omega)] at accepted
      cases accepted
    rw [decodeEntries_succ enough] at accepted
    dsimp only at accepted
    generalize size : getUint (slice msg ri (ri + 4)) = ml at accepted
    split at accepted
    · cases accepted
    cases later : decodeEntries msg ne (ri + 4 + ml) with
    | error s =>
      rw [later] at accepted
      cases accepted
    | ok r =>
      obtain ⟨rest, stop'⟩ := r
      rw [later] at accepted
      cases accepted
      obtain ⟨cs, after, split, count, fits, places, ends⟩ := ih (by omega) later
      -- The record of the first entry: its size, its type, its data.
      have four : (slice msg ri (ri + 4)).length = 4 := by
        rw [slice_length]
        omega
      have field : putUint 4 ml = slice msg ri (ri + 4) := by
        have back := putUint_getUint (slice msg ri (ri + 4))
        rwa [four, size] at back
      let c : Content := (msg.getD (ri + 4) 0, slice msg (ri + 5) (ri + 4 + ml))
      have data : c.2.length = ml - 1 := by
        change (slice msg (ri + 5) (ri + 4 + ml)).length = ml - 1
        rw [slice_length]
        omega
      have whole : record c = slice msg ri (ri + 4 + ml) := by
        have one : 1 + c.2.length = ml := by omega
        rw [record, one, field, ← slice_append_slice (Nat.le_add_right ri 4)
          (Nat.le_add_right (ri + 4) ml), slice_cons (by omega : ri + 4 < ri + 4 + ml) (by omega)]
      have bound : ml < 256 ^ 4 := by
        have small := getUint_lt (slice msg ri (ri + 4))
        rwa [four, size] at small
      have pos : ri + 5 + c.2.length = ri + 4 + ml := by omega
      refine ⟨c :: cs, after, ?_, by rw [length_cons, count], ?_, ?_, ?_⟩
      · have front : msg.take ri ++ slice msg ri (ri + 4 + ml) = _ := take_append_slice (by omega)
        rw [records_cons, whole, append_assoc, ← append_assoc, front]
        exact split
      · exact forall_mem_cons.mpr ⟨by omega, fits⟩
      · rw [layout, pos, ← places]
      · rw [ends, records_cons, length_append, record_length]
        omega

theorem decodeEntries_stop_le {msg : Bytes} {ne ri : Nat} {es : List Entry} {stop : Nat}
    (inside : ri ≤ msg.length) (accepted : decodeEntries msg ne ri = .ok (es, stop)) :
    stop ≤ msg.length := by
  obtain ⟨cs, after, split, _, _, _, ends⟩ := decodeEntries_inv inside accepted
  have size := congrArg List.length split
  rw [length_append, length_take, length_append] at size
  omega

/-! ### The whole message -/

section

variable {ae : AppendEntry} {array : Bytes} {cs : List Content}

theorem writeHead_eq (leader : ae.leader.length = idLen) (buf : Bytes) :
    ae.writeHead buf = ⟨head ae ae.entries.length ++ buf.drop appendEntryBaseLen,
      (head ae ae.entries.length).length⟩ := by
  rw [AppendEntry.writeHead, ← leader, append_room, append_room, append_room, append_room,
    append_room]
  simp only [head, drop_drop, putUint_length, append_assoc, leader]
  rfl

def message (ae : AppendEntry) (cs : List Content) : Bytes :=
  head ae ae.entries.length ++ (records cs ++ putUvarint 10 ae.lterm.toNat)

structure Encodable (ae : AppendEntry) : Prop where
  leader : ae.leader.length = idLen
  count : ae.entries.length ≤ maxUint16
  small : ∀ e ∈ ae.entries, e.data.length ≤ maxInt32

theorem encode_eq (encodable : Encodable ae) (array : Bytes) :
    ae.encode array =
      if ae.encodedLen ≤ array.length then
        .ok ((ae.writeMessage Writer.array array).array,
          (ae.writeMessage Writer.array array).array.take
            (ae.writeMessage Writer.array array).len)
      else
        .ok (array, (ae.writeMessage (fun _ => array) (List.replicate ae.encodedLen 0)).array.take
          (ae.writeMessage (fun _ => array) (List.replicate ae.encodedLen 0)).len) := by
  have few := encodable.count
  have small : ¬ ae.entries.any (fun e => maxInt32 < e.data.length) = true := by
    rw [any_eq_true]
    rintro ⟨e, inside, large⟩
    have := encodable.small e inside
    simp only [decide_eq_true_eq] at large
    omega
  rw [AppendEntry.encode, if_neg (fun bad => bad.1 encodable.leader), if_neg (by omega),
    if_neg small]

theorem writeMessage_room {source : Writer → Bytes} (leader : ae.leader.length = idLen)
    (reads : List.Forall₂ (Reads source) ae.entries cs) (buf : Bytes) :
    (ae.writeMessage source buf).array.take (ae.writeMessage source buf).len = message ae cs := by
  rw [AppendEntry.writeMessage, writeHead_eq leader, entries_room reads, append_room]
  dsimp only
  rw [take_left' rfl, message, append_assoc]

theorem writeMessage_same (leader : ae.leader.length = idLen)
    (places : ae.entries = layout appendEntryBaseLen cs) {rest : Bytes}
    (same : array = head ae ae.entries.length ++ (records cs ++ rest)) :
    ae.writeMessage Writer.array array =
      ⟨message ae cs ++ rest.drop (putUvarint 10 ae.lterm.toNat).length,
        (message ae cs).length⟩ := by
  have size := head_length leader ae.entries.length
  have back : array.drop appendEntryBaseLen = records cs ++ rest := by
    rw [same, drop_left' size]
  rw [AppendEntry.writeMessage, writeHead_eq leader, back, ← same, size]
  nth_rewrite 1 [places]
  rw [entries_same cs same size.symm, same, ← size, ← length_append, ← append_assoc,
    append_room, message]
  simp only [append_assoc]

theorem encode_own (encodable : Encodable ae)
    (own : ∀ source, List.Forall₂ (Reads source) ae.entries cs) (array : Bytes) :
    ∃ after, ae.encode array = .ok (after, message ae cs) := by
  rw [encode_eq encodable]
  split
  · exact ⟨_, by rw [writeMessage_room encodable.leader (own _)]⟩
  · exact ⟨_, by rw [writeMessage_room encodable.leader (own _)]⟩

theorem reads_layout (done : Bytes) (cs : List Content) (rest : Bytes) :
    List.Forall₂ (Reads (fun _ => done ++ (records cs ++ rest))) (layout done.length cs) cs := by
  induction cs generalizing done with
  | nil => exact .nil
  | cons c cs ih =>
    have split : done ++ (records (c :: cs) ++ rest) = (done ++ record c) ++ (records cs ++ rest) := by
      simp [records_cons]
    have pos : done.length + 5 + c.2.length = (done ++ record c).length := by
      rw [length_append, record_length]
      omega
    rw [layout]
    refine .cons ⟨rfl, ?_, fun _ => ?_⟩ ?_
    · rw [Data.length]
      omega
    · have data : done ++ (records (c :: cs) ++ rest) =
          (done ++ (putUint 4 (1 + c.2.length) ++ [c.1])) ++ (c.2 ++ (records cs ++ rest)) := by
        simp [records_cons, record]
      rw [Data.read, data]
      exact slice_middle (by simp) rfl
    · rw [split, pos]
      exact ih (done ++ record c)

/-- Encoded again into its own buffer, an entry is the message with the new term, and the data
keeps its place. -/
theorem encode_again (encodable : Encodable ae)
    (places : ae.entries = layout appendEntryBaseLen cs) {rest : Bytes}
    (same : array = head ae ae.entries.length ++ (records cs ++ rest)) :
    ∃ rest', ae.encode array =
      .ok (head ae ae.entries.length ++ (records cs ++ rest'), message ae cs) := by
  rw [encode_eq encodable]
  split
  · rw [writeMessage_same encodable.leader places same]
    dsimp only
    rw [take_left' rfl]
    refine ⟨putUvarint 10 ae.lterm.toNat ++ rest.drop (putUvarint 10 ae.lterm.toNat).length, ?_⟩
    rw [message]
    simp
  · have reads : List.Forall₂ (Reads (fun _ => array)) ae.entries cs := by
      have size := head_length encodable.leader ae.entries.length
      have all := reads_layout (head ae ae.entries.length) cs rest
      rw [size, ← places, ← same] at all
      exact all
    rw [writeMessage_room encodable.leader reads]
    exact ⟨rest, by rw [same]⟩

theorem ofNat_putUint (n : UInt64) : UInt64.ofNat (getUint (putUint 8 n.toNat)) = n := by
  have fits : n.toNat < 256 ^ 8 := by
    have := n.toNat_lt
    omega
  rw [getUint_putUint_of_lt fits, UInt64.ofNat_toNat]

theorem slice_head (leader : ae.leader.length = idLen) (count : Nat) (after : Bytes) :
    slice (head ae count ++ after) 0 idLen = ae.leader ∧
      slice (head ae count ++ after) 8 16 = putUint 8 ae.term.toNat ∧
      slice (head ae count ++ after) 16 24 = putUint 8 ae.commit.toNat ∧
      slice (head ae count ++ after) 24 32 = putUint 8 ae.pterm.toNat ∧
      slice (head ae count ++ after) 32 40 = putUint 8 ae.pindex.toNat ∧
      slice (head ae count ++ after) 40 42 = putUint 2 count := by
  have field : ∀ (left mid right : Bytes) {i j : Nat}, head ae count = left ++ (mid ++ right) →
      left.length = i → i + mid.length = j → slice (head ae count ++ after) i j = mid := by
    intro left mid right i j split start stop
    rw [split, append_assoc, append_assoc]
    exact slice_middle start stop
  have eight : ae.leader.length = 8 := leader
  let t := putUint 8 ae.term.toNat
  let c := putUint 8 ae.commit.toNat
  let p := putUint 8 ae.pterm.toNat
  let i := putUint 8 ae.pindex.toNat
  let n := putUint 2 count
  refine ⟨field [] ae.leader (t ++ (c ++ (p ++ (i ++ n)))) rfl rfl ?_,
    field ae.leader t (c ++ (p ++ (i ++ n))) rfl eight ?_,
    field (ae.leader ++ t) c (p ++ (i ++ n)) ?_ ?_ ?_,
    field (ae.leader ++ (t ++ c)) p (i ++ n) ?_ ?_ ?_,
    field (ae.leader ++ (t ++ (c ++ p))) i n ?_ ?_ ?_,
    field (ae.leader ++ (t ++ (c ++ (p ++ i)))) n [] ?_ ?_ ?_⟩ <;>
    simp [t, c, p, i, n, head, eight, idLen]

theorem decode_split (leader : ae.leader.length = idLen) (count : cs.length ≤ maxUint16)
    (fits : Fits cs) (after : Bytes) :
    decodeAppendEntry (head ae cs.length ++ (records cs ++ after)) =
      .ok { ae with
        entries := layout appendEntryBaseLen cs
        lterm := UInt64.ofNat (((uvarint after).map Prod.fst).getD 0) } := by
  have size := head_length leader cs.length
  obtain ⟨leader', term, commit, pterm, pindex, number⟩ :=
    slice_head leader cs.length (records cs ++ after)
  have entries := decodeEntries_records fits (head ae cs.length) after
  have stop : (head ae cs.length ++ (records cs ++ after)).drop
      (appendEntryBaseLen + (records cs).length) = after := by
    rw [← size, ← length_append, ← append_assoc, drop_left' rfl]
  have few : getUint (putUint 2 cs.length) = cs.length := by
    refine getUint_putUint_of_lt ?_
    have : maxUint16 < 256 ^ 2 := by decide
    omega
  rw [size] at entries
  have total : appendEntryBaseLen + (records cs).length ≤
      (head ae cs.length ++ (records cs ++ after)).length := by
    rw [length_append, size, length_append]
    omega
  rw [decodeAppendEntry_eq (by omega), number, few, entries, ok_bind, from_ok total, ok_bind,
    leader', term, commit, pterm, pindex, stop, ofNat_putUint, ofNat_putUint, ofNat_putUint,
    ofNat_putUint]

theorem decode_message (leader : ae.leader.length = idLen) (count : cs.length ≤ maxUint16)
    (same : ae.entries.length = cs.length) (fits : Fits cs) :
    decodeAppendEntry (message ae cs) =
      .ok { ae with entries := layout appendEntryBaseLen cs } := by
  have lterm := uvarint_putUvarint ae.lterm.toNat_lt []
  rw [append_nil] at lterm
  rw [message, same, decode_split leader count fits, lterm]
  simp

theorem decode_inv {msg : Bytes} (accepted : decodeAppendEntry msg = .ok ae) :
    ∃ cs after, msg = head ae ae.entries.length ++ (records cs ++ after) ∧
      ae.entries = layout appendEntryBaseLen cs ∧ Fits cs ∧ cs.length ≤ maxUint16 ∧
      ae.leader.length = idLen := by
  have long : appendEntryBaseLen ≤ msg.length := by
    by_contra short
    rw [decodeAppendEntry, if_pos (by omega)] at accepted
    cases accepted
  rw [decodeAppendEntry_eq long] at accepted
  cases found : decodeEntries msg (getUint (slice msg 40 42)) appendEntryBaseLen with
  | error s =>
    rw [found] at accepted
    cases accepted
  | ok r =>
    obtain ⟨entries, stop⟩ := r
    obtain ⟨cs, after, split, count, fits, places, ends⟩ := decodeEntries_inv long found
    rw [found, ok_bind, from_ok (decodeEntries_stop_le long found), ok_bind] at accepted
    have base : appendEntryBaseLen = 42 := rfl
    have word : ∀ {i : Nat}, i + 8 ≤ 42 → putUint 8
        (UInt64.ofNat (getUint (slice msg i (i + 8)))).toNat = slice msg i (i + 8) := by
      intro i inside
      have eight : (slice msg i (i + 8)).length = 8 := by
        rw [slice_length]
        omega
      have small := getUint_lt (slice msg i (i + 8))
      have back := putUint_getUint (slice msg i (i + 8))
      rw [eight] at small back
      rw [UInt64.toNat_ofNat_of_lt' (by omega), back]
    have two : (slice msg 40 42).length = 2 := by
      rw [slice_length]
      omega
    have number := putUint_getUint (slice msg 40 42)
    have few := getUint_lt (slice msg 40 42)
    rw [two] at number few
    cases accepted
    refine ⟨cs, after, ?_, places, fits, ?_, ?_⟩
    · have length : entries.length = getUint (slice msg 40 42) := by
        rw [places, layout_length, count]
      rw [head]
      dsimp only
      rw [length, number, word (by omega : 8 + 8 ≤ 42), word (by omega : 16 + 8 ≤ 42),
        word (by omega : 24 + 8 ≤ 42), word (by omega : 32 + 8 ≤ 42)]
      have front : slice msg 0 idLen ++ (slice msg 8 (8 + 8) ++ (slice msg 16 (16 + 8) ++
          (slice msg 24 (24 + 8) ++ (slice msg 32 (32 + 8) ++ slice msg 40 42)))) =
          msg.take appendEntryBaseLen := by
        change slice msg 0 8 ++ _ = _
        rw [slice_append_slice (by decide) (by decide), slice_append_slice (by decide) (by decide),
          slice_append_slice (by decide) (by decide), slice_append_slice (by decide) (by decide),
          slice_append_slice (by decide) (by decide)]
        rfl
      rw [front]
      exact split
    · have : maxUint16 + 1 = 256 ^ 2 := by decide
      omega
    · rw [slice_length, idLen]
      omega

end

theorem decodeEntries_returns {msg : Bytes} {ri : Nat} (inside : ri ≤ msg.length) (ne : Nat) :
    decodeEntries msg ne ri = .error (.fail .badAppendEntry) ∨
      ∃ es stop, decodeEntries msg ne ri = .ok (es, stop) := by
  induction ne generalizing ri with
  | zero => exact .inr ⟨[], ri, rfl⟩
  | succ ne ih =>
    by_cases enough : ri + 4 ≤ msg.length
    · rw [decodeEntries_succ enough]
      dsimp only
      split
      · exact .inl rfl
      next fits =>
        rcases @ih (ri + 4 + getUint (slice msg ri (ri + 4))) (by omega) with
          failed | ⟨es, stop, read⟩
        · exact .inl (by rw [failed]; rfl)
        · exact .inr ⟨_, stop, by rw [read]; rfl⟩
    · exact .inl (by rw [decodeEntries, if_pos (by omega)])

/-- No read is out of range, whatever the bytes are. -/
theorem decodeAppendEntry_returns (msg : Bytes) :
    decodeAppendEntry msg = .error (.fail .badAppendEntry) ∨ ∃ ae, decodeAppendEntry msg = .ok ae := by
  by_cases long : appendEntryBaseLen ≤ msg.length
  · rw [decodeAppendEntry_eq long]
    rcases decodeEntries_returns long (getUint (slice msg 40 42)) with failed | ⟨es, stop, read⟩
    · exact .inl (by rw [failed]; rfl)
    exact .inr ⟨_, by rw [read, ok_bind, from_ok (decodeEntries_stop_le long read), ok_bind]⟩
  · exact .inl (by rw [decodeAppendEntry, if_pos (by omega)])

def ownEntries (cs : List Content) : List Entry := cs.map (fun c => ⟨c.1, .own c.2⟩)

theorem reads_own (source : Writer → Bytes) (cs : List Content) :
    List.Forall₂ (Reads source) (ownEntries cs) cs := by
  induction cs with
  | nil => exact .nil
  | cons c cs ih => exact .cons ⟨rfl, rfl, fun _ => rfl⟩ ih

def AppendEntry.contents (array : Bytes) (ae : AppendEntry) : List Content :=
  ae.entries.map (fun e => (e.type, e.data.read array))

theorem contents_layout (done : Bytes) (cs : List Content) (rest : Bytes) :
    (layout done.length cs).map (fun e => (e.type, e.data.read (done ++ (records cs ++ rest)))) =
      cs := by
  have reads := reads_layout done cs rest
  generalize done ++ (records cs ++ rest) = array at reads ⊢
  generalize layout done.length cs = es at reads ⊢
  induction reads with
  | nil => rfl
  | @cons e c es cs first _ ih => rw [map_cons, ih, first.type, first.data ⟨[], 0⟩]

theorem layout_inside (done : Bytes) (cs : List Content) (rest : Bytes) :
    ∀ e ∈ layout done.length cs, ∃ i j, e.data = .within i j ∧ i ≤ j ∧
      j ≤ (done ++ (records cs ++ rest)).length := by
  induction cs generalizing done with
  | nil =>
    intro e none_
    cases none_
  | cons c cs ih =>
    have split : done ++ (records (c :: cs) ++ rest) =
        (done ++ record c) ++ (records cs ++ rest) := by simp [records_cons]
    have pos : done.length + 5 + c.2.length = (done ++ record c).length := by
      rw [length_append, record_length]
      omega
    intro e member
    rw [layout, pos] at member
    rw [split]
    rcases mem_cons.mp member with rfl | later
    · have longer : ((done ++ record c) ++ (records cs ++ rest)).length =
          (done ++ record c).length + (records cs ++ rest).length := length_append
      exact ⟨_, _, rfl, by omega, by omega⟩
    · exact ih (done ++ record c) e later

/-- Decoding gives back what was encoded into any buffer; encoding a decoded entry again into its
own buffer changes its last term only, in the buffer returned and for the data that lies in the old
one; and decoding any bytes returns an error or entries that lie inside them. -/
theorem append_entry_codec :
    (∀ (ae : AppendEntry) (cs : List Content) (array : Bytes), ae.entries = ownEntries cs →
      Encodable ae →
      ∃ after buf decoded, ae.encode array = .ok (after, buf) ∧
        decodeAppendEntry buf = .ok decoded ∧ decoded = { ae with entries := decoded.entries } ∧
        decoded.contents buf = cs) ∧
    (∀ (msg spare : Bytes) (ae : AppendEntry) (lterm : UInt64), decodeAppendEntry msg = .ok ae →
      (∀ e ∈ ae.entries, e.data.length ≤ maxInt32) →
      ∃ after buf, ({ ae with lterm := lterm } : AppendEntry).encode (msg ++ spare) =
          .ok (after, buf) ∧
        decodeAppendEntry buf = .ok { ae with lterm := lterm } ∧
        ae.contents buf = ae.contents msg ∧ ae.contents after = ae.contents msg) ∧
    ∀ msg : Bytes, decodeAppendEntry msg = .error (.fail .badAppendEntry) ∨
      ∃ ae, decodeAppendEntry msg = .ok ae ∧
        ∀ e ∈ ae.entries, ∃ i j, e.data = .within i j ∧ i ≤ j ∧ j ≤ msg.length := by
  refine ⟨?_, ?_, ?_⟩
  · intro ae cs array own encodable
    have reads : ∀ source, List.Forall₂ (Reads source) ae.entries cs :=
      fun source => own ▸ reads_own source cs
    have same : ae.entries.length = cs.length := by rw [own, ownEntries, length_map]
    have fits : Fits cs := by
      intro c inside
      have := encodable.small ⟨c.1, .own c.2⟩ (own ▸ mem_map.mpr ⟨c, inside, rfl⟩)
      have : maxInt32 + 1 < 256 ^ 4 := by decide
      simp only [Data.length] at *
      omega
    obtain ⟨after, written⟩ := encode_own encodable reads array
    refine ⟨after, _, _, written,
      decode_message encodable.leader (same ▸ encodable.count) same fits, rfl, ?_⟩
    have size := head_length encodable.leader ae.entries.length
    rw [AppendEntry.contents, message, ← size]
    exact contents_layout _ cs _
  · intro msg spare ae lterm accepted small
    obtain ⟨cs, rest, split, places, fits, few, leader⟩ := decode_inv accepted
    have same : ae.entries.length = cs.length := by rw [places, layout_length]
    have size := head_length leader ae.entries.length
    have encodable : Encodable { ae with lterm := lterm } := ⟨leader, same ▸ few, small⟩
    have whole : msg ++ spare = head ae ae.entries.length ++ (records cs ++ (rest ++ spare)) := by
      rw [split]
      simp
    obtain ⟨rest', written⟩ := encode_again encodable places whole
    have read : ∀ right, ae.contents (head ae ae.entries.length ++ (records cs ++ right)) = cs := by
      intro right
      have placed : ∀ array, ae.contents array =
          (layout appendEntryBaseLen cs).map (fun e => (e.type, e.data.read array)) :=
        fun array => by rw [AppendEntry.contents, places]
      rw [placed, ← size]
      exact contents_layout _ cs right
    have original : ae.contents msg = cs := by
      rw [split]
      exact read rest
    refine ⟨_, _, written, ?_, ?_, ?_⟩
    · have decoded := @decode_message { ae with lterm := lterm } cs leader few same fits
      rw [decoded, ← places]
    · rw [original]
      exact read _
    · rw [original]
      exact read _
  · intro msg
    rcases decodeAppendEntry_returns msg with failed | ⟨ae, accepted⟩
    · exact .inl failed
    refine .inr ⟨ae, accepted, ?_⟩
    obtain ⟨cs, rest, split, places, _, _, leader⟩ := decode_inv accepted
    have size := head_length leader ae.entries.length
    rw [places, ← size, split]
    exact layout_inside _ cs rest

def twoEntries : List Content := [(0, [13, 10, 0]), (7, [])]

def sampleEntry : AppendEntry :=
  ⟨[65, 66, 67, 68, 69, 70, 71, 72], 3, 4, 2, 9, ownEntries twoEntries, 300⟩

/-- Two entries, one without data, encoded into a small buffer. -/
theorem append_entry_codec_sample :
    Encodable sampleEntry ∧
      ∃ after buf decoded, sampleEntry.encode [1, 2, 3] = .ok (after, buf) ∧
        decodeAppendEntry buf = .ok decoded ∧
        decoded = { sampleEntry with entries := decoded.entries } ∧
        decoded.contents buf = twoEntries :=
  have encodable : Encodable sampleEntry := ⟨by decide, by decide, by decide⟩
  ⟨encodable, append_entry_codec.1 sampleEntry twoEntries [1, 2, 3] rfl encodable⟩

end LinearNats.Raft.Wire
