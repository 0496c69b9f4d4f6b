import Mathlib.Data.List.Perm.Basic
import LinearNats.LittleEndian
import LinearNats.Store.WheelRuns

/-! Snapshots of the hash wheel. `Decode` clears the slots and the lowest time of the wheel it
fills, but not the count, and it takes a number that the bytes end in for a zero. -/
namespace LinearNats.Thw
open LittleEndian

/-- The bytes end before the last byte of a varint. -/
def Short (buf : List UInt8) : Prop := buf.length ≤ 10 ∧ ∀ b ∈ buf, 128 ≤ b.toNat

instance (buf : List UInt8) : Decidable (Short buf) :=
  inferInstanceAs (Decidable (buf.length ≤ 10 ∧ ∀ b ∈ buf, 128 ≤ b.toNat))

/-- `binary.Uvarint`: the value and the number of its bytes, which is zero if the buffer is too
small. Of the negative number for a value that is too large only the sign is kept. -/
def uvarintN (buf : List UInt8) : Nat × Int :=
  match uvarint buf with
  | some (n, used) => (n, used)
  | none => (0, if Short buf then 0 else -1)

def varintN (buf : List UInt8) : Int × Int :=
  ((unzigzag (uvarintN buf).1).toInt, (uvarintN buf).2)

inductive DecodeError where
  | shortBuffer
  | invalidVersion
  | unexpectedEOF
  deriving DecidableEq

def headerLen : Nat := 17

/-- The bytes of an entry: the time and then the sequence. -/
def entryBytes (e : Nat × Int) : List UInt8 := putVarint (Int64.ofInt e.2) ++ putUvarint 10 e.1

def header (count stamp : Nat) : List UInt8 := [1] ++ (putUint 8 count ++ putUint 8 stamp)

namespace Wheel

/-- The slots that are not nil, in the order of a loop over the wheel. -/
def occupied (hw : Wheel) : List (Nat × Slot) :=
  (List.range wheelSize).filterMap (fun pos => (Table.get hw.wheel pos).map (fun s => (pos, s)))

/-- The entries in the order in which `Encode` meets them. -/
def visited (hw : Wheel) (order : Order) : List (Nat × Int) :=
  hw.occupied.flatMap (fun p => order.visit p.2.entries)

def encode (hw : Wheel) (order : Order) (highSeq : Nat) : List UInt8 :=
  header hw.count highSeq ++ (hw.visited order).flatMap entryBytes

def addAll (hw : Wheel) (es : List (Nat × Int)) : Wheel :=
  es.foldl (fun hw e => hw.add e.1 e.2) hw

/-- The loop of `Decode` over the entries still to be read. -/
def decodeFrom (stamp : Nat) : Nat → List UInt8 → Wheel → Wheel × Except DecodeError Nat
  | 0, _, hw => (hw, .ok stamp)
  | count + 1, b, hw =>
    let (ts, tn) := varintN b
    if tn < 0 then (hw, .error .unexpectedEOF)
    else
      let (v, vn) := uvarintN (b.drop tn.toNat)
      if vn < 0 then (hw, .error .unexpectedEOF)
      else decodeFrom stamp count (b.drop (tn + vn).toNat) (hw.add v ts)

def decode (hw : Wheel) (b : List UInt8) : Wheel × Except DecodeError Nat :=
  if b.length < headerLen then (hw, .error .shortBuffer)
  else if b.head? ≠ some 1 then (hw, .error .invalidVersion)
  else
    decodeFrom (getUint (slice b 9 17)) (getUint (slice b 1 9)) (b.drop headerLen)
      ⟨newHashWheel, hw.count⟩

end Wheel

/-! Numbers that are complete and numbers that are cut off. -/

variable {buf : List UInt8} {n : Nat}

theorem uvarintN_put (fits : n < 2 ^ 64) (rest : List UInt8) :
    uvarintN (putUvarint 10 n ++ rest) = (n, ((putUvarint 10 n).length : Int)) := by
  rw [uvarintN, uvarint_putUvarint fits]

/-- The sequence is a uint64 and the time an int64. -/
def Typed (e : Nat × Int) : Prop := e.1 < 2 ^ 64 ∧ -2 ^ 63 ≤ e.2 ∧ e.2 < 2 ^ 63

instance (e : Nat × Int) : Decidable (Typed e) :=
  inferInstanceAs (Decidable (e.1 < 2 ^ 64 ∧ -2 ^ 63 ≤ e.2 ∧ e.2 < 2 ^ 63))

theorem varintN_put {e : Nat × Int} (typed : Typed e) (rest : List UInt8) :
    varintN (putVarint (Int64.ofInt e.2) ++ rest) =
      (e.2, ((putVarint (Int64.ofInt e.2)).length : Int)) := by
  have back : (Int64.ofInt e.2).toInt = e.2 := Int64.toInt_ofInt_of_le typed.2.1 typed.2.2
  rw [varintN, putVarint, uvarintN_put (zigzag_lt _), unzigzag_zigzag, back]

namespace Wheel

/-! The loop over the entries. -/

variable {e : Nat × Int} {es : List (Nat × Int)} {seq : Nat} {expires : Int}

theorem decodeFrom_entry (typed : Typed e) (stamp count : Nat) (rest : List UInt8) (hw : Wheel) :
    decodeFrom stamp (count + 1) (entryBytes e ++ rest) hw =
      decodeFrom stamp count rest (hw.add e.1 e.2) := by
  have both : ∀ a b : List UInt8, ((a.length : Int) + b.length).toNat = (a ++ b).length := by
    intro a b
    rw [List.length_append]
    omega
  rw [decodeFrom, entryBytes, List.append_assoc, varintN_put typed]
  simp only [Int.toNat_natCast, List.drop_left, uvarintN_put typed.1]
  rw [if_neg (by omega), if_neg (by omega), both, ← List.append_assoc, List.drop_left]

theorem decodeFrom_all (typed : ∀ e ∈ es, Typed e) (stamp : Nat) (rest : List UInt8) (hw : Wheel) :
    decodeFrom stamp es.length (es.flatMap entryBytes ++ rest) hw =
      (hw.addAll es, .ok stamp) := by
  induction es generalizing hw with
  | nil => rfl
  | cons e es ih =>
    rw [List.flatMap_cons, List.append_assoc, List.length_cons,
      decodeFrom_entry (typed e List.mem_cons_self),
      ih (fun e' member => typed e' (List.mem_cons_of_mem e member))]
    rfl

theorem header_length (count stamp : Nat) : (header count stamp).length = headerLen := by
  simp [header, headerLen]

theorem decode_header {count stamp : Nat} (fits : count < 2 ^ 64) (word : stamp < 2 ^ 64)
    (body : List UInt8) (hw : Wheel) :
    hw.decode (header count stamp ++ body) =
      decodeFrom stamp count body ⟨newHashWheel, hw.count⟩ := by
  have long : ¬ (header count stamp ++ body).length < headerLen := by
    rw [List.length_append, header_length]
    omega
  have first : slice (header count stamp ++ body) 1 9 = putUint 8 count := by
    rw [header, List.append_assoc, List.append_assoc]
    exact slice_middle rfl (by simp)
  have second : slice (header count stamp ++ body) 9 17 = putUint 8 stamp := by
    rw [header, ← List.append_assoc, List.append_assoc]
    exact slice_middle (by simp) (by simp)
  have rest : (header count stamp ++ body).drop headerLen = body := by
    rw [← header_length count stamp, List.drop_left]
  rw [decode, if_neg long, first, second, rest, getUint_putUint_of_lt word,
    getUint_putUint_of_lt fits, if_neg (by simp [header])]

/-! The entries of a wheel. -/

variable {hw : Wheel} {order : Order}

theorem occupied_perm (sound : hw.Sound) : hw.occupied.Perm hw.wheel := by
  have once : hw.occupied.Nodup := by
    refine List.Nodup.filterMap ?_ List.nodup_range
    intro pos pos' p here there
    obtain ⟨s, _, rfl⟩ := Option.map_eq_some_iff.mp here
    obtain ⟨s', _, same⟩ := Option.map_eq_some_iff.mp there
    exact (congrArg Prod.fst same).symm
  refine (List.perm_ext_iff_of_nodup once (List.Nodup.of_map Prod.fst sound.keys)).mpr (fun p => ?_)
  simp only [occupied, List.mem_filterMap, List.mem_range, Option.map_eq_some_iff]
  constructor
  · rintro ⟨pos, _, s, found, rfl⟩
    exact Table.mem_of_get found
  · intro member
    exact ⟨p.1, (sound.slots p member).1, p.2, get_of_key sound.keys member, rfl⟩

theorem visited_perm (sound : hw.Sound) (order : Order) :
    (hw.visited order).Perm (hw.stored.map Prod.snd) := by
  have entries : hw.stored.map Prod.snd = hw.wheel.flatMap (fun p => p.2.entries) := by
    rw [stored, List.map_flatMap]
    simp [Function.comp_def]
  rw [entries]
  exact (occupied_perm sound).flatMap (fun p _ => order.perm p.2.entries)

theorem mem_stored {pos : Nat} {s : Slot} (there : (pos, s) ∈ hw.wheel) (inside : e ∈ s.entries) :
    (pos, e) ∈ hw.stored :=
  List.mem_flatMap.mpr ⟨_, there, List.mem_map.mpr ⟨e, inside, rfl⟩⟩

/-- The slot and the sequence of an entry, which no other entry has. -/
def key (x : Nat × Nat × Int) : Nat × Nat := (x.1, x.2.1)

theorem keys_stored (sound : hw.Sound) : (hw.stored.map key).Nodup := by
  rw [stored, List.map_flatMap, List.nodup_flatMap]
  constructor
  · intro p member
    rw [List.map_map]
    refine (List.Nodup.of_map Prod.snd ?_)
    rw [List.map_map]
    exact (sound.slots p member).2.keys
  · refine (List.pairwise_map.mp sound.keys).imp (fun {p p'} apart => ?_)
    intro x here there
    obtain ⟨_, inside, rfl⟩ := List.mem_map.mp here
    obtain ⟨_, inside', same⟩ := List.mem_map.mp there
    obtain ⟨e, _, rfl⟩ := List.mem_map.mp inside
    obtain ⟨e', _, rfl⟩ := List.mem_map.mp inside'
    exact apart (congrArg Prod.fst same).symm

/-- An entry where it belongs. -/
def placedAt (e : Nat × Int) : Nat × Nat × Int := (getPosition e.2, e)

theorem stored_add (hw : Wheel) (seq : Nat) (expires : Int) :
    (hw.add seq expires).stored =
      (Table.set ((Table.get hw.wheel (getPosition expires)).getD newSlot).entries seq expires).map
          (fun e => (getPosition expires, e)) ++
        (⟨⟨Table.erase hw.wheel (getPosition expires), hw.lowest⟩, hw.count⟩ : Wheel).stored := by
  obtain ⟨low, low', _, _, _, _, same⟩ := add_eq hw seq expires
  exact congrArg (fun w : HashWheel => (⟨w, hw.count⟩ : Wheel).stored) same

theorem add_stored (inv : hw.Inv) (fresh : key (placedAt e) ∉ hw.stored.map key) :
    (hw.add e.1 e.2).stored.Perm (placedAt e :: hw.stored) := by
  rw [stored_add]
  cases found : Table.get hw.wheel (getPosition e.2) with
  | none =>
    rw [Table.erase_of_none found]
    exact .refl _
  | some s =>
    have absent : Table.get s.entries e.1 = none := by
      by_contra there
      obtain ⟨old, there⟩ := Option.ne_none_iff_exists'.mp there
      exact fresh (List.mem_map.mpr ⟨(getPosition e.2, e.1, old),
        mem_stored (Table.mem_of_get found) (Table.mem_of_get there), rfl⟩)
    simp only [Option.getD_some, Table.set, Table.erase_of_none absent, List.map_cons,
      List.cons_append]
    exact ((stored_split inv.keys found hw.lowest hw.count).symm).cons _

theorem addAll_stored (inv : hw.Inv) (keys : ((es.map placedAt ++ hw.stored).map key).Nodup) :
    (hw.addAll es).Inv ∧
      (hw.addAll es).stored.Perm (es.map placedAt ++ hw.stored) := by
  induction es generalizing hw with
  | nil => exact ⟨inv, .refl _⟩
  | cons e es ih =>
    simp only [List.map_cons, List.cons_append] at keys
    have fresh := (List.nodup_cons.mp keys).1
    have added := add_stored inv (e := e)
      (fun there => fresh (by rw [List.map_append]; exact List.mem_append_right _ there))
    have moved : (es.map placedAt ++ (hw.add e.1 e.2).stored).Perm
        (placedAt e :: (es.map placedAt ++ hw.stored)) :=
      (added.append_left _).trans List.perm_middle
    obtain ⟨inv', perm⟩ := ih (add_inv inv e.1 e.2) ((moved.map key).nodup_iff.mpr keys)
    exact ⟨inv', perm.trans moved⟩

/-- The count plays no part in what is added. -/
theorem addAll_count (es : List (Nat × Int)) (w : HashWheel) (old count : Nat) :
    (⟨w, old + count⟩ : Wheel).addAll es =
      ⟨((⟨w, count⟩ : Wheel).addAll es).toHashWheel,
        old + ((⟨w, count⟩ : Wheel).addAll es).count⟩ := by
  induction es generalizing w count with
  | nil => rfl
  | cons e es ih =>
    have one : (⟨w, old + count⟩ : Wheel).add e.1 e.2 =
        ⟨w.add e.1 e.2, old + ((⟨w, count⟩ : Wheel).add e.1 e.2).count⟩ := by
      simp only [add]
      split <;> rfl
    rw [addAll, List.foldl_cons, one]
    exact ih _ _

/-- Every entry is in the slot of its time. -/
structure Placed (hw : Wheel) : Prop extends hw.Inv where
  typed : ∀ x ∈ hw.stored, x = placedAt x.2 ∧ Typed x.2

theorem Placed.visited_typed (placed : hw.Placed) (order : Order) : ∀ e ∈ hw.visited order, Typed e := by
  intro e member
  obtain ⟨x, there, rfl⟩ := List.mem_map.mp ((visited_perm placed.toSound order).subset member)
  exact (placed.typed x there).2

theorem Placed.visited_length (placed : hw.Placed) (order : Order) : (hw.visited order).length = hw.count := by
  rw [(visited_perm placed.toSound order).length_eq, List.length_map, placed.count]

theorem Placed.visited_placed (placed : hw.Placed) :
    ((hw.visited order).map placedAt).Perm hw.stored := by
  have same : (hw.stored.map Prod.snd).map placedAt = hw.stored := by
    rw [List.map_map]
    exact (List.map_congr_left (fun x member => (placed.typed x member).1.symm)).trans (List.map_id _)
  have moved := (visited_perm placed.toSound order).map placedAt
  rwa [same] at moved

/-- A wheel as `Decode` fills it: the entries of the other wheel, and a count that is too high by
what was counted before. -/
theorem Placed.refilled (placed : hw.Placed) (order : Order) (old : Nat) :
    ∃ w : Wheel, w.Inv ∧ w.stored.Perm hw.stored ∧ w.count = hw.count ∧
      (⟨newHashWheel, old⟩ : Wheel).addAll (hw.visited order) = ⟨w.toHashWheel, old + hw.count⟩ := by
  have keys : (((hw.visited order).map placedAt ++ new.stored).map key).Nodup := by
    rw [show new.stored = [] from rfl, List.append_nil,
      (placed.visited_placed.map key).nodup_iff]
    exact keys_stored placed.toSound
  obtain ⟨inv, perm⟩ := addAll_stored new_inv keys
  have same := perm.trans (.trans (.of_eq (List.append_nil _)) placed.visited_placed)
  have count := inv.count.trans (same.length_eq.trans placed.count.symm)
  refine ⟨_, inv, same, count, ?_⟩
  rw [← count]
  exact addAll_count (hw.visited order) newHashWheel old 0

theorem decode_encode (placed : hw.Placed) (fits : hw.count < 2 ^ 64) (order : Order)
    {highSeq : Nat} (word : highSeq < 2 ^ 64) (t : Wheel) :
    t.decode (hw.encode order highSeq) =
      ((⟨newHashWheel, t.count⟩ : Wheel).addAll (hw.visited order), .ok highSeq) := by
  have read := decodeFrom_all (placed.visited_typed order) highSeq [] ⟨newHashWheel, t.count⟩
  rwa [List.append_nil, placed.visited_length, ← decode_header fits word] at read

/-! Operations keep every entry in its slot. -/

theorem mem_add {x : Nat × Nat × Int} (member : x ∈ (hw.add seq expires).stored) :
    x = placedAt (seq, expires) ∨ x ∈ hw.stored := by
  rw [stored_add, List.mem_append] at member
  rcases member with here | elsewhere
  · obtain ⟨e, inside, rfl⟩ := List.mem_map.mp here
    rcases List.mem_cons.mp inside with rfl | old
    · exact .inl rfl
    · have old := (List.mem_filter.mp old).1
      cases found : Table.get hw.wheel (getPosition expires) with
      | none => simp [found, newSlot] at old
      | some s =>
        rw [found] at old
        exact .inr (mem_stored (Table.mem_of_get found) old)
  · obtain ⟨s, there, inside⟩ := position_of_stored elsewhere
    exact .inr (mem_stored (List.mem_filter.mp there).1 inside)

theorem mem_remove {hw' : Wheel} {x : Nat × Nat × Int} (removed : hw.remove seq expires = some hw')
    (member : x ∈ hw'.stored) : x ∈ hw.stored := by
  obtain ⟨s, e, found, there, rfl⟩ := remove_eq removed
  rw [put_stored, List.mem_append] at member
  rcases member with here | elsewhere
  · obtain ⟨old, inside, rfl⟩ := List.mem_map.mp here
    exact mem_stored (Table.mem_of_get found) (List.mem_filter.mp inside).1
  · obtain ⟨s', there, inside⟩ := position_of_stored elsewhere
    exact mem_stored (List.mem_filter.mp there).1 inside

theorem Placed.add (placed : hw.Placed) (typed : Typed (seq, expires)) :
    (hw.add seq expires).Placed := by
  refine ⟨add_inv placed.toInv seq expires, fun x member => ?_⟩
  rcases mem_add member with rfl | old
  · exact ⟨rfl, typed⟩
  · exact placed.typed x old

theorem Placed.remove (placed : hw.Placed) {hw' : Wheel}
    (removed : hw.remove seq expires = some hw') : hw'.Placed :=
  ⟨remove_inv placed.toInv removed, fun x member => placed.typed x (mem_remove removed member)⟩

/-- The arguments of an operation that are stored are a uint64 and an int64. -/
def Op.Typed : Op → Prop
  | .add seq expires => Thw.Typed (seq, expires)
  | .update seq _ newExpires => Thw.Typed (seq, newExpires)
  | _ => True

instance (op : Op) : Decidable op.Typed :=
  match op with
  | .add seq expires => inferInstanceAs (Decidable (Thw.Typed (seq, expires)))
  | .update seq _ newExpires => inferInstanceAs (Decidable (Thw.Typed (seq, newExpires)))
  | .remove .. | .expireTasks .. => .isTrue trivial

theorem step_placed (hw : Wheel) (op : Op) (placed : hw.Placed) (typed : op.Typed) :
    (hw.step op).Placed := by
  cases op with
  | add seq expires => exact placed.add typed
  | remove seq expires =>
    cases removed : hw.remove seq expires with
    | none => simpa [step, removed] using placed
    | some hw' => simpa [step, removed] using placed.remove removed
  | update seq oldExpires newExpires =>
    cases removed : hw.remove seq oldExpires with
    | none => simpa [step, update, removed] using placed
    | some hw' => simpa [step, update, removed] using (placed.remove removed).add typed
  | expireTasks order ts callback =>
    obtain ⟨inv, _, left⟩ := expireTasks_exact placed.toInv order ts callback
    exact ⟨inv, fun x member => placed.typed x (List.mem_filter.mp (left.subset member)).1⟩

theorem run_placed {ops : List Op} (typed : ∀ op ∈ ops, op.Typed) : (run step new ops).Placed :=
  along_invariant step (fun _ op => op.Typed) Placed step_placed
    ⟨new_inv, by simp [new, newHashWheel, stored]⟩ ops (along_of_forall step Op.Typed typed)

/-- The wheel `t` is what the wheel `w` was. -/
structure Restores (order : Order) (highSeq : Nat) (w t : Wheel) : Prop where
  returns : (t.decode (w.encode order highSeq)).2 = .ok highSeq
  entries : (t.decode (w.encode order highSeq)).1.stored.Perm w.stored
  count : (t.decode (w.encode order highSeq)).1.count = w.count
  lowest : ∀ x ∈ (t.decode (w.encode order highSeq)).1.stored,
    (t.decode (w.encode order highSeq)).1.lowest ≤ x.2.2
  slotLowest : ∀ p ∈ (t.decode (w.encode order highSeq)).1.wheel, ∀ e ∈ p.2.entries,
    p.2.lowest ≤ e.2

/-- A snapshot of any wheel that operations reach is restored into `t` exactly if `t` has counted
nothing before: all but the count is restored in any case. -/
theorem restores_iff_fresh {ops : List Op} (typed : ∀ op ∈ ops, op.Typed)
    (fits : (run step new ops).count < 2 ^ 64) (order : Order) {highSeq : Nat}
    (word : highSeq < 2 ^ 64) (t : Wheel) :
    Restores order highSeq (run step new ops) t ↔ t.count = 0 := by
  have placed := run_placed typed
  generalize run step new ops = hw at placed fits
  have decoded := decode_encode placed fits order word t
  obtain ⟨w, inv, perm, _, filled⟩ := placed.refilled order t.count
  rw [filled] at decoded
  constructor
  · intro restores
    have count := restores.count
    rw [decoded] at count
    simp only at count
    omega
  · intro fresh
    constructor <;> rw [decoded]
    · exact perm
    · exact fresh.symm ▸ Nat.zero_add _
    · exact fun x member => inv.lowest_le member
    · exact fun p member => (inv.slots p member).2.lowest

theorem restores_iff_fresh_negative :
    Restores ⟨id, fun _ => .refl _⟩ 9 (run step new [.add 7 (-5), .update 7 (-5) 6000000000]) new :=
  (restores_iff_fresh (by decide) (by decide) _ (by decide) new).mpr rfl

/-- A wheel with one entry that takes in an empty snapshot still counts one. -/
theorem decode_keeps_count :
    ((new.add 1 5).decode (new.encode ⟨id, fun _ => .refl _⟩ 0)).1.stored = [] ∧
      ((new.add 1 5).decode (new.encode ⟨id, fun _ => .refl _⟩ 0)).1.count = 1 := by
  decide +kernel

end Wheel

end LinearNats.Thw
