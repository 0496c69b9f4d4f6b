import LinearNats.Avl.SequenceSet
import LinearNats.Store.Runs

/-! Applying another replica's deletions. A range is given by its first sequence and a number, whose
sum may pass the last sequence that there is. -/
namespace LinearNats.Store
open Server List MemStore

/-- The three forms in which deleted sequences arrive. -/
inductive DeleteBlock where
  | sequenceSet (seqs : Finset Nat)
  | deleteRange (first num : UInt64)
  | deleteSlice (seqs : List Nat)

namespace DeleteBlock

def state : DeleteBlock → Nat × Nat × Nat
  | .sequenceSet seqs =>
    if h : seqs.Nonempty then (seqs.min' h, seqs.max' h, seqs.card) else (0, 0, 0)
  | .deleteRange first num =>
    (first.toNat, (first + if 0 < num then num - 1 else num).toNat, num.toNat)
  | .deleteSlice [] => (0, 0, 0)
  | .deleteSlice (seq :: rest) => (seq, (seq :: rest).getLast (by simp), rest.length + 1)

/-- The sequences that `Range` goes through; for a range up to the 64-bit sum. -/
def range : DeleteBlock → List Nat
  | .sequenceSet seqs => seqs.sort (· ≤ ·)
  | .deleteRange first num => List.range' first.toNat ((first + num).toNat - first.toNat)
  | .deleteSlice seqs => seqs

/-- The sequences that a block stands for. -/
def contents : DeleteBlock → List Nat
  | .deleteRange first num => List.range' first.toNat num.toNat
  | db => db.range

/-- The end of a range, which is not a part of it, is not a 64-bit number. -/
def Wraps : DeleteBlock → Prop
  | .deleteRange first num => 2 ^ 64 ≤ first.toNat + num.toNat
  | _ => False

/-- A slice has its sequences in increasing order, as the other two forms do. -/
def Increasing (db : DeleteBlock) : Prop := db.contents.Pairwise (· < ·)

theorem range_of_not_wraps {db : DeleteBlock} (fits : ¬ db.Wraps) : db.range = db.contents := by
  cases db with
  | sequenceSet seqs => rfl
  | deleteSlice seqs => rfl
  | deleteRange first num =>
    rw [Wraps, not_le] at fits
    rw [range, contents, UInt64.toNat_add, Nat.mod_eq_of_lt fits, Nat.add_sub_cancel_left]

theorem range_of_wraps {db : DeleteBlock} (wraps : db.Wraps) : db.range = [] := by
  cases db with
  | sequenceSet seqs => exact wraps.elim
  | deleteSlice seqs => exact wraps.elim
  | deleteRange first num =>
    have := first.toNat_lt
    have := num.toNat_lt
    rw [Wraps] at wraps
    rw [range, UInt64.toNat_add, Nat.sub_eq_zero_of_le (by omega), range'_zero]

theorem state_first_le {db : DeleteBlock} (increasing : db.Increasing) {seq : Nat}
    (inside : seq ∈ db.contents) : db.state.1 ≤ seq := by
  cases db with
  | sequenceSet seqs =>
    have member : seq ∈ seqs := by simpa [contents, range] using inside
    rw [state, dif_pos ⟨seq, member⟩]
    exact seqs.min'_le seq member
  | deleteRange first num =>
    exact (mem_range'_1.mp inside).1
  | deleteSlice seqs =>
    cases seqs with
    | nil => cases inside
    | cons first rest =>
      rcases mem_cons.mp inside with rfl | later
      · exact le_refl _
      · exact le_of_lt ((pairwise_cons.mp increasing).1 seq later)

end DeleteBlock

namespace MemStore

def removeAll (ms : MemStore) (seqs : List Nat) : MemStore :=
  seqs.foldl (fun ms seq => (ms.removeMsg seq).1) ms

def syncBlock (lseq : Nat) (ms : MemStore) (db : DeleteBlock) : MemStore :=
  if lseq < db.state.1 then ms else ms.removeAll db.range

/-- `dmap` is the sequence set in which the store has its deleted sequences. -/
def syncDeleted (ms : MemStore) (dmap : Avl.SequenceSet) (dbs : List DeleteBlock) : MemStore :=
  match dbs with
  | [] => ms
  | [db] => if db.state = dmap.state then ms else syncBlock ms.lastSeq ms db
  | dbs => dbs.foldl (syncBlock ms.lastSeq) ms

end MemStore

section Sync

variable {ms : MemStore}

theorem mem_removeAll {seqs : List Nat} {sm : StoreMsg} :
    sm ∈ (ms.removeAll seqs).msgs ↔ sm ∈ ms.msgs ∧ sm.seq ∉ seqs := by
  induction seqs generalizing ms with
  | nil => simp [MemStore.removeAll]
  | cons seq rest ih =>
    change sm ∈ ((ms.removeMsg seq).1.removeAll rest).msgs ↔ _
    rw [ih, Consistent.removeMsg_msgs, mem_delete, mem_cons, not_or, and_assoc]

theorem mem_syncBlock {lseq : Nat} {db : DeleteBlock} (increasing : db.Increasing)
    (high : ∀ sm ∈ ms.msgs, sm.seq ≤ lseq) {sm : StoreMsg} :
    sm ∈ (syncBlock lseq ms db).msgs ↔ sm ∈ ms.msgs ∧ sm.seq ∉ db.range := by
  rw [syncBlock]
  split
  next past =>
    refine ⟨fun inside => ⟨inside, fun there => ?_⟩, And.left⟩
    by_cases wraps : db.Wraps
    · rw [DeleteBlock.range_of_wraps wraps] at there
      cases there
    rw [DeleteBlock.range_of_not_wraps wraps] at there
    have := DeleteBlock.state_first_le increasing there
    have := high sm inside
    omega
  · exact mem_removeAll

theorem mem_syncBlocks {lseq : Nat} {dbs : List DeleteBlock}
    (increasing : ∀ db ∈ dbs, db.Increasing) (high : ∀ sm ∈ ms.msgs, sm.seq ≤ lseq)
    {sm : StoreMsg} :
    sm ∈ (dbs.foldl (syncBlock lseq) ms).msgs ↔
      sm ∈ ms.msgs ∧ ∀ db ∈ dbs, sm.seq ∉ db.range := by
  induction dbs generalizing ms with
  | nil => simp
  | cons db rest ih =>
    have here := increasing db mem_cons_self
    have step : ∀ sm, sm ∈ (syncBlock lseq ms db).msgs ↔
        sm ∈ ms.msgs ∧ sm.seq ∉ db.range := fun sm => mem_syncBlock here high
    rw [foldl_cons, ih (fun other there => increasing other (mem_cons_of_mem _ there))
      (fun sm inside => high sm ((step sm).mp inside).1), step, forall_mem_cons, and_assoc]

/-- Exactly the sequences of the blocks are gone. -/
def Synced (ms : MemStore) (dmap : Avl.SequenceSet) (dbs : List DeleteBlock) : Prop :=
  ∀ sm, sm ∈ (ms.syncDeleted dmap dbs).msgs ↔ sm ∈ ms.msgs ∧ ∀ db ∈ dbs, sm.seq ∉ db.contents

/-- A single block with the same least and greatest sequence and the same number as the deleted
sequences of the store has none that is stored; and a stored sequence of a range that wraps is also
in a block that does not. -/
structure Tells (ms : MemStore) (dmap : Avl.SequenceSet) (dbs : List DeleteBlock) : Prop where
  summary : ∀ db, dbs = [db] → db.state = dmap.state →
    ∀ seq ∈ db.contents, stored ms.msgs seq = false
  ranges : ∀ db ∈ dbs, db.Wraps → ∀ seq ∈ db.contents, stored ms.msgs seq = true →
    ∃ other ∈ dbs, ¬ other.Wraps ∧ seq ∈ other.contents

theorem Tells.of_summary {dmap : Avl.SequenceSet} {db : DeleteBlock}
    (absent : ∀ seq ∈ db.contents, stored ms.msgs seq = false) : Tells ms dmap [db] where
  summary other single _ := by
    cases single
    exact absent
  ranges other inside _ seq member there := by
    rw [mem_singleton.mp inside] at member
    rw [absent seq member] at there
    cases there

/-- The blocks without the sequences that `Range` does not reach. -/
theorem synced_iff_ranges {dmap : Avl.SequenceSet} {dbs : List DeleteBlock}
    (applied : ∀ sm, sm ∈ (ms.syncDeleted dmap dbs).msgs ↔
      sm ∈ ms.msgs ∧ ∀ db ∈ dbs, sm.seq ∉ db.range) :
    Synced ms dmap dbs ↔ ∀ db ∈ dbs, db.Wraps → ∀ seq ∈ db.contents,
      stored ms.msgs seq = true → ∃ other ∈ dbs, ¬ other.Wraps ∧ seq ∈ other.contents := by
  constructor
  · intro synced db inside _ seq member there
    obtain ⟨sm, kept, rfl⟩ := stored_iff.mp there
    by_contra none_
    have left := (applied sm).mpr ⟨kept, fun other there' hit => ?_⟩
    · exact ((synced sm).mp left).2 db inside member
    by_cases wraps : other.Wraps
    · rw [DeleteBlock.range_of_wraps wraps] at hit
      cases hit
    · rw [DeleteBlock.range_of_not_wraps wraps] at hit
      exact none_ ⟨other, there', wraps, hit⟩
  · intro reached sm
    rw [applied]
    refine and_congr_right (fun kept => ⟨fun missed db inside member => ?_, fun missed db inside hit => ?_⟩)
    · by_cases wraps : db.Wraps
      · obtain ⟨other, there, fits, hit⟩ :=
          reached db inside wraps sm.seq member (stored_iff.mpr ⟨sm, kept, rfl⟩)
        exact missed other there (DeleteBlock.range_of_not_wraps fits ▸ hit)
      · exact missed db inside (DeleteBlock.range_of_not_wraps wraps ▸ member)
    · by_cases wraps : db.Wraps
      · rw [DeleteBlock.range_of_wraps wraps] at hit
        cases hit
      · exact missed db inside (DeleteBlock.range_of_not_wraps wraps ▸ hit)

end Sync

def evensRemoved : List Op :=
  (List.range 7).map (fun n => .storeMsg (ascii "a") [] [] n) ++
    [.removeMsg 2, .removeMsg 4, .removeMsg 6]

def evens : Avl.SequenceSet :=
  run Avl.SequenceSet.step .empty [.insert 2, .insert 4, .insert 6]

end LinearNats.Store
