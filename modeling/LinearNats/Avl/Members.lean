import LinearNats.Scan
import LinearNats.Avl.Cells

/-! The sequences that a tree holds, in ascending order: what the operations do to them, what a
callback sees of them, and the lowest and the highest. -/
namespace LinearNats.Avl
open List Option

namespace Node

/-! The members of a tree. -/

def members (cs : List (Nat × Bits)) : List Nat := cs.flatMap block

@[simp] theorem members_nil : members [] = [] := rfl

theorem members_append (xs ys : List (Nat × Bits)) : members (xs ++ ys) = members xs ++ members ys :=
  flatMap_append

theorem members_cons (c : Nat × Bits) (cs : List (Nat × Bits)) :
    members (c :: cs) = block c ++ members cs := rfl

variable {cs : List (Nat × Bits)} {x seq j : Nat} {t : Node} {bits : Bits} {b : BitVec 64}

theorem mem_members : x ∈ members cs ↔ ∃ c ∈ cs, x ∈ block c := mem_flatMap

theorem members_lt {base : Nat} (below : ∀ c ∈ cs, c.1 + numEntries ≤ base) :
    ∀ x ∈ members cs, x < base := by
  intro x member
  obtain ⟨c, there, inside⟩ := mem_members.mp member
  exact lt_of_lt_of_le (mem_block.mp inside).2.1 (below c there)

theorem le_members {bound : Nat} (above : ∀ c ∈ cs, bound ≤ c.1) : ∀ x ∈ members cs, bound ≤ x := by
  intro x member
  obtain ⟨c, there, inside⟩ := mem_members.mp member
  exact le_trans (above c there) (mem_block.mp inside).1

theorem members_sorted (strict : Strict cs) : (members cs).Pairwise (· < ·) := by
  rw [members, List.flatMap, pairwise_flatten]
  constructor
  · intro b member
    obtain ⟨c, _, rfl⟩ := mem_map.mp member
    exact block_sorted c
  · refine pairwise_map.mpr (strict.sorted.imp ?_)
    intro c d rel x inC y inD
    have apart := rel.resolve_right And.left
    have high := (mem_block.mp inC).2.1
    have low := (mem_block.mp inD).1
    omega

theorem members_nodup (strict : Strict cs) : (members cs).Nodup :=
  (members_sorted strict).imp ne_of_lt

theorem existsSeq_iff (finds : Finds seq t.cells) :
    t.existsSeq seq = true ↔ seq ∈ members t.cells := by
  induction t with
  | nil => simp [existsSeq, members]
  | node base bits l r h ihl ihr =>
    rw [cells_node] at finds ⊢
    have tail : Finds seq ([(base, bits)] ++ r.cells) := finds.right
    rw [existsSeq, members_append, members_cons, mem_append, mem_append, ← ihl finds.left,
      ← ihr tail.right]
    have inL : l.existsSeq seq = true → seq < base := by
      rw [ihl finds.left, mem_members]
      rintro ⟨c, there, inside⟩
      have high := (mem_block.mp inside).2.1
      rcases finds.before c there with nearer | above
      · exact lt_of_lt_of_le high nearer
      · exact above.2
    have inR : r.existsSeq seq = true → base + numEntries ≤ seq := by
      rw [ihr tail.right, mem_members]
      rintro ⟨c, there, inside⟩
      have low := (mem_block.mp inside).1
      rcases finds.behind c there with further | above
      · exact le_trans further low
      · exact absurd above.2 (not_lt.mpr low)
    have inC : seq ∈ block (base, bits) ↔
        base ≤ seq ∧ seq < base + numEntries ∧ bitExists base bits seq = true := mem_block
    by_cases below : seq < base
    · simp only [if_pos below, inC]
      refine ⟨.inl, ?_⟩
      rintro (left | root | right)
      · exact left
      · omega
      · have := inR right
        omega
    rw [finds.past_eq (not_lt.mp below)]
    by_cases past : base + numEntries ≤ seq
    · simp only [if_neg below, if_pos past, inC]
      refine ⟨fun right => .inr (.inr right), ?_⟩
      rintro (left | root | right)
      · exact absurd (inL left) below
      · omega
      · exact right
    simp only [if_neg below, if_neg past, inC]
    refine ⟨fun bit => .inr (.inl ⟨by omega, by omega, bit⟩), ?_⟩
    rintro (left | root | right)
    · exact absurd (inL left) below
    · exact root.2.2
    · exact absurd (inR right) past

/-! The callback. -/

variable {σ : Type}

theorem visit_append (f : σ → Nat → σ × Bool) (s : σ) (xs ys : List Nat) :
    visit f s (xs ++ ys) = match visit f s xs with
      | (s, true) => visit f s ys
      | (s, false) => (s, false) := by
  induction xs generalizing s with
  | nil => rfl
  | cons x xs ih =>
    rw [cons_append, visit, visit]
    rcases f s x with ⟨s', _ | _⟩
    · rfl
    · exact ih s'

/-- The members that a callback sees: the end of a cell's range is a 64-bit number. -/
def reported (cs : List (Nat × Bits)) : List Nat :=
  cs.flatMap (fun c => (List.range' c.1 (past c.1 - c.1)).filter (bitExists c.1 c.2))

theorem iter_eq (t : Node) (f : σ → Nat → σ × Bool) (s : σ) :
    t.iter f s = visit f s (reported t.cells) := by
  induction t generalizing s with
  | nil => rfl
  | node base bits l r h ihl ihr =>
    have split : reported (l.cells ++ (base, bits) :: r.cells) = reported l.cells ++
        ((List.range' base (past base - base)).filter (bitExists base bits) ++ reported r.cells) := by
      rw [reported, flatMap_append, flatMap_cons]
      rfl
    rw [iter, ihl, cells_node, split, visit_append]
    rcases visit f s (reported l.cells) with ⟨s', _ | _⟩
    · rfl
    simp only
    rw [visit_append]
    rcases visit f s' ((List.range' base (past base - base)).filter (bitExists base bits)) with
      ⟨s'', _ | _⟩
    · rfl
    · exact ihr s''

theorem reported_cell {c : Nat × Bits} (room : c.1 + numEntries < maxUint64) :
    (List.range' c.1 (past c.1 - c.1)).filter (bitExists c.1 c.2) = block c := by
  rw [past_eq room, Nat.add_sub_cancel_left, block]

theorem reported_strict (strict : Strict cs) : reported cs = members cs :=
  flatMap_congr (fun c member => reported_cell ((strict.room c member).resolve_right id))

/-! What the operations do to the members. -/

theorem bitExists_zero (base seq : Nat) : bitExists base Bits.zero seq = false := by
  rw [bitExists_eq, bucket_eq_zero (fun b member => by simpa [Bits.zero] using member)]
  simp

theorem members_cellAt (base : Nat) (bits : Option Bits) :
    members (cellAt base bits) = bits.elim [] (fun bits => block (base, bits)) := by
  cases bits with
  | none => rfl
  | some bits => simp [cellAt, members]

variable {base : Nat} {old new : Option Bits} {before after : List (Nat × Bits)}

section

variable (replaces : Replaces base old new before after)

include replaces

theorem Replaces.members :
    ∃ xs ys, Node.members before = xs ++ (Node.members (cellAt base old) ++ ys) ∧
      Node.members after = xs ++ (Node.members (cellAt base new) ++ ys) ∧
      (∀ x ∈ xs, x < base) ∧ ∀ y ∈ ys, base + numEntries ≤ y := by
  obtain ⟨xs, ys, rfl, rfl, below, above⟩ := replaces
  refine ⟨Node.members xs, Node.members ys, ?_, ?_, members_lt below, le_members above⟩
  · rw [members_append, members_append]
  · rw [members_append, members_append]

theorem Replaces.mem_iff (low : base ≤ seq) (high : seq < base + numEntries) :
    seq ∈ Node.members before ↔ old.any (fun bits => bitExists base bits seq) = true := by
  obtain ⟨xs, ys, same, _, below, above⟩ := replaces.members
  have notX : seq ∉ xs := fun member => by
    have := below seq member
    omega
  have notY : seq ∉ ys := fun member => by
    have := above seq member
    omega
  rw [same, mem_append, mem_append, members_cellAt]
  cases old with
  | none => simp [notX, notY]
  | some bits => simp [notX, notY, mem_block, low, high]

theorem Replaces.ordered {e : Nat → Prop} (ordered : Ordered e before) (aligned : numEntries ∣ base)
    (room : base + numEntries < maxUint64 ∨ e base) : Ordered e after := by
  obtain ⟨xs, ys, rfl, rfl, below, above⟩ := replaces
  have left := ordered.left
  have right := ordered.right.right
  have rest : Ordered e (xs ++ ys) :=
    ordered.of_bases (((sublist_append_right _ ys).append_left xs).map _)
  cases new with
  | none => exact rest
  | some bits =>
    refine ⟨pairwise_append.mpr ⟨left.sorted, pairwise_cons.mpr ⟨?_, right.sorted⟩, ?_⟩, ?_, ?_⟩
    · exact fun y inY => .inl (above y inY)
    · refine fun x inX => forall_mem_cons.mpr ⟨.inl (below x inX), fun y inY => ?_⟩
      exact (pairwise_append.mp rest.sorted).2.2 x inX y inY
    · exact forall_mem_append.mpr ⟨left.aligned, forall_mem_cons.mpr ⟨aligned, right.aligned⟩⟩
    · exact forall_mem_append.mpr ⟨left.room, forall_mem_cons.mpr ⟨room, right.room⟩⟩

end

theorem Swaps.filled (swaps : Swaps base old new before after)
    (filled : ∀ c ∈ before, block c ≠ []) (some : ∀ bits ∈ new, block (base, bits) ≠ []) :
    ∀ c ∈ after, block c ≠ [] := by
  obtain ⟨xs, ys, rfl, rfl⟩ := swaps
  intro c member
  simp only [mem_append] at member filled
  rcases member with inX | inC | inY
  · exact filled c (.inl inX)
  · cases new with
    | none => simp [cellAt] at inC
    | some bits =>
      have only : c = (base, bits) := by simpa [cellAt] using inC
      rw [only]
      exact some bits rfl
  · exact filled c (.inr (.inr inY))

/-- Where no cell is new the bases are among the old ones. -/
theorem Swaps.bases (swaps : Swaps base old new before after) (gone : old = none → new = none) :
    (after.map Prod.fst).Sublist (before.map Prod.fst) := by
  obtain ⟨xs, ys, rfl, rfl⟩ := swaps
  have cell : ((cellAt base new).map Prod.fst).Sublist ((cellAt base old).map Prod.fst) := by
    cases old with
    | none => rw [gone rfl]
    | some bits =>
      cases new with
      | none => exact nil_sublist _
      | some bits' => exact Sublist.refl _
  simp only [map_append]
  exact (cell.append_right _).append_left _

theorem Swaps.length (swaps : Swaps base old new before after) :
    after.length + (cellAt base old).length = before.length + (cellAt base new).length := by
  obtain ⟨xs, ys, rfl, rfl⟩ := swaps
  simp only [length_append]
  omega

theorem Swaps.perm (swaps : Swaps base old new before after) {added removed : List Nat}
    (cell : (added ++ Node.members (cellAt base old)).Perm
      (removed ++ Node.members (cellAt base new))) :
    (added ++ Node.members before).Perm (removed ++ Node.members after) := by
  obtain ⟨xs', ys', rfl, rfl⟩ := swaps
  simp only [members_append]
  generalize Node.members xs' = xs
  generalize Node.members ys' = ys
  have front : ∀ zs ms : List Nat, (zs ++ (xs ++ (ms ++ ys))).Perm (xs ++ ((zs ++ ms) ++ ys)) := by
    intro zs ms
    rw [append_assoc zs ms, ← append_assoc zs, ← append_assoc xs]
    exact perm_append_comm.append_right _
  exact (front _ _).trans (((cell.append_right ys).append_left xs).trans (front _ _).symm)

theorem members_cellAt_nodup (base : Nat) (bits : Option Bits) :
    (Node.members (cellAt base bits)).Nodup := by
  rw [members_cellAt]
  cases bits with
  | none => exact nodup_nil
  | some bits => exact block_nodup _

theorem mem_cellAt {base : Nat} {bits : Option Bits} :
    x ∈ Node.members (cellAt base bits) ↔
      base ≤ x ∧ x < base + numEntries ∧ bits.any (fun bits => bitExists base bits x) = true := by
  rw [members_cellAt]
  cases bits with
  | none => simp
  | some bits => simp [mem_block]

theorem mem_cellAt_set {base : Nat} (low : base ≤ seq) (high : seq < base + numEntries)
    (old : Option Bits) :
    x ∈ Node.members (cellAt base (some (set base (old.getD Bits.zero) seq false).1)) ↔
      x = seq ∨ x ∈ Node.members (cellAt base old) := by
  rw [mem_cellAt, mem_cellAt]
  have bit : base ≤ x → (bitExists base (set base (old.getD Bits.zero) seq false).1 x = true ↔
      x = seq ∨ old.any (fun bits => bitExists base bits x) = true) := by
    intro lowX
    rw [bitExists_set _ low high lowX]
    cases old with
    | none => simp [bitExists_zero]
    | some bits => simp
  constructor
  · rintro ⟨lowX, highX, there⟩
    rcases (bit lowX).mp there with same | old
    · exact .inl same
    · exact .inr ⟨lowX, highX, old⟩
  · rintro (rfl | ⟨lowX, highX, old⟩)
    · exact ⟨low, high, (bit low).mpr (.inl rfl)⟩
    · exact ⟨lowX, highX, (bit lowX).mpr (.inr old)⟩

theorem mem_cellAt_cleared {base : Nat} (low : base ≤ seq) (high : seq < base + numEntries)
    (old : Option Bits) :
    x ∈ Node.members (cellAt base (old.bind (cleared base seq))) ↔
      x ≠ seq ∧ x ∈ Node.members (cellAt base old) := by
  cases old with
  | none => simp [cellAt, Node.members]
  | some bits =>
    have left : x ∈ block (base, (clear base bits seq false).1) ↔
        x ≠ seq ∧ x ∈ block (base, bits) := by
      rw [mem_block, mem_block]
      constructor
      · rintro ⟨lowX, highX, bit⟩
        rw [bitExists_clear _ low high lowX] at bit
        simp only [Bool.and_eq_true, decide_eq_true_eq] at bit
        exact ⟨bit.1, lowX, highX, bit.2⟩
      · rintro ⟨other, lowX, highX, bit⟩
        refine ⟨lowX, highX, ?_⟩
        rw [bitExists_clear _ low high lowX]
        simp only [other, ne_eq, not_false_eq_true, decide_true, Bool.true_and]
        exact bit
    rw [members_cellAt, members_cellAt, bind_some, elim_some, ← left, cleared]
    split
    next none => rw [none, elim_none]
    · rfl

theorem any_getD_zero (base seq : Nat) (old : Option Bits) :
    bitExists base (old.getD Bits.zero) seq = old.any (fun bits => bitExists base bits seq) := by
  cases old with
  | none => simp [bitExists_zero]
  | some bits => simp

section

variable {e : Nat → Prop} (ordered : Ordered e t.cells)

include ordered

theorem insert_ordered (finds : Finds seq t.cells)
    (room : baseOf seq + numEntries < maxUint64 ∨ e (baseOf seq)) (nodes : Nat) :
    Ordered e (insert seq t false nodes).1.cells := by
  obtain ⟨base, old, touches, _, _⟩ := insert_touches t seq false nodes
  obtain ⟨rfl, replaces⟩ := touches.place finds
  exact replaces.ordered ordered (baseOf_aligned seq) room

theorem delete_ordered (seq nodes : Nat) : Ordered e (delete seq t false nodes).1.cells := by
  obtain ⟨base, old, touches, _, _⟩ := delete_touches t seq false nodes
  exact ordered.of_bases (touches.swaps.bases (fun none => by rw [none]; rfl))

end

theorem insert_perm (t : Node) (seq nodes : Nat) :
    ((if (insert seq t false nodes).2.1 = true then [seq] else []) ++ members t.cells).Perm
      (members (insert seq t false nodes).1.cells) := by
  obtain ⟨base, old, touches, flag, _⟩ := insert_touches t seq false nodes
  have low := touches.low
  have high := touches.high
  rw [any_getD_zero, Bool.false_or] at flag
  have cell : ((if (insert seq t false nodes).2.1 = true then [seq] else []) ++
      members (cellAt base old)).Perm
      ([] ++ members (cellAt base (some (set base (old.getD Bits.zero) seq false).1))) := by
    rw [nil_append]
    refine (perm_ext_iff_of_nodup ?_ (members_cellAt_nodup _ _)).mpr (fun x => ?_)
    · rw [flag]
      cases bit : old.any (fun bits => bitExists base bits seq) with
      | true => simpa using members_cellAt_nodup _ old
      | false =>
        refine nodup_cons.mpr ⟨fun inside => ?_, members_cellAt_nodup _ old⟩
        rw [(mem_cellAt.mp inside).2.2] at bit
        cases bit
    · rw [mem_cellAt_set low high, mem_append, flag]
      cases bit : old.any (fun bits => bitExists base bits seq) with
      | true =>
        simp only [Bool.not_true, Bool.false_eq_true, if_false, not_mem_nil, false_or]
        refine ⟨.inr, ?_⟩
        rintro (rfl | inside)
        · exact mem_cellAt.mpr ⟨low, high, bit⟩
        · exact inside
      | false => simp
  exact touches.swaps.perm cell

theorem delete_perm (t : Node) (seq nodes : Nat) :
    (members t.cells).Perm ((if (delete seq t false nodes).2.1 = true then [seq] else []) ++
      members (delete seq t false nodes).1.cells) := by
  obtain ⟨base, old, touches, flag, _⟩ := delete_touches t seq false nodes
  have low := touches.low
  have high := touches.high
  rw [Bool.false_or] at flag
  have cell : ([] ++ members (cellAt base old)).Perm
      ((if (delete seq t false nodes).2.1 = true then [seq] else []) ++
        members (cellAt base (old.bind (cleared base seq)))) := by
    rw [nil_append]
    refine (perm_ext_iff_of_nodup (members_cellAt_nodup _ _) ?_).mpr (fun x => ?_)
    · rw [flag]
      split
      · exact nodup_cons.mpr
          ⟨fun inside => ((mem_cellAt_cleared low high old).mp inside).1 rfl, members_cellAt_nodup _ _⟩
      · exact members_cellAt_nodup _ _
    · rw [mem_append, mem_cellAt_cleared low high, flag]
      by_cases same : x = seq
      · subst same
        rw [mem_cellAt]
        simp only [low, high, true_and, ne_eq, not_true_eq_false, false_and, or_false]
        split
        next bit => simp [bit]
        next bit => simp [bit]
      · split <;> simp [same]
  exact touches.swaps.perm cell

theorem insert_flag (finds : Finds seq t.cells) (nodes : Nat) :
    (insert seq t false nodes).2.1 = true ↔ seq ∉ members t.cells := by
  obtain ⟨base, old, touches, flag, _⟩ := insert_touches t seq false nodes
  rw [(touches.place finds).2.mem_iff touches.low touches.high, flag, any_getD_zero]
  simp

theorem delete_flag (finds : Finds seq t.cells) (nodes : Nat) :
    (delete seq t false nodes).2.1 = true ↔ seq ∈ members t.cells := by
  obtain ⟨base, old, touches, flag, _⟩ := delete_touches t seq false nodes
  rw [(touches.place finds).2.mem_iff touches.low touches.high, flag, Bool.false_or]

/-! The lowest and the highest member. -/

theorem trailingZeros64_spec (bit : b.getLsbD j = true) :
    b.getLsbD (trailingZeros64 b) = true ∧ trailingZeros64 b ≤ j := by
  have inside : j ∈ List.range 64 := mem_range.mpr (BitVec.lt_of_getLsbD bit)
  rw [trailingZeros64]
  cases found : (List.range 64).find? b.getLsbD with
  | none => exact absurd bit (find?_eq_none.mp found j inside)
  | some i =>
    refine ⟨find?_some found, ?_⟩
    rcases Scan.find_before pairwise_lt_range found inside bit with same | less
    · exact same.le
    · exact le_of_lt less

/-- The position of the highest bit, as `max` computes it. -/
theorem leadingZeros64_spec (bit : b.getLsbD j = true) :
    b.getLsbD (bitsPerBucket - leadingZeros64 (b >>> 1)) = true ∧
      j ≤ bitsPerBucket - leadingZeros64 (b >>> 1) := by
  have short := BitVec.lt_of_getLsbD bit
  have shifted : ∀ i, i < 64 → (b >>> 1).getMsbD i = b.getLsbD (64 - i) := by
    intro i inside
    rw [BitVec.getMsbD_eq_getLsbD, BitVec.getLsbD_ushiftRight]
    simp only [inside, decide_true, Bool.true_and]
    congr 1
    omega
  rw [leadingZeros64, bitsPerBucket]
  cases found : (List.range 64).find? (b >>> 1).getMsbD with
  | none =>
    have low : j = 0 := by
      by_contra high
      have member : 64 - j ∈ List.range 64 := mem_range.mpr (by omega)
      refine find?_eq_none.mp found _ member ?_
      rw [shifted _ (by omega), show 64 - (64 - j) = j by omega]
      exact bit
    subst low
    exact ⟨bit, le_rfl⟩
  | some i =>
    have inside := mem_range.mp (mem_of_find?_eq_some found)
    refine ⟨?_, ?_⟩
    · rw [getD_some, ← shifted i inside]
      exact find?_some found
    · rw [getD_some]
      rcases Nat.eq_zero_or_pos j with rfl | high
      · omega
      have there : (b >>> 1).getMsbD (64 - j) = true := by
        rw [shifted _ (by omega), show 64 - (64 - j) = j by omega]
        exact bit
      have member : 64 - j ∈ List.range 64 := mem_range.mpr (by omega)
      rcases Scan.find_before pairwise_lt_range found member there with same | less
      · omega
      · omega

theorem ne_zero_of_bit (bit : b.getLsbD j = true) : (b != 0#64) = true := by
  rw [bne_iff_ne]
  rintro rfl
  simp at bit

theorem exists_bit (some : (b != 0#64) = true) : ∃ j, j < 64 ∧ b.getLsbD j = true := by
  by_contra none
  refine (bne_iff_ne.mp some) (BitVec.eq_of_getLsbD_eq (fun j inside => ?_))
  by_contra differs
  exact none ⟨j, inside, by simpa using differs⟩

theorem bucket_mem_block {base i : Nat} (bucket : i < 32) (inside : j < 64)
    (bit : (bits.bucket i).getLsbD j = true) :
    base + i * bitsPerBucket + j ∈ block (base, bits) := by
  have offset : base + i * bitsPerBucket + j - base = i * bitsPerBucket + j := by omega
  have quotient : (i * bitsPerBucket + j) / bitsPerBucket = i := by
    simp only [bitsPerBucket]
    omega
  have remainder : (i * bitsPerBucket + j) % bitsPerBucket = j := by
    simp only [bitsPerBucket]
    omega
  refine mem_block.mpr ⟨by simp only; omega, ?_, ?_⟩
  · simp only [bitsPerBucket, numEntries]
    omega
  · rw [bitExists_eq, offset, quotient, remainder]
    exact bit

section

variable {base : Nat} (member : x ∈ block (base, bits))

include member

theorem bucket_of_block :
    ∃ i j, i < 32 ∧ j < 64 ∧ x = base + i * bitsPerBucket + j ∧
      (bits.bucket i).getLsbD j = true := by
  obtain ⟨low, high, bit⟩ := mem_block.mp member
  rw [bitExists_eq] at bit
  refine ⟨(x - base) / bitsPerBucket, (x - base) % bitsPerBucket, bucket_lt high low,
    Nat.mod_lt _ (by decide), ?_, bit⟩
  have whole := Nat.div_add_mod' (x - base) bitsPerBucket
  simp only at low
  omega

theorem min_spec : min base bits ∈ block (base, bits) ∧ min base bits ≤ x := by
  obtain ⟨i, j, bucket, _, rfl, bit⟩ := bucket_of_block member
  have here : i ∈ List.range numBuckets := mem_range.mpr bucket
  rw [min]
  cases found : (List.range numBuckets).find? (fun i => bits.bucket i != 0#64) with
  | none => exact absurd (ne_zero_of_bit bit) (find?_eq_none.mp found i here)
  | some k =>
    have small : k < 32 := mem_range.mp (mem_of_find?_eq_some found)
    have some : (bits.bucket k != 0#64) = true := by simpa using find?_some found
    obtain ⟨j', _, bit'⟩ := exists_bit some
    have first := trailingZeros64_spec bit'
    have short := BitVec.lt_of_getLsbD first.1
    refine ⟨bucket_mem_block small short first.1, ?_⟩
    rcases Scan.find_before pairwise_lt_range found here (ne_zero_of_bit bit) with same | less
    · subst same
      have lowest := (trailingZeros64_spec bit).2
      simp only
      omega
    · simp only [bitsPerBucket]
      omega

theorem max_spec : max base bits ∈ block (base, bits) ∧ x ≤ max base bits := by
  obtain ⟨i, j, bucket, inside, rfl, bit⟩ := bucket_of_block member
  have here : i ∈ (List.range numBuckets).reverse :=
    mem_reverse.mpr (mem_range.mpr bucket)
  have descending : (List.range numBuckets).reverse.Pairwise (fun a b => b < a) :=
    pairwise_reverse.mpr pairwise_lt_range
  rw [max]
  cases found : (List.range numBuckets).reverse.find? (fun i => bits.bucket i != 0#64) with
  | none => exact absurd (ne_zero_of_bit bit) (find?_eq_none.mp found i here)
  | some k =>
    have small : k < 32 :=
      mem_range.mp (mem_reverse.mp (mem_of_find?_eq_some found))
    have some : (bits.bucket k != 0#64) = true := by simpa using find?_some found
    obtain ⟨j', _, bit'⟩ := exists_bit some
    have last := leadingZeros64_spec bit'
    have short := BitVec.lt_of_getLsbD last.1
    refine ⟨bucket_mem_block small short last.1, ?_⟩
    rcases Scan.find_before descending found here (ne_zero_of_bit bit) with same | less
    · subst same
      have highest := (leadingZeros64_spec bit).2
      simp only
      omega
    · simp only [bitsPerBucket]
      omega

end

theorem leftMin_spec (strict : Strict t.cells) (filled : ∀ c ∈ t.cells, block c ≠ [])
    (some : t ≠ nil) : t.leftMin ∈ members t.cells ∧ ∀ x ∈ members t.cells, t.leftMin ≤ x := by
  induction t with
  | nil => exact absurd rfl some
  | node base bits l r h ihl _ =>
    rw [cells_node] at strict filled ⊢
    have sorted := members_sorted strict
    rw [members_append, members_cons] at sorted ⊢
    obtain ⟨_, rest, apart⟩ := pairwise_append.mp sorted
    cases l with
    | nil =>
      obtain ⟨x, member⟩ := exists_mem_of_ne_nil _ (filled (base, bits) (by simp))
      have least := min_spec member
      rw [leftMin, cells_nil, members_nil, nil_append]
      refine ⟨mem_append_left _ least.1, forall_mem_append.mpr ⟨?_, fun y right => ?_⟩⟩
      · exact fun y own => (min_spec own).2
      · exact le_of_lt ((pairwise_append.mp rest).2.2 _ least.1 y right)
    | node lbase lbits ll lr lh =>
      obtain ⟨inside, least⟩ := ihl strict.left
        (fun c member => filled c (mem_append_left _ member)) (by simp)
      rw [leftMin]
      · refine ⟨mem_append_left _ inside, forall_mem_append.mpr ⟨least, fun y others => ?_⟩⟩
        exact le_of_lt (apart _ inside y others)
      · simp

theorem rightMax_spec (strict : Strict t.cells) (filled : ∀ c ∈ t.cells, block c ≠ [])
    (some : t ≠ nil) : t.rightMax ∈ members t.cells ∧ ∀ x ∈ members t.cells, x ≤ t.rightMax := by
  induction t with
  | nil => exact absurd rfl some
  | node base bits l r h _ ihr =>
    rw [cells_node] at strict filled ⊢
    have tail : Strict ([(base, bits)] ++ r.cells) := strict.right
    have sorted := members_sorted strict
    rw [members_append, members_cons] at sorted ⊢
    obtain ⟨_, rest, apart⟩ := pairwise_append.mp sorted
    cases r with
    | nil =>
      obtain ⟨x, member⟩ := exists_mem_of_ne_nil _ (filled (base, bits) (by simp))
      have greatest := max_spec member
      rw [rightMax, cells_nil, members_nil, append_nil]
      refine ⟨mem_append_right _ greatest.1, forall_mem_append.mpr ⟨fun y left => ?_, ?_⟩⟩
      · exact le_of_lt (apart y left _ (mem_append_left _ greatest.1))
      · exact fun y own => (max_spec own).2
    | node rbase rbits rl rr rh =>
      obtain ⟨inside, greatest⟩ := ihr tail.right
        (fun c member => filled c (mem_append_right _ (mem_cons_of_mem _ member))) (by simp)
      rw [rightMax]
      · refine ⟨mem_append_right _ (mem_append_right _ inside), ?_⟩
        refine forall_mem_append.mpr ⟨?_, forall_mem_append.mpr ⟨?_, greatest⟩⟩
        · exact fun y left => le_of_lt (apart y left _ (mem_append_right _ inside))
        · exact fun y own => le_of_lt ((pairwise_append.mp rest).2.2 y own _ inside)
      · simp

def nodeCount : Node → Nat
  | nil => 0
  | node _ _ l r _ => nodeCount l + nodeCount r + 1

theorem cells_length (t : Node) : t.cells.length = t.nodeCount := by
  induction t with
  | nil => rfl
  | node base bits l r h ihl ihr =>
    rw [cells_node, length_append, length_cons, ihl, ihr, nodeCount, Nat.add_assoc]

end Node

end LinearNats.Avl
