import LinearNats.Avl.Node

/-! A tree of the sequence set as the list of its cells from left to right, each a base with its
bits. The rotations keep that list, so that what an operation does to the set is said by what it
does to the list. -/
namespace LinearNats.Avl
open List

/-! Bits. -/

namespace Bits

theorem and_mask (b : BitVec 64) (seq : Nat) :
    (b &&& mask seq = 0#64) ↔ b.getLsbD (seq % bitsPerBucket) = false := by
  have inside : seq % bitsPerBucket < 64 := Nat.mod_lt _ (by decide)
  have one : mask seq = BitVec.twoPow 64 (seq % bitsPerBucket) := (BitVec.twoPow_eq _ _).symm
  rw [one, BitVec.and_twoPow]
  cases bit : b.getLsbD (seq % bitsPerBucket) with
  | false => simp
  | true =>
    simp only [if_true, Bool.true_eq_false, iff_false]
    intro zero
    have there := congrArg (fun v => v.getLsbD (seq % bitsPerBucket)) zero
    simp [inside] at there

theorem getLsbD_mask (seq j : Nat) :
    (mask seq).getLsbD j = decide (j = seq % bitsPerBucket) := by
  have inside : seq % bitsPerBucket < 64 := Nat.mod_lt _ (by decide)
  have one : mask seq = BitVec.twoPow 64 (seq % bitsPerBucket) := (BitVec.twoPow_eq _ _).symm
  rw [one, BitVec.getLsbD_twoPow]
  simp [inside, eq_comm]

theorem bucket_set (bits : Bits) (i j : Nat) (v : BitVec 64) :
    bucket (bits.setIfInBounds i v) j = if i = j ∧ i < 32 then v else bucket bits j := by
  simp only [bucket, Vector.getElem?_setIfInBounds]
  by_cases same : i = j
  · subst same
    by_cases inside : i < 32
    · simp [inside]
    · simp [inside]
  · simp [same]

end Bits

namespace Node

theorem bitExists_eq (base : Nat) (bits : Bits) (seq : Nat) :
    bitExists base bits seq =
      (bits.bucket ((seq - base) / bitsPerBucket)).getLsbD ((seq - base) % bitsPerBucket) := by
  have zero := Bits.and_mask (bits.bucket ((seq - base) / bitsPerBucket)) (seq - base)
  rw [bitExists]
  cases bit : (bits.bucket ((seq - base) / bitsPerBucket)).getLsbD ((seq - base) % bitsPerBucket) with
  | false => simpa [bit] using zero
  | true => simpa [bit] using zero

def block (c : Nat × Bits) : List Nat :=
  (List.range' c.1 numEntries).filter (bitExists c.1 c.2)

variable {c : Nat × Bits} {x : Nat} {xs ys : List (Nat × Bits)}

theorem mem_block : x ∈ block c ↔ c.1 ≤ x ∧ x < c.1 + numEntries ∧ bitExists c.1 c.2 x = true := by
  rw [block, mem_filter, mem_range'_1, and_assoc]

theorem block_sorted (c : Nat × Bits) : (block c).Pairwise (· < ·) :=
  List.Pairwise.filter _ (pairwise_lt_range' (s := c.1))

theorem block_nodup (c : Nat × Bits) : (block c).Nodup :=
  (block_sorted c).imp ne_of_lt

theorem same_bit {base y : Nat} (lowX : base ≤ x) (lowY : base ≤ y)
    (bucket : (x - base) / bitsPerBucket = (y - base) / bitsPerBucket) :
    (y - base) % bitsPerBucket = (x - base) % bitsPerBucket ↔ y = x := by
  refine ⟨fun bit => ?_, fun same => by rw [same]⟩
  have whole := Nat.div_add_mod (x - base) bitsPerBucket
  rw [bucket, ← bit, Nat.div_add_mod] at whole
  omega

theorem bucket_lt {base : Nat} (high : x < base + numEntries) (low : base ≤ x) :
    (x - base) / bitsPerBucket < 32 := by
  simp only [numEntries, bitsPerBucket] at *
  omega

theorem bitExists_set {base seq : Nat} (bits : Bits) (low : base ≤ seq)
    (high : seq < base + numEntries) (lowX : base ≤ x) (inserted : Bool) :
    bitExists base (set base bits seq inserted).1 x =
      (decide (x = seq) || bitExists base bits x) := by
  rw [bitExists_eq, bitExists_eq, set]
  simp only [Bits.and_mask]
  split
  next absent =>
    rw [Bits.bucket_set]
    by_cases bucket : (seq - base) / bitsPerBucket = (x - base) / bitsPerBucket
    · rw [if_pos ⟨bucket, bucket_lt high low⟩, BitVec.getLsbD_or,
        Bits.getLsbD_mask, bucket, Bool.or_comm]
      simp only [same_bit low lowX bucket]
    · have other : x ≠ seq := by
        rintro rfl
        exact bucket rfl
      simp [bucket, other]
  next present =>
    by_cases same : x = seq
    · subst same
      simpa using present
    · simp [same]

theorem set_flag (base : Nat) (bits : Bits) (seq : Nat) (inserted : Bool) :
    (set base bits seq inserted).2 = (inserted || !bitExists base bits seq) := by
  rw [bitExists_eq, set]
  simp only [Bits.and_mask]
  split
  next absent => simp [absent]
  next present => simp [present]

theorem set_bits (base : Nat) (bits : Bits) (seq : Nat) (inserted : Bool) :
    (set base bits seq inserted).1 = (set base bits seq false).1 := by
  simp only [set]
  split <;> rfl

theorem bitExists_clear {base seq : Nat} (bits : Bits) (low : base ≤ seq)
    (high : seq < base + numEntries) (lowX : base ≤ x) (deleted : Bool) :
    bitExists base (clear base bits seq deleted).1 x =
      (decide (x ≠ seq) && bitExists base bits x) := by
  rw [bitExists_eq, bitExists_eq, clear]
  simp only [ne_eq, Bits.and_mask, ite_not]
  split
  next absent =>
    by_cases same : x = seq
    · subst same
      simpa using absent
    · simp [same]
  rename_i present
  rw [Bits.bucket_set]
  by_cases bucket : (seq - base) / bitsPerBucket = (x - base) / bitsPerBucket
  · have inside : (x - base) % bitsPerBucket < 64 := Nat.mod_lt _ (by decide)
    rw [if_pos ⟨bucket, bucket_lt high low⟩, BitVec.getLsbD_and, BitVec.getLsbD_not,
      Bits.getLsbD_mask, bucket, Bool.and_comm]
    simp only [same_bit low lowX bucket, inside, decide_true, Bool.true_and, decide_not]
  · have other : x ≠ seq := by
      rintro rfl
      exact bucket rfl
    simp [bucket, other]

theorem clear_flag (base : Nat) (bits : Bits) (seq : Nat) (deleted : Bool) :
    (clear base bits seq deleted).2.1 = (deleted || bitExists base bits seq) := by
  rw [bitExists_eq, clear]
  simp only [ne_eq, Bits.and_mask, ite_not]
  split
  next absent => simp [absent]
  next present =>
    simp only [Bool.not_eq_false] at present
    simp [present]

theorem clear_bits (base : Nat) (bits : Bits) (seq : Nat) (deleted : Bool) :
    (clear base bits seq deleted).1 = (clear base bits seq false).1 := by
  simp only [clear]
  split <;> rfl

theorem bucket_eq_zero {bits : Bits} (zero : ∀ b ∈ bits.toList, b = 0#64) (i : Nat) :
    bits.bucket i = 0#64 := by
  rw [Bits.bucket]
  cases found : bits[i]? with
  | none => rfl
  | some b =>
    refine zero b ?_
    rw [Vector.mem_toList_iff]
    exact Vector.mem_of_getElem? found

theorem clear_empty (base : Nat) (bits : Bits) (seq : Nat) (deleted : Bool) :
    (clear base bits seq deleted).2.2 = true ↔
      block (base, (clear base bits seq deleted).1) = [] := by
  have rest : (clear base bits seq deleted).2.2 =
      (clear base bits seq deleted).1.toList.all (· == 0#64) := rfl
  rw [rest]
  generalize (clear base bits seq deleted).1 = left
  simp only [all_eq_true, beq_iff_eq, eq_nil_iff_forall_not_mem, mem_block]
  constructor
  · rintro zero x ⟨_, _, bit⟩
    rw [bitExists_eq, bucket_eq_zero zero] at bit
    simp at bit
  · intro none b inside
    obtain ⟨i, short, rfl⟩ := mem_iff_getElem.mp inside
    have small : i < 32 := by simpa using short
    refine BitVec.eq_of_getLsbD_eq (fun j fits => ?_)
    by_contra differs
    have bit : (left.bucket i).getLsbD j = true := by
      have read : left.bucket i = left.toList[i] := by simp [Bits.bucket, small]
      rw [read]
      simpa using differs
    refine none (base + (i * bitsPerBucket + j)) ⟨by omega, ?_, ?_⟩
    · simp only [bitsPerBucket, numEntries]
      omega
    · have bucket : (i * bitsPerBucket + j) / bitsPerBucket = i := by
        simp only [bitsPerBucket]
        omega
      have position : (i * bitsPerBucket + j) % bitsPerBucket = j := by
        simp only [bitsPerBucket]
        omega
      rw [bitExists_eq, Nat.add_sub_cancel_left, bucket, position]
      exact bit

/-! The cells of a tree. -/

def cells : Node → List (Nat × Bits)
  | nil => []
  | node base bits l r _ => l.cells ++ (base, bits) :: r.cells

@[simp] theorem cells_nil : nil.cells = [] := rfl

@[simp] theorem cells_node (base : Nat) (bits : Bits) (l r : Node) (h : Nat) :
    (node base bits l r h).cells = l.cells ++ (base, bits) :: r.cells := rfl

@[simp] theorem cells_mk (base : Nat) (bits : Bits) (l r : Node) :
    (mk base bits l r).cells = l.cells ++ (base, bits) :: r.cells := rfl

theorem cells_rotateL {base : Nat} {bits : Bits} {l r : Node} {h : Nat} (right : r ≠ nil) :
    (rotateL (node base bits l r h)).cells = (node base bits l r h).cells := by
  cases r with
  | nil => exact absurd rfl right
  | node rbase rbits rl rr rh => simp [rotateL]

theorem cells_rotateR {base : Nat} {bits : Bits} {l r : Node} {h : Nat} (left : l ≠ nil) :
    (rotateR (node base bits l r h)).cells = (node base bits l r h).cells := by
  cases l with
  | nil => exact absurd rfl left
  | node lbase lbits ll lr lh => simp [rotateR]

/-- The inner rotation of the left child happens only where that child leans to the right. -/
theorem cells_leanL (l : Node) :
    (if balanceF l < 0 then rotateL l else l).cells = l.cells := by
  split
  next leans =>
    cases l with
    | nil => simp [balanceF] at leans
    | node base bits ll lr h =>
      refine cells_rotateL ?_
      rintro rfl
      simp [balanceF, height] at leans
      omega
  · rfl

theorem cells_leanR (r : Node) :
    (if balanceF r > 0 then rotateR r else r).cells = r.cells := by
  split
  next leans =>
    cases r with
    | nil => simp [balanceF] at leans
    | node base bits rl rr h =>
      refine cells_rotateR ?_
      rintro rfl
      simp [balanceF, height] at leans
      omega
  · rfl

theorem ne_nil_of_cells {l l' : Node} (same : l'.cells = l.cells) (some : l ≠ nil) : l' ≠ nil := by
  rintro rfl
  cases l with
  | nil => exact some rfl
  | node => simp at same

@[simp] theorem cells_checkBalance (n : Node) : n.checkBalance.cells = n.cells := by
  cases n with
  | nil => rfl
  | node base bits l r h =>
    rw [checkBalance]
    split
    next heavy =>
      have some : l ≠ nil := by
        rintro rfl
        simp [balanceF, height] at heavy
        omega
      rw [cells_rotateR (ne_nil_of_cells (cells_leanL l) some), cells_node, cells_leanL]
      rfl
    split
    next heavy =>
      have some : r ≠ nil := by
        rintro rfl
        simp [balanceF, height] at heavy
        omega
      rw [cells_rotateL (ne_nil_of_cells (cells_leanR r) some), cells_node, cells_leanR]
      rfl
    · rfl

@[simp] theorem cells_setHeight (n : Node) : n.setHeight.cells = n.cells := by
  cases n <;> rfl

theorem cells_insertNodePrev (nn : Node) {n : Node} (some : n ≠ nil) :
    (insertNodePrev nn n).cells = nn.cells ++ n.cells := by
  induction n with
  | nil => exact absurd rfl some
  | node base bits l r h ihl _ =>
    cases l with
    | nil => simp [insertNodePrev]
    | node lbase lbits ll lr lh =>
      have below := ihl (by simp)
      simp only [insertNodePrev, cells_checkBalance, cells_mk, below, append_assoc, cells_node]

theorem cells_merge (l r : Node) : (merge l r).cells = l.cells ++ r.cells := by
  cases l with
  | nil => rw [merge, cells_nil, nil_append]
  | node lbase lbits ll lr lh =>
    cases r with
    | nil => rw [merge, cells_nil, append_nil]; simp
    | node rbase rbits rl rr rh => exact cells_insertNodePrev _ (by simp)

/-! What the operations do to the cells. -/

/-- Cells in ascending order, at multiples of their width, with room for one more behind each. Those
at an `exempt` base only have to be behind all others. -/
structure Ordered (exempt : Nat → Prop) (cs : List (Nat × Bits)) : Prop where
  sorted : cs.Pairwise (fun a b => a.1 + numEntries ≤ b.1 ∨ exempt a.1 ∧ exempt b.1)
  aligned : ∀ c ∈ cs, numEntries ∣ c.1
  room : ∀ c ∈ cs, c.1 + numEntries < maxUint64 ∨ exempt c.1

def Strict (cs : List (Nat × Bits)) : Prop := Ordered (fun _ => False) cs

/-- Cells among which a search for `seq` finds its way. -/
def Finds (seq : Nat) (cs : List (Nat × Bits)) : Prop := Ordered (seq < ·) cs

section

variable {e e' : Nat → Prop}

theorem Ordered.mono (ordered : Ordered e xs) (weaker : ∀ b, e b → e' b) : Ordered e' xs :=
  ⟨ordered.sorted.imp (Or.imp_right (And.imp (weaker _) (weaker _))), ordered.aligned,
    fun c member => (ordered.room c member).imp_right (weaker _)⟩

theorem Strict.finds (strict : Strict xs) (seq : Nat) : Finds seq xs :=
  strict.mono (fun _ => False.elim)

/-- Only the bases matter. -/
theorem Ordered.of_bases (ordered : Ordered e ys)
    (less : (xs.map Prod.fst).Sublist (ys.map Prod.fst)) : Ordered e xs := by
  have base : ∀ c ∈ xs, ∃ d ∈ ys, d.1 = c.1 := fun c member =>
    mem_map.mp (less.subset (mem_map_of_mem member))
  let apart := fun a b => a + numEntries ≤ b ∨ e a ∧ e b
  have sorted : (ys.map Prod.fst).Pairwise apart := pairwise_map.mpr ordered.sorted
  refine ⟨pairwise_map.mp (sorted.sublist less), ?_, ?_⟩
  · intro c member
    obtain ⟨d, there, same⟩ := base c member
    exact same ▸ ordered.aligned d there
  · intro c member
    obtain ⟨d, there, same⟩ := base c member
    exact same ▸ ordered.room d there

theorem Ordered.left (ordered : Ordered e (xs ++ ys)) : Ordered e xs :=
  ordered.of_bases ((sublist_append_left xs ys).map _)

theorem Ordered.right (ordered : Ordered e (xs ++ ys)) : Ordered e ys :=
  ordered.of_bases ((sublist_append_right xs ys).map _)

theorem Ordered.before (ordered : Ordered e (xs ++ c :: ys)) :
    ∀ x ∈ xs, x.1 + numEntries ≤ c.1 ∨ e x.1 ∧ e c.1 :=
  fun x member => (pairwise_append.mp ordered.sorted).2.2 x member c mem_cons_self

theorem Ordered.behind (ordered : Ordered e (xs ++ c :: ys)) :
    ∀ y ∈ ys, c.1 + numEntries ≤ y.1 ∨ e c.1 ∧ e y.1 :=
  fun _ member => rel_of_pairwise_cons (pairwise_append.mp ordered.sorted).2.1 member

end

theorem past_eq {base : Nat} (room : base + numEntries < maxUint64) :
    past base = base + numEntries := Nat.mod_eq_of_lt room

theorem Finds.past_eq {seq : Nat} (finds : Finds seq (xs ++ c :: ys)) (low : c.1 ≤ seq) :
    past c.1 = c.1 + numEntries :=
  Node.past_eq ((finds.room c (by simp)).resolve_right (not_lt.mpr low))

def baseOf (seq : Nat) : Nat := seq / numEntries * numEntries

theorem baseOf_le (seq : Nat) : baseOf seq ≤ seq := Nat.div_mul_le_self seq numEntries

theorem lt_baseOf (seq : Nat) : seq < baseOf seq + numEntries := by
  simp only [baseOf, numEntries]
  omega

theorem baseOf_aligned (seq : Nat) : numEntries ∣ baseOf seq := Nat.dvd_mul_left _ _

section

variable {seq base : Nat} (aligned : numEntries ∣ base)

include aligned

theorem baseOf_above (below : seq < base) : baseOf seq + numEntries ≤ base := by
  obtain ⟨k, rfl⟩ := aligned
  simp only [baseOf, numEntries] at *
  omega

theorem baseOf_below (past : base + numEntries ≤ seq) : base + numEntries ≤ baseOf seq := by
  obtain ⟨k, rfl⟩ := aligned
  simp only [baseOf, numEntries] at *
  omega

theorem baseOf_eq (low : base ≤ seq) (high : seq < base + numEntries) : base = baseOf seq := by
  obtain ⟨k, rfl⟩ := aligned
  simp only [baseOf, numEntries] at *
  omega

end

def cellAt (base : Nat) (bits : Option Bits) : List (Nat × Bits) :=
  (bits.map (fun bits => (base, bits))).toList

/-- The cell at one base becomes another, comes or goes; all other cells stay. -/
def Swaps (base : Nat) (old new : Option Bits) (before after : List (Nat × Bits)) : Prop :=
  ∃ xs ys, before = xs ++ (cellAt base old ++ ys) ∧ after = xs ++ (cellAt base new ++ ys)

/-- The same, with that cell at its place in the order. -/
def Replaces (base : Nat) (old new : Option Bits) (before after : List (Nat × Bits)) : Prop :=
  ∃ xs ys, before = xs ++ (cellAt base old ++ ys) ∧ after = xs ++ (cellAt base new ++ ys) ∧
    (∀ x ∈ xs, x.1 + numEntries ≤ base) ∧ ∀ y ∈ ys, base + numEntries ≤ y.1

variable {base : Nat} {old new : Option Bits} {before after : List (Nat × Bits)}

theorem Swaps.append (swaps : Swaps base old new before after) (zs : List (Nat × Bits)) :
    Swaps base old new (before ++ zs) (after ++ zs) := by
  obtain ⟨xs, ys, rfl, rfl⟩ := swaps
  exact ⟨xs, ys ++ zs, by simp, by simp⟩

theorem Swaps.prepend (swaps : Swaps base old new before after) (zs : List (Nat × Bits)) :
    Swaps base old new (zs ++ before) (zs ++ after) := by
  obtain ⟨xs, ys, rfl, rfl⟩ := swaps
  exact ⟨zs ++ xs, ys, by simp, by simp⟩

theorem Replaces.append {zs : List (Nat × Bits)} (replaces : Replaces base old new before after)
    (above : ∀ z ∈ zs, base + numEntries ≤ z.1) :
    Replaces base old new (before ++ zs) (after ++ zs) := by
  obtain ⟨xs, ys, rfl, rfl, below, behind⟩ := replaces
  exact ⟨xs, ys ++ zs, by simp, by simp, below, forall_mem_append.mpr ⟨behind, above⟩⟩

theorem Replaces.prepend {zs : List (Nat × Bits)} (replaces : Replaces base old new before after)
    (below : ∀ z ∈ zs, z.1 + numEntries ≤ base) :
    Replaces base old new (zs ++ before) (zs ++ after) := by
  obtain ⟨xs, ys, rfl, rfl, ahead, behind⟩ := replaces
  exact ⟨zs ++ xs, ys, by simp, by simp, forall_mem_append.mpr ⟨below, ahead⟩, behind⟩

/-- What an operation on one sequence does to a tree: one cell that could hold the sequence is
changed, and in an ordered tree it is the one that does. -/
structure Touches (seq base : Nat) (old new : Option Bits) (before after : List (Nat × Bits)) :
    Prop where
  low : base ≤ seq
  high : seq < base + numEntries
  swaps : Swaps base old new before after
  fresh : old = none → base = baseOf seq
  place : Finds seq before → base = baseOf seq ∧ Replaces base old new before after

variable {base : Nat} {bits : Bits} {l r : Node}

variable {seq : Nat} {root : Nat} {cells' : List (Nat × Bits)}

theorem left_of_root (finds : Finds seq (l.cells ++ (base, bits) :: r.cells)) (below : seq < base) :
    ∀ z ∈ (base, bits) :: r.cells, baseOf seq + numEntries ≤ z.1 := by
  have apart := baseOf_above (finds.aligned (base, bits) (by simp)) below
  refine forall_mem_cons.mpr ⟨apart, fun z right => ?_⟩
  rcases finds.behind z right with further | ⟨_, above⟩
  · simp only at further
    omega
  · exact baseOf_above (finds.aligned z (by simp [right])) above

theorem right_of_root (finds : Finds seq (l.cells ++ (base, bits) :: r.cells)) (low : base ≤ seq)
    (beyond : past base ≤ seq) : ∀ z ∈ l.cells ++ [(base, bits)], z.1 + numEntries ≤ baseOf seq := by
  rw [finds.past_eq low] at beyond
  have apart := baseOf_below (finds.aligned (base, bits) (by simp)) beyond
  refine forall_mem_append.mpr ⟨fun z left => ?_, forall_mem_singleton.mpr apart⟩
  rcases finds.before z left with nearer | ⟨_, above⟩
  · simp only at nearer
    omega
  · exact absurd above (not_lt.mpr low)

theorem Touches.left (touches : Touches seq base old new l.cells cells') (below : seq < root) :
    Touches seq base old new (l.cells ++ (root, bits) :: r.cells)
      (cells' ++ (root, bits) :: r.cells) := by
  refine { touches with swaps := touches.swaps.append _, place := fun finds => ?_ }
  obtain ⟨same, replaces⟩ := touches.place finds.left
  refine ⟨same, replaces.append ?_⟩
  rw [same]
  exact left_of_root finds below

theorem Touches.right (touches : Touches seq base old new r.cells cells') (low : root ≤ seq)
    (beyond : past root ≤ seq) :
    Touches seq base old new (l.cells ++ (root, bits) :: r.cells)
      (l.cells ++ (root, bits) :: cells') := by
  have front : ∀ zs : List (Nat × Bits), l.cells ++ (root, bits) :: zs =
      (l.cells ++ [(root, bits)]) ++ zs := by simp
  rw [front r.cells, front cells']
  refine { touches with swaps := touches.swaps.prepend _, place := fun finds => ?_ }
  obtain ⟨same, replaces⟩ := touches.place finds.right
  refine ⟨same, replaces.prepend ?_⟩
  rw [same]
  rw [← front] at finds
  exact right_of_root finds low beyond

theorem Touches.here (low : root ≤ seq) (beyond : ¬ past root ≤ seq) (new : Option Bits) :
    Touches seq root (some bits) new (l.cells ++ (root, bits) :: r.cells)
      (l.cells ++ (cellAt root new ++ r.cells)) := by
  have high : seq < root + numEntries := by
    have bound : past root ≤ root + numEntries := Nat.mod_le _ _
    omega
  refine ⟨low, high, ⟨l.cells, r.cells, rfl, rfl⟩, by simp, fun finds => ?_⟩
  refine ⟨baseOf_eq (finds.aligned (root, bits) (by simp)) low high, l.cells, r.cells, rfl, rfl,
    fun x left => ?_, fun y right => ?_⟩
  · exact (finds.before x left).resolve_right (fun above => absurd above.2 (not_lt.mpr low))
  · exact (finds.behind y right).resolve_right (fun above => absurd above.1 (not_lt.mpr low))

theorem Touches.empty (seq : Nat) (new : Option Bits) :
    Touches seq (baseOf seq) none new [] (cellAt (baseOf seq) new) :=
  ⟨baseOf_le seq, lt_baseOf seq, ⟨[], [], rfl, by simp⟩, fun _ => rfl,
    fun _ => ⟨rfl, [], [], rfl, by simp, by simp, by simp⟩⟩

theorem insert_touches (t : Node) (seq : Nat) (inserted : Bool) (nodes : Nat) :
    ∃ base old, Touches seq base old (some (set base (old.getD Bits.zero) seq false).1) t.cells
        (insert seq t inserted nodes).1.cells ∧
      (insert seq t inserted nodes).2.1 =
        (inserted || !bitExists base (old.getD Bits.zero) seq) ∧
      (insert seq t inserted nodes).2.2 = nodes + if old = none then 1 else 0 := by
  induction t with
  | nil =>
    refine ⟨baseOf seq, none, ?_, ?_, rfl⟩
    · simp only [insert, set_bits _ _ seq inserted]
      exact .empty seq _
    · simp only [insert, set_flag]
      rfl
  | node root bits l r h ihl ihr =>
    rw [insert]
    by_cases below : seq < root
    · obtain ⟨base, old, touches, flag, count⟩ := ihl
      simp only [if_pos below, cells_checkBalance, cells_mk, cells_node, flag, count]
      exact ⟨base, old, touches.left below, rfl, rfl⟩
    by_cases beyond : past root ≤ seq
    · obtain ⟨base, old, touches, flag, count⟩ := ihr
      simp only [if_neg below, if_pos beyond, cells_checkBalance, cells_mk, cells_node, flag, count]
      exact ⟨base, old, touches.right (not_lt.mp below) beyond, rfl, rfl⟩
    · simp only [if_neg below, if_neg beyond, cells_checkBalance, cells_mk, cells_node, set_flag,
        set_bits _ _ seq inserted]
      exact ⟨root, some bits, .here (not_lt.mp below) beyond _, rfl, by simp⟩

def cleared (base seq : Nat) (bits : Bits) : Option Bits :=
  if block (base, (clear base bits seq false).1) = [] then none
  else some (clear base bits seq false).1

theorem delete_touches (t : Node) (seq : Nat) (deleted : Bool) (nodes : Nat) :
    ∃ base old, Touches seq base old (old.bind (cleared base seq)) t.cells
        (delete seq t deleted nodes).1.cells ∧
      (delete seq t deleted nodes).2.1 =
        (deleted || old.any (fun bits => bitExists base bits seq)) ∧
      (delete seq t deleted nodes).2.2 =
        nodes - if (old.bind (cleared base seq)) = none ∧ old ≠ none then 1 else 0 := by
  induction t with
  | nil =>
    exact ⟨baseOf seq, none, .empty seq none, by simp [delete], by simp [delete]⟩
  | node root bits l r h ihl ihr =>
    rw [delete.eq_def]
    simp only
    by_cases below : seq < root
    · obtain ⟨base, old, touches, flag, count⟩ := ihl
      simp only [if_pos below, cells_checkBalance, cells_mk, cells_node, flag, count]
      exact ⟨base, old, touches.left below, rfl, rfl⟩
    by_cases beyond : past root ≤ seq
    · obtain ⟨base, old, touches, flag, count⟩ := ihr
      simp only [if_neg below, if_pos beyond, cells_checkBalance, cells_mk, cells_node, flag, count]
      exact ⟨base, old, touches.right (not_lt.mp below) beyond, rfl, rfl⟩
    have empty := clear_empty root bits seq deleted
    rw [clear_bits] at empty
    have touches : Touches seq root (some bits) (cleared root seq bits)
        (l.cells ++ (root, bits) :: r.cells)
        (l.cells ++ (cellAt root (cleared root seq bits) ++ r.cells)) := .here (not_lt.mp below) beyond _
    simp only [if_neg below, if_neg beyond, cells_node]
    refine ⟨root, some bits, ?_, ?_, ?_⟩
    · rw [Option.bind_some]
      split
      next none =>
        rw [cleared, if_pos (empty.mp none)] at touches ⊢
        simp only [cells_checkBalance, cells_setHeight, cells_merge]
        exact touches
      next some =>
        rw [cleared, if_neg (fun none => some (empty.mpr none))] at touches ⊢
        simp only [cells_checkBalance, cells_setHeight, cells_node, clear_bits _ _ seq deleted]
        exact touches
    · split <;> simp only [clear_flag, Option.any_some]
    · rw [Option.bind_some]
      split
      next none => simp [cleared, empty.mp none]
      rename_i some
      have left : block (root, (clear root bits seq false).1) ≠ [] :=
        fun none => some (empty.mpr none)
      simp [cleared, left]

end Node

end LinearNats.Avl
