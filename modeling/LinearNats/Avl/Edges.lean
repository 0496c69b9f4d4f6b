import LinearNats.Avl.SequenceSet

/-! The sequence set at the end of the uint64 range, where the end of a node's range is 0, and after
`SetInitialMin`. -/
namespace LinearNats.Avl

namespace Node

/-- Cells of which those of the last block may be there more than once. -/
def Lined (cs : List (Nat × Bits)) : Prop := Ordered (· + numEntries = maxUint64) cs

theorem Lined.finds {cs : List (Nat × Bits)} (lined : Lined cs) {seq : Nat}
    (small : seq + numEntries < maxUint64) : Finds seq cs :=
  lined.mono (fun _ last => by omega)

/-- A sequence that every cell sends on is put behind all of them. -/
theorem insert_behind {t : Node} {seq : Nat} (all : ∀ c ∈ t.cells, c.1 ≤ seq ∧ past c.1 ≤ seq)
    (inserted : Bool) (nodes : Nat) :
    ∃ bits, (insert seq t inserted nodes).1.cells = t.cells ++ [(baseOf seq, bits)] := by
  induction t with
  | nil => exact ⟨_, rfl⟩
  | node base bits l r h _ ihr =>
    obtain ⟨low, beyond⟩ := all (base, bits) (by simp)
    obtain ⟨new, same⟩ := ihr (fun c member => all c (by simp [member]))
    refine ⟨new, ?_⟩
    rw [insert, if_neg (not_lt.mpr low), if_pos beyond]
    simp only [cells_checkBalance, cells_mk, cells_node, same, List.append_assoc, List.cons_append]

theorem insert_lined {t : Node} (lined : Lined t.cells) {seq : Nat} (word : seq < 2 ^ 64)
    (nodes : Nat) : Lined (insert seq t false nodes).1.cells := by
  have low := baseOf_le seq
  by_cases small : seq + numEntries < maxUint64
  · exact insert_ordered lined (lined.finds small) (.inl (by omega)) nodes
  have last : baseOf seq + numEntries = maxUint64 := by
    simp only [baseOf, numEntries, maxUint64] at *
    omega
  have reach : ∀ c ∈ t.cells, c.1 + numEntries ≤ baseOf seq ∨ c.1 + numEntries = maxUint64 := by
    intro c member
    refine (lined.room c member).imp_left (fun room => ?_)
    obtain ⟨k, same⟩ := lined.aligned c member
    simp only [baseOf, numEntries, maxUint64] at *
    omega
  have sends : ∀ c ∈ t.cells, c.1 ≤ seq ∧ past c.1 ≤ seq := by
    intro c member
    rcases reach c member with apart | same
    · rw [past_eq ((Nat.lt_add_of_pos_right (by decide)).trans_le' apart |>.trans_eq last)]
      omega
    · rw [past, same, Nat.mod_self]
      omega
  obtain ⟨bits, same⟩ := insert_behind sends false nodes
  rw [same]
  refine ⟨List.pairwise_append.mpr ⟨lined.sorted, List.pairwise_singleton _ _, fun c member => ?_⟩,
    List.forall_mem_append.mpr ⟨lined.aligned, List.forall_mem_singleton.mpr (baseOf_aligned seq)⟩,
    List.forall_mem_append.mpr ⟨lined.room, List.forall_mem_singleton.mpr (.inr last)⟩⟩
  exact List.forall_mem_singleton.mpr ((reach c member).imp_right (fun own => ⟨own, last⟩))

theorem delete_absent {t : Node} {seq : Nat} (finds : Finds seq t.cells) (nodes : Nat) :
    seq ∉ members (delete seq t false nodes).1.cells := by
  obtain ⟨base, old, touches, _, _⟩ := delete_touches t seq false nodes
  have low := touches.low
  have high := touches.high
  obtain ⟨xs, ys, _, same, below, above⟩ := (touches.place finds).2.members
  rw [same, List.mem_append, List.mem_append, mem_cellAt_cleared low high]
  rintro (before | cell | after)
  · have := below seq before
    omega
  · exact cell.1 rfl
  · have := above seq after
    omega

theorem existsSeq_last {t : Node} (aligned : ∀ c ∈ t.cells, numEntries ∣ c.1) {seq : Nat}
    (word : seq < 2 ^ 64) (last : 2 ^ 64 - 2048 ≤ seq) : t.existsSeq seq = false := by
  induction t with
  | nil => rfl
  | node base bits l r h ihl ihr =>
    rw [existsSeq]
    split
    · exact ihl (fun c member => aligned c (List.mem_append_left _ member))
    split
    · exact ihr (fun c member =>
        aligned c (List.mem_append_right _ (List.mem_cons_of_mem _ member)))
    · obtain ⟨k, rfl⟩ := aligned (base, bits) (by simp)
      simp only [past, numEntries, maxUint64] at *
      omega

theorem visit_all (seen xs : List Nat) :
    visit (fun seen x => (seen ++ [x], true)) seen xs = (seen ++ xs, true) := by
  induction xs generalizing seen with
  | nil => rw [visit, List.append_nil]
  | cons x xs ih =>
    simp only [visit]
    rw [ih, List.append_assoc, List.singleton_append]

end Node

namespace SequenceSet

open Node

structure Takes (ss : SequenceSet) (seq : Nat) : Prop where
  present : (ss.insert seq).existsSeq seq = true
  size : ((ss.insert seq).insert seq).size = (ss.insert seq).size
  nodes : ((ss.insert seq).insert seq).nodes = (ss.insert seq).nodes
  reported : seq ∈ (ss.insert seq).range (fun seen x => (seen ++ [x], true)) []
  deleted : ((ss.insert seq).delete seq).2 = true
  gone : ((ss.insert seq).delete seq).1.existsSeq seq = false

theorem insert_again {ss : SequenceSet} {seq : Nat} (finds : Finds seq ss.root.cells)
    (there : seq ∈ members ss.root.cells) :
    (ss.insert seq).size = ss.size ∧ (ss.insert seq).nodes = ss.nodes := by
  have flag := insert_flag finds ss.nodes
  obtain ⟨base, old, touches, _, count⟩ := insert_touches ss.root seq false ss.nodes
  have held := ((touches.place finds).2.mem_iff touches.low touches.high).mp there
  constructor
  · rw [insert_size, if_neg (fun added => flag.mp added there)]
  · rw [insert_nodes, count, if_neg (by rintro rfl; cases held), add_zero]

theorem run_lined {ss : SequenceSet} (lined : Lined ss.root.cells) {ops : List Op}
    (words : ∀ op ∈ ops, op.seq < 2 ^ 64) : Lined (run step ss ops).root.cells := by
  induction ops generalizing ss with
  | nil => exact lined
  | cons op rest ih =>
    refine ih ?_ (fun op member => words op (List.mem_cons_of_mem _ member))
    cases op with
    | insert seq => exact insert_lined lined (words _ List.mem_cons_self) ss.nodes
    | delete seq =>
      exact delete_cases seq (fun ss => Lined ss.root.cells) lined
        (empty_inv.strict.mono (fun _ => False.elim))
        (fun _ _ => delete_ordered lined seq ss.nodes)

theorem delete_gone {ss : SequenceSet} {seq : Nat} (finds : Finds seq ss.root.cells)
    (left : Finds seq (ss.root.delete seq false ss.nodes).1.cells) :
    (ss.delete seq).1.existsSeq seq = false := by
  have absent : (ss.root.delete seq false ss.nodes).1.existsSeq seq = false := by
    rw [Bool.eq_false_iff, Ne, existsSeq_iff left]
    exact delete_absent finds ss.nodes
  rw [delete]
  split
  next none_ =>
    rw [existsSeq, none_]
    rfl
  simp only
  split
  · split
    · rfl
    · exact absent
  · exact absent

/-- Whatever was inserted and deleted before, a sequence is taken exactly if it is not in the last
block. -/
theorem takes_iff (ops : List Op) (words : ∀ op ∈ ops, op.seq < 2 ^ 64) {seq : Nat}
    (word : seq < 2 ^ 64) : (run step empty ops).Takes seq ↔ seq < 2 ^ 64 - 2048 := by
  have lined := run_lined (empty_inv.strict.mono (fun _ => False.elim)) words
  generalize run step empty ops = ss at lined
  have lined' : Lined (ss.insert seq).root.cells := insert_lined lined word ss.nodes
  constructor
  · intro takes
    by_contra last
    have absent := existsSeq_last lined'.aligned word (le_of_not_gt last)
    exact absurd takes.present (by rw [existsSeq, absent]; exact Bool.false_ne_true)
  · intro below
    have small : seq + numEntries < maxUint64 := by
      simp only [numEntries, maxUint64]
      omega
    have finds := lined'.finds small
    have there : seq ∈ members (ss.insert seq).root.cells :=
      (mem_insert (lined.finds small) seq).mpr (.inl rfl)
    have again := insert_again finds there
    refine ⟨(existsSeq_iff finds).mpr there, again.1, again.2, ?_, (delete_present finds).mpr there,
      delete_gone finds (delete_ordered finds seq _)⟩
    rw [range, iter_eq, visit_all, List.nil_append]
    obtain ⟨c, member, inside⟩ := mem_members.mp there
    have low := (mem_block.mp inside).1
    refine List.mem_flatMap.mpr ⟨c, member, ?_⟩
    rwa [reported_cell (by omega)]

/-- The last sequence that is taken, next to one of the last block. -/
theorem takes_last_but_one_block :
    (run step empty [.insert (2 ^ 64 - 1), .delete 7]).Takes (2 ^ 64 - 2049) :=
  (takes_iff [.insert (2 ^ 64 - 1), .delete 7] (by simp [Op.seq]) (by decide)).mpr (by decide)

/-- The largest sequence is not found after it was inserted, and is put into a second node. -/
theorem largest_not_found :
    (empty.insert (2 ^ 64 - 1)).existsSeq (2 ^ 64 - 1) = false ∧
      ((empty.insert (2 ^ 64 - 1)).insert (2 ^ 64 - 1)).nodes = 2 ∧
      (empty.insert (2 ^ 64 - 1)).range (fun seen x => (seen ++ [x], true)) [] = [] ∧
      ((empty.insert (2 ^ 64 - 1)).delete (2 ^ 64 - 1)).2 = false := by
  decide +kernel

/-! ### The initial minimum -/

def setInitialMin (ss : SequenceSet) (min : Nat) : Except String SequenceSet :=
  if ss.root ≠ .nil then .error "ss: set not empty"
  else .ok ⟨.node min Bits.zero .nil .nil 1, ss.size, 1⟩

def hinted (min : Nat) : SequenceSet := ⟨.node min Bits.zero .nil .nil 1, 0, 1⟩

def Fills (min : Nat) : List Op → Prop
  | [] => True
  | .delete _ :: rest => Fills min rest
  | .insert seq :: _ => min ≤ seq ∧ seq < min + numEntries

theorem hinted_insert {min seq : Nat} (aligned : numEntries ∣ min)
    (room : min + numEntries < maxUint64) (low : min ≤ seq) (high : seq < min + numEntries) :
    (hinted min).insert seq = empty.insert seq := by
  have base : seq / numEntries * numEntries = min := (baseOf_eq aligned low high).symm
  rw [insert, insert, hinted, empty, Node.insert, Node.insert, if_neg (by omega), past_eq room,
    if_neg (by omega), base]
  rfl

theorem clear_zero (base seq : Nat) : clear base Bits.zero seq false = (Bits.zero, false, true) := by
  have none_ : Bits.zero.bucket ((seq - base) / bitsPerBucket) = 0#64 :=
    bucket_eq_zero (fun b member => by simpa [Bits.zero] using member) _
  have all : Bits.zero.toList.all (· == 0#64) = true := by decide
  simp [clear, none_, all]

theorem hinted_delete (min seq : Nat) :
    (hinted min).delete seq = (hinted min, false) ∨ (hinted min).delete seq = (empty, false) := by
  rw [delete, if_neg (by simp [hinted]), hinted, Node.delete.eq_def]
  by_cases below : seq < min
  · simp only [if_pos below]
    exact .inl rfl
  by_cases beyond : past min ≤ seq
  · simp only [if_neg below, if_pos beyond]
    exact .inl rfl
  · simp only [if_neg below, if_neg beyond, clear_zero]
    exact .inr rfl

/-- The node that was made for the first sequence changes no answer. -/
theorem run_hinted {min : Nat} (aligned : numEntries ∣ min) {ops : List Op}
    (small : ∀ op ∈ ops, op.seq < 2 ^ 64 - 2048) (fills : Fills min ops) :
    run step (hinted min) ops = run step empty ops ∨
      (run step (hinted min) ops = hinted min ∧ run step empty ops = empty) := by
  induction ops with
  | nil => exact .inr ⟨rfl, rfl⟩
  | cons op rest ih =>
    cases op with
    | insert seq =>
      obtain ⟨low, high⟩ := fills
      have bound : seq < 2 ^ 64 - 2048 := small _ List.mem_cons_self
      have first := hinted_insert aligned (by simp only [numEntries, maxUint64]; omega) low high
      exact .inl (congrArg (fun ss => run step ss rest) first)
    | delete seq =>
      have stays : empty.delete seq = (empty, false) := rfl
      rcases hinted_delete min seq with kept | gone
      · have later := ih (fun op member => small op (List.mem_cons_of_mem _ member)) fills
        simpa only [run, step, kept, stays] using later
      · exact .inl (by simp only [run, step, gone, stays])

theorem hinted_holds (min : Nat) {P : Nat → Prop} (none_ : ∀ x, ¬ P x) : (hinted min).Holds P := by
  have nothing : {x | P x} = ∅ := Set.eq_empty_of_forall_notMem none_
  refine ⟨fun x => iff_of_false ?_ (none_ x), fun x => iff_of_false ?_ (none_ x), ?_, ?_,
    fun x present => absurd present (none_ x), [], List.Pairwise.nil, ?_, fun f s => ?_⟩
  · rw [SequenceSet.existsSeq, hinted, Node.existsSeq, bitExists_zero]
    simp [Node.existsSeq]
  · rcases hinted_delete min x with kept | gone
    · simp [kept]
    · simp [gone]
  · rw [nothing, Set.ncard_empty]
    rfl
  · rw [nothing]
    exact Set.finite_empty
  · simp [none_]
  · have none_ : (List.range' min (past min - min)).filter (bitExists min Bits.zero) = [] := by
      simp [bitExists_zero]
    simp [SequenceSet.range, hinted, iter, visit, none_]

theorem minMax_hinted (min : Nat) : (hinted min).minMax = empty.minMax := by
  have lowest : (List.range numBuckets).find? (fun i => Bits.zero.bucket i != 0#64) = none := by
    decide
  have highest : (List.range numBuckets).reverse.find? (fun i => Bits.zero.bucket i != 0#64) =
      none := by
    decide
  simp [minMax, hinted, empty, leftMin, rightMax, Node.min, Node.max, lowest, highest]

/-- A hint that is the start of a block, in which the first sequence then falls, is only that. -/
theorem hint_transparent {min : Nat} (aligned : numEntries ∣ min) (ops : List Op)
    (small : ∀ op ∈ ops, op.seq < 2 ^ 64 - 2048) (fills : Fills min ops) {ss : SequenceSet}
    (set : empty.setInitialMin min = .ok ss) :
    (run step ss ops).Holds (Present ops) ∧ (run step ss ops).minMax = (run step empty ops).minMax := by
  obtain rfl : hinted min = ss := Except.ok.inj set
  obtain ⟨inv, same⟩ := run_members small
  rcases run_hinted aligned small fills with equal | ⟨still, none_⟩
  · rw [equal]
    exact ⟨inv.holds same, rfl⟩
  rw [still, none_]
  refine ⟨hinted_holds min (fun x present => ?_), minMax_hinted min⟩
  rw [← same, none_] at present
  cases present

theorem hint_transparent_second_block :
    (run step (hinted 2048) [.delete 9, .insert 3000, .insert 5]).Holds
      (Present [.delete 9, .insert 3000, .insert 5]) :=
  (hint_transparent (by decide) [.delete 9, .insert 3000, .insert 5] (by simp [Op.seq])
    (show Fills 2048 [.insert 3000, .insert 5] from ⟨by decide, by decide⟩) rfl).1

/-- Next to the node for 100 to 2147 come those for 2048 and 4096, which become its parent and its
sibling: 2100 is looked for in the wrong one. -/
theorem hint_hides_member :
    empty.setInitialMin 100 = .ok (hinted 100) ∧
      (run step (hinted 100) [.insert 2100, .insert 2200, .insert 4096]).existsSeq 2100 = false :=
  ⟨rfl, by decide +kernel⟩

end SequenceSet

end LinearNats.Avl
