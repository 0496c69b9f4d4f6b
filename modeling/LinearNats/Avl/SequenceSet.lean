import LinearNats.Run
import LinearNats.Avl.Members

/-! The sequence set under every sequence of inserts and deletes. -/
namespace LinearNats.Avl
open List

structure SequenceSet where
  root : Node
  size : Nat
  nodes : Nat
  deriving DecidableEq

namespace SequenceSet

def empty : SequenceSet := ⟨.nil, 0, 0⟩

/-- The flag `changed` of the source is false between two calls, so that it is passed as such. -/
def insert (ss : SequenceSet) (seq : Nat) : SequenceSet :=
  let (root, changed, nodes) := ss.root.insert seq false ss.nodes
  ⟨root, if changed then ss.size + 1 else ss.size, nodes⟩

def existsSeq (ss : SequenceSet) (seq : Nat) : Bool := ss.root.existsSeq seq

def delete (ss : SequenceSet) (seq : Nat) : SequenceSet × Bool :=
  if ss.root = .nil then (ss, false)
  else
    let (root, changed, nodes) := ss.root.delete seq false ss.nodes
    if changed then (if ss.size - 1 = 0 then empty else ⟨root, ss.size - 1, nodes⟩, true)
    else (⟨root, ss.size, nodes⟩, false)

def minMax (ss : SequenceSet) : Nat × Nat :=
  if ss.root = .nil then (0, 0) else (ss.root.leftMin, ss.root.rightMax)

def state (ss : SequenceSet) : Nat × Nat × Nat :=
  if ss.root = .nil then (0, 0, 0) else (ss.minMax.1, ss.minMax.2, ss.size)

def range {σ : Type} (ss : SequenceSet) (f : σ → Nat → σ × Bool) (s : σ) : σ := (ss.root.iter f s).1

open Node

structure Counted (ss : SequenceSet) : Prop where
  filled : ∀ c ∈ ss.root.cells, block c ≠ []
  size : ss.size = (members ss.root.cells).length
  nodes : ss.nodes = ss.root.cells.length

structure Inv (ss : SequenceSet) : Prop extends ss.Counted where
  strict : Strict ss.root.cells

@[simp] theorem insert_root (ss : SequenceSet) (seq : Nat) :
    (ss.insert seq).root = (ss.root.insert seq false ss.nodes).1 := rfl

@[simp] theorem insert_size (ss : SequenceSet) (seq : Nat) :
    (ss.insert seq).size =
      if (ss.root.insert seq false ss.nodes).2.1 then ss.size + 1 else ss.size := rfl

@[simp] theorem insert_nodes (ss : SequenceSet) (seq : Nat) :
    (ss.insert seq).nodes = (ss.root.insert seq false ss.nodes).2.2 := rfl

theorem empty_counted : empty.Counted := ⟨by simp [empty], rfl, rfl⟩

theorem empty_inv : empty.Inv :=
  ⟨empty_counted, List.Pairwise.nil, by simp [empty], by simp [empty]⟩

variable {ss : SequenceSet}

theorem insert_counted (counted : ss.Counted) (seq : Nat) : (ss.insert seq).Counted := by
  obtain ⟨base, old, touches, _, count⟩ := insert_touches ss.root seq false ss.nodes
  have low := touches.low
  have high := touches.high
  refine ⟨?_, ?_, ?_⟩
  · refine touches.swaps.filled counted.filled (fun bits only => ?_)
    rw [← Option.some.inj only]
    refine ne_nil_of_mem (mem_block.mpr ⟨low, high, ?_⟩)
    rw [bitExists_set _ low high low]
    simp
  · have length := (insert_perm ss.root seq ss.nodes).length_eq
    rw [insert_size, insert_root, ← length, length_append, ← counted.size]
    cases (ss.root.insert seq false ss.nodes).2.1 with
    | true => exact add_comm _ _
    | false => exact (zero_add _).symm
  · have length := touches.swaps.length
    have nodes := counted.nodes
    rw [insert_nodes, insert_root, count]
    generalize (ss.root.insert seq false ss.nodes).1.cells = after at length
    cases old with
    | none => simp [cellAt] at length ⊢; omega
    | some bits => simp [cellAt] at length ⊢; omega

theorem insert_inv (inv : ss.Inv) {seq : Nat} (small : seq + numEntries < maxUint64) :
    (ss.insert seq).Inv := by
  have low := baseOf_le seq
  exact ⟨insert_counted inv.toCounted seq,
    insert_ordered inv.strict (inv.strict.finds seq) (.inl (by omega)) ss.nodes⟩

theorem mem_insert {seq : Nat} (finds : Finds seq ss.root.cells) (x : Nat) :
    x ∈ members (ss.insert seq).root.cells ↔ x = seq ∨ x ∈ members ss.root.cells := by
  rw [insert_root, ← (insert_perm ss.root seq ss.nodes).mem_iff, mem_append]
  have flag := insert_flag finds ss.nodes
  split
  · rw [mem_singleton]
  rename_i present
  rw [flag, not_not] at present
  simp only [not_mem_nil, false_or]
  refine ⟨.inr, ?_⟩
  rintro (rfl | inside)
  · exact present
  · exact inside

theorem delete_cases (seq : Nat) (P : SequenceSet → Prop) (same : P ss) (reset : P empty)
    (tree : ∀ size, (ss.size = if (ss.root.delete seq false ss.nodes).2.1 then size + 1 else size) →
      P ⟨(ss.root.delete seq false ss.nodes).1, size, (ss.root.delete seq false ss.nodes).2.2⟩) :
    P (ss.delete seq).1 := by
  rw [delete]
  split
  · exact same
  cases flag : (ss.root.delete seq false ss.nodes).2.1 with
  | false =>
    simp only [flag, Bool.false_eq_true, if_false] at tree ⊢
    exact tree _ rfl
  | true =>
    simp only [flag, if_true] at tree ⊢
    split
    · exact reset
    · exact tree _ (by omega)

theorem delete_counted (counted : ss.Counted) (seq : Nat) : (ss.delete seq).1.Counted := by
  refine delete_cases seq Counted counted empty_counted (fun size left => ?_)
  obtain ⟨base, old, touches, _, count⟩ := delete_touches ss.root seq false ss.nodes
  have length := (delete_perm ss.root seq ss.nodes).length_eq
  refine ⟨?_, ?_, ?_⟩
  · refine touches.swaps.filled counted.filled (fun bits left => ?_)
    obtain ⟨bits', rfl, kept⟩ := Option.bind_eq_some_iff.mp left
    rw [cleared] at kept
    split at kept
    · cases kept
    next some =>
      rw [← Option.some.inj kept]
      exact some
  · rw [← counted.size, left, length_append] at length
    cases flag : (ss.root.delete seq false ss.nodes).2.1 with
    | false => simpa [flag] using length
    | true =>
      simp only [flag, if_true, length_singleton] at length ⊢
      omega
  · have cells := touches.swaps.length
    have nodes := counted.nodes
    rw [count]
    simp only
    generalize (ss.root.delete seq false ss.nodes).1.cells = after at cells
    cases old with
    | none => simp [cellAt] at cells ⊢; omega
    | some bits =>
      rw [Option.bind_some] at cells ⊢
      cases left : cleared base seq bits with
      | none => simp [cellAt, left] at cells ⊢; omega
      | some bits' => simp [cellAt, left] at cells ⊢; omega

theorem delete_inv (inv : ss.Inv) (seq : Nat) : (ss.delete seq).1.Inv := by
  refine ⟨delete_counted inv.toCounted seq, ?_⟩
  exact delete_cases seq (fun ss => Strict ss.root.cells) inv.strict empty_inv.strict
    (fun size _ => delete_ordered inv.strict seq ss.nodes)

theorem mem_delete (inv : ss.Inv) (seq x : Nat) :
    x ∈ members (ss.delete seq).1.root.cells ↔ x ≠ seq ∧ x ∈ members ss.root.cells := by
  have perm := delete_perm ss.root seq ss.nodes
  have flag := delete_flag (inv.strict.finds seq) ss.nodes
  have once := members_nodup inv.strict
  have left : x ∈ members (ss.root.delete seq false ss.nodes).1.cells ↔
      x ≠ seq ∧ x ∈ members ss.root.cells := by
    rw [perm.nodup_iff] at once
    rw [perm.mem_iff, mem_append]
    split at once
    next gone =>
      have fresh := (nodup_cons.mp once).1
      simp only [gone, if_true, mem_singleton]
      constructor
      · intro inside
        refine ⟨?_, .inr inside⟩
        rintro rfl
        exact fresh inside
      · rintro ⟨other, same | inside⟩
        · exact absurd same other
        · exact inside
    next kept =>
      rw [if_neg kept]
      simp only [not_mem_nil, false_or]
      refine ⟨fun inside => ⟨?_, inside⟩, fun both => both.2⟩
      rintro rfl
      refine kept (flag.mpr (perm.mem_iff.mpr ?_))
      exact mem_append_right _ inside
  rw [delete]
  split
  next none => simp [none, members]
  simp only
  split
  · split
    next gone last =>
      have length := perm.length_eq
      rw [if_pos gone, length_append, length_singleton, ← inv.size] at length
      have nothing : members (ss.root.delete seq false ss.nodes).1.cells = [] :=
        eq_nil_of_length_eq_zero (by omega)
      rw [← left, nothing]
      simp [empty, members]
    · exact left
  · exact left

theorem delete_present {seq : Nat} (finds : Finds seq ss.root.cells) :
    (ss.delete seq).2 = true ↔ seq ∈ members ss.root.cells := by
  rw [delete]
  split
  next none => simp [none, members]
  rw [← delete_flag finds ss.nodes]
  simp only
  split
  next gone => simp [gone]
  next kept => simp [kept]

/-! Runs. -/

inductive Op where
  | insert (seq : Nat)
  | delete (seq : Nat)

def Op.seq : Op → Nat
  | insert seq => seq
  | delete seq => seq

def step (ss : SequenceSet) : Op → SequenceSet
  | .insert seq => ss.insert seq
  | .delete seq => (ss.delete seq).1

def Present (ops : List Op) (x : Nat) : Prop :=
  ∃ before after, ops = before ++ Op.insert x :: after ∧ Op.delete x ∉ after

variable {ops : List Op}

theorem present_snoc_insert {seq x : Nat} :
    Present (ops ++ [.insert seq]) x ↔ x = seq ∨ Present ops x := by
  constructor
  · rintro ⟨before, after, same, kept⟩
    rcases eq_nil_or_concat after with rfl | ⟨after, op, rfl⟩
    · have last := append_inj_right' same rfl
      simp only [List.cons.injEq, Op.insert.injEq, and_true] at last
      exact .inl last.symm
    · rw [concat_eq_append, ← cons_append, ← append_assoc] at same
      refine .inr ⟨before, after, append_inj_left' same rfl, fun deleted => kept ?_⟩
      simp [deleted]
  · rintro (rfl | ⟨before, after, rfl, kept⟩)
    · exact ⟨ops, [], rfl, by simp⟩
    · exact ⟨before, after ++ [.insert seq], by simp, by simpa using kept⟩

theorem present_snoc_delete {seq x : Nat} :
    Present (ops ++ [.delete seq]) x ↔ x ≠ seq ∧ Present ops x := by
  constructor
  · rintro ⟨before, after, same, kept⟩
    rcases eq_nil_or_concat after with rfl | ⟨after, op, rfl⟩
    · have last := append_inj_right' same rfl
      simp at last
    rw [concat_eq_append, ← cons_append, ← append_assoc] at same
    have last := append_inj_right' same rfl
    simp only [List.cons.injEq, and_true] at last
    subst last
    refine ⟨?_, before, after, append_inj_left' same rfl, fun deleted => kept ?_⟩
    · rintro rfl
      exact kept (by simp)
    · simp [deleted]
  · rintro ⟨other, before, after, rfl, kept⟩
    exact ⟨before, after ++ [.delete seq], by simp, by simpa [other] using kept⟩

theorem run_members (small : ∀ op ∈ ops, op.seq < 2 ^ 64 - 2048) :
    (run step empty ops).Inv ∧
      ∀ x, x ∈ members (run step empty ops).root.cells ↔ Present ops x := by
  induction ops using List.reverseRecOn with
  | nil =>
    refine ⟨empty_inv, fun x => ?_⟩
    simp [run, empty, members, Present]
  | append_singleton ops op ih =>
    obtain ⟨inv, same⟩ := ih (fun op member => small op (mem_append_left _ member))
    have bound := small op (by simp)
    rw [run_append]
    generalize run step empty ops = ss at inv same
    cases op with
    | insert seq =>
      have room : seq + numEntries < maxUint64 := by
        simp only [Op.seq, numEntries, maxUint64] at *
        omega
      refine ⟨insert_inv inv room, fun x => ?_⟩
      rw [present_snoc_insert, ← same]
      exact mem_insert (inv.strict.finds seq) x
    | delete seq =>
      refine ⟨delete_inv inv seq, fun x => ?_⟩
      rw [present_snoc_delete, ← same]
      exact mem_delete inv seq x

/-- Every query answers for the plain set of the sequences with `P`. -/
structure Holds (ss : SequenceSet) (P : Nat → Prop) : Prop where
  present : ∀ x, ss.existsSeq x = true ↔ P x
  deletes : ∀ x, (ss.delete x).2 = true ↔ P x
  size : ss.size = {x | P x}.ncard
  finite : {x | P x}.Finite
  bounds : ∀ x, P x → IsLeast {x | P x} ss.minMax.1 ∧ IsGreatest {x | P x} ss.minMax.2
  range : ∃ visited : List Nat, visited.Pairwise (· < ·) ∧ (∀ x, x ∈ visited ↔ P x) ∧
    ∀ {σ : Type} (f : σ → Nat → σ × Bool) (s : σ), ss.range f s = (visit f s visited).1

theorem Inv.holds (inv : ss.Inv) {P : Nat → Prop} (same : ∀ x, x ∈ members ss.root.cells ↔ P x) :
    ss.Holds P := by
  have set : {x | P x} = ((members ss.root.cells).toFinset : Set Nat) := by
    ext x
    simp [same]
  refine ⟨?_, ?_, ?_, ?_, ?_, ?_⟩
  · intro x
    rw [← same]
    exact existsSeq_iff (inv.strict.finds x)
  · intro x
    rw [← same]
    exact delete_present (inv.strict.finds x)
  · rw [set, Set.ncard_coe_finset, toFinset_card_of_nodup (members_nodup inv.strict)]
    exact inv.size
  · rw [set]
    exact Finset.finite_toSet _
  · intro x present
    have some : ss.root ≠ .nil := by
      intro none
      rw [← same, none] at present
      simp [members] at present
    have least := leftMin_spec inv.strict inv.filled some
    have greatest := rightMax_spec inv.strict inv.filled some
    rw [minMax, if_neg some]
    constructor
    · exact ⟨(same _).mp least.1, fun y inside => least.2 y ((same y).mpr inside)⟩
    · exact ⟨(same _).mp greatest.1, fun y inside => greatest.2 y ((same y).mpr inside)⟩
  · refine ⟨members ss.root.cells, members_sorted inv.strict, same, fun f s => ?_⟩
    rw [SequenceSet.range, iter_eq, reported_strict inv.strict]

/-- Whatever was inserted and deleted, the set holds exactly what was inserted after its last
deletion, and every query says so. -/
theorem holds_present (ops : List Op) (small : ∀ op ∈ ops, op.seq < 2 ^ 64 - 2048) :
    (∀ x, (run step empty ops).existsSeq x = true ↔ Present ops x) ∧
    (∀ x, ((run step empty ops).delete x).2 = true ↔ Present ops x) ∧
    (run step empty ops).size = {x | Present ops x}.ncard ∧ {x | Present ops x}.Finite ∧
    (run step empty ops).nodes = (run step empty ops).root.nodeCount ∧
    (∀ c ∈ (run step empty ops).root.cells, block c ≠ []) ∧
    (∀ x, Present ops x →
      IsLeast {x | Present ops x} (run step empty ops).minMax.1 ∧
      IsGreatest {x | Present ops x} (run step empty ops).minMax.2) ∧
    ∃ visited : List Nat, visited.Pairwise (· < ·) ∧ (∀ x, x ∈ visited ↔ Present ops x) ∧
      ∀ {σ : Type} (f : σ → Nat → σ × Bool) (s : σ),
        (run step empty ops).range f s = (visit f s visited).1 := by
  obtain ⟨inv, same⟩ := run_members small
  obtain ⟨present, deletes, size, finite, bounds, range⟩ := inv.holds same
  exact ⟨present, deletes, size, finite, by rw [inv.nodes, cells_length], inv.filled, bounds, range⟩

theorem holds_one_of_two :
    (run step empty [.insert 5, .insert 4000, .delete 5]).existsSeq 4000 = true ∧
      (run step empty [.insert 5, .insert 4000, .delete 5]).existsSeq 5 = false := by
  obtain ⟨query, _⟩ := holds_present [.insert 5, .insert 4000, .delete 5] (by simp [Op.seq])
  constructor
  · exact (query 4000).mpr ⟨[.insert 5], [.delete 5], rfl, by simp⟩
  · rw [Bool.eq_false_iff, ne_eq, query 5]
    rw [show [Op.insert 5, .insert 4000, .delete 5] = [.insert 5, .insert 4000] ++ [.delete 5] from rfl,
      present_snoc_delete]
    simp

end SequenceSet

end LinearNats.Avl
