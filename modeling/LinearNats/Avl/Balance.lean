import LinearNats.Avl.SequenceSet

/-! The heights of the tree under the sequence set. -/
namespace LinearNats.Avl

namespace Node

def Valid : Node → Prop
  | nil => True
  | node _ _ l r h => l.Valid ∧ r.Valid ∧ h = Max.max l.height r.height + 1 ∧
    l.height ≤ r.height + 1 ∧ r.height ≤ l.height + 1

instance decidableValid : (t : Node) → Decidable t.Valid
  | nil => .isTrue trivial
  | node _ _ l r _ =>
    have := decidableValid l
    have := decidableValid r
    inferInstanceAs (Decidable (_ ∧ _ ∧ _))

theorem maxH_eq (l r : Node) : maxH l r = Max.max l.height r.height := by
  rw [maxH]
  split <;> omega

variable {base seq : Nat} {bits : Bits} {l r t : Node}

theorem height_nil : height nil = 0 := rfl

theorem height_node {h : Nat} : (node base bits l r h).height = h := rfl

theorem balanceF_node {h : Nat} :
    balanceF (node base bits l r h) = (l.height : Int) - r.height := rfl

theorem valid_node {h : Nat} : (node base bits l r h).Valid ↔ l.Valid ∧ r.Valid ∧
    h = Max.max l.height r.height + 1 ∧ l.height ≤ r.height + 1 ∧ r.height ≤ l.height + 1 := Iff.rfl

/-- A valid tree that was put together from parts of the heights `a` and `b`. -/
structure Joined (t : Node) (a b : Nat) : Prop where
  valid : t.Valid
  above : Max.max a b ≤ t.height
  below : t.height ≤ Max.max a b + 1
  even : a ≤ b + 1 → b ≤ a + 1 → t.height = Max.max a b + 1

/-- Where one side is too high by two, the rotations put it right. -/
theorem checkBalance_joined (base : Nat) (bits : Bits) (hl : l.Valid) (hr : r.Valid)
    (left : l.height ≤ r.height + 2) (right : r.height ≤ l.height + 2) :
    Joined (checkBalance (mk base bits l r)) l.height r.height := by
  rw [mk, checkBalance, balanceF_node]
  split
  next heavy =>
    cases l with
    | nil =>
      rw [height_nil] at heavy
      omega
    | node lbase lbits ll lr lh =>
      obtain ⟨hll, hlr, rfl, _, _⟩ := hl
      rw [height_node] at *
      rw [balanceF_node]
      split
      · cases lr with
        | nil =>
          rw [height_nil] at *
          omega
        | node mbase mbits ml mr mh =>
          obtain ⟨hml, hmr, rfl, _, _⟩ := hlr
          simp only [rotateL, rotateR, mk, maxH_eq, height_node] at *
          constructor <;> simp only [valid_node, height_node, hll, hml, hmr, hr, true_and] <;> omega
      · simp only [rotateR, mk, maxH_eq]
        constructor <;> simp only [valid_node, height_node, hll, hlr, hr, true_and] <;> omega
  split
  next heavy =>
    cases r with
    | nil =>
      rw [height_nil] at heavy
      omega
    | node rbase rbits rl rr rh =>
      obtain ⟨hrl, hrr, rfl, _, _⟩ := hr
      rw [height_node] at *
      rw [balanceF_node]
      split
      · cases rl with
        | nil =>
          rw [height_nil] at *
          omega
        | node mbase mbits ml mr mh =>
          obtain ⟨hml, hmr, rfl, _, _⟩ := hrl
          simp only [rotateL, rotateR, mk, maxH_eq, height_node] at *
          constructor <;> simp only [valid_node, height_node, hl, hml, hmr, hrr, true_and] <;> omega
      · simp only [rotateL, mk, maxH_eq]
        constructor <;> simp only [valid_node, height_node, hl, hrl, hrr, true_and] <;> omega
  · rw [maxH_eq]
    exact ⟨⟨hl, hr, rfl, by omega, by omega⟩, Nat.le_succ _, le_refl _, fun _ _ => rfl⟩

theorem checkBalance_of_valid (valid : t.Valid) : checkBalance t = t := by
  cases t with
  | nil => rfl
  | node base bits l r h =>
    obtain ⟨_, _, _, left, right⟩ := valid
    rw [checkBalance, balanceF_node, if_neg (by omega), if_neg (by omega)]

theorem setHeight_of_valid (valid : t.Valid) : setHeight t = t := by
  cases t with
  | nil => rfl
  | node base bits l r h =>
    obtain ⟨_, _, rfl, _, _⟩ := valid
    rw [setHeight, mk, maxH_eq]

def Grown (old new : Node) : Prop := new.Valid ∧ old.height ≤ new.height ∧ new.height ≤ old.height + 1

def Shrunk (old new : Node) : Prop := new.Valid ∧ old.height ≤ new.height + 1 ∧ new.height ≤ old.height

theorem insert_grown (valid : t.Valid) (seq : Nat) (inserted : Bool) (nodes : Nat) :
    Grown t (insert seq t inserted nodes).1 := by
  induction t with
  | nil => exact ⟨⟨trivial, trivial, rfl, by decide, by decide⟩, Nat.zero_le _, Nat.le_refl _⟩
  | node base bits l r h ihl ihr =>
    obtain ⟨hl, hr, rfl, left, right⟩ := valid
    rw [insert, Grown, height_node]
    by_cases below : seq < base
    · obtain ⟨grown, low, high⟩ := ihl hl
      obtain ⟨valid, above, under, even⟩ :=
        checkBalance_joined base bits grown hr (by omega) (by omega)
      simp only [if_pos below]
      exact ⟨valid, by omega, by omega⟩
    by_cases beyond : past base ≤ seq
    · obtain ⟨grown, low, high⟩ := ihr hr
      obtain ⟨valid, above, under, even⟩ :=
        checkBalance_joined base bits hl grown (by omega) (by omega)
      simp only [if_neg below, if_pos beyond]
      exact ⟨valid, by omega, by omega⟩
    · obtain ⟨valid, above, under, even⟩ :=
        checkBalance_joined base (set base bits seq inserted).1 hl hr (by omega) (by omega)
      simp only [if_neg below, if_neg beyond]
      exact ⟨valid, by omega, by omega⟩

theorem insertNodePrev_grown {nn : Node} (new : nn.Valid) (low : nn.height ≤ 1) (valid : t.Valid)
    (some_ : t ≠ nil) : Grown t (insertNodePrev nn t) := by
  induction t with
  | nil => exact absurd rfl some_
  | node base bits l r h ihl _ =>
    obtain ⟨hl, hr, rfl, left, right⟩ := valid
    rw [Grown, height_node]
    cases l with
    | nil =>
      rw [height_nil] at *
      obtain ⟨valid, above, under, even⟩ :=
        checkBalance_joined base bits new hr (by omega) (by omega)
      simp only [insertNodePrev]
      exact ⟨valid, by omega, by omega⟩
    | node lbase lbits ll lr lh =>
      obtain ⟨grown, low, high⟩ := ihl hl (by simp)
      obtain ⟨valid, above, under, even⟩ :=
        checkBalance_joined base bits grown hr (by omega) (by omega)
      simp only [insertNodePrev] at *
      exact ⟨valid, by omega, by omega⟩

theorem merge_shrunk {h : Nat} (valid : (node base bits l r h).Valid)
    (shallow : r = nil ∨ l.height ≤ 1) : Shrunk (node base bits l r h) (merge l r) := by
  obtain ⟨hl, hr, rfl, left, right⟩ := valid
  rw [Shrunk, height_node]
  cases l with
  | nil =>
    rw [merge, height_nil] at *
    exact ⟨hr, by omega, by omega⟩
  | node lbase lbits ll lr lh =>
    cases r with
    | nil =>
      rw [merge, height_nil] at *
      · exact ⟨hl, by omega, by omega⟩
      · simp
    | node rbase rbits rl rr rh =>
      have low := shallow.resolve_left (by simp)
      obtain ⟨valid, above, under⟩ := insertNodePrev_grown hl low hr (by simp)
      have := hl.2.2.1
      have := hr.2.2.1
      simp only [height_node, merge] at *
      exact ⟨valid, by omega, by omega⟩

/-- A node that becomes empty between two children has a left one without children. -/
def Shallow (seq : Nat) : Node → Prop
  | nil => True
  | node base bits l r _ =>
    if seq < base then l.Shallow seq
    else if past base ≤ seq then r.Shallow seq
    else (clear base bits seq false).2.2 = true → r = nil ∨ l.height ≤ 1

instance decidableShallow (seq : Nat) : (t : Node) → Decidable (t.Shallow seq)
  | nil => .isTrue trivial
  | node base _ l r _ =>
    have := decidableShallow seq l
    have := decidableShallow seq r
    inferInstanceAs (Decidable (if seq < base then _ else if past base ≤ seq then _ else _ = true → _))

theorem delete_shrunk (valid : t.Valid) (shallow : t.Shallow seq) (nodes : Nat) :
    Shrunk t (delete seq t false nodes).1 := by
  induction t with
  | nil => exact ⟨trivial, Nat.zero_le _, Nat.le_refl _⟩
  | node base bits l r h ihl ihr =>
    have whole := valid
    obtain ⟨hl, hr, rfl, left, right⟩ := valid
    rw [Shallow] at shallow
    rw [delete.eq_def]
    split at shallow
    next below =>
      obtain ⟨shrunk, low, high⟩ := ihl hl shallow
      obtain ⟨valid, above, under, even⟩ :=
        checkBalance_joined base bits shrunk hr (by omega) (by omega)
      simp only [if_pos below, Shrunk, height_node]
      exact ⟨valid, by omega, by omega⟩
    next below =>
    split at shallow
    next beyond =>
      obtain ⟨shrunk, low, high⟩ := ihr hr shallow
      obtain ⟨valid, above, under, even⟩ :=
        checkBalance_joined base bits hl shrunk (by omega) (by omega)
      simp only [if_neg below, if_pos beyond, Shrunk, height_node]
      exact ⟨valid, by omega, by omega⟩
    next beyond =>
    simp only [if_neg below, if_neg beyond]
    split
    next empty =>
      have shrunk := merge_shrunk whole (shallow empty)
      rw [setHeight_of_valid shrunk.1, checkBalance_of_valid shrunk.1]
      exact shrunk
    · have kept : (node base (clear base bits seq false).1 l r _).Valid := ⟨hl, hr, rfl, left, right⟩
      rw [setHeight_of_valid kept, checkBalance_of_valid kept]
      exact ⟨kept, Nat.le_succ _, le_refl _⟩

end Node

namespace SequenceSet

def Shallow (ss : SequenceSet) : Op → Prop
  | .insert _ => True
  | .delete seq => ss.root.Shallow seq

instance (ss : SequenceSet) : DecidablePred ss.Shallow
  | .insert _ => .isTrue trivial
  | .delete seq => Node.decidableShallow seq ss.root

theorem step_valid {ss : SequenceSet} (valid : ss.root.Valid) {op : Op} (shallow : ss.Shallow op) :
    (ss.step op).root.Valid := by
  cases op with
  | insert seq => exact (Node.insert_grown valid seq false ss.nodes).1
  | delete seq =>
    exact delete_cases seq (fun ss => ss.root.Valid) valid trivial
      (fun _ _ => (Node.delete_shrunk valid shallow ss.nodes).1)

/-- The tree is an AVL tree as long as no deletion has to hang up more than one node at once. -/
theorem run_valid (ops : List Op) (shallow : Along step Shallow empty ops) :
    (run step empty ops).root.Valid :=
  along_invariant step Shallow (fun ss => ss.root.Valid) (fun _ _ valid here => step_valid valid here)
    (show empty.root.Valid from trivial) ops shallow

/-- The middle one of three nodes goes. -/
theorem run_valid_middle :
    Along step Shallow empty [.insert 2048, .insert 0, .insert 4096, .delete 2048] ∧
      (run step empty [.insert 2048, .insert 0, .insert 4096, .delete 2048]).root.Valid :=
  have shallow : Along step Shallow empty [.insert 2048, .insert 0, .insert 4096, .delete 2048] := by
    decide +kernel
  ⟨shallow, run_valid _ shallow⟩

/-- Of seven nodes the root goes: four are hung up at the left end of the other two. -/
theorem deleted_root_leans :
    ¬ (run step empty [.insert 0, .insert 2048, .insert 4096, .insert 8192, .insert 12288,
      .insert 10240, .insert 6144, .delete 8192]).root.Valid := by
  decide +kernel

end SequenceSet

end LinearNats.Avl
