import LinearNats.Stree.Kids

/-! The subject tree: an adaptive radix trie over the bytes of the subjects. Methods of inner
nodes are called only after `isLeaf` was false, which is here the match on the constructor; the
other ways to panic are results of the functions. -/
namespace LinearNats.Stree
open List

inductive Node (α : Type) where
  | leaf (value : α) (suffix : Bytes)
  | inner (pre : Bytes) (kids : Kids (Node α))

def noPivot : UInt8 := 127

def pivot (subject : Bytes) (pos : Nat) : UInt8 := subject[pos]?.getD noPivot

def commonPrefixLen : Bytes → Bytes → Nat
  | a :: s, b :: t => if a = b then commonPrefixLen s t + 1 else 0
  | _, _ => 0

def slice (s : Bytes) (i j : Nat) : Except Panic Bytes :=
  if i ≤ j ∧ j ≤ s.length then .ok ((s.take j).drop i) else .error .sliceBounds

def sliceFrom (s : Bytes) (i : Nat) : Except Panic Bytes := slice s i s.length

theorem commonPrefixLen_le (s t : Bytes) :
    commonPrefixLen s t ≤ s.length ∧ commonPrefixLen s t ≤ t.length := by
  induction s generalizing t with
  | nil => simp [commonPrefixLen]
  | cons a s ih =>
    cases t with
    | nil => simp [commonPrefixLen]
    | cons b t =>
      have both := ih t
      rw [commonPrefixLen]
      split
      · simpa using both
      · simp

theorem Kids.sizeOf_findChild {α : Type} [SizeOf α] {k : Kids α} {c : UInt8} {x : α}
    (found : k.findChild c = some x) : sizeOf x < sizeOf k := by
  cases k with
  | slots width s =>
    have small := sizeOf_lt_of_mem (Table.mem_of_get found)
    simp only [Kids.slots.sizeOf_spec, Prod.mk.sizeOf_spec] at small ⊢
    omega
  | node48 key child =>
    simp only [Kids.findChild] at found
    split at found
    · cases found
    · have small := sizeOf_lt_of_mem (mem_of_getElem? found)
      simp only [Kids.node48.sizeOf_spec]
      omega
  | node256 child size =>
    simp only [Kids.findChild, Option.join_eq_some_iff] at found
    have small := sizeOf_lt_of_mem (mem_of_getElem? found)
    simp only [Kids.node256.sizeOf_spec, Option.some.sizeOf_spec] at small ⊢
    omega

theorem sizeOf_drop {s : Bytes} {n : Nat} (some : 0 < n) (inside : n ≤ s.length) :
    sizeOf (s.drop n) < sizeOf s := by
  cases s with
  | nil =>
    rw [length_nil] at inside
    omega
  | cons b s =>
    cases n with
    | zero => omega
    | succ n =>
      have shrinks : ∀ (t : Bytes) (m : Nat), sizeOf (t.drop m) ≤ sizeOf t := by
        intro t
        induction t with
        | nil => simp
        | cons a t ih =>
          intro m
          cases m with
          | zero => simp
          | succ m =>
            have tail := ih m
            simp only [drop_succ_cons, List.cons.sizeOf_spec]
            omega
      have tail := shrinks s n
      simp only [drop_succ_cons, List.cons.sizeOf_spec]
      omega

namespace Node

variable {α : Type}

def pair (pre : Bytes) (c : UInt8) (x : Node α) (d : UInt8) (y : Node α) :
    Except Panic (Node α) := do
  let kids ← Kids.newNode4.addChild c x
  let kids ← kids.addChild d y
  .ok (.inner pre kids)

/-- The node that takes the place of this one, and the old value if there was one. -/
def insert (n : Node α) (subject : Bytes) (value : α) (si : Nat) :
    Except Panic (Node α × Option α) :=
  match n with
  | .leaf old suffix => do
    let rest ← sliceFrom subject si
    if rest = suffix then .ok (.leaf value suffix, some old)
    else
      let cpi := commonPrefixLen suffix rest
      let pre ← slice subject si (si + cpi)
      let ln := Node.leaf old (suffix.drop cpi)
      let p := pivot (suffix.drop cpi) 0
      if _split : 0 < cpi ∧ si + cpi < subject.length ∧ some p = subject[si + cpi]? then
        let (np, _) ← insert ln subject value (si + cpi)
        let kids ← Kids.newNode4.addChild p np
        .ok (.inner pre kids, none)
      else
        let rest ← sliceFrom subject (si + cpi)
        let nn ← pair pre (pivot rest 0) (.leaf value rest) p ln
        .ok (nn, none)
  | .inner pre kids => do
    let cpi ← if 0 < pre.length then (sliceFrom subject si).map (commonPrefixLen pre) else .ok 0
    if pre.length ≤ cpi then
      -- Past the prefix, or there is none.
      let si := si + pre.length
      let p := pivot subject si
      match _found : kids.findChild p with
      | some nn => do
        let (nn, old) ← insert nn subject value si
        .ok (.inner pre (kids.setChild p nn), old)
      | none => do
        let rest ← sliceFrom subject si
        let kids ← kids.insertChild p (.leaf value rest)
        .ok (.inner pre kids, none)
    else
      let front ← slice subject si (si + cpi)
      let n := Node.inner (pre.drop cpi) kids
      let rest ← sliceFrom subject (si + front.length)
      let nn ← pair front (pivot (pre.drop cpi) 0) n (pivot rest 0) (.leaf value rest)
      .ok (nn, none)
termination_by sizeOf n
decreasing_by
  · have small := sizeOf_drop _split.1 (commonPrefixLen_le suffix rest).1
    simp only [Node.leaf.sizeOf_spec] at small ⊢
    exact Nat.add_lt_add_left small _
  · have small := Kids.sizeOf_findChild _found
    simp only [Node.inner.sizeOf_spec]
    omega

def prepend (pre : Bytes) : Node α → Node α
  | .leaf value suffix => .leaf value (pre ++ suffix)
  | .inner own kids => .inner (if 0 < pre.length then pre ++ own else own) kids

/-- The node with these children after one was deleted. -/
def shrinkNode (pre : Bytes) (kids : Kids (Node α)) : Except Panic (Node α) := do
  match ← kids.shrink with
  | .stays => .ok (.inner pre kids)
  | .only sn => .ok (prepend pre sn)
  | .smaller small => .ok (prepend pre (.inner [] small))

/-- The node that takes the place of this one, and the value if it was found. -/
def delete (n : Node α) (subject : Bytes) (si : Nat) :
    Except Panic (Option (Node α) × Option α) :=
  if subject.length = 0 then .ok (some n, none)
  else
    match n with
    | .leaf value suffix => do
      let rest ← sliceFrom subject si
      if rest = suffix then .ok (none, some value) else .ok (some (.leaf value suffix), none)
    | .inner pre kids => do
      if 0 < pre.length ∧ subject.length < si + pre.length then
        return (some (.inner pre kids), none)
      let same ← if 0 < pre.length then
        (slice subject si (si + pre.length)).map (fun part => part == pre) else .ok true
      if !same then
        return (some (.inner pre kids), none)
      let si := si + pre.length
      let p := pivot subject si
      match _found : kids.findChild p with
      | none => .ok (some (.inner pre kids), none)
      | some (.leaf value suffix) => do
        let rest ← sliceFrom subject si
        if rest = suffix then
          let nn ← shrinkNode pre (kids.deleteChild p)
          .ok (some nn, some value)
        else .ok (some (.inner pre kids), none)
      | some (.inner own below) => do
        let (nn, value) ← delete (.inner own below) subject si
        match nn with
        | some nn => .ok (some (.inner pre (kids.setChild p nn)), value)
        | none => .error .nilChild
termination_by sizeOf n
decreasing_by
  have small := Kids.sizeOf_findChild _found
  simp only [Node.inner.sizeOf_spec] at small ⊢
  omega

def find (n : Node α) (subject : Bytes) (si : Nat) : Except Panic (Option α) :=
  match n with
  | .leaf value suffix => do
    let rest ← sliceFrom subject si
    .ok (if rest = suffix then some value else none)
  | .inner pre kids => do
    let same ← if 0 < pre.length then
      (slice subject si (min (si + pre.length) subject.length)).map (fun part => part == pre)
      else .ok true
    if !same then
      return none
    let si := si + pre.length
    match _found : kids.findChild (pivot subject si) with
    | some an => find an subject si
    | none => .ok none
termination_by sizeOf n
decreasing_by
  have small := Kids.sizeOf_findChild _found
  simp only [Node.inner.sizeOf_spec]
  omega

end Node

structure SubjectTree (α : Type) where
  root : Option (Node α)
  size : Int

namespace SubjectTree

variable {α : Type}

def empty : SubjectTree α := ⟨none, 0⟩

/-- The new tree and the old value; the second result of the source is whether there is one. -/
def insert (t : SubjectTree α) (subject : Bytes) (value : α) :
    Except Panic (SubjectTree α × Option α) :=
  if noPivot ∈ subject then .ok (t, none)
  else
    match t.root with
    | none => .ok (⟨some (.leaf value subject), t.size + 1⟩, none)
    | some n => do
      let (n, old) ← n.insert subject value 0
      .ok (⟨some n, if old.isSome then t.size else t.size + 1⟩, old)

def find (t : SubjectTree α) (subject : Bytes) : Except Panic (Option α) :=
  match t.root with
  | none => .ok none
  | some n => n.find subject 0

def delete (t : SubjectTree α) (subject : Bytes) : Except Panic (SubjectTree α × Option α) :=
  match t.root with
  | none => .ok (t, none)
  | some n => do
    let (root, value) ← n.delete subject 0
    .ok (⟨root, if value.isSome then t.size - 1 else t.size⟩, value)

end SubjectTree

end LinearNats.Stree
