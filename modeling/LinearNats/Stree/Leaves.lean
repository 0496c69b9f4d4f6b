import LinearNats.Stree.Map

/-! The leaves of a tree, with their paths. -/
namespace LinearNats.Stree
open List

def tsep : UInt8 := 46

def tokens (subject : Bytes) : List Bytes := subject.splitOn tsep

variable {α β : Type}

theorem Kids.sizeOf_children [SizeOf β] {k : Kids β} {x : β} (member : x ∈ k.children) :
    sizeOf x < sizeOf k := by
  cases k with
  | slots width s =>
    obtain ⟨⟨c, y⟩, inside, rfl⟩ := mem_map.mp member
    have small := sizeOf_lt_of_mem inside
    simp only [Kids.slots.sizeOf_spec, Prod.mk.sizeOf_spec] at small ⊢
    omega
  | node48 key child =>
    have small := sizeOf_lt_of_mem (show x ∈ child from member)
    simp only [Kids.node48.sizeOf_spec]
    omega
  | node256 child size =>
    obtain ⟨y, inside, same⟩ := mem_filterMap.mp member
    have small := sizeOf_lt_of_mem inside
    rw [show y = some x from same] at small
    simp only [Kids.node256.sizeOf_spec, Option.some.sizeOf_spec] at small ⊢
    omega

def under (pre : Bytes) (p : Bytes × α) : Bytes × α := (pre ++ p.1, p.2)

theorem under_under (pre own : Bytes) (p : Bytes × α) :
    under pre (under own p) = under (pre ++ own) p := by
  simp [under]

theorem flatMap_attach (xs : List β) (f : β → List α) :
    xs.attach.flatMap (fun x => f x.1) = xs.flatMap f := by
  conv_rhs => rw [← attach_map_subtype_val xs, flatMap_map]

namespace Node

def leaves : Node α → List (Bytes × α)
  | .leaf value suffix => [(suffix, value)]
  | .inner pre kids => kids.children.attach.flatMap (fun x => (leaves x.1).map (under pre))
termination_by n => sizeOf n
decreasing_by
  have small := Kids.sizeOf_children x.2
  simp only [Node.inner.sizeOf_spec]
  omega

theorem leaves_inner (pre : Bytes) (kids : Kids (Node α)) :
    leaves (.inner pre kids) = kids.children.flatMap (fun x => x.leaves.map (under pre)) := by
  rw [leaves]
  exact flatMap_attach kids.children (fun x => x.leaves.map (under pre))

def first : Node α → UInt8
  | .leaf _ suffix => pivot suffix 0
  | .inner pre _ => pivot pre 0

theorem Starts.first_eq {c : UInt8} {n : Node α} (starts : Starts c n) : n.first = c := by
  cases n with
  | leaf => exact starts
  | inner => exact starts.2

theorem mem_children {kids : Kids (Node α)} (wf : kids.WF) {x : Node α} :
    x ∈ kids.children ↔ ∃ c, kids.findChild c = some x := by
  rw [(Kids.children_perm wf).mem_iff, mem_map]
  constructor
  · rintro ⟨⟨c, y⟩, member, rfl⟩
    exact ⟨c, (Kids.mem_pairs wf).mp member⟩
  · rintro ⟨c, found⟩
    exact ⟨(c, x), (Kids.mem_pairs wf).mpr found, rfl⟩

theorem children_first_nodup {kids : Kids (Node α)} (wf : kids.WF)
    (starts : ∀ c x, kids.findChild c = some x → Starts c x) :
    (kids.children.map first).Nodup := by
  have keys : (kids.pairs.map Prod.snd).map first = kids.pairs.map Prod.fst := by
    rw [map_map]
    apply map_congr_left
    rintro ⟨c, x⟩ member
    exact (starts c x ((Kids.mem_pairs wf).mp member)).first_eq
  rw [((Kids.children_perm wf).map first).nodup_iff, keys]
  exact Kids.pairs_keys wf

theorem mem_leaves {n : Node α} (valid : Valid n) {s : Bytes} {v : α} :
    (s, v) ∈ n.leaves ↔ Has n s v := by
  induction valid generalizing s with
  | leaf =>
    rw [leaves, mem_singleton, Prod.mk.injEq, has_leaf]
  | inner plain wf low starts below ih =>
    simp only [leaves_inner, mem_flatMap, mem_map]
    constructor
    · rintro ⟨x, member, ⟨r, w⟩, inside, same⟩
      obtain ⟨c, found⟩ := (mem_children wf).mp member
      simp only [under, Prod.mk.injEq] at same
      obtain ⟨rfl, rfl⟩ := same
      exact .inner found ((ih c x found).mp inside)
    · intro has
      cases has with
      | @inner _ _ c x rest _ found has =>
        exact ⟨x, (mem_children wf).mpr ⟨c, found⟩, (rest, v), (ih c x found).mpr has, rfl⟩

theorem leaf_pivot {c : UInt8} {n : Node α} (valid : Valid n) (starts : Starts c n)
    {p : Bytes × α} (member : p ∈ n.leaves) : Stree.pivot p.1 0 = c :=
  Has.pivot starts ((mem_leaves valid).mp member)

theorem leaves_keys {n : Node α} (valid : Valid n) : (n.leaves.map Prod.fst).Nodup := by
  induction valid with
  | leaf => simp [leaves]
  | @inner pre kids plain wf low starts below ih =>
    have paths : ∀ x : Node α, (x.leaves.map (under pre)).map Prod.fst =
        (x.leaves.map Prod.fst).map (fun s => pre ++ s) := by
      intro x
      rw [map_map, map_map]
      rfl
    rw [leaves_inner, map_flatMap, nodup_flatMap]
    constructor
    · intro x member
      obtain ⟨c, found⟩ := (mem_children wf).mp member
      rw [paths]
      exact (ih c x found).map (fun _ _ same => append_cancel_left same)
    · -- Two children are filed under different bytes, which their paths start with.
      have differ := pairwise_map.mp (children_first_nodup wf starts)
      refine differ.imp_of_mem ?_
      intro x y memberX memberY apart
      obtain ⟨c, foundX⟩ := (mem_children wf).mp memberX
      obtain ⟨d, foundY⟩ := (mem_children wf).mp memberY
      rw [Function.onFun, paths, paths, disjoint_left]
      intro s inX inY
      simp only [mem_map] at inX inY
      obtain ⟨_, ⟨p, memberP, rfl⟩, rfl⟩ := inX
      obtain ⟨_, ⟨q, memberQ, rfl⟩, same⟩ := inY
      have path := append_cancel_left same
      have left := leaf_pivot (below c x foundX) (starts c x foundX) memberP
      have right := leaf_pivot (below d y foundY) (starts d y foundY) memberQ
      rw [path, left] at right
      apply apart
      rw [(starts c x foundX).first_eq, (starts d y foundY).first_eq, right]

end Node

/-! Trees that inserts and deletes of literal subjects have built. -/

/-- A subject without an empty token; its bytes mean themselves. -/
structure LiteralSubject extends Subject where
  tokensFilled : ∀ t ∈ tokens bytes, t ≠ []

inductive Change (α : Type) where
  | insert (subject : LiteralSubject) (value : α)
  | delete (subject : LiteralSubject)

def Change.op : Change α → Op α
  | .insert subject value => .insert subject.toSubject value
  | .delete subject => .delete subject.toSubject

def TokensFilled (m : List (Bytes × α)) : Prop :=
  ∀ s v, Table.get m s = some v → ∀ t ∈ tokens s, t ≠ []

theorem TokensFilled.apply {m : List (Bytes × α)} (filled : TokensFilled m) (change : Change α) :
    TokensFilled (specApply m change.op).1 := by
  cases change with
  | insert subject value => exact Table.all_set filled subject.bytes subject.tokensFilled
  | delete subject => exact Table.all_erase filled subject.bytes

theorem TokensFilled.run {m : List (Bytes × α)} (filled : TokensFilled m)
    (changes : List (Change α)) : TokensFilled (specRun m (changes.map Change.op)).1 := by
  induction changes generalizing m with
  | nil => exact filled
  | cons change changes ih => exact ih (filled.apply change)

end LinearNats.Stree
