import LinearNats.Stree.Leaves

/-! What `Match` and `MatchUntil` visit. A filter is cut into parts at its wildcards, and a walk over
the tree takes the prefixes of the nodes off them. The callback of `Match` sees the visited entries
in this order, that of `MatchUntil` until it stops the walk. -/
namespace LinearNats.Stree
open List

def pwc : UInt8 := 42
def fwc : UInt8 := 62

/-- The last part, with the separator it may start with taken off. -/
def lastPart : Bytes → List Bytes
  | [] => []
  | c :: s => if c = tsep then [s] else [c :: s]

/-- The loop of `genParts`: `prev` is the byte before the index, `run` what lies between the start
of the current part and the index, and the last argument what comes from the index on. -/
def genPartsFrom (prev : Option UInt8) (run : Bytes) (parts : List Bytes) : Bytes → List Bytes
  | [] => parts ++ lastPart run
  | c :: rest =>
    if c = tsep then
      match rest with
      | [] => genPartsFrom (some c) (run ++ [c]) parts []
      | d :: after =>
        if d = pwc ∧ (after = [] ∨ after.head? = some tsep) then
          let parts := (if run = [] then parts else parts ++ [run ++ [c]]) ++ [[d]]
          -- Behind the wildcard the separator is skipped too, unless the filter ends with it.
          if 2 ≤ after.length then genPartsFrom after.head? [] parts (after.drop 1)
          else genPartsFrom (some d) [] parts after
        else if d = fwc ∧ after = [] then
          genPartsFrom (some d) []
            ((if run = [] then parts else parts ++ [run ++ [c]]) ++ [[d]]) []
        else genPartsFrom (some c) (run ++ [c]) parts (d :: after)
    else if c = pwc ∨ c = fwc then
      if prev.any (fun p => p != tsep) then genPartsFrom (some c) (run ++ [c]) parts rest
      else if rest.length = 1 ∨ (2 ≤ rest.length ∧ rest.head? ≠ some tsep) then
        genPartsFrom (some c) (run ++ [c]) parts rest
      else if c = fwc ∧ rest ≠ [] then parts ++ lastPart (run ++ c :: rest)
      else if rest = [] then genPartsFrom (some c) [] (parts ++ [[c]]) []
      else genPartsFrom rest.head? [] (parts ++ [[c]]) (rest.drop 1)
    else genPartsFrom (some c) (run ++ [c]) parts rest
termination_by rest => rest.length
decreasing_by all_goals simp_wf <;> omega

def genParts (filter : Bytes) : List Bytes := genPartsFrom none [] [] filter

/-- The loop of `matchParts` over the parts from the current one on. -/
def matchPartsFrom (parts : List Bytes) (frag : Bytes) : List Bytes → Nat → List Bytes × Bool
  | [], _ => (parts, false)
  | part :: rest, si =>
    if frag.length ≤ si then (part :: rest, true)
    else if part = [pwc] then
      match (frag.drop si).findIdx? (fun c => c == tsep) with
      | none => if rest = [] then ([], true) else (part :: rest, true)
      | some index => matchPartsFrom parts frag rest (si + index + 1)
    else if part = [fwc] then ([], true)
    else
      let stop := min (si + part.length) frag.length
      if part.take (stop - si) ≠ (frag.take stop).drop si then (parts, false)
      else if stop < frag.length then matchPartsFrom parts frag rest stop
      else if stop < si + part.length then (part.drop (frag.length - si) :: rest, true)
      else if rest = [] then ([], true)
      else matchPartsFrom parts frag rest (si + part.length)

def matchParts (parts : List Bytes) (frag : Bytes) : List Bytes × Bool :=
  if frag.length = 0 then (parts, true) else matchPartsFrom parts frag parts 0

/-- The parts end with one that starts with the full wildcard. -/
def hasFWC (parts : List Bytes) : Bool := parts.getLast?.any (fun part => part.head? == some fwc)

namespace Node

variable {α : Type}

/-- A child of a node at which the parts end without a full wildcard; `below` is what `match` visits
from it on. -/
def ended (hasTermPWC : Bool) (pre : Bytes) (x : Node α) (below : List (Bytes × α)) :
    List (Bytes × α) :=
  match x with
  | .leaf value suffix =>
    if suffix = [] ∨ (hasTermPWC = true ∧ tsep ∉ suffix) then [(pre ++ suffix, value)] else []
  | .inner .. => if hasTermPWC then below else []

/-- `match` from a node on. `full` is `hasFWC` of the parts that the call started with; going down
to the child found for a text stays in the same call. -/
def matchNode : Node α → List Bytes → Bool → Bytes → List (Bytes × α)
  | .leaf value suffix, parts, full, pre =>
    let (nparts, matched) := matchParts parts suffix
    if matched = true ∧ (nparts = [] ∨ (full = true ∧ nparts.length = 1)) then
      [(pre ++ suffix, value)]
    else []
  | .inner own kids, parts, full, pre =>
    let (nparts, matched) := matchParts parts own
    let terminal := parts.drop (parts.length - 1)
    if matched = false then []
    else if nparts = [] ∧ full = false then
      kids.children.attach.flatMap (fun x => x.1.ended (terminal == [[pwc]]) (pre ++ own)
        (matchNode x.1 terminal (hasFWC terminal) (pre ++ own)))
    else
      match if nparts = [] then terminal else nparts with
      | [] => []
      | fp :: rest =>
        let p := pivot fp 0
        if fp.length = 1 ∧ (p = pwc ∨ p = fwc) then
          kids.children.attach.flatMap (fun x =>
            matchNode x.1 (fp :: rest) (hasFWC (fp :: rest)) (pre ++ own))
        else
          match _found : kids.findChild p with
          | none => []
          | some x => matchNode x (fp :: rest) full (pre ++ own)
termination_by n => sizeOf n
decreasing_by
  · have small := Kids.sizeOf_children x.2
    simp only [Node.inner.sizeOf_spec]
    omega
  · have small := Kids.sizeOf_children x.2
    simp only [Node.inner.sizeOf_spec]
    omega
  · have small := Kids.sizeOf_findChild _found
    simp only [Node.inner.sizeOf_spec]
    omega

end Node

/-- The entries that `Match` visits. A tree without entries and an empty filter visit nothing. -/
def SubjectTree.matched {α : Type} (t : SubjectTree α) (filter : Bytes) : List (Bytes × α) :=
  match t.root with
  | none => []
  | some n =>
    if filter = [] then [] else n.matchNode (genParts filter) (hasFWC (genParts filter)) []

def SubjectTree.visits {α : Type} (t : SubjectTree α) (filter subject : Bytes) : Bool :=
  (t.matched filter).any (fun entry => entry.1 == subject)

/-! A walk visits entries of the tree, each once at most. -/

variable {α : Type}

theorem flatMap_sublist {β γ : Type} {xs : List β} {f g : β → List γ}
    (each : ∀ x ∈ xs, (f x).Sublist (g x)) : (xs.flatMap f).Sublist (xs.flatMap g) := by
  induction xs with
  | nil => exact nil_sublist _
  | cons x xs ih =>
    rw [flatMap_cons, flatMap_cons]
    exact (each x mem_cons_self).append (ih (fun y inside => each y (mem_cons_of_mem x inside)))

namespace Node

theorem ended_sublist {pre : Bytes} {x : Node α} {below : List (Bytes × α)}
    (sub : below.Sublist (x.leaves.map (under pre))) (hasTermPWC : Bool) :
    (x.ended hasTermPWC pre below).Sublist (x.leaves.map (under pre)) := by
  cases x with
  | leaf value suffix =>
    rw [ended, leaves]
    split
    · exact Sublist.refl _
    · exact nil_sublist _
  | inner own kids =>
    rw [ended]
    split
    · exact sub
    · exact nil_sublist _

theorem matchNode_sublist {n : Node α} (valid : Valid n) (parts : List Bytes) (full : Bool)
    (pre : Bytes) : (n.matchNode parts full pre).Sublist (n.leaves.map (under pre)) := by
  induction valid generalizing parts full pre with
  | leaf =>
    rw [matchNode, leaves]
    dsimp only
    split
    · exact Sublist.refl _
    · exact nil_sublist _
  | @inner own kids plain wf low starts below ih =>
    have child : ∀ x ∈ kids.children, ∀ parts full,
        (x.matchNode parts full (pre ++ own)).Sublist (x.leaves.map (under (pre ++ own))) := by
      intro x inside parts full
      obtain ⟨c, found⟩ := (mem_children wf).mp inside
      exact ih c x found parts full (pre ++ own)
    have all : (leaves (.inner own kids)).map (under pre) =
        kids.children.flatMap (fun x => x.leaves.map (under (pre ++ own))) := by
      rw [leaves_inner, map_flatMap]
      simp only [map_map, Function.comp_def, under_under]
    rw [all, matchNode]
    dsimp only
    split
    · exact nil_sublist _
    split
    · rw [flatMap_attach kids.children (fun x => x.ended _ (pre ++ own) (x.matchNode _ _ (pre ++ own)))]
      exact flatMap_sublist (fun x inside => ended_sublist (child x inside _ _) _)
    split
    · exact nil_sublist _
    split
    · rw [flatMap_attach kids.children (fun x => x.matchNode _ _ (pre ++ own))]
      exact flatMap_sublist (fun x inside => child x inside _ _)
    split
    · exact nil_sublist _
    next x found =>
      have inside : x ∈ kids.children := (mem_children wf).mpr ⟨_, found⟩
      refine (child x inside _ _).trans ?_
      exact sublist_flatten_of_mem (mem_map_of_mem inside)

end Node

namespace SubjectTree

variable {t : SubjectTree α} {m : List (Bytes × α)}

theorem matched_sublist (valid : ∀ n, t.root = some n → n.Valid) (filter : Bytes) :
    (t.matched filter).Sublist (t.root.elim [] Node.leaves) := by
  rw [matched]
  cases root : t.root with
  | none => exact nil_sublist _
  | some n =>
    dsimp only
    split
    · exact nil_sublist _
    · have sub := Node.matchNode_sublist (valid n root) (genParts filter)
        (hasFWC (genParts filter)) []
      have same : (under [] : Bytes × α → Bytes × α) = id := rfl
      rwa [same, map_id] at sub

theorem Represents.of_matched (rep : Represents t m) {filter s : Bytes} {v : α}
    (inside : (s, v) ∈ t.matched filter) : Table.get m s = some v := by
  have leaf := (matched_sublist rep.valid filter).subset inside
  cases root : t.root with
  | none =>
    rw [root] at leaf
    cases leaf
  | some n =>
    rw [root] at leaf
    exact (rep.root_has root s v).mp ((Node.mem_leaves (rep.valid n root)).mp leaf)

end SubjectTree

/-! A tree for a finite map. -/

def treeOf : List (Bytes × α) → Except Panic (SubjectTree α)
  | [] => .ok .empty
  | (s, v) :: m => do
    let t ← treeOf m
    let (t, _) ← t.insert s v
    .ok t

theorem treeOf_represents {m : List (Bytes × α)} (keys : (m.map Prod.fst).Nodup)
    (subjects : ∀ e ∈ m, e.1 ≠ [] ∧ noPivot ∉ e.1) :
    ∃ t, treeOf m = .ok t ∧ t.Represents m := by
  induction m with
  | nil => exact ⟨.empty, rfl, .empty⟩
  | cons e m ih =>
    rw [map_cons, nodup_cons] at keys
    obtain ⟨t, built, rep⟩ := ih keys.2 (fun e' inside => subjects e' (mem_cons_of_mem e inside))
    obtain ⟨filled, plain⟩ := subjects e mem_cons_self
    obtain ⟨t', inserted, rep'⟩ := rep.insert ⟨e.1, filled, plain⟩ e.2
    refine ⟨t', ?_, ?_⟩
    · rw [treeOf, built]
      simp only [bind, Except.bind, inserted]
    · have absent := Table.get_eq_none_iff.mpr keys.1
      rwa [Table.set, Table.erase_of_none absent] at rep'

end LinearNats.Stree
