import LinearNats.Sublist.Matching

/-! The generic sublist: values under subject filters, without queues and without a cache. -/
namespace LinearNats.Gsl
open Sublists Server List

variable {T : Type} [DecidableEq T]

abbrev Subs (T : Type) := List (T × Bytes)

structure GenericSublist (T : Type) where
  root : Level (Subs T)
  count : Nat

namespace GenericSublist

def newSublist : GenericSublist T := ⟨.newLevel, 0⟩

/-- The root level as the level under a node, with which the loops start. -/
def rootNode (s : GenericSublist T) : Node (Subs T) := .mk (some s.root) []

/-- The count is a `uint32`. -/
def insert (s : GenericSublist T) (subject : Bytes) (value : T) :
    GenericSublist T × Option SublistError :=
  let (n, ok) := insertLoop [] (fun subs => (Table.set subs value subject, ())) (tokens subject)
    false s.rootNode
  let root := n.next.getD .newLevel
  match ok with
  | some () => (⟨root, (s.count + 1) % 2 ^ 32⟩, none)
  | none => (⟨root, s.count⟩, some .invalidSubject)

def removeFromNode (value : T) (subs : Subs T) : Option (Subs T × Unit) :=
  if (Table.get subs value).isSome then some (Table.erase subs value, ()) else none

def remove (s : GenericSublist T) (subject : Bytes) (value : T) :
    GenericSublist T × Option SublistError :=
  match removeLoop (removeFromNode value) List.isEmpty (tokens subject) false (some s.rootNode) with
  | .error e => (s, some e)
  | .ok (n, _) => (⟨n.next.getD .newLevel, (s.count + (2 ^ 32 - 1)) % 2 ^ 32⟩, none)

variable (order : Table.Order (T × Bytes))

/-- The calls of `callbacksForResults` after those made before. -/
def callbacksForResults (calls : List T) (subs : Subs T) : List T :=
  calls ++ (order.visit subs).map Prod.fst

def matchCallbacks (s : GenericSublist T) (subject : Bytes) : List T :=
  (matchTokens subject).elim [] (fun tokens =>
    matchLevel (callbacksForResults order) (some s.root) tokens none none [])

def hasInterestNum (s : GenericSublist T) (subject : Bytes) : Bool × Nat :=
  (matchTokens subject).elim (false, 0) (fun tokens =>
    matchLevelForAny (fun np subs => np + subs.length) List.isEmpty (some s.root) tokens none none 0)

def hasInterest (s : GenericSublist T) (subject : Bytes) : Bool := (s.hasInterestNum subject).1

def matchesFullWildcard (s : GenericSublist T) : Bool := s.root.fwc.isSome

end GenericSublist

/-- The nodes that a level branches to, in the order in which `singleFilter` looks at them. -/
def branches {δ : Type} (l : Level δ) : List (Node δ) :=
  l.pwc.toList ++ l.fwc.toList ++ l.nodes.map Prod.snd

theorem sizeOf_branch {δ : Type} [SizeOf δ] {l l' : Level δ} {n : Node δ} (member : n ∈ branches l)
    (below : n.next = some l') : sizeOf l' < sizeOf l := by
  obtain ⟨nodes, pwc, fwc⟩ := l
  obtain ⟨next, data⟩ := n
  cases below
  simp only [branches, Level.pwc, Level.fwc, Level.nodes, mem_append, Option.mem_toList,
    mem_map] at member
  rcases member with (rfl | rfl) | ⟨e, inside, same⟩
  · simp
    omega
  · simp
    omega
  have smaller := sizeOf_lt_of_mem inside
  obtain ⟨t, m⟩ := e
  cases same
  simp at smaller ⊢
  omega

/-- `filter` is the subject of the first entry, in the order of the map. -/
def singleFilter (order : Table.Order (T × Bytes)) (l : Level (Subs T)) (filter : Bytes) :
    Bytes × Bool :=
  if l.nodes.length > 1 then ([], false)
  else
    match single : branches l with
    | [next] =>
      let filter := ((order.visit next.data).head?.map Prod.snd).getD filter
      match below : next.next with
      | none => (filter, filter ≠ [])
      | some l' =>
        have : sizeOf l' < sizeOf l :=
          sizeOf_branch (by rw [single]; exact mem_singleton_self next) below
        if filter ≠ [] then
          if l'.numNodes > 0 then ([], false) else (filter, true)
        else singleFilter order l' filter
    | _ => ([], false)
termination_by sizeOf l

/-- `hasInterestStartingIn`: some node is on the path of these tokens or covers them. -/
def hasInterestStartingIn {δ : Type} : Option (Level δ) → List Token → Bool
  | none, _ => false
  | some _, [] => true
  | some l, token :: rest =>
    l.fwc.isSome || l.pwc.any (fun pwc => hasInterestStartingIn pwc.next rest) ||
      (Table.get l.nodes token).any (fun n => hasInterestStartingIn n.next rest)

namespace GenericSublist

def matchesSingleFilter (order : Table.Order (T × Bytes)) (s : GenericSublist T) : Bytes × Bool :=
  singleFilter order s.root []

def startingIn (s : GenericSublist T) (subject : Bytes) : Bool :=
  hasInterestStartingIn (some s.root) (tokens subject)

end GenericSublist

end LinearNats.Gsl
