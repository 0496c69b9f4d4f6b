import LinearNats.Table
import LinearNats.Server.Subject

/-! The trie that both subscription lists are built on: levels of nodes by token, with extra
pointers for the two wildcards. A node holds the data of one list; what that is, how it is changed
and how it is visited are parameters. -/
namespace LinearNats.Sublists
open Server

abbrev Token := Bytes

def tokens (subject : Bytes) : List Token := subject.splitOn btsep

/-- The pointer that a token of a subscription takes at a level. -/
inductive Key where
  | lit (t : Token)
  | pwc
  | fwc
  deriving DecidableEq

/-- A wildcard is a token of one byte; every other token is a literal. -/
def keyOf (t : Token) : Key :=
  if t = [Server.pwc] then .pwc else if t = [Server.fwc] then .fwc else .lit t

mutual

inductive Node (δ : Type) where
  | mk (next : Option (Level δ)) (data : δ)

inductive Level (δ : Type) where
  | mk (nodes : List (Token × Node δ)) (pwc fwc : Option (Node δ))

end

variable {δ ρ : Type}

namespace Node

def next : Node δ → Option (Level δ)
  | mk next _ => next

def data : Node δ → δ
  | mk _ data => data

end Node

namespace Level

def nodes : Level δ → List (Token × Node δ)
  | mk nodes _ _ => nodes

def pwc : Level δ → Option (Node δ)
  | mk _ pwc _ => pwc

def fwc : Level δ → Option (Node δ)
  | mk _ _ fwc => fwc

def newLevel : Level δ := mk [] none none

def child (l : Level δ) : Key → Option (Node δ)
  | .lit t => Table.get l.nodes t
  | .pwc => l.pwc
  | .fwc => l.fwc

def setChild (l : Level δ) (n : Node δ) : Key → Level δ
  | .lit t => mk (Table.set l.nodes t n) l.pwc l.fwc
  | .pwc => mk l.nodes (some n) l.fwc
  | .fwc => mk l.nodes l.pwc (some n)

def pruneNode (l : Level δ) : Key → Level δ
  | .lit t => mk (Table.erase l.nodes t) l.pwc l.fwc
  | .pwc => mk l.nodes none l.fwc
  | .fwc => mk l.nodes l.pwc none

def numNodes (l : Level δ) : Nat :=
  l.nodes.length + (if l.pwc.isSome then 1 else 0) + (if l.fwc.isSome then 1 else 0)

end Level

def Node.isEmpty (bare : δ → Bool) (n : Node δ) : Bool :=
  bare n.data && (match n.next with
    | none => true
    | some l => l.numNodes == 0)

inductive SublistError where
  | invalidSubject
  | notFound
  deriving DecidableEq

/-- The loop of `Insert` over the tokens, from the node it has reached. Missing nodes are made on the
way, with `new` in them, also on the way to a token that is refused; at the end `put` changes the
data of the node reached and says what the caller wants to know about it. -/
def insertLoop (new : δ) (put : δ → δ × ρ) : List Token → Bool → Node δ → Node δ × Option ρ
  | [], _, n => (.mk n.next (put n.data).1, some (put n.data).2)
  | t :: ts, sfwc, n =>
    if t = [] ∨ sfwc = true then (n, none)
    else
      let l := n.next.getD .newLevel
      let c := (l.child (keyOf t)).getD (.mk none new)
      let c := Node.mk (some (c.next.getD .newLevel)) c.data
      let (c, out) := insertLoop new put ts (keyOf t = .fwc) c
      (.mk (some (l.setChild c (keyOf t))) n.data, out)

/-- The loop of `remove` down the tokens, and back up over the nodes it has passed, which are pruned
when they are empty. `take` removes from the data of the last node, if it finds anything there, and
says what the caller wants to know about it. Nothing changes on an error. -/
def removeLoop (take : δ → Option (δ × ρ)) (bare : δ → Bool) :
    List Token → Bool → Option (Node δ) → Except SublistError (Node δ × ρ)
  | [], _, n =>
    match n with
    | none => .error .notFound
    | some n =>
      match take n.data with
      | none => .error .notFound
      | some (data, out) => .ok (.mk n.next data, out)
  | t :: ts, sfwc, n =>
    if t = [] ∨ sfwc = true then .error .invalidSubject
    else
      match n with
      | none => .error .notFound
      | some n =>
        match n.next with
        | none => .error .notFound
        | some l =>
          match removeLoop take bare ts (keyOf t = .fwc) (l.child (keyOf t)) with
          | .error e => .error e
          | .ok (c, out) =>
            let l := if c.isEmpty bare then l.pruneNode (keyOf t) else l.setChild c (keyOf t)
            .ok (.mk (some l) n.data, out)

/-- The tokens of a subject to match; none if one is empty, which the loop finds on the way. -/
def matchTokens (subject : Bytes) : Option (List Token) :=
  if [] ∈ tokens subject then none else some (tokens subject)

/-- `matchLevel`, with the variables `pwc` and `n` of the loop, which the code after the loop
reads. `visit` takes one node into the results. -/
def matchLevel (visit : ρ → δ → ρ) :
    Option (Level δ) → List Token → Option (Node δ) → Option (Node δ) → ρ → ρ
  | _, [], pwc, n, results =>
    let results := (n.map Node.data).elim results (visit results)
    (pwc.map Node.data).elim results (visit results)
  | none, _ :: _, _, _, results => results
  | some l, t :: toks, _, _, results =>
    let results := (l.fwc.map Node.data).elim results (visit results)
    let results := l.pwc.elim results (fun p => matchLevel visit p.next toks none none results)
    let n := Table.get l.nodes t
    matchLevel visit (n.bind Node.next) toks l.pwc n results

/-- `matchLevelForAny`; `count` adds the subscriptions of a node to the counters, `bare` says that
it has none. -/
def matchLevelForAny (count : ρ → δ → ρ) (bare : δ → Bool) :
    Option (Level δ) → List Token → Option (Node δ) → Option (Node δ) → ρ → Bool × ρ
  | _, [], pwc, n, np =>
    let np := (n.map Node.data).elim np (count np)
    if n.any (fun n => !bare n.data) then (true, np)
    else (pwc.any (fun n => !bare n.data), (pwc.map Node.data).elim np (count np))
  | none, _ :: _, _, _, np => (false, np)
  | some l, t :: toks, _, _, np =>
    match l.fwc with
    | some f => (true, count np f.data)
    | none =>
      let (found, np) := l.pwc.elim (false, np)
        (fun p => matchLevelForAny count bare p.next toks none none np)
      if found then (true, np)
      else
        let n := Table.get l.nodes t
        matchLevelForAny count bare (n.bind Node.next) toks l.pwc n np

end LinearNats.Sublists
