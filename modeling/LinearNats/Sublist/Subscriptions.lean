import LinearNats.Sublist.Literal

/-! The subscription list of an account: plain and queue subscriptions under their subjects, with a
cache of the results of `Match`. Statistics and the generation number are left out. -/
namespace LinearNats.Sublists
open Server

/-- A subscription, which is a pointer: two are the same only if their `id`s are. `remote` says that
its client is a route or a leaf node. -/
structure Subscription where
  id : Nat
  subject : Bytes
  queue : Option Bytes
  remote : Bool
  deriving DecidableEq

/-- The data of a node. The map of queue names is made when it is first needed, which no function
can see. -/
structure NodeSubs where
  psubs : List Subscription
  qsubs : List (Bytes × List Subscription)
  plist : Option (List Subscription)

namespace NodeSubs

def new : NodeSubs := ⟨[], [], none⟩

def isEmpty (n : NodeSubs) : Bool := n.psubs.isEmpty && n.qsubs.isEmpty

/-- No interest at the end of the tokens. -/
def noInterest (n : NodeSubs) : Bool :=
  (n.plist.getD []).isEmpty && n.psubs.isEmpty && n.qsubs.isEmpty

end NodeSubs

/-- The orders of the loops over the maps of a node. -/
structure Orders where
  psubs : Table.Order Subscription
  qsubs : Table.Order (Bytes × List Subscription)
  members : Table.Order Subscription

def plistMin : Nat := 256

def addKey (keys : List Subscription) (sub : Subscription) : List Subscription :=
  if sub ∈ keys then keys else sub :: keys

/-- The end of `Insert`: the new data of the node, and `isnew`. -/
def insertIntoNode (orders : Orders) (sub : Subscription) (n : NodeSubs) : NodeSubs × Bool :=
  match sub.queue with
  | none =>
    let psubs := addKey n.psubs sub
    let plist := match n.plist with
      | some plist => some (plist ++ [sub])
      | none => if psubs.length > plistMin then some (orders.psubs.visit psubs) else none
    ({ n with psubs, plist }, psubs.length == 1)
  | some qname =>
    match Table.get n.qsubs qname with
    | none => ({ n with qsubs := Table.set n.qsubs qname [sub] }, true)
    | some subs => ({ n with qsubs := Table.set n.qsubs qname (addKey subs sub) }, false)

/-- The new data of the node and `last`, if the subscription is found. -/
def removeFromNode (sub : Subscription) (n : NodeSubs) : Option (NodeSubs × Bool) :=
  match sub.queue with
  | none =>
    if sub ∈ n.psubs then
      let psubs := n.psubs.erase sub
      some ({ n with psubs, plist := none }, psubs.isEmpty)
    else none
  | some qname =>
    let qsub := (Table.get n.qsubs qname).getD []
    if sub ∈ qsub then
      let qsub := qsub.erase sub
      if qsub.isEmpty then some ({ n with qsubs := Table.erase n.qsubs qname }, true)
      else some ({ n with qsubs := Table.set n.qsubs qname qsub }, false)
    else none

structure SublistResult where
  psubs : List Subscription
  qsubs : List (List Subscription)
  deriving DecidableEq

def emptyResult : SublistResult := ⟨[], []⟩

def isRemoteQSub (sub : Subscription) : Bool := sub.queue.isSome && sub.remote

def findQSlot (queue : Option Bytes) (qsl : List (List Subscription)) : Option Nat :=
  queue.bind (fun q => qsl.findIdx? (fun qr => qr.head?.any (fun sub => sub.queue == some q)))

section
variable (orders : Orders) (qw : Subscription → Int)

/-- A remote queue subscription is added as often as its weight says. -/
def shadowed (sub : Subscription) : List Subscription :=
  if isRemoteQSub sub then List.replicate (qw sub).toNat sub else [sub]

/-- One round of the loop of `addNodeToResults` over the queues of a node. -/
def addQueueToResults (slots : List (List Subscription)) (q : Bytes × List Subscription) :
    List (List Subscription) :=
  if q.2.isEmpty then slots
  else
    let subs := (orders.members.visit q.2).flatMap (shadowed qw)
    match findQSlot (some q.1) slots with
    | some i => slots.modify i (· ++ subs)
    | none => slots ++ [subs]

def addNodeToResults (results : SublistResult) (n : NodeSubs) : SublistResult :=
  ⟨results.psubs ++ n.plist.getD (orders.psubs.visit n.psubs),
    (orders.qsubs.visit n.qsubs).foldl (addQueueToResults orders qw) results.qsubs⟩

end

def SublistResult.addSubToResult (r : SublistResult) (sub : Subscription) : SublistResult :=
  match sub.queue with
  | none => { r with psubs := r.psubs ++ [sub] }
  | some _ =>
    match findQSlot sub.queue r.qsubs with
    | some i => { r with qsubs := r.qsubs.modify i (· ++ [sub]) }
    | none => { r with qsubs := r.qsubs ++ [[sub]] }

structure Sublist where
  root : Level NodeSubs
  cache : Option (List (Bytes × SublistResult))

namespace Sublist

def newSublist (enableCache : Bool) : Sublist :=
  ⟨.newLevel, if enableCache then some [] else none⟩

/-- The root level as the level under a node, with which the loops start. -/
def rootNode (s : Sublist) : Node NodeSubs := .mk (some s.root) .new

/-! ### The cache -/

def addToCache (s : Sublist) (subject : Bytes) (sub : Subscription) : Sublist :=
  { s with cache := s.cache.map (fun cache =>
      if subjectIsLiteral subject then
        Table.modify cache subject (fun r => r.addSubToResult sub)
      else cache.map (fun e =>
        (e.1, if matchLiteral e.1 subject then e.2.addSubToResult sub else e.2))) }

def removeFromCache (s : Sublist) (subject : Bytes) : Sublist :=
  { s with cache := s.cache.map (fun cache =>
      if subjectIsLiteral subject then Table.erase cache subject
      else cache.filter (fun e => !matchLiteral e.1 subject)) }

def slCacheSweep : Nat := 256

/-- Entries are dropped, one at least, until there are few enough. -/
def reduceCacheCount (order : Table.Order (Bytes × SublistResult)) (s : Sublist) : Sublist :=
  { s with cache := s.cache.map (fun cache =>
      (order.visit cache).drop (max 1 (cache.length - slCacheSweep))) }

/-- The weight is changed by the caller. -/
def updateRemoteQSub (s : Sublist) (sub : Subscription) : Sublist := s.removeFromCache sub.subject

/-! ### Operations -/

/-- The result says whether this is the first interest in a literal subject. -/
def insert (orders : Orders) (s : Sublist) (sub : Subscription) :
    Sublist × Except SublistError Bool :=
  let (n, isnew) := insertLoop .new (insertIntoNode orders sub) (tokens sub.subject) false s.rootNode
  let s := { s with root := n.next.getD .newLevel }
  match isnew with
  | none => (s, .error .invalidSubject)
  | some isnew =>
    (s.addToCache sub.subject sub, .ok (isnew && subjectIsLiteral sub.subject))

/-- The result says whether this was the last interest in a literal subject. -/
def remove (s : Sublist) (sub : Subscription) (doCacheUpdates : Bool) :
    Sublist × Except SublistError Bool :=
  match removeLoop (removeFromNode sub) NodeSubs.isEmpty (tokens sub.subject) false
    (some s.rootNode) with
  | .error e => (s, .error e)
  | .ok (n, last) =>
    let s := { s with root := n.next.getD .newLevel }
    (if doCacheUpdates then s.removeFromCache sub.subject else s,
      .ok (last && subjectIsLiteral sub.subject))

/-- The cache is turned off meanwhile. -/
def removeBatch (s : Sublist) (subs : List Subscription) : Sublist :=
  if subs.isEmpty then s
  else
    let wasEnabled := s.cache.isSome
    let s := subs.foldl (fun s sub => (s.remove sub false).1) { s with cache := none }
    { s with cache := if wasEnabled then some [] else none }

section
variable (orders : Orders) (qw : Subscription → Int)

def matchTrie (s : Sublist) (tokens : List Token) : SublistResult :=
  matchLevel (addNodeToResults orders qw) (some s.root) tokens none none emptyResult

/-- `Match` and `MatchBytes`, with the sublist after it. -/
def matchSubject (s : Sublist) (subject : Bytes) : Sublist × SublistResult :=
  match s.cache.bind (fun cache => Table.get cache subject) with
  | some r => (s, r)
  | none =>
    match matchTokens subject with
    | none => (s, emptyResult)
    | some tokens =>
      let result := s.matchTrie orders qw tokens
      ({ s with cache := s.cache.map (fun cache => Table.set cache subject result) }, result)

end

def countSubs (np : Nat × Nat) (n : NodeSubs) : Nat × Nat :=
  (np.1 + n.psubs.length, np.2 + (n.qsubs.map (fun q => q.2.length)).sum)

/-- `HasInterest` and, with its counters, `NumInterest`. A cached result without subscriptions is no
answer. -/
def hasInterestNum (s : Sublist) (subject : Bytes) : Bool × (Nat × Nat) :=
  let cached := s.cache.bind (fun cache => Table.get cache subject)
  let np := cached.elim (0, 0) (fun r => (r.psubs.length, (r.qsubs.map List.length).sum))
  if cached.any (fun r => r.psubs.length + r.qsubs.length > 0) then (true, np)
  else
    (matchTokens subject).elim (false, np) (fun tokens =>
      matchLevelForAny countSubs NodeSubs.noInterest (some s.root) tokens none none np)

def hasInterest (s : Sublist) (subject : Bytes) : Bool := (s.hasInterestNum subject).1

def numInterest (s : Sublist) (subject : Bytes) : Nat × Nat := (s.hasInterestNum subject).2

end Sublist

end LinearNats.Sublists
