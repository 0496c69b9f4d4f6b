import LinearNats.Server.Header

/-! Subjects, their tokens, and the match of a subject against a filter. -/
namespace LinearNats.Server
open Search

def btsep : UInt8 := 46
def pwc : UInt8 := 42
def fwc : UInt8 := 62
def fwcs : Bytes := [fwc]

def tokenizeSubject : Bytes → List Bytes
  | [] => [[]]
  | c :: s => if c = btsep then [] :: tokenizeSubject s else consHead c (tokenizeSubject s)

/-- The loop of `isSubsetMatchTokenized` over the tokens of the test. A test token that only
starts with the wildcard is taken for one, as the code does. -/
def isSubsetMatchTokenized : List Bytes → List Bytes → Bool
  | tokens, [] => tokens.isEmpty
  | [], _ :: _ => false
  | t1 :: tokens, t2 :: test =>
    if t2 = [] then false
    else if t2 = [fwc] then true
    else if t1 = [] ∨ t1 = [fwc] then false
    else if t1 = [pwc] then
      if t2 = [pwc] then isSubsetMatchTokenized tokens test else false
    else if t2.head? ≠ some pwc ∧ t1 ≠ t2 then false
    else isSubsetMatchTokenized tokens test

def subjectIsSubsetMatch (subject test : Bytes) : Bool :=
  isSubsetMatchTokenized (tokenizeSubject subject) (tokenizeSubject test)

/-- A wildcard byte counts when it is a token. -/
def subjectHasWildcard (subject : Bytes) : Bool :=
  (tokenizeSubject subject).any (fun t => t == [pwc] || t == [fwc])

/-- The empty filter stands for all subjects. -/
def orAll (filter : Bytes) : Bytes := if filter = [] then fwcs else filter

def compareFn (filter subject : Bytes) : Bool :=
  if filter = [] ∨ filter = fwcs then true
  else if subjectHasWildcard filter then subjectIsSubsetMatch subject filter
  else subject == filter

end LinearNats.Server
