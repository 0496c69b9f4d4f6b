import Mathlib

/-! The nodes of the sequence set: a tree whose nodes hold the membership of 2048 sequences each.
Sequences are uint64, so the end of a node's range is computed modulo `2 ^ 64`. -/
namespace LinearNats.Avl

def bitsPerBucket : Nat := 64
def numBuckets : Nat := 32
def numEntries : Nat := 2048
def maxUint64 : Nat := 2 ^ 64

abbrev Bits := Vector (BitVec 64) 32

namespace Bits

def bucket (bits : Bits) (i : Nat) : BitVec 64 := bits[i]?.getD 0#64

def mask (seq : Nat) : BitVec 64 := 1#64 <<< (seq % bitsPerBucket)

def zero : Bits := Vector.replicate 32 0#64

end Bits

inductive Node where
  | nil
  | node (base : Nat) (bits : Bits) (l r : Node) (h : Nat)
  deriving DecidableEq

namespace Node

def height : Node → Nat
  | nil => 0
  | node _ _ _ _ h => h

def maxH (l r : Node) : Nat := if r.height < l.height then l.height else r.height

def balanceF : Node → Int
  | nil => 0
  | node _ _ l r _ => (l.height : Int) - r.height

def mk (base : Nat) (bits : Bits) (l r : Node) : Node := node base bits l r (maxH l r + 1)

/-- Without a right child there is nothing to return; the callers have looked at the balance. -/
def rotateL : Node → Node
  | node base bits l (node rbase rbits rl rr _) _ => mk rbase rbits (mk base bits l rl) rr
  | _ => nil

def rotateR : Node → Node
  | node base bits (node lbase lbits ll lr _) r _ => mk lbase lbits ll (mk base bits lr r)
  | _ => nil

def checkBalance : Node → Node
  | nil => nil
  | node base bits l r h =>
    if balanceF (node base bits l r h) > 1 then
      rotateR (node base bits (if balanceF l < 0 then rotateL l else l) r h)
    else if balanceF (node base bits l r h) < -1 then
      rotateL (node base bits l (if balanceF r > 0 then rotateR r else r) h)
    else node base bits l r h

def past (base : Nat) : Nat := (base + numEntries) % maxUint64

def bitExists (base : Nat) (bits : Bits) (seq : Nat) : Bool :=
  let seq := seq - base
  (bits.bucket (seq / bitsPerBucket) &&& Bits.mask seq) != 0#64

def set (base : Nat) (bits : Bits) (seq : Nat) (inserted : Bool) : Bits × Bool :=
  let seq := seq - base
  let i := seq / bitsPerBucket
  if bits.bucket i &&& Bits.mask seq = 0#64 then
    (bits.setIfInBounds i (bits.bucket i ||| Bits.mask seq), true)
  else (bits, inserted)

/-- `nodes` counts the nodes of the tree. -/
def insert (seq : Nat) : Node → Bool → Nat → Node × Bool × Nat
  | nil, inserted, nodes =>
    let base := seq / numEntries * numEntries
    let (bits, inserted) := set base Bits.zero seq inserted
    (node base bits nil nil 1, inserted, nodes + 1)
  | node base bits l r _, inserted, nodes =>
    if seq < base then
      let (l, inserted, nodes) := insert seq l inserted nodes
      (checkBalance (mk base bits l r), inserted, nodes)
    else if past base ≤ seq then
      let (r, inserted, nodes) := insert seq r inserted nodes
      (checkBalance (mk base bits l r), inserted, nodes)
    else
      let (bits, inserted) := set base bits seq inserted
      (checkBalance (mk base bits l r), inserted, nodes)

/-- The bits, whether one was cleared, and whether none is left. -/
def clear (base : Nat) (bits : Bits) (seq : Nat) (deleted : Bool) : Bits × Bool × Bool :=
  let seq := seq - base
  let i := seq / bitsPerBucket
  let (bits, deleted) :=
    if bits.bucket i &&& Bits.mask seq ≠ 0#64 then
      (bits.setIfInBounds i (bits.bucket i &&& ~~~ Bits.mask seq), true)
    else (bits, deleted)
  (bits, deleted, bits.toList.all (· == 0#64))

def insertNodePrev (nn : Node) : Node → Node
  | nil => nil
  | node base bits l r _ =>
    match l with
    | nil => checkBalance (mk base bits nn r)
    | l => checkBalance (mk base bits (insertNodePrev nn l) r)

/-- The height again, as it is set for every node that the way down has passed. -/
def setHeight : Node → Node
  | nil => nil
  | node base bits l r _ => mk base bits l r

/-- What takes the place of a node that has become empty. -/
def merge : Node → Node → Node
  | nil, r => r
  | l, nil => l
  | l, r => insertNodePrev l r

def delete (seq : Nat) : Node → Bool → Nat → Node × Bool × Nat
  | nil, deleted, nodes => (nil, deleted, nodes)
  | node base bits l r h, deleted, nodes =>
    if seq < base then
      let (l, deleted, nodes) := delete seq l deleted nodes
      (checkBalance (mk base bits l r), deleted, nodes)
    else if past base ≤ seq then
      let (r, deleted, nodes) := delete seq r deleted nodes
      (checkBalance (mk base bits l r), deleted, nodes)
    else
      let (bits, deleted, empty) := clear base bits seq deleted
      if empty then (checkBalance (setHeight (merge l r)), deleted, nodes - 1)
      else (checkBalance (setHeight (node base bits l r h)), deleted, nodes)

def existsSeq (seq : Nat) : Node → Bool
  | nil => false
  | node base bits l r _ =>
    if seq < base then existsSeq seq l
    else if past base ≤ seq then existsSeq seq r
    else bitExists base bits seq

def trailingZeros64 (b : BitVec 64) : Nat := ((List.range 64).find? b.getLsbD).getD 64
def leadingZeros64 (b : BitVec 64) : Nat := ((List.range 64).find? b.getMsbD).getD 64

def min (base : Nat) (bits : Bits) : Nat :=
  match (List.range numBuckets).find? (fun i => bits.bucket i != 0#64) with
  | some i => base + i * bitsPerBucket + trailingZeros64 (bits.bucket i)
  | none => 0

def max (base : Nat) (bits : Bits) : Nat :=
  match (List.range numBuckets).reverse.find? (fun i => bits.bucket i != 0#64) with
  | some i => base + i * bitsPerBucket + (bitsPerBucket - leadingZeros64 (bits.bucket i >>> 1))
  | none => 0

def leftMin : Node → Nat
  | nil => 0
  | node base bits nil _ _ => min base bits
  | node _ _ l _ _ => leftMin l

def rightMax : Node → Nat
  | nil => 0
  | node base bits _ nil _ => max base bits
  | node _ _ _ r _ => rightMax r

variable {σ : Type}

def visit (f : σ → Nat → σ × Bool) (s : σ) : List Nat → σ × Bool
  | [] => (s, true)
  | seq :: rest => match f s seq with
    | (s, true) => visit f s rest
    | (s, false) => (s, false)

def iter (f : σ → Nat → σ × Bool) : Node → σ → σ × Bool
  | nil, s => (s, true)
  | node base bits l r _, s =>
    match iter f l s with
    | (s, false) => (s, false)
    | (s, true) =>
      match visit f s ((List.range' base (past base - base)).filter (bitExists base bits)) with
      | (s, false) => (s, false)
      | (s, true) => iter f r s

end Node

end LinearNats.Avl
