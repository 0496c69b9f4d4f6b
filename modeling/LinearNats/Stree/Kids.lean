import LinearNats.Table

/-! The children of an inner node of the subject tree. There are five sizes of node; the three
small ones keep their keys and children in two arrays that are filled from the start, the fourth
has an index of 256 bytes into its children, the fifth an array with a place for every byte. -/
namespace LinearNats.Stree
open List Table

abbrev Bytes := List UInt8

inductive Panic where
  | node4Full
  | node10Full
  | node16Full
  | node48Full
  | growNode256
  | sliceBounds
  | nilChild
  deriving DecidableEq

inductive Width where
  | w4
  | w10
  | w16
  deriving DecidableEq

def Width.cap : Width → Nat
  | .w4 => 4
  | .w10 => 10
  | .w16 => 16

def Width.full : Width → Panic
  | .w4 => .node4Full
  | .w10 => .node10Full
  | .w16 => .node16Full

/-- `slots` are node4, node10 and node16; their lists are the filled parts of the arrays, as is
`child` of node48. The values of `key` are the places in `child` counted from 1. -/
inductive Kids (α : Type) where
  | slots (width : Width) (slots : List (UInt8 × α))
  | node48 (key : UInt8 → Nat) (child : List α)
  | node256 (child : List (Option α)) (size : Nat)

def allBytes : List UInt8 := (List.range 256).map UInt8.ofNat

namespace Kids

variable {α : Type}

def newNode4 : Kids α := .slots .w4 []
def newNode10 : Kids α := .slots .w10 []
def newNode16 : Kids α := .slots .w16 []
def newNode48 : Kids α := .node48 (fun _ => 0) []
def newNode256 : Kids α := .node256 (List.replicate 256 none) 0

def numChildren : Kids α → Nat
  | .slots _ s => s.length
  | .node48 _ child => child.length
  | .node256 _ size => size

def addChild : Kids α → UInt8 → α → Except Panic (Kids α)
  | .slots width s, c, x =>
    if width.cap ≤ s.length then .error width.full else .ok (.slots width (s ++ [(c, x)]))
  | .node48 key child, c, x =>
    if 48 ≤ child.length then .error .node48Full
    else .ok (.node48 (Function.update key c (child.length + 1)) (child ++ [x]))
  | .node256 child size, c, x => .ok (.node256 (child.set c.toNat (some x)) (size + 1))

def findChild : Kids α → UInt8 → Option α
  | .slots _ s, c => Table.get s c
  | .node48 key child, c => if key c = 0 then none else child[key c - 1]?
  | .node256 child _, c => child[c.toNat]?.join

def setSlot (c : UInt8) (x : α) : List (UInt8 × α) → List (UInt8 × α)
  | [] => []
  | p :: s => if p.1 = c then (c, x) :: s else p :: setSlot c x s

/-- A write through the address that `findChild` returned. -/
def setChild : Kids α → UInt8 → α → Kids α
  | .slots width s, c, x => .slots width (setSlot c x s)
  | .node48 key child, c, x => .node48 key (child.set (key c - 1) x)
  | .node256 child size, c, x => .node256 (child.set c.toNat (some x)) size

def isFull : Kids α → Bool
  | .slots width s => decide (width.cap ≤ s.length)
  | .node48 _ child => decide (48 ≤ child.length)
  | .node256 _ _ => false

/-- The keys with their children, in the order in which `grow` and `shrink` go over them. -/
def pairs : Kids α → List (UInt8 × α)
  | .slots _ s => s
  | .node48 key child => allBytes.filterMap (fun c =>
      if key c = 0 then none else (child[key c - 1]?).map (fun x => (c, x)))
  | .node256 child _ => allBytes.filterMap (fun c =>
      (child[c.toNat]?.join).map (fun x => (c, x)))

def addAll (k : Kids α) (ps : List (UInt8 × α)) : Except Panic (Kids α) :=
  ps.foldlM (fun k p => k.addChild p.1 p.2) k

/-- The loop of a small node runs to its capacity, over empty places if it is not full. -/
def grow : Kids α → Except Panic (Kids α)
  | .slots width s =>
    if s.length < width.cap then .error .nilChild
    else match width with
      | .w4 => newNode10.addAll s
      | .w10 => newNode16.addAll s
      | .w16 => newNode48.addAll s
  | .node48 key child => newNode256.addAll (Kids.node48 key child).pairs
  | .node256 _ _ => .error .growNode256

/-- The last entry takes the place of the one that goes. -/
def deleteSlot (s : List (UInt8 × α)) (c : UInt8) : List (UInt8 × α) :=
  match s.findIdx? (fun p => p.1 == c), s.getLast? with
  | some i, some last => if i < s.length - 1 then (s.set i last).dropLast else s.dropLast
  | _, _ => s

def deleteChild : Kids α → UInt8 → Kids α
  | .slots width s, c => .slots width (deleteSlot s c)
  | .node48 key child, c =>
    if key c = 0 then .node48 key child
    else
      let i := key c - 1
      match child.getLast? with
      | none => .node48 key child
      | some last =>
        if i < child.length - 1 then
          -- The key of the last child is looked for and gets the free place.
          let key := match allBytes.find? (fun ic => key ic == child.length) with
            | some ic => Function.update key ic (i + 1)
            | none => key
          .node48 (Function.update key c 0) (child.set i last).dropLast
        else .node48 (Function.update key c 0) child.dropLast
  | .node256 child size, c =>
    if (child[c.toNat]?.join).isSome then .node256 (child.set c.toNat none) (size - 1)
    else .node256 child size

/-- What is left of a node that shrinks: its only child, or a smaller node. -/
inductive Shrunk (α : Type) where
  | stays
  | only (child : α)
  | smaller (kids : Kids α)

def shrink : Kids α → Except Panic (Shrunk α)
  | .slots .w4 [p] => .ok (.only p.2)
  | .slots .w4 _ => .ok .stays
  | .slots .w10 s => if 4 < s.length then .ok .stays else (newNode4.addAll s).map .smaller
  | .slots .w16 s => if 10 < s.length then .ok .stays else (newNode10.addAll s).map .smaller
  | .node48 key child =>
    if 16 < child.length then .ok .stays
    else (newNode16.addAll (Kids.node48 key child).pairs).map .smaller
  | .node256 child size =>
    if 48 < size then .ok .stays
    else (newNode48.addAll (Kids.node256 child size).pairs).map .smaller

def children : Kids α → List α
  | .slots _ s => s.map Prod.snd
  | .node48 _ child => child
  | .node256 child _ => child.filterMap id

/-! What the operations do to the map from bytes to children. -/

theorem mem_allBytes (c : UInt8) : c ∈ allBytes := by
  refine mem_map.mpr ⟨c.toNat, mem_range.mpr c.toNat_lt, ?_⟩
  simp

theorem allBytes_nodup : allBytes.Nodup := by
  refine List.Nodup.map_on ?_ nodup_range
  intro i low j high same
  have bytes := congrArg UInt8.toNat same
  rw [mem_range] at low high
  simpa [Nat.mod_eq_of_lt low, Nat.mod_eq_of_lt high] using bytes

inductive Shape where
  | slots (width : Width)
  | n48
  | n256

def Shape.cap : Shape → Nat
  | .slots width => width.cap
  | .n48 => 48
  | .n256 => 256

/-- The least number of children for which a node of this shape is kept. -/
def Shape.low : Shape → Nat
  | .slots .w4 => 2
  | .slots .w10 => 5
  | .slots .w16 => 11
  | .n48 => 17
  | .n256 => 49

theorem Shape.low_le_cap (s : Shape) : s.low ≤ s.cap := by
  rcases s with (_ | _ | _) | _ | _ <;> decide

def shape : Kids α → Shape
  | .slots width _ => .slots width
  | .node48 _ _ => .n48
  | .node256 _ _ => .n256

/-- No key twice, the index and the counter in step with the children. -/
def WF : Kids α → Prop
  | .slots width s => (s.map Prod.fst).Nodup ∧ s.length ≤ width.cap
  | .node48 key child => (∀ c, key c ≤ child.length) ∧
      (∀ c d, key c = key d → key c ≠ 0 → c = d) ∧
      (∀ i < child.length, ∃ c, key c = i + 1) ∧ child.length ≤ 48
  | .node256 child size => child.length = 256 ∧ size = (child.filterMap id).length

theorem setSlot_keys (c : UInt8) (x : α) (s : List (UInt8 × α)) :
    (setSlot c x s).map Prod.fst = s.map Prod.fst := by
  induction s with
  | nil => rfl
  | cons p s ih =>
    rw [setSlot]
    by_cases same : p.1 = c
    · simp [same]
    · simp [same, ih]

variable {c : UInt8} {x y : α} {s : List (UInt8 × α)} {key : UInt8 → Nat} {k : Kids α}

theorem get_setSlot (found : Table.get s c = some y) (d : UInt8) :
    Table.get (setSlot c x s) d = if d = c then some x else Table.get s d := by
  induction s with
  | nil => cases found
  | cons p s ih =>
    rw [setSlot]
    by_cases same : p.1 = c
    · by_cases asked : d = c
      · simp [same, asked, Table.get]
      · simp [same, asked, Table.get, Ne.symm asked]
    rw [Table.get, if_neg same] at found
    rw [if_neg same, Table.get, Table.get, ih found]
    by_cases asked : d = c
    · simp [asked, same]
    · simp [asked]

theorem deleteSlot_perm (found : Table.get s c = some x) : s.Perm ((c, x) :: deleteSlot s c) := by
  have split : ∃ front back, s = front ++ (c, x) :: back ∧ ∀ p ∈ front, p.1 ≠ c := by
    induction s with
    | nil => cases found
    | cons p s ih =>
      rw [Table.get] at found
      split at found
      next same => exact ⟨[], s, by rw [← same, ← Option.some.inj found]; rfl, by simp⟩
      next same =>
      obtain ⟨front, back, shape, others⟩ := ih found
      exact ⟨p :: front, back, by rw [shape]; rfl, forall_mem_cons.mpr ⟨same, others⟩⟩
  obtain ⟨front, back, rfl, others⟩ := split
  have index : (front ++ (c, x) :: back).findIdx? (fun p => p.1 == c) = some front.length := by
    rw [findIdx?_append, findIdx?_eq_none_iff.mpr]
    · simp [findIdx?_cons]
    · intro p member
      simpa using others p member
  rcases eq_nil_or_concat back with rfl | ⟨middle, last, rfl⟩
  · have gone : deleteSlot (front ++ [(c, x)]) c = front := by
      simp [deleteSlot, index]
    rw [gone]
    exact perm_append_singleton _ _
  rw [concat_eq_append] at index ⊢
  have regroup : front ++ (c, x) :: (middle ++ [last]) = (front ++ (c, x) :: middle) ++ [last] := by
    simp
  have final : (front ++ (c, x) :: (middle ++ [last])).getLast? = some last := by
    rw [regroup, getLast?_concat]
  have moved : deleteSlot (front ++ (c, x) :: (middle ++ [last])) c = front ++ last :: middle := by
    have put : (front ++ (c, x) :: (middle ++ [last])).set front.length last =
        (front ++ last :: middle) ++ [last] := by simp
    have inside : front.length < (front ++ (c, x) :: (middle ++ [last])).length - 1 := by simp
    simp only [deleteSlot, index, final, if_pos inside, put, dropLast_concat]
  rw [moved]
  have swap : (front ++ (c, x) :: (middle ++ [last])).Perm ((c, x) :: (front ++ (middle ++ [last]))) :=
    perm_middle
  have back : (middle ++ [last]).Perm (last :: middle) := perm_append_singleton _ _
  exact swap.trans ((back.append_left front).cons _)

theorem filterMap_set_length {l : List (Option α)} {i : Nat} {old : Option α}
    (there : l[i]? = some old) (new : Option α) :
    ((l.set i new).filterMap id).length + old.toList.length =
      (l.filterMap id).length + new.toList.length := by
  induction l generalizing i with
  | nil => cases there
  | cons o l ih =>
    cases i with
    | zero =>
      obtain rfl : o = old := by simpa using there
      rw [set_cons_zero]
      cases o <;> cases new <;> simp
    | succ i =>
      have later := ih (i := i) (by simpa using there)
      rw [set_cons_succ]
      cases o with
      | none => simpa using later
      | some v =>
        have head : ∀ rest : List (Option α),
            ((some v :: rest).filterMap id).length = (rest.filterMap id).length + 1 := fun _ => rfl
        rw [head, head]
        omega

/-- An operation on the children seen as a map. -/
structure Became (before : Kids α) (c : UInt8) (x : Option α) (after : Kids α) : Prop where
  wf : after.WF
  shape : after.shape = before.shape
  find : ∀ d, after.findChild d = if d = c then x else before.findChild d

theorem key_ne_zero {child : List α} (found : (Kids.node48 key child).findChild c = some y) :
    key c ≠ 0 := by
  intro zero
  simp [findChild, zero] at found

theorem set256_became {child : List (Option α)} {size size' : Nat}
    (wf : (Kids.node256 child size).WF) (c : UInt8) (x : Option α)
    (counted : size' + ((Kids.node256 child size).findChild c).toList.length =
      size + x.toList.length) :
    Became (.node256 child size) c x (.node256 (child.set c.toNat x) size') := by
  obtain ⟨len, count⟩ := wf
  have inside : c.toNat < child.length := by
    rw [len]
    exact c.toNat_lt
  have there : child[c.toNat]? = some child[c.toNat]?.join := by
    rw [getElem?_eq_getElem inside]
    rfl
  have written := filterMap_set_length there x
  refine ⟨⟨by simpa using len, ?_⟩, rfl, ?_⟩
  · simp only [findChild] at counted
    omega
  · intro d
    simp only [findChild]
    by_cases same : d = c
    · subst same
      rw [getElem?_set_self inside, if_pos rfl]
      rfl
    · have apart : c.toNat ≠ d.toNat := fun equal => same (UInt8.toNat_inj.mp equal).symm
      rw [getElem?_set_ne apart, if_neg same]

theorem setChild_became (wf : k.WF) (found : k.findChild c = some y) (x : α) :
    Became k c (some x) (k.setChild c x) ∧
      (k.setChild c x).numChildren = k.numChildren := by
  cases k with
  | slots width s =>
    have len : (setSlot c x s).length = s.length := by
      rw [← length_map Prod.fst, setSlot_keys, length_map]
    refine ⟨⟨⟨?_, ?_⟩, rfl, fun d => get_setSlot found d⟩, len⟩
    · rw [setSlot_keys]
      exact wf.1
    · rw [len]
      exact wf.2
  | node48 key child =>
    obtain ⟨bound, injective, onto, small⟩ := wf
    have used := key_ne_zero found
    refine ⟨⟨⟨?_, injective, ?_, ?_⟩, rfl, ?_⟩, ?_⟩
    · simpa using bound
    · simpa using onto
    · simpa using small
    · intro d
      have low := bound c
      by_cases same : d = c
      · subst same
        simp only [setChild, findChild, used, if_false, if_true]
        rw [getElem?_set_self (by omega)]
      simp only [setChild, findChild, same, if_false]
      by_cases free : key d = 0
      · simp [free]
      have apart : key c - 1 ≠ key d - 1 := by
        intro equal
        exact same (injective d c (by omega) free)
      rw [if_neg free, if_neg free, getElem?_set_ne apart]
    · simp [setChild, numChildren]
  | node256 child size => exact ⟨set256_became wf c (some x) (by rw [found]; rfl), rfl⟩

theorem addChild_became (wf : k.WF) (absent : k.findChild c = none)
    (room : k.numChildren < k.shape.cap) (x : α) :
    ∃ after, k.addChild c x = .ok after ∧ Became k c (some x) after ∧
      after.numChildren = k.numChildren + 1 := by
  cases k with
  | slots width s =>
    have short : ¬ width.cap ≤ s.length := by simpa [numChildren, shape, Shape.cap] using room
    have fresh : c ∉ s.map Prod.fst := get_eq_none_iff.mp absent
    refine ⟨_, if_neg short, ⟨⟨?_, ?_⟩, rfl, ?_⟩, by simp [numChildren]⟩
    · rw [map_append, nodup_append]
      refine ⟨wf.1, by simp, ?_⟩
      rintro a old b new rfl
      rw [map_singleton, mem_singleton] at new
      rw [new] at old
      exact fresh old
    · simp only [length_append, length_singleton]
      omega
    · intro d
      simp only [findChild] at absent ⊢
      rw [get_append]
      by_cases same : d = c
      · subst same
        simp [absent, Table.get]
      · simp [same, Table.get, Ne.symm same]
  | node48 key child =>
    obtain ⟨bound, injective, onto, small⟩ := wf
    have short : ¬ 48 ≤ child.length := by simpa [numChildren, shape, Shape.cap] using room
    have free : key c = 0 := by
      by_contra used
      have low := bound c
      simp only [findChild, used, if_false] at absent
      rw [getElem?_eq_none_iff] at absent
      omega
    refine ⟨_, if_neg short, ⟨⟨?_, ?_, ?_, ?_⟩, rfl, ?_⟩, by simp [numChildren]⟩ <;>
      simp only [length_append, length_singleton, findChild, Function.update_apply]
    · intro d
      have low := bound d
      split <;> omega
    · intro a b equal used
      have lowA := bound a
      have lowB := bound b
      split at equal
      next sameA =>
        split at equal
        next sameB => exact sameA.trans sameB.symm
        · omega
      next otherA =>
        rw [if_neg otherA] at used
        split at equal
        · omega
        · exact injective a b equal used
    · intro i inside
      by_cases new : i = child.length
      · exact ⟨c, by rw [new, if_pos rfl]⟩
      obtain ⟨d, known⟩ := onto i (by omega)
      have other : d ≠ c := by
        rintro rfl
        omega
      exact ⟨d, by rw [if_neg other, known]⟩
    · omega
    · intro d
      have low := bound d
      by_cases same : d = c
      · simp [same]
      by_cases unused : key d = 0
      · simp [same, unused]
      · simp only [same, unused, if_false, getElem?_append_left (by omega : key d - 1 < child.length)]
  | node256 child size =>
    exact ⟨_, rfl, set256_became wf c (some x) (by rw [absent]; rfl), rfl⟩

theorem deleteChild_slots {width : Width} (wf : (Kids.slots width s).WF)
    (found : (Kids.slots width s).findChild c = some y) :
    Became (.slots width s) c none ((Kids.slots width s).deleteChild c) ∧
      ((Kids.slots width s).deleteChild c).numChildren + 1 = s.length := by
  have perm := deleteSlot_perm found
  have keys : (((c, y) :: deleteSlot s c).map Prod.fst).Nodup :=
    (perm.map Prod.fst).nodup_iff.mp wf.1
  obtain ⟨fresh, others⟩ := nodup_cons.mp keys
  have len : (deleteSlot s c).length + 1 = s.length := by rw [perm.length_eq, length_cons]
  have small := wf.2
  refine ⟨⟨⟨others, by omega⟩, rfl, ?_⟩, len⟩
  intro d
  simp only [deleteChild, findChild]
  split
  next same =>
    rw [same]
    exact get_eq_none_iff.mpr fresh
  next same =>
    rw [get_perm wf.1 perm, Table.get, if_neg (Ne.symm same)]

theorem find?_allBytes {n : Nat} {d : UInt8} (unique : ∀ e, key e = n → e = d) (there : key d = n) :
    allBytes.find? (fun ic => key ic == n) = some d := by
  cases found : allBytes.find? (fun ic => key ic == n) with
  | none =>
    have absent := find?_eq_none.mp found d (mem_allBytes d)
    simp [there] at absent
  | some e =>
    have passes := find?_some found
    rw [unique e (by simpa using passes)]

/-- The index after the deletion of a key, whichever of the two branches is taken: the last child
has moved to the free place. -/
theorem deleteChild_node48 {child : List α} (wf : (Kids.node48 key child).WF)
    (found : (Kids.node48 key child).findChild c = some y) :
    ∃ key' child', (Kids.node48 key child).deleteChild c = .node48 key' child' ∧
      child'.length + 1 = child.length ∧ key' c = 0 ∧
      (∀ d, d ≠ c → key d ≠ 0 → key' d = if key d = child.length then key c else key d) ∧
      (∀ d, d ≠ c → key d = 0 → key' d = 0) ∧
      (∀ i, i + 1 < child.length →
        child'[i]? = if i + 1 = key c then child[child.length - 1]? else child[i]?) := by
  obtain ⟨bound, injective, onto, small⟩ := wf
  have used := key_ne_zero found
  have low := bound c
  have filled : child ≠ [] := by
    rintro rfl
    simp only [length_nil] at low
    omega
  have final : child.getLast? = some (child.getLast filled) := getLast?_eq_some_getLast filled
  have atLast : child[child.length - 1]? = some (child.getLast filled) := by
    rw [← final, getLast?_eq_getElem?]
  obtain ⟨d, there⟩ := onto (child.length - 1) (by omega)
  have there : key d = child.length := by omega
  refine ⟨Function.update (Function.update key d (key c)) c 0,
    (child.set (key c - 1) (child.getLast filled)).dropLast, ?_, ?_, ?_, ?_, ?_, ?_⟩
  · by_cases inside : key c - 1 < child.length - 1
    · have search := @find?_allBytes key child.length d
        (fun e same => injective e d (by omega) (by omega)) there
      simp only [deleteChild, used, if_false, final, inside, if_true, search,
        Nat.sub_add_cancel (Nat.pos_of_ne_zero used)]
    · -- The last child itself goes.
      obtain rfl : d = c := injective d c (by omega) (by omega)
      rw [getLast_eq_getElem, there, set_getElem_self, Function.update_idem]
      simp only [deleteChild, used, if_false, final, inside]
  · simp only [length_dropLast, length_set]
    omega
  · exact Function.update_self ..
  · intro e other live
    rw [Function.update_of_ne other, Function.update_apply]
    by_cases same : e = d
    · rw [if_pos same, same, if_pos there]
    · rw [if_neg same, if_neg]
      intro full
      exact same (injective e d (by omega) live)
  · intro e other dead
    have notD : e ≠ d := by
      rintro rfl
      omega
    rw [Function.update_of_ne other, Function.update_of_ne notD, dead]
  · intro i before
    rw [getElem?_dropLast, length_set, if_pos (by omega)]
    split
    next same =>
      rw [atLast, ← same, Nat.add_sub_cancel, getElem?_set_self (by omega)]
    · rw [getElem?_set_ne (by omega)]

theorem deleteChild_became (wf : k.WF) (found : k.findChild c = some y) :
    Became k c none (k.deleteChild c) ∧ (k.deleteChild c).numChildren + 1 = k.numChildren := by
  cases k with
  | slots width s => exact deleteChild_slots wf found
  | node48 key child =>
    obtain ⟨key', child', shape, len, gone, live, dead, places⟩ := deleteChild_node48 wf found
    obtain ⟨bound, injective, onto, small⟩ := wf
    have used := key_ne_zero found
    have low := bound c
    have unique : ∀ d, d ≠ c → key d ≠ key c := fun d other same =>
      other (injective d c same (by omega))
    rw [shape]
    refine ⟨⟨⟨?_, ?_, ?_, by omega⟩, rfl, ?_⟩, len⟩
    · intro d
      by_cases same : d = c
      · rw [same, gone]
        omega
      by_cases zero : key d = 0
      · rw [dead d same zero]
        omega
      have lowD := bound d
      have other := unique d same
      rw [live d same zero]
      split <;> omega
    · intro a b equal positive
      have notA : a ≠ c := by
        rintro rfl
        exact positive gone
      have notB : b ≠ c := by
        rintro rfl
        exact positive (equal.trans gone)
      have liveA : key a ≠ 0 := fun zero => positive (dead a notA zero)
      have liveB : key b ≠ 0 := fun zero => positive (equal.trans (dead b notB zero))
      have otherA := unique a notA
      have otherB := unique b notB
      rw [live a notA liveA, live b notB liveB] at equal
      apply injective a b _ liveA
      split at equal <;> split at equal <;> omega
    · intro i inside
      by_cases moved : i + 1 = key c
      · -- The free place belongs to the key of the child that was last.
        obtain ⟨d, known⟩ := onto (child.length - 1) (by omega)
        have apart : d ≠ c := by
          rintro rfl
          omega
        exact ⟨d, by rw [live d apart (by omega), if_pos (by omega)]; omega⟩
      · obtain ⟨d, known⟩ := onto i (by omega)
        have apart : d ≠ c := by
          rintro rfl
          omega
        exact ⟨d, by rw [live d apart (by omega), if_neg (by omega)]; omega⟩
    · intro d
      simp only [findChild]
      by_cases same : d = c
      · rw [if_pos same, same, if_pos gone]
      rw [if_neg same]
      by_cases zero : key d = 0
      · rw [if_pos (dead d same zero), if_pos zero]
      have lowD := bound d
      have other := unique d same
      rw [if_neg zero, live d same zero]
      by_cases last : key d = child.length
      · rw [if_pos last, if_neg used, places _ (by omega), if_pos (by omega), last]
      · rw [if_neg last, if_neg zero, places _ (by omega), if_neg (by omega)]
  | node256 child size =>
    have filled : child[c.toNat]? = some (some y) := by
      simp only [findChild, Option.join_eq_some_iff] at found
      exact found
    have positive : 0 < size := by
      rw [wf.2]
      exact length_pos_of_mem
        (mem_filterMap.mpr ⟨some y, mem_of_getElem? filled, rfl⟩)
    have shape : (Kids.node256 child size).deleteChild c =
        .node256 (child.set c.toNat none) (size - 1) := by
      simp [deleteChild, filled]
    rw [shape]
    refine ⟨set256_became wf c none ?_, Nat.sub_add_cancel positive⟩
    rw [found]
    exact Nat.sub_add_cancel positive

/-! The keys in the order of the loops. -/

theorem filterMap_keys {f : UInt8 → Option α} (bs : List UInt8) :
    (bs.filterMap (fun c => (f c).map (fun x => (c, x)))).map Prod.fst =
      bs.filter (fun c => (f c).isSome) := by
  induction bs with
  | nil => rfl
  | cons b bs ih =>
    cases here : f b with
    | none => simp [here, ih]
    | some x => simp [here, ih]

theorem pairs_eq_filterMap (large : ∀ width, k.shape ≠ .slots width) :
    k.pairs = allBytes.filterMap (fun c => (k.findChild c).map (fun x => (c, x))) := by
  cases k with
  | slots width s => exact absurd rfl (large width)
  | node48 key child =>
    simp only [pairs, findChild]
    congr 1
    funext c
    split <;> simp
  | node256 child size => rfl

theorem pairs_keys (wf : k.WF) : (k.pairs.map Prod.fst).Nodup := by
  cases k with
  | slots width s => exact wf.1
  | _ =>
    rw [pairs_eq_filterMap (by simp [shape]), filterMap_keys]
    exact allBytes_nodup.filter _

theorem mem_filterMap_keys {f : UInt8 → Option α} :
    (c, x) ∈ allBytes.filterMap (fun c => (f c).map (fun x => (c, x))) ↔ f c = some x := by
  rw [mem_filterMap]
  constructor
  · rintro ⟨d, _, same⟩
    obtain ⟨y, found, equal⟩ := Option.map_eq_some_iff.mp same
    obtain ⟨rfl, rfl⟩ := Prod.mk.inj equal
    exact found
  · intro found
    exact ⟨c, mem_allBytes c, by rw [found]; rfl⟩

theorem mem_pairs (wf : k.WF) : (c, x) ∈ k.pairs ↔ k.findChild c = some x := by
  cases k with
  | slots width s => exact ⟨get_of_mem wf.1, mem_of_get⟩
  | _ => rw [pairs_eq_filterMap (by simp [shape]), mem_filterMap_keys]

theorem get_pairs (wf : k.WF) (c : UInt8) : Table.get k.pairs c = k.findChild c := by
  cases found : k.findChild c with
  | some x => exact get_of_mem (pairs_keys wf) ((mem_pairs wf).mpr found)
  | none =>
    rw [get_eq_none_iff]
    intro member
    obtain ⟨p, inside, same⟩ := mem_map.mp member
    have known := (mem_pairs wf).mp (show (p.1, p.2) ∈ k.pairs from inside)
    rw [same, found] at known
    cases known

theorem filterMap_index (l : List α) (n : Nat) :
    (List.range' n l.length).filterMap (fun i => l[i - n]?) = l := by
  induction l generalizing n with
  | nil => rfl
  | cons x l ih =>
    have later : (List.range' (n + 1) l.length).filterMap (fun i => (x :: l)[i - n]?) =
        (List.range' (n + 1) l.length).filterMap (fun i => l[i - (n + 1)]?) := by
      apply filterMap_congr
      intro i inside
      have low := (mem_range'_1.mp inside).1
      rw [show i - n = i - (n + 1) + 1 by omega, getElem?_cons_succ]
    rw [length_cons, range'_succ, filterMap_cons_some (b := x) (by simp), later, ih]

theorem filterMap_used (g : Nat → Option α) (bs : List UInt8) :
    bs.filterMap (fun c => if key c = 0 then none else g (key c)) =
      ((bs.filter (fun c => key c != 0)).map key).filterMap g := by
  induction bs with
  | nil => rfl
  | cons b bs ih =>
    by_cases zero : key b = 0
    · simp [zero, ih]
    · simp only [filterMap_cons, zero, if_false, ih]
      rw [filter_cons_of_pos (by simpa using zero), map_cons, filterMap_cons]

theorem children_perm (wf : k.WF) : k.children.Perm (k.pairs.map Prod.snd) := by
  cases k with
  | slots width s => exact List.Perm.refl _
  | node48 key child =>
    obtain ⟨bound, injective, onto, small⟩ := wf
    have values : (Kids.node48 key child).pairs.map Prod.snd =
        ((allBytes.filter (fun c => key c != 0)).map key).filterMap (fun i => child[i - 1]?) := by
      rw [← filterMap_used, pairs, map_filterMap]
      congr 1
      funext c
      split <;> simp [Function.comp_def]
    have indexes : ((allBytes.filter (fun c => key c != 0)).map key).Perm
        (List.range' 1 child.length) := by
      rw [perm_ext_iff_of_nodup]
      · intro i
        simp only [mem_map, mem_filter, bne_iff_ne, ne_eq, mem_range'_1]
        constructor
        · rintro ⟨c, ⟨_, live⟩, rfl⟩
          have low := bound c
          omega
        · intro inside
          obtain ⟨c, known⟩ := onto (i - 1) (by omega)
          exact ⟨c, ⟨mem_allBytes c, by omega⟩, by omega⟩
      · refine List.Nodup.map_on ?_ (allBytes_nodup.filter _)
        intro a live b _ same
        have positive : key a ≠ 0 := by simpa using (mem_filter.mp live).2
        exact injective a b same positive
      · exact nodup_range'
    rw [values, children]
    have ordered := indexes.filterMap (fun i => child[i - 1]?)
    rw [filterMap_index] at ordered
    exact ordered.symm
  | node256 child size =>
    have len : child.length = 256 := wf.1
    have bytes : allBytes.filterMap (fun c => child[c.toNat]?.join) =
        (List.range 256).filterMap (fun i => child[i]?.join) := by
      rw [allBytes, filterMap_map]
      apply filterMap_congr
      intro i inside
      have low := mem_range.mp inside
      simp [Nat.mod_eq_of_lt low]
    have values : (Kids.node256 child size).pairs.map Prod.snd = child.filterMap id := by
      rw [pairs, map_filterMap]
      have second : (fun c : UInt8 => Option.map Prod.snd
          (Option.map (fun x => (c, x)) child[c.toNat]?.join)) =
          fun c => child[c.toNat]?.join := by
        funext c
        simp [Function.comp_def]
      rw [second, bytes, ← len, range_eq_range']
      have whole := congrArg (List.filterMap id) (filterMap_index child 0)
      rw [filterMap_filterMap] at whole
      simpa [Option.join] using whole
    rw [values, children]

theorem children_length (wf : k.WF) : k.children.length = k.numChildren := by
  cases k with
  | slots width s => simp [children, numChildren]
  | node48 key child => rfl
  | node256 child size => exact wf.2.symm

theorem pairs_length (wf : k.WF) : k.pairs.length = k.numChildren := by
  rw [← children_length wf, (children_perm wf).length_eq, length_map]

/-! Growing and shrinking. -/

theorem addAll_spec (wf : k.WF) {ps : List (UInt8 × α)} (keys : (ps.map Prod.fst).Nodup)
    (absent : ∀ p ∈ ps, k.findChild p.1 = none) (room : k.numChildren + ps.length ≤ k.shape.cap) :
    ∃ after, k.addAll ps = .ok after ∧ after.WF ∧ after.shape = k.shape ∧
      after.numChildren = k.numChildren + ps.length ∧
      ∀ d, after.findChild d = (k.findChild d).or (Table.get ps d) := by
  induction ps generalizing k with
  | nil => exact ⟨k, rfl, wf, rfl, rfl, fun d => by simp⟩
  | cons p ps ih =>
    obtain ⟨fresh, later⟩ := nodup_cons.mp keys
    rw [length_cons] at room
    obtain ⟨next, added, became, count⟩ :=
      addChild_became wf (absent p mem_cons_self) (by omega) p.2
    have still : ∀ q ∈ ps, next.findChild q.1 = none := by
      intro q member
      have other : q.1 ≠ p.1 := fun same => fresh (same ▸ mem_map_of_mem member)
      rw [became.find, if_neg other]
      exact absent q (mem_cons_of_mem _ member)
    obtain ⟨after, rest, wf', shape, total, find⟩ :=
      ih became.wf later still (by rw [count, became.shape]; omega)
    refine ⟨after, ?_, wf', shape.trans became.shape, ?_, ?_⟩
    · rw [addAll, foldlM_cons, added]
      exact rest
    · rw [total, count, length_cons]
      omega
    · intro d
      rw [find, became.find, Table.get]
      split
      next same =>
        rw [if_pos same.symm, same, absent p mem_cons_self]
        rfl
      next same =>
        rw [if_neg (Ne.symm same)]

structure Fresh (k : Kids α) : Prop where
  wf : k.WF
  find : ∀ c, k.findChild c = none
  zero : k.numChildren = 0

theorem fresh_slots (width : Width) : Fresh (.slots width ([] : List (UInt8 × α))) :=
  ⟨⟨by simp, by simp⟩, fun _ => rfl, rfl⟩

theorem fresh_node48 : Fresh (newNode48 : Kids α) := by
  refine ⟨⟨by simp, ?_, by simp, by simp⟩, fun _ => rfl, rfl⟩
  intro c d _ used
  exact absurd rfl used

theorem fresh_node256 : Fresh (newNode256 : Kids α) := by
  refine ⟨⟨length_replicate, ?_⟩, ?_, rfl⟩
  · rw [filterMap_replicate_of_none rfl]
    rfl
  · intro c
    rw [newNode256, findChild, getElem?_replicate, if_pos c.toNat_lt]
    rfl

theorem moved_spec {dest : Kids α} (wf : k.WF) (fresh : Fresh dest)
    (room : k.numChildren ≤ dest.shape.cap) :
    ∃ after, dest.addAll k.pairs = .ok after ∧ after.WF ∧ after.shape = dest.shape ∧
      after.numChildren = k.numChildren ∧ ∀ d, after.findChild d = k.findChild d := by
  obtain ⟨after, moved, wf', shape, count, find⟩ := addAll_spec fresh.wf (pairs_keys wf)
    (fun p _ => fresh.find p.1) (by rw [fresh.zero, pairs_length wf]; omega)
  refine ⟨after, moved, wf', shape, by rw [count, fresh.zero, pairs_length wf, Nat.zero_add], ?_⟩
  intro d
  rw [find, fresh.find, get_pairs wf]
  rfl

theorem grow_spec (wf : k.WF) (full : k.isFull = true) :
    ∃ after, k.grow = .ok after ∧ after.WF ∧ (∀ d, after.findChild d = k.findChild d) ∧
      after.numChildren < after.shape.cap ∧ after.shape.low ≤ after.numChildren + 1 := by
  -- A full node of one size is moved to the next, which is then one short of its least number.
  have larger : ∀ dest : Kids α, Fresh dest → k.numChildren = k.shape.cap →
      dest.shape.low = k.shape.cap + 1 → k.grow = dest.addAll k.pairs →
      ∃ after, k.grow = .ok after ∧ after.WF ∧ (∀ d, after.findChild d = k.findChild d) ∧
        after.numChildren < after.shape.cap ∧ after.shape.low ≤ after.numChildren + 1 := by
    intro dest fresh exactly next grown
    have room := dest.shape.low_le_cap
    obtain ⟨after, moved, wf', shape, count, find⟩ := moved_spec wf fresh (by omega)
    refine ⟨after, grown.trans moved, wf', find, ?_, ?_⟩ <;> rw [shape, count] <;> omega
  cases k with
  | slots width s =>
    have long : width.cap ≤ s.length := by simpa [isFull] using full
    have exactly : s.length = width.cap := le_antisymm wf.2 long
    have enough : ¬ s.length < width.cap := by omega
    cases width with
    | w4 => exact larger newNode10 (fresh_slots _) exactly rfl (if_neg enough)
    | w10 => exact larger newNode16 (fresh_slots _) exactly rfl (if_neg enough)
    | w16 => exact larger newNode48 fresh_node48 exactly rfl (if_neg enough)
  | node48 key child =>
    have long : 48 ≤ child.length := by simpa [isFull] using full
    exact larger newNode256 fresh_node256 (le_antisymm wf.2.2.2 long) rfl rfl
  | node256 child size => cases full

theorem numChildren_lt_of_absent (wf : k.WF) (absent : k.findChild c = none) :
    k.numChildren < 256 := by
  have fresh : c ∉ k.pairs.map Prod.fst := by
    rw [← get_eq_none_iff, get_pairs wf]
    exact absent
  have keys : (c :: k.pairs.map Prod.fst).Nodup := nodup_cons.mpr ⟨fresh, pairs_keys wf⟩
  have inside := (subperm_of_subset keys (fun d _ => mem_allBytes d)).length_le
  have all : allBytes.length = 256 := by simp [allBytes]
  rw [length_cons, length_map, pairs_length wf, all] at inside
  omega

def insertChild (k : Kids α) (c : UInt8) (x : α) : Except Panic (Kids α) := do
  let k ← if k.isFull then k.grow else .ok k
  k.addChild c x

theorem insertChild_spec (wf : k.WF) (low : k.shape.low ≤ k.numChildren)
    (absent : k.findChild c = none) (x : α) :
    ∃ after, k.insertChild c x = .ok after ∧ after.WF ∧ after.shape.low ≤ after.numChildren ∧
      ∀ d, after.findChild d = if d = c then some x else k.findChild d := by
  cases full : k.isFull with
  | false =>
    have room : k.numChildren < k.shape.cap := by
      cases k with
      | slots width s => simpa [isFull, numChildren, shape, Shape.cap] using full
      | node48 key child => simpa [isFull, numChildren, shape, Shape.cap] using full
      | node256 child size => exact numChildren_lt_of_absent wf absent
    obtain ⟨after, added, became, count⟩ := addChild_became wf absent room x
    refine ⟨after, ?_, became.wf, ?_, became.find⟩
    · rw [insertChild, full]
      exact added
    · rw [became.shape, count]
      omega
  | true =>
    obtain ⟨grown, grew, wf', find, room, low'⟩ := grow_spec wf full
    obtain ⟨after, added, became, count⟩ :=
      addChild_became wf' ((find c).trans absent) room x
    refine ⟨after, ?_, became.wf, ?_, ?_⟩
    · rw [insertChild, full, if_pos rfl, grew]
      exact added
    · rw [became.shape, count]
      exact low'
    · intro d
      rw [became.find, find]

theorem shrink_spec (wf : k.WF) (low : k.shape.low ≤ k.numChildren + 1) :
    (k.shrink = .ok .stays ∧ k.shape.low ≤ k.numChildren) ∨
      (∃ c x, k.shrink = .ok (.only x) ∧ k.findChild c = some x ∧
        ∀ d, d ≠ c → k.findChild d = none) ∨
      ∃ after, k.shrink = .ok (.smaller after) ∧ after.WF ∧
        after.shape.low ≤ after.numChildren ∧ ∀ d, after.findChild d = k.findChild d := by
  -- A node with one child less than its least number fills a node of the size below.
  have smaller : ∀ dest : Kids α, Fresh dest → k.shape.low = dest.shape.cap + 1 →
      k.shrink = (if dest.shape.cap < k.numChildren then .ok .stays
        else (dest.addAll k.pairs).map .smaller) →
      (k.shrink = .ok .stays ∧ k.shape.low ≤ k.numChildren) ∨
        ∃ after, k.shrink = .ok (.smaller after) ∧ after.WF ∧
          after.shape.low ≤ after.numChildren ∧ ∀ d, after.findChild d = k.findChild d := by
    intro dest fresh next shrunk
    have room := dest.shape.low_le_cap
    split at shrunk
    next many => exact .inl ⟨shrunk, by omega⟩
    next many =>
      obtain ⟨after, moved, wf', shape, count, find⟩ := moved_spec wf fresh (by omega)
      exact .inr ⟨after, by rw [shrunk, moved]; rfl, wf', by rw [shape, count]; omega, find⟩
  cases k with
  | slots width s =>
    cases width with
    | w4 =>
      simp only [shape, numChildren, Shape.low] at low
      match s, wf, low with
      | [p], _, _ =>
        refine .inr (.inl ⟨p.1, p.2, rfl, by simp [findChild, Table.get], ?_⟩)
        intro d other
        simp [findChild, Table.get, Ne.symm other]
      | p :: q :: s, _, _ =>
        exact .inl ⟨rfl, by simp [shape, Shape.low, numChildren]⟩
    | w10 => exact (smaller newNode4 (fresh_slots _) rfl rfl).imp_right .inr
    | w16 => exact (smaller newNode10 (fresh_slots _) rfl rfl).imp_right .inr
  | node48 key child => exact (smaller newNode16 (fresh_slots _) rfl rfl).imp_right .inr
  | node256 child size => exact (smaller newNode48 fresh_node48 rfl rfl).imp_right .inr

end Kids

end LinearNats.Stree
