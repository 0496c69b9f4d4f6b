import LinearNats.Table

/-! The timed hash wheel: sequences with the time at which they expire, in slots by the second of
that time. Times are nanoseconds in an int64. A slot that is nil is an absent key. -/
namespace LinearNats.Thw

def tickDuration : Int := 1000000000
def wheelSize : Nat := 4096
def maxInt64 : Int := 9223372036854775807

structure Slot where
  entries : List (Nat × Int)
  lowest : Int
  deriving DecidableEq

structure HashWheel where
  wheel : List (Nat × Slot)
  lowest : Int
  deriving DecidableEq

structure Order where
  visit : List (Nat × Int) → List (Nat × Int)
  perm : ∀ t, (visit t).Perm t

def newHashWheel : HashWheel := ⟨[], maxInt64⟩

/-- Division truncates and the mask reads the low bits in two's complement. -/
def getPosition (expires : Int) : Nat := ((expires.tdiv tickDuration) % wheelSize).toNat

def newSlot : Slot := ⟨[], maxInt64⟩

namespace HashWheel

def add (hw : HashWheel) (seq : Nat) (expires : Int) : HashWheel :=
  let pos := getPosition expires
  let s := (Table.get hw.wheel pos).getD newSlot
  let entries := Table.set s.entries seq expires
  if expires < s.lowest then
    ⟨Table.set hw.wheel pos ⟨entries, expires⟩, if expires < hw.lowest then expires else hw.lowest⟩
  else ⟨Table.set hw.wheel pos ⟨entries, s.lowest⟩, hw.lowest⟩

def remove (hw : HashWheel) (seq : Nat) (expires : Int) : HashWheel :=
  let pos := getPosition expires
  match Table.get hw.wheel pos with
  | none => hw
  | some s =>
    match Table.get s.entries seq with
    | none => hw
    | some _ =>
      let entries := Table.erase s.entries seq
      if entries = [] then { hw with wheel := Table.erase hw.wheel pos }
      else { hw with wheel := Table.set hw.wheel pos { s with entries := entries } }

end HashWheel

end LinearNats.Thw
