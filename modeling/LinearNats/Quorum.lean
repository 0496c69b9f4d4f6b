import Mathlib

/-! Majorities of a finite group, and that any two of them share a member. -/
namespace LinearNats

variable {V : Type*} [DecidableEq V]

structure Majority (group quorum : Finset V) : Prop where
  within : quorum ⊆ group
  large : group.card / 2 + 1 ≤ quorum.card

theorem Majority.meets {group left right : Finset V} (first : Majority group left)
    (second : Majority group right) : ∃ v, v ∈ left ∧ v ∈ right := by
  by_contra apart
  have disjoint : Disjoint left right := by
    rw [Finset.disjoint_left]
    intro v inLeft inRight
    exact apart ⟨v, inLeft, inRight⟩
  have together : (left ∪ right).card ≤ group.card :=
    Finset.card_le_card (Finset.union_subset first.within second.within)
  rw [Finset.card_union_of_disjoint disjoint] at together
  have largeLeft := first.large
  have largeRight := second.large
  omega

end LinearNats
