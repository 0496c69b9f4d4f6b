import Mathlib

/-! Counting the elements of a list by a key. -/
namespace LinearNats.Counting
open List

variable {α κ : Type*}

theorem countP_split (p q : α → Bool) (xs : List α) :
    xs.countP p = xs.countP (fun x => p x && q x) + xs.countP (fun x => p x && !q x) := by
  induction xs with
  | nil => rfl
  | cons x xs ih =>
    simp only [countP_cons, ih]
    cases p x <;> cases q x <;> simp <;> omega

theorem sum_count_keys [DecidableEq κ] (key : α → κ) (xs : List α) {ks : List κ}
    (nodup : ks.Nodup) :
    (ks.map (fun k => xs.countP (fun x => key x = k))).sum = xs.countP (fun x => key x ∈ ks) := by
  induction ks with
  | nil => simp
  | cons k ks ih =>
    obtain ⟨new, rest⟩ := nodup_cons.mp nodup
    rw [map_cons, sum_cons, ih rest,
      countP_split (fun x => decide (key x ∈ k :: ks)) (fun x => decide (key x = k))]
    congr 1
    · refine countP_congr (fun x _ => ?_)
      simp only [decide_eq_true_eq, Bool.and_eq_true, mem_cons]
      tauto
    · refine countP_congr (fun x _ => ?_)
      simp only [decide_eq_true_eq, Bool.and_eq_true, mem_cons, Bool.not_eq_true',
        decide_eq_false_iff_not]
      constructor
      · intro inside
        refine ⟨.inr inside, ?_⟩
        rintro rfl
        exact new inside
      · rintro ⟨same | inside, different⟩
        · exact absurd same different
        · exact inside

end LinearNats.Counting
