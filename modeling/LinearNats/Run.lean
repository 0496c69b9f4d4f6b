import Mathlib

/-! Runs of a deterministic step function over a list of inputs. Every statement is about
all lengths; an input that is not enabled in a state is a step that changes nothing. -/
namespace LinearNats

variable {S T A : Type*}

def run (step : S → A → S) (initial : S) : List A → S
  | [] => initial
  | a :: rest => run step (step initial a) rest

theorem run_append (step : S → A → S) (s : S) (xs ys : List A) :
    run step s (xs ++ ys) = run step (run step s xs) ys := by
  induction xs generalizing s with
  | nil => rfl
  | cons a rest ih => exact ih (step s a)

theorem run_invariant (step : S → A → S) (I : S → Prop)
    (preserves : ∀ s a, I s → I (step s a)) {s : S} (initial : I s) (xs : List A) :
    I (run step s xs) := by
  induction xs generalizing s with
  | nil => exact initial
  | cons a rest ih => exact ih (preserves s a initial)

/-- Every step of the run is taken from a state, and with an input, that `ok` accepts. -/
def Along (step : S → A → S) (ok : S → A → Prop) : S → List A → Prop
  | _, [] => True
  | s, a :: rest => ok s a ∧ Along step ok (step s a) rest

instance (step : S → A → S) (ok : S → A → Prop) [∀ s a, Decidable (ok s a)] :
    ∀ (s : S) (xs : List A), Decidable (Along step ok s xs)
  | _, [] => .isTrue trivial
  | s, a :: rest =>
    have := instDecidableAlong step ok (step s a) rest
    inferInstanceAs (Decidable (ok s a ∧ Along step ok (step s a) rest))

theorem along_invariant (step : S → A → S) (ok : S → A → Prop) (I : S → Prop)
    (preserves : ∀ s a, I s → ok s a → I (step s a)) {s : S} (initial : I s) (xs : List A)
    (along : Along step ok s xs) : I (run step s xs) := by
  induction xs generalizing s with
  | nil => exact initial
  | cons a rest ih => exact ih (preserves s a initial along.1) along.2

theorem along_of_forall (step : S → A → S) (ok : A → Prop) {s : S} {xs : List A}
    (all : ∀ a ∈ xs, ok a) : Along step (fun _ a => ok a) s xs := by
  induction xs generalizing s with
  | nil => trivial
  | cons a rest ih =>
    exact ⟨all a List.mem_cons_self, ih (fun b hb => all b (List.mem_cons_of_mem a hb))⟩

theorem along_and {step : S → A → S} {ok ok' : S → A → Prop} {s : S} {xs : List A}
    (one : Along step ok s xs) (two : Along step ok' s xs) :
    Along step (fun s a => ok s a ∧ ok' s a) s xs := by
  induction xs generalizing s with
  | nil => trivial
  | cons a rest ih => exact ⟨⟨one.1, two.1⟩, ih one.2 two.2⟩

/-- If a step that is not `ok` always breaks `G`, then `ok` is exactly what a run needs for `G`
to hold after each of its steps. `I` is the invariant that carries `G`, and `pre` what the run is
known to keep to. -/
theorem always_iff_along_of (step : S → A → S) (pre ok : S → A → Prop) (I G : S → Prop)
    (good : ∀ s, I s → G s) (preserves : ∀ s a, I s → pre s a → ok s a → I (step s a))
    (breaks : ∀ s a, I s → pre s a → ¬ ok s a → ¬ G (step s a)) {s : S} (initial : I s)
    (xs : List A) (known : Along step pre s xs) :
    (∀ n, G (run step s (xs.take n))) ↔ Along step ok s xs := by
  induction xs generalizing s with
  | nil =>
    simp only [List.take_nil, Along, run, forall_const, iff_true]
    exact good s initial
  | cons a rest ih =>
    obtain ⟨first, known⟩ := known
    constructor
    · intro always
      have accepted : ok s a := by
        by_contra refused
        exact breaks s a initial first refused (always 1)
      refine ⟨accepted, (ih (preserves s a initial first accepted) known).mp ?_⟩
      intro n
      exact always (n + 1)
    · rintro ⟨accepted, along⟩ n
      cases n with
      | zero => exact good s initial
      | succ n => exact (ih (preserves s a initial first accepted) known).mpr along n

theorem always_iff_along (step : S → A → S) (ok : S → A → Prop) (I G : S → Prop)
    (good : ∀ s, I s → G s) (preserves : ∀ s a, I s → ok s a → I (step s a))
    (breaks : ∀ s a, I s → ¬ ok s a → ¬ G (step s a)) {s : S} (initial : I s) (xs : List A) :
    (∀ n, G (run step s (xs.take n))) ↔ Along step ok s xs :=
  always_iff_along_of step (fun _ _ => True) ok I G good (fun s a inv _ => preserves s a inv)
    (fun s a inv _ => breaks s a inv) initial xs (along_of_forall step (fun _ => True) (by simp))

end LinearNats
