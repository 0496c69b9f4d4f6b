import Mathlib

/-! Scans over an interval of natural numbers, upwards and downwards, that stop at the first
number with a property. -/
namespace LinearNats.Scan
open List

def firstIn (p : Nat → Bool) (lo hi : Nat) : Option Nat :=
  (List.range' lo (hi + 1 - lo)).find? p

def lastIn (p : Nat → Bool) (lo hi : Nat) : Option Nat :=
  (List.range' lo (hi + 1 - lo)).reverse.find? p

variable {p : Nat → Bool} {lo hi n : Nat}

theorem mem_interval : n ∈ List.range' lo (hi + 1 - lo) ↔ lo ≤ n ∧ n ≤ hi := by
  rw [mem_range'_1]
  omega

theorem firstIn_none : firstIn p lo hi = none ↔ ∀ m, lo ≤ m → m ≤ hi → p m = false := by
  rw [firstIn, find?_eq_none]
  constructor
  · intro none m low high
    simpa using none m (mem_interval.mpr ⟨low, high⟩)
  · intro none m inside
    simpa using none m (mem_interval.mp inside).1 (mem_interval.mp inside).2

theorem lastIn_none : lastIn p lo hi = none ↔ ∀ m, lo ≤ m → m ≤ hi → p m = false := by
  rw [lastIn, find?_eq_none]
  constructor
  · intro none m low high
    simpa using none m (mem_reverse.mpr (mem_interval.mpr ⟨low, high⟩))
  · intro none m inside
    have bounds := mem_interval.mp (mem_reverse.mp inside)
    simpa using none m bounds.1 bounds.2

theorem find_before {α : Type*} {r : α → α → Prop} {q : α → Bool} {xs : List α} {x y : α}
    (ordered : xs.Pairwise r) (found : xs.find? q = some x) (other : y ∈ xs) (good : q y = true) :
    x = y ∨ r x y := by
  obtain ⟨_, before, after, rfl, bad⟩ := find?_eq_some_iff_append.mp found
  rcases mem_append.mp other with earlier | here
  · simpa [good] using bad y earlier
  rcases mem_cons.mp here with rfl | later
  · exact .inl rfl
  · exact .inr ((pairwise_cons.mp (pairwise_append.mp ordered).2.1).1 y later)

theorem firstIn_some (found : firstIn p lo hi = some n) :
    lo ≤ n ∧ n ≤ hi ∧ p n = true ∧ ∀ m, lo ≤ m → m ≤ hi → p m = true → n ≤ m := by
  have bounds := mem_interval.mp (mem_of_find?_eq_some found)
  refine ⟨bounds.1, bounds.2, find?_some found, ?_⟩
  intro m low high good
  have order : (List.range' lo (hi + 1 - lo)).Pairwise (· < ·) := pairwise_lt_range'
  rcases find_before order found (mem_interval.mpr ⟨low, high⟩) good with same | before
  · exact le_of_eq same
  · exact le_of_lt before

theorem firstIn_eq_some : firstIn p lo hi = some n ↔
    lo ≤ n ∧ n ≤ hi ∧ p n = true ∧ ∀ m, lo ≤ m → m ≤ hi → p m = true → n ≤ m := by
  refine ⟨firstIn_some, fun ⟨low, high, good, least⟩ => ?_⟩
  cases found : firstIn p lo hi with
  | none =>
    rw [firstIn_none.mp found n low high] at good
    cases good
  | some m =>
    obtain ⟨low', high', good', least'⟩ := firstIn_some found
    rw [le_antisymm (least' n low high good) (least m low' high' good')]

theorem lastIn_some (found : lastIn p lo hi = some n) :
    lo ≤ n ∧ n ≤ hi ∧ p n = true ∧ ∀ m, lo ≤ m → m ≤ hi → p m = true → m ≤ n := by
  have bounds := mem_interval.mp (mem_reverse.mp (mem_of_find?_eq_some found))
  refine ⟨bounds.1, bounds.2, find?_some found, ?_⟩
  intro m low high good
  have order : (List.range' lo (hi + 1 - lo)).reverse.Pairwise (· > ·) :=
    pairwise_reverse.mpr pairwise_lt_range'
  have inside := mem_reverse.mpr (mem_interval.mpr ⟨low, high⟩)
  rcases find_before order found inside good with same | before
  · exact le_of_eq same.symm
  · exact le_of_lt before

/-- A scan that starts at or below the least member of a set and ends at or above it finds it. -/
theorem firstIn_least {S : Set Nat} (least : IsLeast S n) (low : lo ≤ n)
    (high : n ≤ hi) (members : ∀ m, p m = true ↔ m ∈ S) : firstIn p lo hi = some n := by
  refine firstIn_eq_some.mpr ⟨low, high, (members n).mpr least.1, ?_⟩
  intro m _ _ good
  exact least.2 ((members m).mp good)

theorem firstIn_congr {q : Nat → Bool} {hi' : Nat} (same : ∀ m, p m = q m)
    (high : ∀ m, p m = true → m ≤ hi) (high' : ∀ m, p m = true → m ≤ hi') :
    firstIn p lo hi = firstIn q lo hi' := by
  obtain rfl : p = q := funext same
  ext n
  rw [firstIn_eq_some, firstIn_eq_some]
  constructor
  · rintro ⟨low, _, good, least⟩
    exact ⟨low, high' n good, good, fun m low' _ good' => least m low' (high m good') good'⟩
  · rintro ⟨low, _, good, least⟩
    exact ⟨low, high n good, good, fun m low' _ good' => least m low' (high' m good') good'⟩

theorem lastIn_greatest {S : Set Nat} (greatest : IsGreatest S n) (low : lo ≤ n)
    (high : n ≤ hi) (members : ∀ m, p m = true ↔ m ∈ S) : lastIn p lo hi = some n := by
  cases found : lastIn p lo hi with
  | none =>
    have absent := lastIn_none.mp found n low high
    rw [(members n).mpr greatest.1] at absent
    cases absent
  | some m =>
    obtain ⟨_, _, good, maximal⟩ := lastIn_some found
    have below := greatest.2 ((members m).mp good)
    have above := maximal n low high ((members n).mpr greatest.1)
    rw [le_antisymm below above]

/-- A scan up to `hi` over a counter that starts again at 0 when it reaches `word`; `none` if it is
not done within `fuel` steps. -/
def scanUp (p : Nat → Bool) (word hi : Nat) : Nat → Nat → Option (Option Nat)
  | 0, _ => none
  | fuel + 1, n =>
    if n ≤ hi then if p n then some (some n) else scanUp p word hi fuel ((n + 1) % word)
    else some none

section Up

variable {word : Nat}

theorem scanUp_found (there : p n = true) (low : lo ≤ n) (high : n ≤ hi) (fits : n < word)
    (first : ∀ m, lo ≤ m → m < n → p m = false) :
    scanUp p word hi (n - lo + 1) lo = some (some n) := by
  induction distance : n - lo generalizing lo with
  | zero =>
    obtain rfl : lo = n := by omega
    rw [scanUp, if_pos high, if_pos there]
  | succ d ih =>
    have later : scanUp p word hi (d + 1) (lo + 1) = some (some n) :=
      ih (by omega) (fun m above => first m (by omega)) (by omega)
    rw [scanUp, if_pos (by omega), first lo le_rfl (by omega), if_neg Bool.false_ne_true,
      Nat.mod_eq_of_lt (by omega), later]

theorem scanUp_done (fits : hi + 1 < word) (nothing : ∀ m, lo ≤ m → m ≤ hi → p m = false) :
    scanUp p word hi (hi + 1 - lo + 1) lo = some none := by
  induction distance : hi + 1 - lo generalizing lo with
  | zero => rw [scanUp, if_neg (by omega)]
  | succ d ih =>
    have later : scanUp p word hi (d + 1) (lo + 1) = some none :=
      ih (fun m above => nothing m (by omega)) (by omega)
    rw [scanUp, if_pos (by omega), nothing lo le_rfl (by omega), if_neg Bool.false_ne_true,
      Nat.mod_eq_of_lt (by omega), later]

/-- A counter that cannot pass the end only stops where the property holds. -/
theorem scanUp_wraps (all : hi + 1 = word) {fuel : Nat} (inside : n ≤ hi) :
    scanUp p word hi fuel n ≠ some none := by
  induction fuel generalizing n with
  | zero => exact Option.some_ne_none _ |>.symm
  | succ fuel ih =>
    rw [scanUp, if_pos inside]
    split
    · simp
    · have below := Nat.mod_lt (n + 1) (show 0 < word by omega)
      exact ih (by omega)

theorem scanUp_sound {fuel m : Nat} (found : scanUp p word hi fuel m = some (some n)) :
    p n = true := by
  induction fuel generalizing m with
  | zero => cases found
  | succ fuel ih =>
    rw [scanUp] at found
    split at found
    · split at found
      next there =>
        cases found
        exact there
      · exact ih found
    · cases found

end Up

end LinearNats.Scan
