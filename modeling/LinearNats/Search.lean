import Mathlib

/-! Substring search over lists. `indexOf` is the first occurrence of a pattern; `pieces` are the
parts between its occurrences, taken greedily from the left, so that the pattern between any two
pieces gives the text back. -/
namespace LinearNats.Search
open List

variable {α : Type*} [DecidableEq α]

def indexOf (pat : List α) : List α → Option Nat
  | [] => if pat = [] then some 0 else none
  | c :: s => if pat <+: c :: s then some 0 else (indexOf pat s).map (· + 1)

def consHead (c : α) : List (List α) → List (List α)
  | [] => [[c]]
  | p :: ps => (c :: p) :: ps

/-- The pieces of the text behind the first `skip` elements, which belong to an occurrence. -/
def piecesFrom (pat : List α) : Nat → List α → List (List α)
  | _, [] => [[]]
  | skip + 1, _ :: s => piecesFrom pat skip s
  | 0, c :: s =>
    if pat <+: c :: s then [] :: piecesFrom pat (pat.length - 1) s
    else consHead c (piecesFrom pat 0 s)

def pieces (pat s : List α) : List (List α) := piecesFrom pat 0 s

/-- Two lists of pieces side by side: the last piece on the left runs into the first on the
right. -/
def glue : List (List α) → List (List α) → List (List α)
  | [], qs => qs
  | [p], [] => [p]
  | [p], q :: qs => (p ++ q) :: qs
  | p :: p' :: ps, qs => p :: glue (p' :: ps) qs

omit [DecidableEq α] in
theorem consHead_ne_nil (c : α) (ps : List (List α)) : consHead c ps ≠ [] := by
  cases ps <;> simp [consHead]

theorem piecesFrom_ne_nil (pat s : List α) (skip : Nat) : piecesFrom pat skip s ≠ [] := by
  induction s generalizing skip with
  | nil => simp [piecesFrom]
  | cons c s ih =>
    cases skip with
    | zero =>
      simp only [piecesFrom]
      split
      · simp
      · exact consHead_ne_nil _ _
    | succ skip => exact ih skip

theorem pieces_ne_nil (pat s : List α) : pieces pat s ≠ [] := piecesFrom_ne_nil pat s 0

theorem piecesFrom_eq_drop (pat s : List α) (skip : Nat) :
    piecesFrom pat skip s = pieces pat (s.drop skip) := by
  induction s generalizing skip with
  | nil => cases skip <;> rfl
  | cons c s ih =>
    cases skip with
    | zero => rfl
    | succ skip => exact ih skip

theorem pieces_nil (pat : List α) : pieces pat [] = [[]] := rfl

variable {pat s : List α} {c : α}

theorem pieces_cons_of_no_match (no : ¬ pat <+: c :: s) :
    pieces pat (c :: s) = consHead c (pieces pat s) := by
  simp [pieces, piecesFrom, no]

theorem pieces_pat_append (ne : pat ≠ []) (s : List α) :
    pieces pat (pat ++ s) = [] :: pieces pat s := by
  cases pat with
  | nil => exact absurd rfl ne
  | cons c rest =>
    have here : (c :: rest) <+: c :: (rest ++ s) := ⟨s, rfl⟩
    simp only [pieces, cons_append, piecesFrom, here, if_true, length_cons, Nat.add_sub_cancel]
    rw [piecesFrom_eq_drop, drop_left]
    rfl

omit [DecidableEq α] in
theorem prefix_append_cons_iff {a b : List α} (outside : c ∉ pat) :
    pat <+: a ++ c :: b ↔ pat <+: a := by
  constructor
  · rintro ⟨rest, split⟩
    rcases append_eq_append_iff.mp split with ⟨mid, rfl, _⟩ | ⟨mid, rfl, tail⟩
    · exact prefix_append pat mid
    cases mid with
    | nil => simp
    | cons d mid =>
      have : c = d := (List.cons.inj tail).1
      exact absurd (by simp [this]) outside
  · intro h
    exact h.trans (prefix_append a _)

omit [DecidableEq α] in
theorem infix_append_cons_iff {a b : List α} (ne : pat ≠ []) (outside : c ∉ pat) :
    pat <:+: a ++ c :: b ↔ pat <:+: a ∨ pat <:+: b := by
  induction a with
  | nil =>
    have stop : ¬ pat <+: c :: b := by
      intro here
      have := (prefix_append_cons_iff (a := []) outside).mp here
      exact ne (prefix_nil.mp this)
    simp [infix_cons_iff, stop, ne]
  | cons x a ih =>
    have same := prefix_append_cons_iff (a := x :: a) (b := b) outside
    rw [cons_append] at same ⊢
    rw [infix_cons_iff, infix_cons_iff, ih, same, or_assoc]

theorem piecesFrom_append_cons (outside : c ∉ pat) (a b : List α) (skip : Nat)
    (room : skip ≤ a.length) :
    piecesFrom pat skip (a ++ c :: b) = glue (piecesFrom pat skip a) (pieces pat (c :: b)) := by
  induction a generalizing skip with
  | nil =>
    have : skip = 0 := by simpa using room
    subst this
    have shape := pieces_ne_nil pat (c :: b)
    simp only [nil_append, piecesFrom]
    cases hp : pieces pat (c :: b) with
    | nil => exact absurd hp shape
    | cons p ps => exact hp
  | cons x a ih =>
    cases skip with
    | succ skip =>
      simp only [length_cons, Nat.add_le_add_iff_right] at room
      exact ih skip room
    | zero =>
      have same : pat <+: x :: (a ++ c :: b) ↔ pat <+: x :: a := by
        rw [← cons_append]
        exact prefix_append_cons_iff outside
      simp only [cons_append, piecesFrom, same]
      split
      next here =>
        have size : pat.length ≤ a.length + 1 := by simpa using here.length_le
        rw [ih (pat.length - 1) (by omega)]
        obtain ⟨p, ps, hp⟩ := exists_cons_of_ne_nil (piecesFrom_ne_nil pat a (pat.length - 1))
        rw [hp]
        rfl
      · rw [ih 0 (Nat.zero_le _)]
        obtain ⟨p, ps, hp⟩ := exists_cons_of_ne_nil (piecesFrom_ne_nil pat a 0)
        obtain ⟨q, qs, hq⟩ := exists_cons_of_ne_nil (pieces_ne_nil pat (c :: b))
        rw [hp, hq]
        cases ps <;> rfl

/-- An element outside the pattern splits the search: what is left and right of it is searched
on its own. -/
theorem pieces_append_cons (outside : c ∉ pat) (a b : List α) :
    pieces pat (a ++ c :: b) = glue (pieces pat a) (pieces pat (c :: b)) :=
  piecesFrom_append_cons outside a b 0 (Nat.zero_le _)

theorem pieces_cons_of_outside (ne : pat ≠ []) (outside : c ∉ pat) (s : List α) :
    pieces pat (c :: s) = consHead c (pieces pat s) := by
  apply pieces_cons_of_no_match
  intro here
  have := (prefix_append_cons_iff (a := []) outside).mp here
  exact ne (prefix_nil.mp this)

theorem pieces_of_indexOf_none (none : indexOf pat s = none) : pieces pat s = [s] := by
  induction s with
  | nil => rfl
  | cons c s ih =>
    simp only [indexOf] at none
    split at none
    · contradiction
    next no =>
      rw [pieces_cons_of_no_match no, ih (by simpa using none)]
      rfl

theorem pieces_of_indexOf_some (ne : pat ≠ []) {i : Nat} (found : indexOf pat s = some i) :
    i + pat.length ≤ s.length ∧ s.drop i = pat ++ s.drop (i + pat.length) ∧
      pieces pat s = s.take i :: pieces pat (s.drop (i + pat.length)) := by
  induction s generalizing i with
  | nil => simp [indexOf, ne] at found
  | cons c s ih =>
    simp only [indexOf] at found
    split at found
    next here =>
      cases found
      obtain ⟨rest, split⟩ := here
      rw [← split, pieces_pat_append ne]
      simp
    rename_i no
    obtain ⟨j, hj, rfl⟩ := Option.map_eq_some_iff.mp found
    obtain ⟨size, here, split⟩ := ih hj
    refine ⟨by simp only [length_cons]; omega, ?_, ?_⟩
    · rw [add_right_comm j 1]
      exact here
    · rw [pieces_cons_of_no_match no, split, add_right_comm j 1]
      rfl

theorem pieces_within (ne : pat ≠ []) (s : List α) : ∀ p ∈ pieces pat s, p <:+: s := by
  induction size : s.length using Nat.strong_induction_on generalizing s with
  | _ n ih =>
    intro p hp
    cases found : indexOf pat s with
    | none =>
      rw [pieces_of_indexOf_none found] at hp
      rw [mem_singleton.mp hp]
    | some i =>
      obtain ⟨room, _, split⟩ := pieces_of_indexOf_some ne found
      have shorter : (s.drop (i + pat.length)).length < n := by
        have := length_pos_iff.mpr ne
        simp only [length_drop]
        omega
      rw [split] at hp
      rcases mem_cons.mp hp with rfl | hp
      · exact (List.take_prefix i s).isInfix
      · exact (ih _ shorter _ rfl p hp).trans (drop_suffix _ s).isInfix

theorem prefix_of_pieces_nil {q : List α} {qs : List (List α)} (ne : pat ≠ [])
    (split : pieces pat s = [] :: q :: qs) :
    s = pat ++ s.drop pat.length ∧ pieces pat (s.drop pat.length) = q :: qs := by
  cases found : indexOf pat s with
  | none =>
    rw [pieces_of_indexOf_none found] at split
    simp at split
  | some i =>
    obtain ⟨room, here, cut⟩ := pieces_of_indexOf_some ne found
    rw [cut] at split
    obtain ⟨start, rest⟩ := List.cons.inj split
    have zero : i = 0 := by
      have size := congrArg List.length start
      simp only [length_take, length_nil] at size
      omega
    subst zero
    rw [zero_add] at here rest
    exact ⟨here, rest⟩

theorem pieces_head_starts {p : List α} {ps : List (List α)} (ne : pat ≠ [])
    (split : pieces pat s = p :: ps) : p <+: s := by
  cases found : indexOf pat s with
  | none =>
    rw [pieces_of_indexOf_none found] at split
    rw [(List.cons.inj split).1]
  | some i =>
    rw [(pieces_of_indexOf_some ne found).2.2] at split
    rw [← (List.cons.inj split).1]
    exact take_prefix i s

theorem intercalate_pieces (ne : pat ≠ []) (s : List α) : pat.intercalate (pieces pat s) = s := by
  induction size : s.length using Nat.strong_induction_on generalizing s with
  | _ n ih =>
    cases found : indexOf pat s with
    | none =>
      rw [pieces_of_indexOf_none found]
      simp [List.intercalate]
    | some i =>
      obtain ⟨room, here, split⟩ := pieces_of_indexOf_some ne found
      have shorter : (s.drop (i + pat.length)).length < n := by
        have := length_pos_iff.mpr ne
        simp only [length_drop]
        omega
      have rest := ih _ shorter _ rfl
      obtain ⟨q, qs, hq⟩ := exists_cons_of_ne_nil (pieces_ne_nil pat (s.drop (i + pat.length)))
      rw [hq] at rest
      rw [split, hq]
      have unfolded : pat.intercalate (s.take i :: q :: qs) =
          s.take i ++ (pat ++ pat.intercalate (q :: qs)) := by
        simp [List.intercalate]
      rw [unfolded, rest, ← here, take_append_drop]

theorem pieces_injective (ne : pat ≠ []) : Function.Injective (pieces pat) := by
  intro s t same
  rw [← intercalate_pieces ne s, same, intercalate_pieces ne t]

end LinearNats.Search
