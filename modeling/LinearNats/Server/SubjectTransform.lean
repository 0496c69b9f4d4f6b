import LinearNats.Sublist.Paths

/-! Mapping functions of subject transforms that cut a token into pieces of a given size. -/
namespace LinearNats.SubjectTransform
open Server Sublists List

section

variable (sourceToken : Bytes)

def splitFromLeft (position : Int) : Bytes :=
  if 0 < position ∧ position < sourceToken.length then
    sourceToken.take position.toNat ++ btsep :: sourceToken.drop position.toNat
  else sourceToken

def splitFromRight (position : Int) : Bytes :=
  if 0 < position ∧ position < sourceToken.length then
    sourceToken.take (sourceToken.length - position.toNat) ++
      btsep :: sourceToken.drop (sourceToken.length - position.toNat)
  else sourceToken

def sliceLeftLoop (sliceSize : Nat) : (fuel i : Nat) → Bytes
  | 0, _ => []
  | fuel + 1, i =>
    if i + sliceSize ≤ sourceToken.length then
      (if i ≠ 0 then [btsep] else []) ++ ((sourceToken.drop i).take sliceSize ++
        if i + sliceSize ≠ sourceToken.length ∧
            sourceToken.length < i + sliceSize + sliceSize then
          btsep :: sourceToken.drop (i + sliceSize)
        else sliceLeftLoop sliceSize fuel (i + sliceSize))
    else []

def sliceFromLeft (sliceSize : Int) : Bytes :=
  if 0 < sliceSize ∧ sliceSize < sourceToken.length then
    sliceLeftLoop sourceToken sliceSize.toNat (sourceToken.length + 1) 0
  else sourceToken

def sliceRightLoop (sliceSize : Nat) : (fuel i : Nat) → Bytes
  | 0, _ => []
  | fuel + 1, i =>
    if i + sliceSize ≤ sourceToken.length then
      (sourceToken.drop i).take sliceSize ++
        ((if i + sliceSize < sourceToken.length then [btsep] else []) ++
          sliceRightLoop sliceSize fuel (i + sliceSize))
    else []

def sliceFromRight (sliceSize : Int) : Bytes :=
  if 0 < sliceSize ∧ sliceSize < sourceToken.length then
    let remainder := sourceToken.length % sliceSize.toNat
    (if 0 < remainder then sourceToken.take remainder ++ [btsep] else []) ++
      sliceRightLoop sourceToken sliceSize.toNat (sourceToken.length + 1) remainder
  else sourceToken

end

structure Cut (token out : Bytes) (ps : List Bytes) : Prop where
  joined : out = [btsep].intercalate ps
  whole : ps.flatten = token
  filled : [] ∉ ps
  cut : ps ≠ []

variable {token out piece : Bytes} {ps : List Bytes} {n : Nat}

theorem Cut.single (filled : token ≠ []) : Cut token token [token] := by
  constructor
  · rw [intercalate_singleton]
  · simp
  · simpa using filled.symm
  · simp

theorem Cut.cons (cut : Cut token out ps) (filled : piece ≠ []) :
    Cut (piece ++ token) (piece ++ btsep :: out) (piece :: ps) := by
  constructor
  · obtain ⟨q, qs, rfl⟩ := exists_cons_of_ne_nil cut.cut
    rw [intercalate_cons_cons, cut.joined]
    simp
  · rw [flatten_cons, cut.whole]
  · simp [cut.filled, filled.symm]
  · simp

theorem Cut.tokens (cut : Cut token out ps) (plain : btsep ∉ token) : tokens out = ps := by
  rw [Sublists.tokens, cut.joined]
  refine splitOn_intercalate btsep (fun p member sep => plain ?_) cut.cut
  rw [← cut.whole]
  exact mem_flatten_of_mem member sep

theorem cut_at {i : Nat} (pos : 0 < i) (inside : i < token.length) :
    Cut token (token.take i ++ btsep :: token.drop i) [token.take i, token.drop i] := by
  have left : token.take i ≠ [] := by
    rw [← length_pos_iff, length_take]
    omega
  have right : token.drop i ≠ [] := by
    rw [← length_pos_iff, length_drop]
    omega
  have both := (Cut.single right).cons left
  rwa [take_append_drop] at both

variable {fuel i : Nat}

theorem piece_next (pos : 0 < n) (inside : i + n ≤ token.length) :
    ((token.drop i).take n).length = n ∧ (token.drop i).take n ≠ [] ∧
      (token.drop i).take n ++ token.drop (i + n) = token.drop i := by
  have length : ((token.drop i).take n).length = n := by
    rw [length_take, length_drop]
    omega
  refine ⟨length, ?_, ?_⟩
  · rw [← length_pos_iff]
    omega
  · rw [← drop_drop, take_append_drop]

theorem piece_last (pos : 0 < n) (last : i + n = token.length) :
    Cut (token.drop i) ((token.drop i).take n) [(token.drop i).take n] := by
  obtain ⟨-, filled, next⟩ := piece_next pos last.le
  rw [last, drop_length, append_nil] at next
  rw [next] at filled ⊢
  exact Cut.single filled

theorem sliceLeftLoop_cut (pos : 0 < n) (inside : i + n ≤ token.length)
    (enough : token.length < fuel + i) :
    ∃ out ps, sliceLeftLoop token n fuel i = (if i ≠ 0 then [btsep] else []) ++ out ∧
      Cut (token.drop i) out ps ∧ ∀ p ∈ ps.dropLast, p.length = n := by
  induction fuel generalizing i with
  | zero => omega
  | succ fuel ih =>
    obtain ⟨length, filled, next⟩ := piece_next pos inside
    rw [sliceLeftLoop, if_pos inside]
    by_cases more : i + n + n ≤ token.length
    · obtain ⟨out, ps, same, cut, sizes⟩ := ih more (by omega)
      have later : i + n ≠ 0 := by omega
      rw [if_neg (not_and_of_not_right _ (by omega)), same, if_pos later]
      refine ⟨_, _, rfl, next ▸ cut.cons filled, ?_⟩
      rw [dropLast_cons_of_ne_nil cut.cut, forall_mem_cons]
      exact ⟨length, sizes⟩
    by_cases last : i + n = token.length
    · have stop : sliceLeftLoop token n fuel (i + n) = [] := by
        cases fuel with
        | zero => rfl
        | succ fuel => exact if_neg more
      rw [if_neg (not_and_of_not_left _ (not_not.mpr last)), stop, append_nil]
      exact ⟨_, _, rfl, piece_last pos last, by simp⟩
    · rw [if_pos (And.intro last (by omega))]
      refine ⟨_, _, rfl, next ▸ (Cut.single ?_).cons filled, by simp [length]⟩
      rw [ne_eq, drop_eq_nil_iff]
      omega

theorem sliceRightLoop_cut (pos : 0 < n) (inside : i + n ≤ token.length)
    (enough : token.length < fuel + i) (even : n ∣ token.length - i) :
    ∃ ps, Cut (token.drop i) (sliceRightLoop token n fuel i) ps ∧ ∀ p ∈ ps, p.length = n := by
  induction fuel generalizing i with
  | zero => omega
  | succ fuel ih =>
    obtain ⟨length, filled, next⟩ := piece_next pos inside
    rw [sliceRightLoop, if_pos inside]
    have left : n ∣ token.length - (i + n) := by
      rw [Nat.sub_add_eq]
      exact Nat.dvd_sub even (dvd_refl n)
    by_cases more : i + n < token.length
    · have room := Nat.le_of_dvd (by omega) left
      obtain ⟨ps, cut, sizes⟩ := ih (i := i + n) (by omega) (by omega) left
      rw [if_pos more]
      refine ⟨_, next ▸ cut.cons filled, ?_⟩
      rw [forall_mem_cons]
      exact ⟨length, sizes⟩
    · have stop : sliceRightLoop token n fuel (i + n) = [] := by
        cases fuel with
        | zero => rfl
        | succ fuel => exact if_neg (by omega)
      rw [if_neg more, stop, append_nil, append_nil]
      exact ⟨_, piece_last pos (by omega), by simp [length]⟩

theorem split_cut (filled : token ≠ []) {p : Prop} [Decidable p]
    (inside : p → 0 < i ∧ i < token.length) :
    ∃ ps, Cut token (if p then token.take i ++ btsep :: token.drop i else token) ps ∧
      ps.length ≤ 2 ∧ (p → ps = [token.take i, token.drop i]) := by
  split
  next made => exact ⟨_, cut_at (inside made).1 (inside made).2, by simp, fun _ => rfl⟩
  next whole => exact ⟨_, Cut.single filled, by simp, fun made => absurd made whole⟩

theorem sliceFromLeft_cut (filled : token ≠ []) (sliceSize : Int) :
    ∃ ps, Cut token (sliceFromLeft token sliceSize) ps ∧
      ∀ p ∈ ps.dropLast, (p.length : Int) = sliceSize := by
  unfold sliceFromLeft
  split
  · obtain ⟨out, ps, same, cut, sizes⟩ := @sliceLeftLoop_cut token sliceSize.toNat
      (token.length + 1) 0 (by omega) (by omega) (by omega)
    refine ⟨ps, same ▸ cut, fun p member => ?_⟩
    rw [sizes p member]
    omega
  · exact ⟨_, Cut.single filled, by simp⟩

theorem sliceFromRight_cut (filled : token ≠ []) (sliceSize : Int) :
    ∃ ps, Cut token (sliceFromRight token sliceSize) ps ∧
      ∀ p ∈ ps.tail, (p.length : Int) = sliceSize := by
  unfold sliceFromRight
  split
  next inside =>
    have pos : 0 < sliceSize.toNat := by omega
    have less := Nat.mod_lt token.length pos
    have even : sliceSize.toNat ∣ token.length - token.length % sliceSize.toNat :=
      Nat.dvd_sub_mod token.length
    have room := Nat.le_of_dvd (by omega) even
    obtain ⟨ps, cut, sizes⟩ := @sliceRightLoop_cut token _ (token.length + 1) _ pos (by omega)
      (by omega) even
    have size : ∀ p ∈ ps, (p.length : Int) = sliceSize := by
      intro p member
      rw [sizes p member]
      omega
    dsimp only
    split
    · rename_i some_
      have filled : token.take (token.length % sliceSize.toNat) ≠ [] := by
        rw [← length_pos_iff, length_take]
        omega
      have cut := cut.cons filled
      rw [take_append_drop] at cut
      rw [append_assoc]
      exact ⟨_, cut, size⟩
    · rename_i none_
      rw [Nat.eq_zero_of_not_pos none_] at cut ⊢
      exact ⟨ps, cut, fun p member => size p (mem_of_mem_tail member)⟩
  · exact ⟨_, Cut.single filled, by simp⟩

structure SourceToken where
  bytes : Bytes
  filled : bytes ≠ []
  plain : btsep ∉ bytes

/-- Nothing is lost, no piece is empty, and the pieces have the size that is asked for: the first or
the last of a split, and all of a slicing but the last or the first. -/
theorem sized_pieces (t : SourceToken) (n : Int) :
    (∀ f ∈ [splitFromLeft, splitFromRight, sliceFromLeft, sliceFromRight],
      (tokens (f t.bytes n)).flatten = t.bytes ∧ [] ∉ tokens (f t.bytes n)) ∧
    (tokens (splitFromLeft t.bytes n)).length ≤ 2 ∧
    (tokens (splitFromRight t.bytes n)).length ≤ 2 ∧
    (0 < n ∧ n < t.bytes.length →
      (tokens (splitFromLeft t.bytes n)).head?.map (fun p => (p.length : Int)) = some n ∧
      (tokens (splitFromRight t.bytes n)).getLast?.map (fun p => (p.length : Int)) = some n) ∧
    (∀ p ∈ (tokens (sliceFromLeft t.bytes n)).dropLast, (p.length : Int) = n) ∧
    ∀ p ∈ (tokens (sliceFromRight t.bytes n)).tail, (p.length : Int) = n := by
  obtain ⟨lefts, left, two, first⟩ := split_cut t.filled
    (i := n.toNat) (p := 0 < n ∧ n < t.bytes.length) (by omega)
  obtain ⟨rights, right, two', last⟩ := split_cut t.filled
    (i := t.bytes.length - n.toNat) (p := 0 < n ∧ n < t.bytes.length) (by omega)
  rw [← splitFromLeft] at left
  rw [← splitFromRight] at right
  obtain ⟨slices, sliced, sizes⟩ := sliceFromLeft_cut t.filled n
  obtain ⟨slices', sliced', sizes'⟩ := sliceFromRight_cut t.filled n
  simp only [forall_mem_cons, not_mem_nil, false_implies, implies_true, and_true,
    left.tokens t.plain, right.tokens t.plain, sliced.tokens t.plain, sliced'.tokens t.plain]
  refine ⟨⟨⟨left.whole, left.filled⟩, ⟨right.whole, right.filled⟩, ⟨sliced.whole, sliced.filled⟩,
    ⟨sliced'.whole, sliced'.filled⟩⟩, two, two', ?_, sizes, sizes'⟩
  intro inside
  rw [first inside, last inside]
  have first : (t.bytes.take n.toNat).length = n := by
    rw [length_take]
    omega
  have last : (t.bytes.drop (t.bytes.length - n.toNat)).length = n := by
    rw [length_drop]
    omega
  exact ⟨congrArg some first, congrArg some last⟩

/-- "abcde" in twos. -/
example : sliceFromLeft [97, 98, 99, 100, 101] 2 = [97, 98, 46, 99, 100, 46, 101] ∧
    sliceFromRight [97, 98, 99, 100, 101] 2 = [97, 46, 98, 99, 46, 100, 101] := by decide

end LinearNats.SubjectTransform
