import LinearNats.Stree.Tree

/-! The subject tree as a finite map. A tree that inserts and deletes have built is valid: a child
starts with the byte it is filed under, and no node has fewer children than its size is kept for.
What a valid tree holds is given by the paths to its leaves. -/
namespace LinearNats.Stree
open List Table

/-! Slices and common prefixes. -/

variable {s : Bytes}

theorem slice_ok {i j : Nat} (up : i ≤ j) (inside : j ≤ s.length) :
    slice s i j = .ok ((s.drop i).take (j - i)) := by
  rw [slice, if_pos ⟨up, inside⟩, drop_take]

theorem sliceFrom_ok {i : Nat} (inside : i ≤ s.length) : sliceFrom s i = .ok (s.drop i) := by
  rw [sliceFrom, slice_ok inside (le_refl _), take_of_length_le (by simp)]

theorem pivot_drop (s : Bytes) (i : Nat) : pivot s i = pivot (s.drop i) 0 := by
  simp [pivot]

@[simp] theorem pivot_nil : pivot [] 0 = noPivot := rfl

@[simp] theorem pivot_cons (b : UInt8) (s : Bytes) : pivot (b :: s) 0 = b := rfl

theorem pivot_append (some : s ≠ []) (t : Bytes) : pivot (s ++ t) 0 = pivot s 0 := by
  cases s with
  | nil => exact absurd rfl some
  | cons b s => rfl

theorem commonPrefixLen_self (s : Bytes) : commonPrefixLen s s = s.length := by
  induction s with
  | nil => rfl
  | cons b s ih => simp [commonPrefixLen, ih]

theorem commonPrefixLen_split (s t : Bytes) :
    ∃ front, s = front ++ s.drop (commonPrefixLen s t) ∧
      t = front ++ t.drop (commonPrefixLen s t) ∧ front.length = commonPrefixLen s t := by
  induction s generalizing t with
  | nil => exact ⟨[], by simp [commonPrefixLen]⟩
  | cons a s ih =>
    cases t with
    | nil => exact ⟨[], by simp [commonPrefixLen]⟩
    | cons b t =>
      rw [commonPrefixLen]
      by_cases same : a = b
      · obtain ⟨front, left, right, len⟩ := ih t
        refine ⟨a :: front, ?_, ?_, ?_⟩
        · simpa [same] using left
        · simpa [same] using right
        · simpa [same] using len
      · exact ⟨[], by simp [same]⟩

/-- Behind the common prefix the pivots differ, unless both strings end there. -/
theorem pivot_after_commonPrefixLen {t : Bytes} (plainS : noPivot ∉ s) (plainT : noPivot ∉ t)
    (differ : s ≠ t) :
    pivot (s.drop (commonPrefixLen s t)) 0 ≠ pivot (t.drop (commonPrefixLen s t)) 0 := by
  induction s generalizing t with
  | nil =>
    cases t with
    | nil => exact absurd rfl differ
    | cons b t =>
      rintro same
      simp only [commonPrefixLen, drop_zero, pivot_nil, pivot_cons] at same
      exact plainT (by rw [same]; exact mem_cons_self)
  | cons a s ih =>
    cases t with
    | nil =>
      rintro same
      simp only [commonPrefixLen, drop_zero, pivot_nil, pivot_cons] at same
      exact plainS (by rw [← same]; exact mem_cons_self)
    | cons b t =>
      rw [commonPrefixLen]
      by_cases same : a = b
      · rw [if_pos same, drop_succ_cons, drop_succ_cons]
        apply ih (fun member => plainS (mem_cons_of_mem _ member))
          (fun member => plainT (mem_cons_of_mem _ member))
        rintro rfl
        exact differ (by rw [same])
      · simp [same]

theorem not_mem_drop {b : UInt8} (plain : b ∉ s) (n : Nat) : b ∉ s.drop n :=
  fun member => plain (mem_of_mem_drop member)

namespace Node

variable {α : Type}

/-- The node's path starts with the byte it is filed under; a subject that ends at its parent is
filed under `noPivot`. -/
def Starts (c : UInt8) : Node α → Prop
  | .leaf _ suffix => pivot suffix 0 = c
  | .inner pre _ => pre ≠ [] ∧ pivot pre 0 = c

inductive Valid : Node α → Prop
  | leaf {value : α} {suffix : Bytes} (plain : noPivot ∉ suffix) : Valid (.leaf value suffix)
  | inner {pre : Bytes} {kids : Kids (Node α)} (plain : noPivot ∉ pre) (wf : kids.WF)
      (low : kids.shape.low ≤ kids.numChildren)
      (starts : ∀ c x, kids.findChild c = some x → Starts c x)
      (below : ∀ c x, kids.findChild c = some x → Valid x) : Valid (.inner pre kids)

inductive Has : Node α → Bytes → α → Prop
  | leaf (value : α) (suffix : Bytes) : Has (.leaf value suffix) suffix value
  | inner {pre : Bytes} {kids : Kids (Node α)} {c : UInt8} {x : Node α} {rest : Bytes} {v : α}
      (found : kids.findChild c = some x) (below : Has x rest v) :
      Has (.inner pre kids) (pre ++ rest) v

variable {value v : α} {suffix s pre rest subject own : Bytes} {n x : Node α} {c d : UInt8}
  {kids : Kids (Node α)} {si : Nat}

theorem has_leaf : Has (.leaf value suffix) s v ↔ s = suffix ∧ v = value := by
  constructor
  · rintro ⟨⟩
    exact ⟨rfl, rfl⟩
  · rintro ⟨rfl, rfl⟩
    exact .leaf v s

theorem Has.pivot (starts : Starts c n) (has : Has n s v) : pivot s 0 = c := by
  cases has with
  | leaf => exact starts
  | inner found below => rw [pivot_append starts.1, starts.2]

theorem has_inner (starts : ∀ c x, kids.findChild c = some x → Starts c x) :
    Has (.inner pre kids) s v ↔
      ∃ rest x, s = pre ++ rest ∧ kids.findChild (Stree.pivot rest 0) = some x ∧ Has x rest v := by
  constructor
  · intro has
    cases has with
    | inner found below =>
      refine ⟨_, _, rfl, ?_, below⟩
      rw [below.pivot (starts _ _ found)]
      exact found
  · rintro ⟨rest, x, rfl, found, below⟩
    exact .inner found below

theorem has_at (starts : ∀ c x, kids.findChild c = some x → Starts c x) :
    Has (.inner pre kids) (pre ++ rest) v ↔
      ∃ x, kids.findChild (Stree.pivot rest 0) = some x ∧ Has x rest v := by
  rw [has_inner starts]
  constructor
  · rintro ⟨r, x, split, found, below⟩
    obtain rfl := append_cancel_left split
    exact ⟨x, found, below⟩
  · rintro ⟨x, found, below⟩
    exact ⟨rest, x, rfl, found, below⟩

theorem take_eq_iff : rest.take pre.length = pre ↔ rest = pre ++ rest.drop pre.length := by
  constructor
  · intro same
    calc rest = rest.take pre.length ++ rest.drop pre.length := (take_append_drop _ _).symm
      _ = pre ++ rest.drop pre.length := by rw [same]
  · intro same
    rw [same, take_left]

theorem path_of_take (inside : si ≤ subject.length) (same : (subject.drop si).take pre.length = pre) :
    subject.drop si = pre ++ subject.drop (si + pre.length) ∧ si + pre.length ≤ subject.length := by
  have path := take_eq_iff.mp same
  have len := congrArg List.length path
  simp only [length_append, length_drop] at len
  rw [drop_drop] at path
  exact ⟨path, by omega⟩

theorem find_inner (inside : si ≤ subject.length) :
    find (.inner pre kids) subject si =
      if (subject.drop si).take pre.length = pre then
        match kids.findChild (Stree.pivot subject (si + pre.length)) with
        | some an => find an subject (si + pre.length)
        | none => .ok none
      else .ok none := by
  rw [find]
  by_cases empty : 0 < pre.length
  · have part : (subject.drop si).take (min (si + pre.length) subject.length - si) =
        (subject.drop si).take pre.length := by
      by_cases short : si + pre.length ≤ subject.length
      · rw [Nat.min_eq_left short, Nat.add_sub_cancel_left]
      · rw [min_eq_right (by omega), take_of_length_le (by simp),
          take_of_length_le (by simp; omega)]
    rw [if_pos empty, slice_ok (by omega) (by omega), part]
    by_cases same : (subject.drop si).take pre.length = pre
    · simp only [Except.map, same, BEq.rfl, bind, Except.bind, Bool.not_true, Bool.false_eq_true,
        if_false, if_true]
      split <;> simp_all
    · have unequal : ((subject.drop si).take pre.length == pre) = false := by simpa using same
      simp only [Except.map, unequal, bind, Except.bind, Bool.not_false, if_true, if_neg same]
      rfl
  · have none : pre = [] := length_eq_zero_iff.mp (by omega)
    subst none
    simp only [length_nil, lt_irrefl, if_false, bind, Except.bind, Bool.not_true,
      Bool.false_eq_true, take_zero, if_true]
    split <;> simp_all

theorem find_spec (valid : Valid n) (inside : si ≤ subject.length) :
    ∃ r, find n subject si = .ok r ∧ ∀ v, r = some v ↔ Has n (subject.drop si) v := by
  induction valid generalizing si with
  | @leaf value suffix plain =>
    refine ⟨if subject.drop si = suffix then some value else none, ?_, ?_⟩
    · rw [find, sliceFrom_ok inside]
      rfl
    · intro v
      rw [has_leaf]
      by_cases same : subject.drop si = suffix
      · simp [same, eq_comm]
      · simp [same]
  | @inner pre kids plain wf low starts below ih =>
    rw [find_inner inside]
    split
    next same =>
      obtain ⟨path, fits⟩ := path_of_take inside same
      have holds : ∀ v, Has (.inner pre kids) (subject.drop si) v ↔
          ∃ x, kids.findChild (Stree.pivot subject (si + pre.length)) = some x ∧
            Has x (subject.drop (si + pre.length)) v := by
        intro v
        rw [path, has_at starts, pivot_drop subject]
      cases found : kids.findChild (Stree.pivot subject (si + pre.length)) with
      | none =>
        refine ⟨none, rfl, fun v => ?_⟩
        rw [holds v, found]
        simp
      | some x =>
        obtain ⟨r, result, known⟩ := ih _ _ found fits
        refine ⟨r, result, fun v => ?_⟩
        rw [holds v, found, known v]
        simp
    next same =>
      refine ⟨none, rfl, fun v => ?_⟩
      constructor
      · intro impossible
        cases impossible
      · intro has
        obtain ⟨rest, x, split, _, _⟩ := (has_inner starts).mp has
        rw [split, take_left] at same
        exact absurd rfl same

/-! Inserting. -/

/-- What an insert makes of a node: it holds the value under the path and the rest as before, and
it stands under the byte it stood under. -/
structure Inserted (n : Node α) (rest : Bytes) (value : α) (after : Node α) (old : Option α) :
    Prop where
  valid : Valid after
  old : ∀ v, old = some v ↔ Has n rest v
  has : ∀ s v, Has after s v ↔ if s = rest then v = value else Has n s v
  starts : ∀ c, Starts c n → Stree.pivot rest 0 = c → Starts c after

theorem pair_ok (pre : Bytes) (x y : Node α) :
    pair pre c x d y = .ok (.inner pre (.slots .w4 [(c, x), (d, y)])) := rfl

theorem pair_find (x y : Node α) (e : UInt8) :
    (Kids.slots .w4 [(c, x), (d, y)]).findChild e =
      if c = e then some x else if d = e then some y else none := by
  simp [Kids.findChild, Table.get]

theorem pair_valid {y : Node α} (plain : noPivot ∉ pre) (differ : c ≠ d) (startsX : Starts c x)
    (startsY : Starts d y) (validX : Valid x) (validY : Valid y) :
    Valid (.inner pre (.slots .w4 [(c, x), (d, y)])) := by
  refine .inner plain ⟨by simpa using differ, Nat.le_add_right 2 2⟩ (Nat.le_refl 2) ?_ ?_
  · intro e z found
    rw [pair_find] at found
    split at found
    next same =>
      rw [← same, ← Option.some.inj found]
      exact startsX
    split at found
    next same =>
      rw [← same, ← Option.some.inj found]
      exact startsY
    · cases found
  · intro e z found
    rw [pair_find] at found
    split at found
    · rw [← Option.some.inj found]
      exact validX
    split at found
    · rw [← Option.some.inj found]
      exact validY
    · cases found

theorem pair_has {y : Node α} (differ : c ≠ d) :
    Has (.inner pre (.slots .w4 [(c, x), (d, y)])) s v ↔
      ∃ rest, s = pre ++ rest ∧ (Has x rest v ∨ Has y rest v) := by
  constructor
  · intro has
    cases has with
    | inner found below =>
      refine ⟨_, rfl, ?_⟩
      rw [pair_find] at found
      split at found
      · exact .inl (Option.some.inj found ▸ below)
      · split at found
        · exact .inr (Option.some.inj found ▸ below)
        · cases found
  · rintro ⟨rest, rfl, below | below⟩
    · exact .inner (c := c) (by rw [pair_find, if_pos rfl]) below
    · exact .inner (c := d) (by rw [pair_find, if_neg differ, if_pos rfl]) below

theorem prepend_inner (pre own : Bytes) (kids : Kids (Node α)) :
    prepend pre (.inner own kids) = .inner (pre ++ own) kids := by
  rw [prepend]
  by_cases empty : 0 < pre.length
  · rw [if_pos empty]
  · have nothing : pre = [] := length_eq_zero_iff.mp (by omega)
    simp [nothing]

theorem prepend_has (pre : Bytes) (n : Node α) :
    Has (prepend pre n) s v ↔ ∃ rest, s = pre ++ rest ∧ Has n rest v := by
  cases n with
  | leaf value suffix =>
    rw [prepend, has_leaf]
    constructor
    · rintro ⟨rfl, rfl⟩
      exact ⟨suffix, rfl, .leaf v suffix⟩
    · rintro ⟨rest, rfl, has⟩
      obtain ⟨rfl, rfl⟩ := has_leaf.mp has
      exact ⟨rfl, rfl⟩
  | inner own kids =>
    rw [prepend_inner]
    constructor
    · intro has
      cases has with
      | inner found below => exact ⟨_, append_assoc .., .inner found below⟩
    · rintro ⟨rest, rfl, has⟩
      cases has with
      | inner found below =>
        rw [← append_assoc]
        exact .inner found below

/-- Where a subject leaves the path of a node. -/
structure Parts (own subject : Bytes) (si : Nat) (front : Bytes) : Prop where
  whole : own = front ++ own.drop front.length
  path : subject.drop si = front ++ subject.drop (si + front.length)
  len : front.length = commonPrefixLen own (subject.drop si)
  fits : si + front.length ≤ subject.length
  plain : noPivot ∉ front
  differ : Stree.pivot (own.drop front.length) 0 ≠
    Stree.pivot (subject.drop (si + front.length)) 0

theorem exists_parts (plain : noPivot ∉ own) (plainSubject : noPivot ∉ subject)
    (inside : si ≤ subject.length) (unequal : own ≠ subject.drop si) :
    ∃ front, Parts own subject si front := by
  have differ := pivot_after_commonPrefixLen plain (not_mem_drop plainSubject si) unequal
  obtain ⟨front, left, right, len⟩ := commonPrefixLen_split own (subject.drop si)
  have bound := (commonPrefixLen_le own (subject.drop si)).2
  rw [← len, drop_drop] at differ right
  rw [← len] at left
  rw [← len, length_drop] at bound
  refine ⟨front, left, right, len, by omega, ?_, differ⟩
  intro member
  exact plain (by rw [left]; exact mem_append_left _ member)

theorem Parts.slice {front : Bytes} (parts : Parts own subject si front) :
    Stree.slice subject si (si + front.length) = .ok front := by
  rw [slice_ok (Nat.le_add_right _ _) parts.fits, Nat.add_sub_cancel_left, parts.path, take_left]

/-- The node moves down behind `front`, next to the new leaf. -/
theorem inserted_pair {front : Bytes} (parts : Parts own subject si front) (stump : Node α)
    (moved : n = prepend front stump)
    (starts : Starts (Stree.pivot (own.drop front.length) 0) stump)
    (first : ∀ c, Starts c n → Stree.pivot own 0 = c) (valid : Valid (.inner front kids))
    (has : ∀ s v, Has (.inner front kids) s v ↔ ∃ rest, s = front ++ rest ∧
      (Has stump rest v ∨ Has (.leaf value (subject.drop (si + front.length))) rest v)) :
    Inserted n (subject.drop si) value (.inner front kids) none := by
  have other : ∀ rest v, Has stump rest v → front ++ rest ≠ subject.drop si := by
    intro rest v below equal
    rw [parts.path] at equal
    apply parts.differ
    rw [← append_cancel_left equal, below.pivot starts]
  refine ⟨valid, ?_, ?_, ?_⟩
  · intro v
    refine iff_of_false (by simp) (fun held => ?_)
    rw [moved, prepend_has] at held
    obtain ⟨rest, path, below⟩ := held
    exact other rest v below path.symm
  · intro s v
    rw [has, moved, prepend_has]
    constructor
    · rintro ⟨rest, rfl, below | new⟩
      · rw [if_neg (other rest v below)]
        exact ⟨rest, rfl, below⟩
      · obtain ⟨rfl, rfl⟩ := has_leaf.mp new
        rw [if_pos parts.path.symm]
    · intro held
      split at held
      next asked => exact ⟨_, asked.trans parts.path, .inr (has_leaf.mpr ⟨rfl, held⟩)⟩
      · obtain ⟨rest, path, below⟩ := held
        exact ⟨rest, path, .inl below⟩
  · intro c startsC under
    have filled : front ≠ [] := by
      rintro rfl
      have differ := parts.differ
      rw [length_nil, drop_zero, Nat.add_zero] at differ
      exact differ ((first c startsC).trans under.symm)
    refine ⟨filled, ?_⟩
    rw [← pivot_append filled (own.drop front.length), ← parts.whole]
    exact first c startsC

theorem insert_leaf {old : α} (plain : noPivot ∉ suffix) (plainSubject : noPivot ∉ subject)
    (inside : si ≤ subject.length) :
    ∃ after out, insert (.leaf old suffix) subject value si = .ok (after, out) ∧
      Inserted (.leaf old suffix) (subject.drop si) value after out := by
  rw [insert, sliceFrom_ok inside]
  simp only [bind, Except.bind]
  split
  next same =>
    refine ⟨_, _, rfl, .leaf plain, ?_, ?_, ?_⟩
    · intro v
      rw [has_leaf]
      simp [same, eq_comm]
    · intro s v
      rw [has_leaf, has_leaf, same]
      by_cases here : s = suffix <;> simp [here]
    · intro c starts _
      exact starts
  next same =>
    obtain ⟨front, parts⟩ := exists_parts plain plainSubject inside (Ne.symm same)
    -- The pivots differ, so that the leaf is never split again.
    have apart : ¬ (0 < front.length ∧ si + front.length < subject.length ∧
        some (Stree.pivot (suffix.drop front.length) 0) = subject[si + front.length]?) := by
      rintro ⟨_, more, equal⟩
      apply parts.differ
      rw [← pivot_drop subject]
      change _ = subject[si + front.length]?.getD noPivot
      rw [← equal]
      rfl
    rw [← parts.len, parts.slice]
    simp only [apart, dite_false]
    rw [sliceFrom_ok parts.fits]
    simp only [pair_ok]
    refine ⟨_, _, rfl, inserted_pair parts (.leaf old (suffix.drop front.length))
      (congrArg _ parts.whole) rfl (fun _ starts => starts) (pair_valid parts.plain parts.differ.symm rfl rfl
        (.leaf (not_mem_drop plainSubject _)) (.leaf (not_mem_drop plain _))) ?_⟩
    intro s v
    rw [pair_has parts.differ.symm]
    simp only [or_comm]

theorem insert_split (valid : Valid (.inner pre kids)) (plainSubject : noPivot ∉ subject)
    (inside : si ≤ subject.length) (short : commonPrefixLen pre (subject.drop si) < pre.length) :
    ∃ after out, insert (.inner pre kids) subject value si = .ok (after, out) ∧
      Inserted (.inner pre kids) (subject.drop si) value after out := by
  have unequal : pre ≠ subject.drop si := by
    intro same
    rw [← same, commonPrefixLen_self] at short
    omega
  cases valid with
  | inner plain wf low starts below =>
    obtain ⟨front, parts⟩ := exists_parts plain plainSubject inside unequal
    rw [insert, if_pos (by omega), sliceFrom_ok inside]
    simp only [bind, Except.bind, Except.map]
    rw [if_neg (by omega), ← parts.len, parts.slice]
    simp only []
    rw [sliceFrom_ok parts.fits]
    simp only [pair_ok]
    rw [← parts.len] at short
    have longer : pre.drop front.length ≠ [] := by
      intro empty
      have none := congrArg List.length empty
      rw [length_drop, length_nil] at none
      omega
    refine ⟨_, _, rfl, inserted_pair parts (.inner (pre.drop front.length) kids)
      (by rw [prepend_inner, ← parts.whole]) ⟨longer, rfl⟩ (fun _ startsC => startsC.2) (pair_valid parts.plain parts.differ ⟨longer, rfl⟩ rfl
        (.inner (not_mem_drop plain _) wf low starts below)
        (.leaf (not_mem_drop plainSubject _))) ?_⟩
    intro s v
    rw [pair_has parts.differ]

theorem insert_past (inside : si ≤ subject.length)
    (long : pre.length ≤ commonPrefixLen pre (subject.drop si)) :
    insert (.inner pre kids) subject value si =
      (match kids.findChild (Stree.pivot subject (si + pre.length)) with
      | some nn => (insert nn subject value (si + pre.length)).bind (fun (nn, old) =>
          .ok (.inner pre (kids.setChild (Stree.pivot subject (si + pre.length)) nn), old))
      | none => (sliceFrom subject (si + pre.length)).bind (fun rest =>
          (kids.insertChild (Stree.pivot subject (si + pre.length)) (.leaf value rest)).bind
            (fun kids => .ok (.inner pre kids, none)))) := by
  rw [insert]
  split
  · rw [sliceFrom_ok inside]
    simp only [Except.map, bind, Except.bind, if_pos long]
    split <;> rename_i found <;> simp only [found]
  · simp only [bind, Except.bind, if_pos (show pre.length ≤ 0 by omega)]
    split <;> rename_i found <;> simp only [found]

section Below

variable {pre rest : Bytes} {kids kids' : Kids (Node α)} {after : Option (Node α)} {p : UInt8}

theorem replaced {P : UInt8 → Node α → Prop}
    (find : ∀ d, kids'.findChild d = if d = p then after else kids.findChild d)
    (old : ∀ c x, kids.findChild c = some x → P c x) (new : ∀ y, after = some y → P p y) :
    ∀ c x, kids'.findChild c = some x → P c x := by
  intro c x there
  rw [find] at there
  split at there
  next same =>
    rw [same]
    exact new x there
  · exact old c x there

/-- The node holds `now` under the path if the child under the pivot does. -/
theorem has_replaced (starts : ∀ c x, kids.findChild c = some x → Starts c x)
    (starts' : ∀ c x, kids'.findChild c = some x → Starts c x)
    (find : ∀ d, kids'.findChild d = if d = p then after else kids.findChild d)
    (pivot : Stree.pivot rest 0 = p) (now : Option α) {v : α}
    (has : ∀ s, (∃ y, after = some y ∧ Has y s v) ↔
      if s = rest then now = some v else ∃ x, kids.findChild p = some x ∧ Has x s v) (s : Bytes) :
    Has (.inner pre kids') s v ↔
      if s = pre ++ rest then now = some v else Has (.inner pre kids) s v := by
  by_cases under : ∃ r, s = pre ++ r
  · obtain ⟨r, rfl⟩ := under
    simp only [has_at starts', has_at starts, find, append_cancel_left_eq]
    by_cases here : Stree.pivot r 0 = p
    · rw [if_pos here, has r, here]
    · have other : r ≠ rest := fun same => here (by rw [same]; exact pivot)
      rw [if_neg here, if_neg other]
  · have apart : ∀ kids : Kids (Node α), ¬ Has (.inner pre kids) s v := by
      rintro kids ⟨⟩
      exact under ⟨_, rfl⟩
    rw [if_neg (fun same => under ⟨rest, same⟩)]
    exact iff_of_false (apart kids') (apart kids)

end Below

/-- The insert goes on below: if the child under the pivot takes the value, the node does. -/
theorem inserted_below {kids' : Kids (Node α)} {after : Node α} {out : Option α} {p : UInt8}
    (plain : noPivot ∉ pre) (wf : kids'.WF) (low : kids'.shape.low ≤ kids'.numChildren)
    (starts : ∀ c x, kids.findChild c = some x → Starts c x)
    (below : ∀ c x, kids.findChild c = some x → Valid x)
    (find : ∀ d, kids'.findChild d = if d = p then some after else kids.findChild d)
    (pivot : Stree.pivot rest 0 = p) (startsAfter : Starts p after) (validAfter : Valid after)
    (old : ∀ v, out = some v ↔ ∃ x, kids.findChild p = some x ∧ Has x rest v)
    (has : ∀ s v, Has after s v ↔
      if s = rest then v = value else ∃ x, kids.findChild p = some x ∧ Has x s v) :
    Inserted (.inner pre kids) (pre ++ rest) value (.inner pre kids') out := by
  have starts' := replaced find starts (fun y same => Option.some.inj same ▸ startsAfter)
  have below' := replaced find below (fun y same => Option.some.inj same ▸ validAfter)
  refine ⟨.inner plain wf low starts' below', ?_, ?_, fun c startsC _ => startsC⟩
  · intro v
    rw [old, has_at starts, pivot]
  · intro s v
    have each : ∀ s, (∃ y, some after = some y ∧ Has y s v) ↔
        if s = rest then some value = some v else ∃ x, kids.findChild p = some x ∧ Has x s v := by
      intro s
      simp [has, eq_comm]
    rw [has_replaced starts starts' find pivot (some value) each]
    simp [eq_comm]

theorem insert_spec (valid : Valid n) (value : α) (plainSubject : noPivot ∉ subject)
    (inside : si ≤ subject.length) :
    ∃ after out, insert n subject value si = .ok (after, out) ∧
      Inserted n (subject.drop si) value after out := by
  induction valid generalizing si with
  | leaf plain => exact insert_leaf plain plainSubject inside
  | @inner pre kids plain wf low starts below ih =>
    by_cases long : pre.length ≤ commonPrefixLen pre (subject.drop si)
    case neg =>
      exact insert_split (.inner plain wf low starts below) plainSubject inside (by omega)
    obtain ⟨front, left, right, len⟩ := commonPrefixLen_split pre (subject.drop si)
    have exactly : commonPrefixLen pre (subject.drop si) = pre.length :=
      le_antisymm (commonPrefixLen_le _ _).1 long
    rw [exactly, drop_length, append_nil] at left
    rw [exactly, ← left] at right
    obtain ⟨path, fits⟩ := path_of_take inside (take_eq_iff.mpr right)
    rw [insert_past inside long, path]
    set p := Stree.pivot subject (si + pre.length) with hp
    have pivot : Stree.pivot (subject.drop (si + pre.length)) 0 = p := by
      rw [hp, pivot_drop subject]
    cases found : kids.findChild p with
    | some x =>
      obtain ⟨after, out, result, inserted⟩ := ih _ _ found fits
      obtain ⟨became, count⟩ := Kids.setChild_became wf found after
      refine ⟨.inner pre (kids.setChild p after), out, by simp only [result]; rfl, ?_⟩
      refine inserted_below plain became.wf (by rw [became.shape, count]; exact low) starts below
        became.find pivot (inserted.starts p (starts _ _ found) pivot) inserted.valid ?_ ?_
      · intro v
        simp [inserted.old, found]
      · intro s v
        simp [inserted.has, found]
    | none =>
      obtain ⟨after, result, wf', low', find⟩ :=
        Kids.insertChild_spec wf low found (.leaf value (subject.drop (si + pre.length)))
      refine ⟨.inner pre after, none, ?_, ?_⟩
      · simp only [sliceFrom_ok fits, Except.bind, result]
      · refine inserted_below plain wf' low' starts below find pivot pivot
          (.leaf (not_mem_drop plainSubject _)) ?_ ?_
        · intro v
          simp [found]
        · intro s v
          rw [has_leaf]
          by_cases here : s = subject.drop (si + pre.length)
          · simp [here]
          · simp [here, found]

/-! Deleting. -/

/-- What a delete leaves in the place of a node. -/
structure Deleted (n : Node α) (rest : Bytes) (after : Option (Node α)) (out : Option α) :
    Prop where
  valid : ∀ m, after = some m → Valid m
  out : ∀ v, out = some v ↔ Has n rest v
  has : ∀ s v, (∃ m, after = some m ∧ Has m s v) ↔ s ≠ rest ∧ Has n s v
  starts : ∀ c m, after = some m → Starts c n → Starts c m

theorem Deleted.of_some {m : Node α} {out : Option α} (valid : Valid m)
    (out_ : ∀ v, out = some v ↔ Has n rest v)
    (has : ∀ s v, Has m s v ↔ s ≠ rest ∧ Has n s v) (starts : ∀ c, Starts c n → Starts c m) :
    Deleted n rest (some m) out := by
  refine ⟨?_, out_, ?_, ?_⟩
  · rintro _ ⟨⟩
    exact valid
  · simp [has]
  · rintro c _ ⟨⟩
    exact starts c

theorem Deleted.absent (valid : Valid n) (missing : ∀ v, ¬ Has n rest v) :
    Deleted n rest (some n) none := by
  refine .of_some valid (by simpa using missing) ?_ (fun _ starts => starts)
  intro s v
  refine ⟨fun has => ⟨?_, has⟩, And.right⟩
  rintro rfl
  exact missing v has

theorem delete_past (filled : subject.length ≠ 0) (fits : si + pre.length ≤ subject.length)
    (path : (subject.drop si).take pre.length = pre) :
    delete (.inner pre kids) subject si =
      match kids.findChild (Stree.pivot subject (si + pre.length)) with
      | none => .ok (some (.inner pre kids), none)
      | some (.leaf value suffix) =>
        if subject.drop (si + pre.length) = suffix then
          (shrinkNode pre (kids.deleteChild (Stree.pivot subject (si + pre.length)))).map
            (fun nn => (some nn, some value))
        else .ok (some (.inner pre kids), none)
      | some (.inner own below) =>
        (delete (.inner own below) subject (si + pre.length)).bind (fun out =>
          match out.1 with
          | some nn => .ok (some (.inner pre
              (kids.setChild (Stree.pivot subject (si + pre.length)) nn)), out.2)
          | none => .error .nilChild) := by
  rw [delete, if_neg filled]
  have enough : ¬ (0 < pre.length ∧ subject.length < si + pre.length) := by omega
  rw [if_neg enough]
  split
  · rw [slice_ok (by omega) fits, Nat.add_sub_cancel_left, path]
    simp only [Except.map, BEq.rfl, bind, Except.bind, Bool.not_true, Bool.false_eq_true,
      if_false, sliceFrom_ok fits, pure, Except.pure]
    cases kids.findChild (Stree.pivot subject (si + pre.length)) with
    | none => rfl
    | some x => cases x <;> rfl
  · simp only [Except.map, bind, Except.bind, Bool.not_true, Bool.false_eq_true,
      if_false, sliceFrom_ok fits, pure, Except.pure]
    cases kids.findChild (Stree.pivot subject (si + pre.length)) with
    | none => rfl
    | some x => cases x <;> rfl

theorem delete_apart (path : (subject.drop si).take pre.length ≠ pre) :
    delete (.inner pre kids) subject si = .ok (some (.inner pre kids), none) := by
  have filled : 0 < pre.length := by
    by_contra empty
    have nothing : pre = [] := length_eq_zero_iff.mp (by omega)
    rw [nothing] at path
    exact path (by simp)
  rw [delete]
  split
  · rfl
  by_cases short : 0 < pre.length ∧ subject.length < si + pre.length
  · rw [if_pos short]
    rfl
  have unequal : ((subject.drop si).take pre.length == pre) = false := by simpa using path
  rw [if_neg short, slice_ok (by omega) (by omega), Nat.add_sub_cancel_left]
  simp only [Except.map, unequal, bind, Except.bind, Bool.not_false, if_true]
  rfl

theorem prepend_valid (plain : noPivot ∉ pre) (valid : Valid n) : Valid (prepend pre n) := by
  cases valid with
  | leaf plainSuffix =>
    refine .leaf ?_
    rw [mem_append, not_or]
    exact ⟨plain, plainSuffix⟩
  | inner plainOwn wf low starts below =>
    refine .inner ?_ wf low starts below
    split
    · rw [mem_append, not_or]
      exact ⟨plain, plainOwn⟩
    · exact plainOwn

theorem prepend_starts (filled : pre ≠ []) (first : Stree.pivot pre 0 = c) (n : Node α) :
    Starts c (prepend pre n) := by
  cases n with
  | leaf value suffix => exact (pivot_append filled _).trans first
  | inner own kids =>
    rw [prepend, if_pos (length_pos_iff.mpr filled)]
    exact ⟨by simp [filled], (pivot_append filled _).trans first⟩

theorem shrinkNode_spec (plain : noPivot ∉ pre) (wf : kids.WF)
    (low : kids.shape.low ≤ kids.numChildren + 1)
    (starts : ∀ c x, kids.findChild c = some x → Starts c x)
    (below : ∀ c x, kids.findChild c = some x → Valid x) :
    ∃ nn, shrinkNode pre kids = .ok nn ∧ Valid nn ∧
      (∀ s v, Has nn s v ↔ Has (.inner pre kids) s v) ∧
      ∀ c, pre ≠ [] → Stree.pivot pre 0 = c → Starts c nn := by
  rcases Kids.shrink_spec wf low with ⟨stays, low'⟩ | ⟨c, x, only, found, others⟩ |
    ⟨small, smaller, wf', low', find⟩
  · exact ⟨.inner pre kids, by rw [shrinkNode, stays]; rfl, .inner plain wf low' starts below,
      fun _ _ => Iff.rfl, fun c filled first => ⟨filled, first⟩⟩
  · refine ⟨prepend pre x, by rw [shrinkNode, only]; rfl, prepend_valid plain (below _ _ found), ?_,
      fun c filled first => prepend_starts filled first x⟩
    intro s v
    rw [prepend_has]
    constructor
    · rintro ⟨rest, rfl, has⟩
      exact .inner found has
    · intro has
      cases has with
      | @inner _ _ d y rest _ there hasY =>
        have same : d = c := by
          by_contra other
          rw [others d other] at there
          cases there
        rw [same, found] at there
        rw [← Option.some.inj there] at hasY
        exact ⟨rest, rfl, hasY⟩
  · simp only [← find] at starts below
    refine ⟨prepend pre (.inner [] small), by rw [shrinkNode, smaller]; rfl,
      prepend_valid plain (.inner (by simp) wf' low' starts below), ?_,
      fun c filled first => prepend_starts filled first _⟩
    intro s v
    rw [prepend_has]
    constructor
    · rintro ⟨rest, rfl, has⟩
      cases has with
      | inner there hasY => exact .inner ((find _).symm.trans there) hasY
    · intro has
      cases has with
      | inner there hasY =>
        have moved : Has (.inner [] small) _ v := .inner ((find _).trans there) hasY
        exact ⟨_, rfl, moved⟩

/-- The delete goes on below: what the node holds when the child under the pivot has lost the
path. -/
theorem deleted_below {kids' : Kids (Node α)} {after : Option (Node α)} {out : Option α} {p : UInt8}
    (starts : ∀ c x, kids.findChild c = some x → Starts c x)
    (below : ∀ c x, kids.findChild c = some x → Valid x)
    (find : ∀ d, kids'.findChild d = if d = p then after else kids.findChild d)
    (found : kids.findChild p = some x) (pivot : Stree.pivot rest 0 = p)
    (deleted : Deleted x rest after out) :
    (∀ c y, kids'.findChild c = some y → Starts c y) ∧
      (∀ c y, kids'.findChild c = some y → Valid y) ∧
      (∀ v, out = some v ↔ Has (.inner pre kids) (pre ++ rest) v) ∧
      ∀ s v, Has (.inner pre kids') s v ↔ s ≠ pre ++ rest ∧ Has (.inner pre kids) s v := by
  have starts' := replaced find starts (fun y same => deleted.starts p y same (starts _ _ found))
  refine ⟨starts', replaced find below deleted.valid, ?_, ?_⟩
  · intro v
    rw [deleted.out, has_at starts, pivot, found]
    simp
  · intro s v
    have each : ∀ s, (∃ y, after = some y ∧ Has y s v) ↔
        if s = rest then none = some v else ∃ x, kids.findChild p = some x ∧ Has x s v := by
      intro s
      rw [deleted.has, found]
      by_cases here : s = rest
      · simp [here]
      · simp [here]
    rw [has_replaced starts starts' find pivot none each]
    by_cases here : s = pre ++ rest
    · simp [here]
    · simp [here]

theorem delete_leaf (plain : noPivot ∉ suffix) (filled : subject.length ≠ 0)
    (inside : si ≤ subject.length) :
    ∃ after out, delete (.leaf value suffix) subject si = .ok (after, out) ∧
      Deleted (.leaf value suffix) (subject.drop si) after out := by
  rw [delete, if_neg filled, sliceFrom_ok inside]
  simp only [bind, Except.bind]
  by_cases same : subject.drop si = suffix
  · refine ⟨none, some value, if_pos same, ?_, ?_, ?_, ?_⟩
    · intro m impossible
      cases impossible
    · intro v
      rw [has_leaf]
      simp [same, eq_comm]
    · intro s v
      rw [has_leaf, same]
      constructor
      · rintro ⟨m, impossible, _⟩
        cases impossible
      · rintro ⟨apart, here, _⟩
        exact absurd here apart
    · intro c m impossible
      cases impossible
  · refine ⟨_, _, if_neg same, Deleted.absent (.leaf plain) ?_⟩
    intro v has
    exact same (has_leaf.mp has).1

theorem delete_spec (valid : Valid n) (filled : subject.length ≠ 0) (inside : si ≤ subject.length) :
    ∃ after out, delete n subject si = .ok (after, out) ∧ Deleted n (subject.drop si) after out ∧
      ∀ pre kids, n = .inner pre kids → after ≠ none := by
  induction valid generalizing si with
  | leaf plain =>
    obtain ⟨after, out, result, deleted⟩ := delete_leaf plain filled inside
    exact ⟨after, out, result, deleted, fun pre kids impossible => by cases impossible⟩
  | @inner pre kids plain wf low starts below ih =>
    have whole := Valid.inner plain wf low starts below
    by_cases matched : (subject.drop si).take pre.length = pre
    case neg =>
      refine ⟨_, _, delete_apart matched, Deleted.absent whole ?_, fun _ _ _ => by simp⟩
      intro v has
      obtain ⟨rest, x, split, _, _⟩ := (has_inner starts).mp has
      exact matched (by rw [split, take_left])
    obtain ⟨path, fits⟩ := path_of_take inside matched
    rw [delete_past filled fits matched, path]
    set p := Stree.pivot subject (si + pre.length) with hp
    have pivot : Stree.pivot (subject.drop (si + pre.length)) 0 = p := by
      rw [hp, pivot_drop subject]
    have absent : (∀ x v, kids.findChild p = some x → ¬ Has x (subject.drop (si + pre.length)) v) →
        Deleted (.inner pre kids) (pre ++ subject.drop (si + pre.length))
          (some (.inner pre kids)) none := by
      intro missing
      refine Deleted.absent whole ?_
      intro v has
      rw [has_at starts, pivot] at has
      obtain ⟨y, there, hasY⟩ := has
      exact missing y v there hasY
    cases found : kids.findChild p with
    | none =>
      refine ⟨_, _, rfl, absent ?_, fun _ _ _ => by simp⟩
      intro x v there
      rw [found] at there
      cases there
    | some x =>
      obtain ⟨after, out, result, deleted, kept⟩ := ih _ _ found fits
      cases x with
      | leaf value suffix =>
        by_cases same : subject.drop (si + pre.length) = suffix
        · -- The child goes, and the node may shrink.
          have gone : Deleted (.leaf value suffix) (subject.drop (si + pre.length)) none
              (some value) := by
            rw [delete, if_neg filled, sliceFrom_ok fits] at result
            simp only [bind, Except.bind, if_pos same] at result
            obtain ⟨rfl, rfl⟩ := Prod.mk.inj (Except.ok.inj result)
            exact deleted
          obtain ⟨became, count⟩ := Kids.deleteChild_became wf found
          obtain ⟨starts', below', outEq, hasEq⟩ :=
            @deleted_below _ pre _ _ _ _ _ _ _ starts below became.find found pivot gone
          obtain ⟨nn, shrunk, validN, hasN, startsN⟩ := shrinkNode_spec plain became.wf
            (by rw [became.shape, count]; exact low) starts' below'
          refine ⟨some nn, some value, ?_, .of_some validN outEq ?_ ?_, fun _ _ _ => by simp⟩
          · simp only [if_pos same, shrunk]
            rfl
          · intro s v
            rw [hasN, hasEq]
          · intro c startsC
            exact startsN c startsC.1 startsC.2
        · refine ⟨_, _, if_neg same, absent ?_, fun _ _ _ => by simp⟩
          intro x v there has
          rw [found] at there
          rw [← Option.some.inj there, has_leaf] at has
          exact same has.1
      | inner own kidsBelow =>
        obtain ⟨m, rfl⟩ := Option.ne_none_iff_exists'.mp (kept own kidsBelow rfl)
        obtain ⟨became, count⟩ := Kids.setChild_became wf found m
        obtain ⟨starts', below', outEq, hasEq⟩ :=
          @deleted_below _ pre _ _ _ _ _ _ _ starts below became.find found pivot deleted
        have valid : Valid (.inner pre (kids.setChild p m)) :=
          .inner plain became.wf (by rw [became.shape, count]; exact low) starts' below'
        refine ⟨_, out, ?_, .of_some valid outEq hasEq (fun _ startsC => startsC), fun _ _ _ => by simp⟩
        simp only [result]
        rfl

end Node

/-- The subjects a tree can take. -/
structure Subject where
  bytes : Bytes
  filled : bytes ≠ []
  plain : noPivot ∉ bytes

inductive Op (α : Type) where
  | insert (subject : Subject) (value : α)
  | delete (subject : Subject)
  | find (subject : Subject)

variable {α : Type}

def SubjectTree.apply (t : SubjectTree α) : Op α → Except Panic (SubjectTree α × Option α)
  | .insert subject value => t.insert subject.bytes value
  | .delete subject => t.delete subject.bytes
  | .find subject => (t.find subject.bytes).map (fun out => (t, out))

/-- The tree after these operations and what each of them returned. -/
def SubjectTree.run (t : SubjectTree α) : List (Op α) → Except Panic (SubjectTree α × List (Option α))
  | [] => .ok (t, [])
  | op :: ops => do
    let (t, out) ← t.apply op
    let (t, outs) ← t.run ops
    .ok (t, out :: outs)

/-- The same on a finite map: every operation returns the value that was there before it. -/
def specApply (m : List (Bytes × α)) : Op α → List (Bytes × α) × Option α
  | .insert subject value => (Table.set m subject.bytes value, Table.get m subject.bytes)
  | .delete subject => (Table.erase m subject.bytes, Table.get m subject.bytes)
  | .find subject => (m, Table.get m subject.bytes)

def specRun (m : List (Bytes × α)) : List (Op α) → List (Bytes × α) × List (Option α)
  | [] => (m, [])
  | op :: ops =>
    let (m, out) := specApply m op
    let (m, outs) := specRun m ops
    (m, out :: outs)

namespace SubjectTree

def Holds (t : SubjectTree α) (s : Bytes) (v : α) : Prop := ∃ n, t.root = some n ∧ n.Has s v

structure Represents (t : SubjectTree α) (m : List (Bytes × α)) : Prop where
  valid : ∀ n, t.root = some n → n.Valid
  holds : ∀ s v, t.Holds s v ↔ Table.get m s = some v
  size : t.size = m.length
  keys : (m.map Prod.fst).Nodup

theorem Represents.empty : Represents (empty : SubjectTree α) [] := by
  refine ⟨?_, ?_, rfl, nodup_nil⟩
  · intro n impossible
    cases impossible
  · intro s v
    constructor
    · rintro ⟨n, impossible, _⟩
      cases impossible
    · intro impossible
      cases impossible

variable {m : List (Bytes × α)} {t : SubjectTree α}

theorem Represents.out_eq {s : Bytes} {out : Option α}
    (exactly : ∀ v, out = some v ↔ Table.get m s = some v) : out = Table.get m s :=
  Option.ext exactly

theorem Represents.root_has (rep : Represents t m) {n : Node α} (root : t.root = some n) (s : Bytes)
    (v : α) : n.Has s v ↔ Table.get m s = some v := by
  rw [← rep.holds]
  constructor
  · intro has
    exact ⟨n, root, has⟩
  · rintro ⟨n', same, has⟩
    rw [root] at same
    rw [Option.some.inj same]
    exact has

theorem Represents.get_none (rep : Represents t m) (root : t.root = none) (s : Bytes) :
    Table.get m s = none := by
  cases found : Table.get m s with
  | none => rfl
  | some v =>
    obtain ⟨n, there, _⟩ := (rep.holds s v).mpr found
    rw [root] at there
    cases there

theorem length_set (keys : (m.map Prod.fst).Nodup) (s : Bytes) (v : α) :
    ((Table.set m s v).length : Int) =
      if (Table.get m s).isSome then (m.length : Int) else m.length + 1 := by
  cases found : Table.get m s with
  | some w =>
    have shorter := length_erase keys found
    simp only [Table.set, length_cons, Option.isSome_some, if_true]
    omega
  | none =>
    simp [Table.set, erase_of_none found]

theorem Represents.of_root {n : Node α} {size : Int} (valid : n.Valid)
    (has : ∀ s v, n.Has s v ↔ Table.get m s = some v) (count : size = m.length)
    (keys : (m.map Prod.fst).Nodup) : Represents ⟨some n, size⟩ m := by
  refine ⟨?_, by simp [Holds, has], count, keys⟩
  rintro _ ⟨⟩
  exact valid

section

variable (rep : Represents t m)

include rep

theorem Represents.insert (subject : Subject) (value : α) :
    ∃ t', t.insert subject.bytes value = .ok (t', Table.get m subject.bytes) ∧
      Represents t' (Table.set m subject.bytes value) := by
  rw [SubjectTree.insert, if_neg subject.plain]
  have keys := keys_set rep.keys subject.bytes value
  cases root : t.root with
  | none =>
    have nothing := rep.get_none root
    refine ⟨_, by rw [nothing], .of_root (.leaf subject.plain) ?_ ?_ keys⟩
    · intro s v
      rw [Node.has_leaf, get_set, nothing s]
      by_cases here : s = subject.bytes
      · simp [here, eq_comm]
      · simp [here, Ne.symm here]
    · simp only [length_set rep.keys, nothing, rep.size]
      rfl
  | some n =>
    obtain ⟨after, out, result, inserted⟩ :=
      Node.insert_spec (rep.valid n root) value subject.plain (Nat.zero_le _)
    rw [drop_zero] at inserted
    have contents := rep.root_has root
    have old : out = Table.get m subject.bytes :=
      Represents.out_eq (fun v => by rw [inserted.old, contents])
    simp only [result, bind, Except.bind]
    refine ⟨_, by rw [old], .of_root inserted.valid ?_ ?_ keys⟩
    · intro s v
      rw [inserted.has, get_set, contents]
      by_cases here : s = subject.bytes
      · simp [here, eq_comm]
      · simp [here, Ne.symm here]
    · simp only [length_set rep.keys, ← old, rep.size]

theorem Represents.delete (subject : Subject) :
    ∃ t', t.delete subject.bytes = .ok (t', Table.get m subject.bytes) ∧
      Represents t' (Table.erase m subject.bytes) := by
  rw [SubjectTree.delete]
  cases root : t.root with
  | none =>
    have nothing := rep.get_none root
    rw [erase_of_none (nothing _), nothing]
    exact ⟨t, rfl, rep⟩
  | some n =>
    have filled : subject.bytes.length ≠ 0 := fun none =>
      subject.filled (length_eq_zero_iff.mp none)
    obtain ⟨after, out, result, deleted, _⟩ :=
      Node.delete_spec (rep.valid n root) filled (Nat.zero_le _)
    rw [drop_zero] at deleted
    have contents := rep.root_has root
    have value : out = Table.get m subject.bytes :=
      Represents.out_eq (fun v => by rw [deleted.out, contents])
    simp only [result, bind, Except.bind]
    refine ⟨_, by rw [value], ?_, ?_, ?_, keys_erase rep.keys _⟩
    · intro n' same
      exact deleted.valid n' same
    · intro s v
      rw [get_erase]
      have kept : ∀ size, SubjectTree.Holds ⟨after, size⟩ s v ↔
          s ≠ subject.bytes ∧ n.Has s v := fun _ => deleted.has s v
      rw [kept, contents]
      by_cases here : s = subject.bytes
      · simp [here]
      · simp [here, Ne.symm here]
    · cases found : Table.get m subject.bytes with
      | none => simp [erase_of_none found, rep.size]
      | some v =>
        have shorter := length_erase rep.keys found
        simp only [Option.isSome_some, if_true, rep.size]
        omega

theorem Represents.find (s : Bytes) : t.find s = .ok (Table.get m s) := by
  rw [SubjectTree.find]
  cases root : t.root with
  | none => simp only [rep.get_none root]
  | some n =>
    obtain ⟨r, result, known⟩ := Node.find_spec (rep.valid n root) (Nat.zero_le s.length)
    have value : r = Table.get m s :=
      Represents.out_eq (fun v => by rw [known, drop_zero, rep.root_has root])
    rw [← value]
    exact result

theorem Represents.apply (op : Op α) :
    ∃ t', t.apply op = .ok (t', (specApply m op).2) ∧ Represents t' (specApply m op).1 := by
  cases op with
  | insert subject value => exact rep.insert subject value
  | delete subject => exact rep.delete subject
  | find subject =>
    refine ⟨t, ?_, rep⟩
    rw [SubjectTree.apply, rep.find]
    rfl

theorem Represents.run (ops : List (Op α)) :
    ∃ t', t.run ops = .ok (t', (specRun m ops).2) ∧ Represents t' (specRun m ops).1 := by
  induction ops generalizing t m with
  | nil => exact ⟨t, rfl, rep⟩
  | cons op ops ih =>
    obtain ⟨t₁, first, rep₁⟩ := rep.apply op
    obtain ⟨t₂, rest, rep₂⟩ := ih rep₁
    refine ⟨t₂, ?_, rep₂⟩
    simp only [SubjectTree.run, first, bind, Except.bind, rest]
    rfl

end

/-- Every sequence of operations on an empty tree runs without a panic and returns what a finite
map returns; the size is the number of subjects in it. -/
theorem run_is_finite_map (ops : List (Op α)) :
    ∃ t, (empty : SubjectTree α).run ops = .ok (t, (specRun [] ops).2) ∧
      t.size = (specRun [] ops).1.length ∧ ((specRun [] ops).1.map Prod.fst).Nodup := by
  obtain ⟨t, result, rep⟩ := Represents.empty.run ops
  exact ⟨t, result, rep.size, rep.keys⟩

end SubjectTree

end LinearNats.Stree
