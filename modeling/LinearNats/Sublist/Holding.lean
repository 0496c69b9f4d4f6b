import LinearNats.Sublist.Matching

/-! A trie against the list of the items that it stores, for any kind of item: each is in the data
of the node at its own path and nowhere else, and no node is there without an item below it. -/
namespace LinearNats.Sublists
open List

/-- What it is to hold an item in the data of a node. -/
structure Payload (δ ι : Type) where
  has : δ → ι → Prop
  home : ι → List Key
  bare : δ → Bool
  new : δ
  ok : δ → Prop
  new_ok : ok new
  bare_iff : ∀ d, ok d → (bare d = true ↔ ∀ i, ¬ has d i)
  bare_new : bare new = true

variable {δ ι : Type} (P : Payload δ ι)

structure Payload.Puts (i : ι) (d d' : δ) : Prop where
  ok : P.ok d'
  self : P.has d' i
  keeps : ∀ j, P.home j = P.home i → P.has d j → P.has d' j
  only : ∀ j, P.has d' j → j = i ∨ P.has d j

structure Payload.Takes (i : ι) (d d' : δ) : Prop where
  ok : P.ok d'
  keeps : ∀ j, P.home j = P.home i → P.has d j → j ≠ i → P.has d' j
  only : ∀ j, P.has d' j → P.has d j ∧ j ≠ i

variable {P} in
theorem Payload.bare_eq_false {d : δ} (ok : P.ok d) {i : ι} (has : P.has d i) : P.bare d = false := by
  by_contra bare
  rw [Bool.not_eq_false] at bare
  exact (P.bare_iff d ok).mp bare i has

/-- Items by their paths, whatever other nodes there are. -/
structure Loose (n : Node δ) (stored : List ι) : Prop where
  nodup : stored.Nodup
  entries : ∀ path i, (∃ d, n.dataAt path = some d ∧ P.has d i) ↔ i ∈ stored ∧ path = P.home i
  ok : ∀ path d, n.dataAt path = some d → P.ok d

structure Holding (n : Node δ) (stored : List ι) : Prop where
  nodup : stored.Nodup
  entries : ∀ path i, (∃ d, n.dataAt path = some d ∧ P.has d i) ↔ i ∈ stored ∧ path = P.home i
  pruned : n.Pruned P.bare
  ok : ∀ path d, n.dataAt path = some d → P.ok d

/-! ### The list of items -/

namespace Holding
variable {ι : Type} [BEq ι] [LawfulBEq ι]

def add (stored : List ι) (i : ι) : List ι := if i ∈ stored then stored else i :: stored

theorem mem_add {stored : List ι} {i j : ι} : j ∈ add stored i ↔ j = i ∨ j ∈ stored := by
  unfold add
  split
  next already =>
    constructor
    · exact .inr
    · rintro (rfl | inside)
      · exact already
      · exact inside
  · exact mem_cons

theorem nodup_add {stored : List ι} (nodup : stored.Nodup) (i : ι) : (add stored i).Nodup := by
  unfold add
  split
  · exact nodup
  next fresh => exact nodup_cons.mpr ⟨fresh, nodup⟩

end Holding

section
variable {P} {n : Node δ} {stored : List ι}

theorem Holding.loose (holding : Holding P n stored) : Loose P n stored :=
  { holding with }

theorem Loose.holding (loose : Loose P n stored) (pruned : n.Pruned P.bare) : Holding P n stored :=
  { loose with pruned := pruned }

theorem Payload.not_has_new (i : ι) : ¬ P.has P.new i :=
  (P.bare_iff P.new P.new_ok).mp P.bare_new i

end

/-! ### Items by their paths -/

namespace Loose
variable {P} {n : Node δ} {stored : List ι}

theorem empty : Loose P (.mk (some .newLevel) P.new) [] := by
  have read (path : List Key) : (Node.mk (some .newLevel) P.new).dataAt path =
      if path = [] then some P.new else none := by
    cases path with
    | nil => rfl
    | cons k ks => simp [Node.dataAt_cons]
  refine ⟨nodup_nil, ?_, ?_⟩
  · intro path i
    rw [read]
    split <;> simp [Payload.not_has_new]
  · intro path d there
    rw [read] at there
    split at there
    · cases there
      exact P.new_ok
    · cases there

theorem has_getD (loose : Loose P n stored) (path : List Key) (i : ι) :
    P.has ((n.dataAt path).getD P.new) i ↔ i ∈ stored ∧ path = P.home i := by
  rw [← loose.entries]
  cases n.dataAt path with
  | none => simp [Payload.not_has_new i]
  | some d => simp

theorem ok_getD (loose : Loose P n stored) (path : List Key) :
    P.ok ((n.dataAt path).getD P.new) := by
  cases h : n.dataAt path with
  | none => exact P.new_ok
  | some d => exact loose.ok path d h

variable {i : ι}

theorem dataAt_of_mem (loose : Loose P n stored) (inside : i ∈ stored) :
    ∃ d, n.dataAt (P.home i) = some d ∧ P.has d i :=
  (loose.entries (P.home i) i).mpr ⟨inside, rfl⟩

theorem of_has (loose : Loose P n stored) {path : List Key} {d : δ} (here : n.dataAt path = some d)
    (has : P.has d i) : i ∈ stored ∧ path = P.home i :=
  (loose.entries path i).mp ⟨d, here, has⟩

theorem core_of_mem (loose : Loose P n stored) (inside : i ∈ stored) :
    ∃ d, n.core P.bare (P.home i) = some d := by
  obtain ⟨d, here, has⟩ := loose.dataAt_of_mem inside
  exact ⟨d, Node.core_eq_some.mpr ⟨here, P.bare_eq_false (loose.ok _ d here) has⟩⟩

section
variable [BEq ι] [LawfulBEq ι]

theorem extend (loose : Loose P n stored) {i : ι} {put : δ → δ}
    (puts : P.Puts i ((n.dataAt (P.home i)).getD P.new) (put ((n.dataAt (P.home i)).getD P.new))) :
    Loose P (n.extend P.new put (P.home i)) (Holding.add stored i) := by
  refine ⟨Holding.nodup_add loose.nodup i, ?_, ?_⟩
  · intro path j
    rw [Node.dataAt_extend, Holding.mem_add]
    by_cases here : path = P.home i
    · subst here
      rw [if_pos rfl]
      constructor
      · rintro ⟨d, same, has⟩
        cases same
        rcases puts.only j has with rfl | has
        · exact ⟨.inl rfl, rfl⟩
        · obtain ⟨inside, home⟩ := (loose.has_getD _ j).mp has
          exact ⟨.inr inside, home⟩
      · rintro ⟨rfl | inside, home⟩
        · exact ⟨_, rfl, puts.self⟩
        · exact ⟨_, rfl, puts.keeps j home.symm ((loose.has_getD _ j).mpr ⟨inside, home⟩)⟩
    rw [if_neg here]
    have other : j = i → path ≠ P.home j := by
      rintro rfl
      exact here
    have read : (∃ d, (if path <+: P.home i then some ((n.dataAt path).getD P.new)
        else n.dataAt path) = some d ∧ P.has d j) ↔ j ∈ stored ∧ path = P.home j := by
      split
      · simp only [Option.some.injEq, exists_eq_left', loose.has_getD]
      · exact loose.entries path j
    rw [read]
    constructor
    · rintro ⟨inside, home⟩
      exact ⟨.inr inside, home⟩
    · rintro ⟨same | inside, home⟩
      · exact absurd home (other same)
      · exact ⟨inside, home⟩
  · intro path d there
    rw [Node.dataAt_extend] at there
    split at there
    · cases there
      exact puts.ok
    split at there
    · cases there
      exact loose.ok_getD path
    · exact loose.ok path d there

theorem cut (loose : Loose P n stored) {i : ι} {d d' : δ}
    (there : n.dataAt (P.home i) = some d) (takes : P.Takes i d d') :
    Loose P (n.cut P.bare d' (P.home i)) (stored.erase i) := by
  obtain ⟨c, reach⟩ := Node.find_isSome.mpr ⟨d, there⟩
  -- what holds an item is not bare
  have viaCore {m : Node δ} (ok : ∀ path d, m.dataAt path = some d → P.ok d) (path : List Key)
      (j : ι) : (∃ d, m.dataAt path = some d ∧ P.has d j) ↔
        ∃ d, m.core P.bare path = some d ∧ P.has d j := by
    constructor
    · rintro ⟨e, here, has⟩
      exact ⟨e, Node.core_eq_some.mpr ⟨here, P.bare_eq_false (ok path e here) has⟩, has⟩
    · rintro ⟨e, here, has⟩
      exact ⟨e, (Node.core_eq_some.mp here).1, has⟩
  have okAfter (path : List Key) (e : δ) (here : (n.cut P.bare d' (P.home i)).dataAt path = some e) :
      P.ok e := by
    have kept := Node.dataAt_cut reach here
    split at kept
    · rw [kept]
      exact takes.ok
    · exact loose.ok path e kept
  refine ⟨loose.nodup.erase i, ?_, okAfter⟩
  intro path j
  rw [loose.nodup.mem_erase_iff, viaCore okAfter, Node.core_cut _ _ _ _ reach]
  by_cases here : path = P.home i
  · subst here
    rw [if_pos rfl]
    constructor
    · rintro ⟨e, same, has⟩
      cases (Option.filter_eq_some_iff.mp same).1
      obtain ⟨has, differs⟩ := takes.only j has
      obtain ⟨inside, home⟩ := loose.of_has there has
      exact ⟨⟨differs, inside⟩, home⟩
    · rintro ⟨⟨differs, inside⟩, home⟩
      obtain ⟨e, here, has⟩ := (loose.entries (P.home i) j).mpr ⟨inside, home⟩
      rw [there] at here
      cases here
      have kept := takes.keeps j home.symm has differs
      exact ⟨d', Option.filter_eq_some_iff.mpr
        ⟨rfl, by simpa using P.bare_eq_false takes.ok kept⟩, kept⟩
  · rw [if_neg here, ← viaCore loose.ok, loose.entries]
    constructor
    · rintro ⟨inside, rfl⟩
      exact ⟨⟨fun same => here (by rw [same]), inside⟩, rfl⟩
    · rintro ⟨⟨-, inside⟩, home⟩
      exact ⟨inside, home⟩

end

end Loose

namespace Holding
variable {P} {n : Node δ} {stored : List ι}

theorem empty : Holding P (.mk (some .newLevel) P.new) [] := by
  refine Loose.empty.holding ?_
  intro path c nonempty found
  obtain ⟨k, ks, rfl⟩ := exists_cons_of_ne_nil nonempty
  simp [Node.find] at found

theorem has_getD (holding : Holding P n stored) (path : List Key) (i : ι) :
    P.has ((n.dataAt path).getD P.new) i ↔ i ∈ stored ∧ path = P.home i :=
  holding.loose.has_getD path i

theorem ok_getD (holding : Holding P n stored) (path : List Key) :
    P.ok ((n.dataAt path).getD P.new) := holding.loose.ok_getD path

variable {i : ι} {path : List Key} {d : δ}

section

variable (holding : Holding P n stored)

include holding

theorem dataAt_of_mem (inside : i ∈ stored) :
    ∃ d, n.dataAt (P.home i) = some d ∧ P.has d i := holding.loose.dataAt_of_mem inside

theorem of_has (here : n.dataAt path = some d) (has : P.has d i) : i ∈ stored ∧ path = P.home i :=
  holding.loose.of_has here has

theorem of_core (there : n.core P.bare path = some d) : ∃ i ∈ stored, path = P.home i := by
  obtain ⟨here, something⟩ := Node.core_eq_some.mp there
  have filled : ∃ i, P.has d i := by
    by_contra nothing
    push Not at nothing
    rw [(P.bare_iff d (holding.ok path d here)).mpr nothing] at something
    cases something
  obtain ⟨i, has⟩ := filled
  exact ⟨i, holding.of_has here has⟩

theorem core_of_mem (inside : i ∈ stored) :
    ∃ d, n.core P.bare (P.home i) = some d := holding.loose.core_of_mem inside

theorem of_fwc (valid : ∀ i ∈ stored, ∃ ts, ValidTokens ts ∧ P.home i = ts.map keyOf)
    (last : path.getLast? = some .fwc) (here : n.dataAt path = some d) :
    ∃ i ∈ stored, path = P.home i := by
  have nonempty : path ≠ [] := by
    rintro rfl
    cases last
  obtain ⟨q, d, there⟩ := (holding.pruned.dataAt_iff nonempty).mp ⟨d, here⟩
  obtain ⟨i, inside, same⟩ := holding.of_core there
  obtain ⟨ts, tokens, home⟩ := valid i inside
  have ends := nothing_after_fwc tokens (home.symm.trans same.symm) last
  rw [ends, append_nil] at same
  exact ⟨i, inside, same⟩

theorem interest_iff (valid : ∀ i ∈ stored, ∃ ts, ValidTokens ts ∧ P.home i = ts.map keyOf)
    (toks : List Token) : n.Interest P.bare toks ↔ ∃ i ∈ stored, Covers (P.home i) toks := by
  constructor
  · rintro ⟨path, d, covers, here, last | something⟩
    · obtain ⟨i, inside, rfl⟩ := holding.of_fwc valid last here
      exact ⟨i, inside, covers⟩
    · obtain ⟨i, inside, rfl⟩ := holding.of_core (Node.core_eq_some.mpr ⟨here, something⟩)
      exact ⟨i, inside, covers⟩
  · rintro ⟨i, inside, covers⟩
    obtain ⟨d, there⟩ := holding.core_of_mem inside
    obtain ⟨here, something⟩ := Node.core_eq_some.mp there
    exact ⟨P.home i, d, covers, here, .inr something⟩

theorem stopped (valid : ∀ i ∈ stored, ∃ ts, ValidTokens ts ∧ P.home i = ts.map keyOf)
    {bare : δ → Bool} (same : ∀ d, P.ok d → bare d = P.bare d) {toks : List Token}
    {e : List Key × δ} (found : (n.visits toks).find? (stops bare) = some e) :
    Covers e.1 toks ∧ n.dataAt e.1 = some e.2 ∧ ∃ i ∈ stored, e.1 = P.home i := by
  obtain ⟨covers, here⟩ := (n.mem_visits toks e.1 e.2).mp (mem_of_find?_eq_some found)
  have stopped := find?_some found
  simp only [stops, Bool.or_eq_true, decide_eq_true_eq, Bool.not_eq_true'] at stopped
  refine ⟨covers, here, ?_⟩
  rcases stopped with last | something
  · exact holding.of_fwc valid last here
  · rw [same e.2 (holding.ok e.1 e.2 here)] at something
    exact holding.of_core (Node.core_eq_some.mpr ⟨here, something⟩)

end

section
variable {f : δ → List ι} {K : ι → Prop}

theorem mem_visited (holding : Holding P n stored)
    (read : ∀ d, P.ok d → ∀ i, i ∈ f d ↔ P.has d i ∧ K i) (toks : List Token) (i : ι) :
    i ∈ (n.visits toks).flatMap (fun e => f e.2) ↔
      i ∈ stored ∧ K i ∧ Covers (P.home i) toks := by
  simp only [mem_flatMap, Prod.exists, Node.mem_visits]
  constructor
  · rintro ⟨path, d, ⟨covers, here⟩, inside⟩
    obtain ⟨has, kind⟩ := (read d (holding.ok path d here) i).mp inside
    obtain ⟨inside, rfl⟩ := holding.of_has here has
    exact ⟨inside, kind, covers⟩
  · rintro ⟨inside, kind, covers⟩
    obtain ⟨d, here, has⟩ := holding.dataAt_of_mem inside
    exact ⟨P.home i, d, ⟨covers, here⟩, (read d (holding.ok _ d here) i).mpr ⟨has, kind⟩⟩

theorem nodup_visited (holding : Holding P n stored)
    (read : ∀ d, P.ok d → ∀ i, i ∈ f d ↔ P.has d i ∧ K i) (nodup : ∀ d, P.ok d → (f d).Nodup)
    (toks : List Token) : ((n.visits toks).flatMap (fun e => f e.2)).Nodup := by
  have own {path : List Key} {d : δ} (member : (path, d) ∈ n.visits toks) {i : ι}
      (inside : i ∈ f d) : path = P.home i := by
    have here := ((Node.mem_visits toks n path d).mp member).2
    exact (holding.of_has here ((read d (holding.ok path d here) i).mp inside).1).2
  refine nodup_flatMap.mpr ⟨?_, ?_⟩
  · intro e member
    exact nodup e.2 (holding.ok e.1 e.2 ((Node.mem_visits toks n e.1 e.2).mp member).2)
  · have paths := pairwise_map.mp (Node.nodup_visits toks n)
    refine paths.imp_of_mem ?_
    intro a b inA inB differ i left right
    exact differ ((own inA left).trans (own inB right).symm)

/-- One node has all the items of a kind that match exactly if they all belong there. -/
theorem read_all_iff [DecidablePred K] (holding : Holding P n stored)
    (read : ∀ d, P.ok d → ∀ i, i ∈ f d ↔ P.has d i ∧ K i) (nodup : ∀ d, P.ok d → (f d).Nodup)
    {toks : List Token} (covers : Covers path toks) (here : n.dataAt path = some d) :
    (f d).length = (stored.filter (fun i => decide (K i ∧ Covers (P.home i) toks))).length ↔
      ∀ i ∈ stored, K i → Covers (P.home i) toks → path = P.home i := by
  have ok := holding.ok path d here
  have own : (f d).Perm ((stored.filter (fun i => decide (K i ∧ Covers (P.home i) toks))).filter
      (fun i => decide (path = P.home i))) := by
    refine (perm_ext_iff_of_nodup (nodup d ok) ((holding.nodup.filter _).filter _)).mpr ?_
    intro i
    rw [read d ok]
    simp only [mem_filter, decide_eq_true_eq]
    constructor
    · rintro ⟨has, kind⟩
      obtain ⟨inside, home⟩ := holding.of_has here has
      exact ⟨⟨inside, kind, home ▸ covers⟩, home⟩
    · rintro ⟨⟨inside, kind, _⟩, home⟩
      obtain ⟨d', there, has⟩ := holding.dataAt_of_mem inside
      rw [← home, here] at there
      cases there
      exact ⟨has, kind⟩
  rw [own.length_eq, ← countP_eq_length_filter, countP_eq_length]
  simp only [mem_filter, decide_eq_true_eq, and_imp]

end

section
variable [BEq ι] [LawfulBEq ι]

theorem extend (holding : Holding P n stored) {i : ι} {put : δ → δ}
    (puts : P.Puts i ((n.dataAt (P.home i)).getD P.new) (put ((n.dataAt (P.home i)).getD P.new))) :
    Holding P (n.extend P.new put (P.home i)) (add stored i) :=
  (holding.loose.extend puts).holding
    (holding.pruned.extend _ _ _ (P.bare_eq_false puts.ok puts.self))

theorem cut (holding : Holding P n stored) {i : ι} {d d' : δ}
    (there : n.dataAt (P.home i) = some d) (takes : P.Takes i d d') :
    Holding P (n.cut P.bare d' (P.home i)) (stored.erase i) :=
  (holding.loose.cut there takes).holding (holding.pruned.cut _ _)

end

end Holding

end LinearNats.Sublists
