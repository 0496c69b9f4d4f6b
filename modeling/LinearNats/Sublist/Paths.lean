import LinearNats.Sublist.Level

/-! What a trie holds, by the paths of keys that lead to its nodes, and what the loops do to it. -/
namespace LinearNats.Sublists
open Server List Option Table

variable {δ ρ : Type}

theorem keyOf_injective : Function.Injective keyOf := by
  intro s t same
  unfold keyOf at same
  split at same <;> split at same <;> grind

/-! ### Tokens -/

theorem tokens_injective : Function.Injective tokens := by
  intro s t same
  have joined := congrArg (List.intercalate [btsep]) same
  rwa [tokens, tokens, intercalate_splitOn, intercalate_splitOn] at joined

theorem tokens_ne_nil (subject : Bytes) : tokens subject ≠ [] := splitOn_ne_nil btsep subject

theorem tokens_append (a b : Bytes) : tokens (a ++ btsep :: b) = tokens a ++ tokens b := by
  induction a with
  | nil => simp [tokens, List.splitOn, splitOnP_cons_eq_if_modifyHead]
  | cons c a ih =>
    obtain ⟨t, ts, split⟩ := exists_cons_of_ne_nil (tokens_ne_nil a)
    simp only [tokens, List.splitOn, cons_append, splitOnP_cons_eq_if_modifyHead] at ih split ⊢
    rw [ih, split]
    split <;> rfl

def keys (filter : Bytes) : List Key := (tokens filter).map keyOf

theorem keys_injective : Function.Injective keys :=
  (map_injective_iff.mpr keyOf_injective).comp tokens_injective

theorem keys_ne_nil (filter : Bytes) : keys filter ≠ [] := by
  intro empty
  exact tokens_ne_nil filter (map_eq_nil_iff.mp empty)

theorem matchTokens_eq {subject : Bytes} (full : [] ∉ tokens subject) :
    matchTokens subject = some (tokens subject) := if_neg full

theorem matchTokens_eq_some {subject : Bytes} {toks : List Token}
    (accepted : matchTokens subject = some toks) : [] ∉ tokens subject ∧ tokens subject = toks := by
  unfold matchTokens at accepted
  split at accepted
  · cases accepted
  next full => exact ⟨full, Option.some.inj accepted⟩

namespace Level

theorem child_setChild (l : Level δ) (n : Node δ) (k k' : Key) :
    (l.setChild n k).child k' = if k = k' then some n else l.child k' := by
  cases k <;> cases k' <;> simp [setChild, child, nodes, pwc, fwc, get_set]

theorem child_pruneNode (l : Level δ) (k k' : Key) :
    (l.pruneNode k).child k' = if k = k' then none else l.child k' := by
  cases k <;> cases k' <;> simp [pruneNode, child, nodes, pwc, fwc, get_erase]

@[simp] theorem child_newLevel (k : Key) : (newLevel : Level δ).child k = none := by
  cases k <;> rfl

variable {l : Level δ}

theorem numNodes_eq_zero : l.numNodes = 0 ↔ ∀ k, l.child k = none := by
  have split : l.numNodes = 0 ↔ l.nodes = [] ∧ l.pwc = none ∧ l.fwc = none := by
    cases h : l.pwc <;> cases h' : l.fwc <;> simp [numNodes, h, h']
  rw [split]
  constructor
  · rintro ⟨noNodes, noPwc, noFwc⟩ k
    cases k with
    | lit t => rw [child, noNodes, get_nil]
    | pwc => exact noPwc
    | fwc => exact noFwc
  · intro absent
    refine ⟨?_, absent .pwc, absent .fwc⟩
    cases h : l.nodes with
    | nil => rfl
    | cons entry rest =>
      have first := absent (.lit entry.1)
      rw [child, h, Table.get, if_pos rfl] at first
      cases first

theorem nodup_setChild (keys : (l.nodes.map Prod.fst).Nodup) (k : Key) (n : Node δ) :
    ((l.setChild n k).nodes.map Prod.fst).Nodup := by
  cases k with
  | lit t => exact keys_set keys t n
  | pwc => exact keys
  | fwc => exact keys

theorem nodup_pruneNode (keys : (l.nodes.map Prod.fst).Nodup) (k : Key) :
    ((l.pruneNode k).nodes.map Prod.fst).Nodup := by
  cases k with
  | lit t => exact keys_erase keys t
  | pwc => exact keys
  | fwc => exact keys

end Level

namespace Node

def child (n : Node δ) (k : Key) : Option (Node δ) := n.next.bind (·.child k)

theorem child_of_next {n : Node δ} {l : Level δ} (next : n.next = some l) (k : Key) :
    n.child k = l.child k := by rw [child, next]; rfl

@[simp] theorem next_mk (next : Option (Level δ)) (data : δ) : (mk next data).next = next := rfl
@[simp] theorem data_mk (next : Option (Level δ)) (data : δ) : (mk next data).data = data := rfl

@[simp] theorem mk_next_data (n : Node δ) : mk n.next n.data = n := by
  cases n
  rfl

@[simp] theorem child_mk (l : Level δ) (data : δ) (k : Key) :
    (mk (some l) data).child k = l.child k := rfl

theorem child_next (n : Node δ) (k : Key) : (n.next.getD .newLevel).child k = n.child k := by
  cases h : n.next <;> simp [child, h]

def find : List Key → Node δ → Option (Node δ)
  | [], n => some n
  | k :: ks, n => (n.child k).bind (find ks)

def dataAt (path : List Key) (n : Node δ) : Option δ := (n.find path).map data

theorem dataAt_nil (n : Node δ) : n.dataAt [] = some n.data := rfl

theorem dataAt_cons (k : Key) (ks : List Key) (n : Node δ) :
    n.dataAt (k :: ks) = (n.child k).bind (dataAt ks) := by
  cases h : n.child k with
  | none => simp only [dataAt, find, h, bind_none, map_none]
  | some c => simp only [dataAt, find, h, bind_some]

theorem find_append (p q : List Key) (n : Node δ) :
    n.find (p ++ q) = (n.find p).bind (find q) := by
  induction p generalizing n with
  | nil => rfl
  | cons k ks ih =>
    cases h : n.child k with
    | none => simp only [cons_append, find, h, bind_none]
    | some c => simp only [cons_append, find, h, bind_some, ih]

theorem dataAt_append (p q : List Key) (n : Node δ) :
    n.dataAt (p ++ q) = (n.find p).bind (dataAt q) := by
  rw [dataAt, find_append]
  cases n.find p <;> rfl

variable {n : Node δ}

theorem dataAt_congr {m : Node δ} (data : m.data = n.data) (child : ∀ k, m.child k = n.child k)
    (path : List Key) : m.dataAt path = n.dataAt path := by
  cases path with
  | nil => rw [dataAt_nil, dataAt_nil, data]
  | cons k ks => rw [dataAt_cons, dataAt_cons, child]

/-! ### Insert -/

/-- The nodes that the loop of `Insert` makes and the change it makes at the end of the path. -/
def extend (new : δ) (put : δ → δ) : List Key → Node δ → Node δ
  | [], n => mk n.next (put n.data)
  | k :: ks, n =>
    let l := n.next.getD .newLevel
    let c := (l.child k).getD (mk none new)
    mk (some (l.setChild (extend new put ks (mk (some (c.next.getD .newLevel)) c.data)) k)) n.data

theorem child_extend (new : δ) (put : δ → δ) (k k' : Key) (ks : List Key) (n : Node δ) :
    (n.extend new put (k :: ks)).child k' =
      if k = k' then
        let c := (n.child k).getD (mk none new)
        some (extend new put ks (mk (some (c.next.getD .newLevel)) c.data))
      else n.child k' := by
  simp only [extend, child_mk, Level.child_setChild, child_next]

theorem data_extend (new : δ) (put : δ → δ) {p : List Key} (same : p = [] → put n.data = n.data) :
    (n.extend new put p).data = n.data := by
  cases p with
  | nil => exact same rfl
  | cons k ks => rfl

theorem mk_next_extend (new : δ) (put : δ → δ) (p : List Key) (level : n.next.isSome = true) :
    mk (some ((n.extend new put p).next.getD .newLevel)) (n.extend new put p).data =
      n.extend new put p := by
  cases p with
  | nil =>
    obtain ⟨l, next⟩ := isSome_iff_exists.mp level
    simp [extend, next]
  | cons k ks => rfl

theorem data_extend_cons (new : δ) (put : δ → δ) (k : Key) (ks : List Key) (n : Node δ) :
    (n.extend new put (k :: ks)).data = n.data := rfl

theorem dataAt_missing (new : δ) (path : List Key) :
    (mk none new : Node δ).dataAt path = if path = [] then some new else none := by
  cases path with
  | nil => rfl
  | cons k ks => rfl

theorem dataAt_made (new : δ) (n : Node δ) (k : Key) (path : List Key) :
    ((mk (some (((n.child k).getD (mk none new)).next.getD .newLevel))
      ((n.child k).getD (mk none new)).data).dataAt path).getD new = (n.dataAt (k :: path)).getD new := by
  have plain (c : Node δ) : (mk (some (c.next.getD .newLevel)) c.data).dataAt path = c.dataAt path := by
    refine dataAt_congr (by rfl) (fun k' => ?_) path
    rw [child_mk, child_next]
  rw [plain, dataAt_cons]
  cases n.child k with
  | none =>
    rw [getD_none, dataAt_missing]
    split <;> rfl
  | some c => rfl

theorem dataAt_extend (new : δ) (put : δ → δ) (p q : List Key) (n : Node δ) :
    (n.extend new put p).dataAt q =
      if q = p then some (put ((n.dataAt p).getD new))
      else if q <+: p then some ((n.dataAt q).getD new)
      else n.dataAt q := by
  induction p generalizing n q with
  | nil =>
    cases q with
    | nil => simp [extend, dataAt_nil]
    | cons k ks => simp [extend, dataAt_cons, child]
  | cons k ks ih =>
    cases q with
    | nil => simp [dataAt_nil, data_extend_cons]
    | cons k' qs =>
      rw [dataAt_cons, child_extend]
      by_cases same : k = k'
      · subst same
        generalize split : (n.child k).getD (mk none new) = c
        have plain (path : List Key) :
            (mk (some (c.next.getD .newLevel)) c.data).dataAt path = c.dataAt path := by
          refine dataAt_congr (by rfl) (fun k' => ?_) path
          rw [child_mk, child_next]
        -- a child that is not there reads as the new one
        have read (path : List Key) :
            c.dataAt path = if path = [] then some ((n.dataAt [k]).getD new)
              else n.dataAt (k :: path) := by
          rw [dataAt_cons, dataAt_cons, ← split]
          cases n.child k with
          | none => rw [getD_none, dataAt_missing]; rfl
          | some c =>
            cases path with
            | nil => rfl
            | cons k' ks => rfl
        simp only [if_pos, bind_some, ih, plain, List.cons.injEq, true_and, cons_prefix_cons]
        by_cases end_ : qs = ks
        · simp only [if_pos end_, read]
          by_cases leaf : ks = []
          · simp [leaf]
          · simp [leaf]
        simp only [if_neg end_, read]
        by_cases leaf : qs = []
        · simp [leaf]
        · simp [leaf]
      · have differs : ¬ k' = k := fun h => same h.symm
        simp [same, differs, cons_prefix_cons, dataAt_cons]

/-! ### Remove -/

section
variable (bare : δ → Bool)

/-- What `remove` leaves when the data at the end of the path becomes `data`. -/
def cut (data : δ) : List Key → Node δ → Node δ
  | [], n => mk n.next data
  | k :: ks, n =>
    match n.next with
    | none => n
    | some l =>
      match l.child k with
      | none => n
      | some c =>
        let c := cut data ks c
        mk (some (if c.isEmpty bare then l.pruneNode k else l.setChild c k)) n.data

theorem data_cut_cons (data : δ) (k : Key) (ks : List Key) (n : Node δ) :
    (n.cut bare data (k :: ks)).data = n.data := by
  cases next : n.next with
  | none => simp [cut, next]
  | some l => cases here : l.child k <;> simp [cut, next, here]

variable {n c : Node δ} {p : List Key}

theorem mk_next_cut (data : δ) (p : List Key) (level : n.next.isSome = true) :
    mk (some ((n.cut bare data p).next.getD .newLevel)) (n.cut bare data p).data =
      n.cut bare data p := by
  obtain ⟨l, next⟩ := isSome_iff_exists.mp level
  have whole : mk (some l) n.data = n := by rw [← next, mk_next_data]
  cases p with
  | nil => simp [cut, next]
  | cons k ks => cases here : l.child k <;> simp [cut, next, here, whole]

theorem child_cut (data : δ) (k k' : Key) (ks : List Key) (n : Node δ) :
    (n.cut bare data (k :: ks)).child k' =
      if k = k' then (n.child k).bind (fun c =>
        if (c.cut bare data ks).isEmpty bare then none else some (c.cut bare data ks))
      else n.child k' := by
  cases next : n.next with
  | none => simp [cut, child, next]
  | some l =>
    cases here : l.child k with
    | none =>
      by_cases same : k = k'
      · subst same
        simp [cut, child, next, here]
      · simp [cut, child, next, here, same]
    | some c =>
      simp only [cut, next, here, child_mk]
      by_cases empty : (c.cut bare data ks).isEmpty bare = true
      · simp [empty, Level.child_pruneNode, child, next, here]
      · simp [empty, Level.child_setChild, child, next, here]

theorem isEmpty_iff : n.isEmpty bare = true ↔ bare n.data = true ∧ ∀ k, n.child k = none := by
  cases h : n.next with
  | none => simp [isEmpty, child, h]
  | some l => simp [isEmpty, child, h, Level.numNodes_eq_zero]

def core (path : List Key) (n : Node δ) : Option δ := (n.dataAt path).filter (fun d => !bare d)

theorem core_cons (k : Key) (ks : List Key) (n : Node δ) :
    n.core bare (k :: ks) = (n.child k).bind (core bare ks) := by
  rw [core, dataAt_cons]
  cases n.child k <;> rfl

theorem core_of_isEmpty (empty : n.isEmpty bare = true) (path : List Key) :
    n.core bare path = none := by
  obtain ⟨nothing, alone⟩ := (isEmpty_iff bare).mp empty
  cases path with
  | nil => simp [core, dataAt_nil, nothing]
  | cons k ks => rw [core_cons, alone, bind_none]

theorem core_cut (data : δ) (p q : List Key) (found : n.find p = some c) :
    (n.cut bare data p).core bare q =
      if q = p then (some data).filter (fun d => !bare d) else n.core bare q := by
  induction p generalizing n q with
  | nil =>
    cases q with
    | nil => simp [core, cut, dataAt_nil]
    | cons k ks => simp [core_cons, cut, child]
  | cons k ks ih =>
    cases q with
    | nil => simp [core, dataAt_nil, data_cut_cons]
    | cons k' qs =>
      rw [core_cons, core_cons, child_cut]
      by_cases same : k = k'
      · subst same
        obtain ⟨d, here, below⟩ := bind_eq_some_iff.mp found
        rw [if_pos rfl, here, bind_some, bind_some]
        by_cases empty : (d.cut bare data ks).isEmpty bare = true
        · have gone := core_of_isEmpty bare empty qs
          rw [ih qs below] at gone
          simpa [empty] using gone.symm
        · simp [empty, ih qs below]
      · have differs : ¬ k' = k := fun h => same h.symm
        simp [same, differs]

/-- Every node has something in it or below it. -/
def Pruned (n : Node δ) : Prop :=
  ∀ p c, p ≠ [] → n.find p = some c → ∃ q d, n.core bare (p ++ q) = some d

theorem core_append (p q : List Key) (n : Node δ) :
    n.core bare (p ++ q) = (n.find p).bind (core bare q) := by
  rw [core, dataAt_append]
  cases n.find p <;> rfl

theorem find_isSome : (∃ c, n.find p = some c) ↔ ∃ d, n.dataAt p = some d := by
  rw [dataAt]
  cases n.find p <;> simp

variable {bare}

theorem core_eq_some {d : δ} : n.core bare p = some d ↔ n.dataAt p = some d ∧ bare d = false := by
  rw [core, filter_eq_some_iff, Bool.not_eq_true']

theorem Pruned.child {k : Key} (pruned : n.Pruned bare) (here : n.child k = some c) :
    c.Pruned bare := by
  intro p d nonempty found
  have below : n.find (k :: p) = some d := by rw [find, here, bind_some, found]
  obtain ⟨q, d, something⟩ := pruned (k :: p) d (cons_ne_nil k p) below
  rw [cons_append, core_cons, here, bind_some] at something
  exact ⟨q, d, something⟩

theorem Pruned.core_child {k : Key} (pruned : n.Pruned bare) (here : n.child k = some c) :
    ∃ q d, c.core bare q = some d := by
  have below : n.find [k] = some c := by rw [find, here]; rfl
  obtain ⟨q, d, something⟩ := pruned [k] c (cons_ne_nil k []) below
  rw [singleton_append, core_cons, here, bind_some] at something
  exact ⟨q, d, something⟩

theorem Pruned.of_children
    (each : ∀ k c, n.child k = some c → c.Pruned bare ∧ ∃ q d, c.core bare q = some d) :
    n.Pruned bare := by
  intro p d nonempty found
  cases p with
  | nil => exact absurd rfl nonempty
  | cons k ks =>
    obtain ⟨c, here, below⟩ := bind_eq_some_iff.mp found
    obtain ⟨pruned, something⟩ := each k c here
    simp only [cons_append, core_cons, here, bind_some]
    cases ks with
    | nil => exact something
    | cons k' ks => exact pruned (k' :: ks) d (cons_ne_nil k' ks) below

theorem Pruned.cut (pruned : n.Pruned bare) (data : δ) (p : List Key) :
    (n.cut bare data p).Pruned bare := by
  induction p generalizing n with
  | nil =>
    apply Pruned.of_children
    intro k c here
    have before : n.child k = some c := here
    exact ⟨pruned.child before, pruned.core_child before⟩
  | cons k ks ih =>
    apply Pruned.of_children
    intro k' c here
    rw [child_cut] at here
    split at here
    · obtain ⟨d, before, kept⟩ := bind_eq_some_iff.mp here
      split at kept
      · cases kept
      next empty =>
      cases kept
      have below := ih (pruned.child before)
      refine ⟨below, ?_⟩
      -- what is not empty has data of its own or a child
      by_cases nothing : bare (d.cut bare data ks).data = true
      · have children : ∃ k c, (d.cut bare data ks).child k = some c := by
          by_contra alone
          push Not at alone
          apply empty
          exact (isEmpty_iff bare).mpr ⟨nothing, fun k => eq_none_iff_forall_ne_some.mpr
            (fun c => alone k c)⟩
        obtain ⟨k, c, there⟩ := children
        obtain ⟨q, e, something⟩ := below.core_child there
        exact ⟨k :: q, e, by rw [core_cons, there, bind_some, something]⟩
      · exact ⟨[], _, core_eq_some.mpr ⟨dataAt_nil _, by simpa using nothing⟩⟩
    · exact ⟨pruned.child here, pruned.core_child here⟩

theorem Pruned.extend (pruned : n.Pruned bare) (new : δ) (put : δ → δ) (p : List Key)
    (something : bare (put ((n.dataAt p).getD new)) = false) :
    (n.extend new put p).Pruned bare := by
  intro q c nonempty found
  by_cases along : q <+: p
  · obtain ⟨rest, rfl⟩ := along
    refine ⟨rest, put ((n.dataAt (q ++ rest)).getD new), core_eq_some.mpr ⟨?_, something⟩⟩
    rw [dataAt_extend, if_pos rfl]
  have kept (r : List Key) : (n.extend new put p).dataAt (q ++ r) = n.dataAt (q ++ r) := by
    have off : ¬ q ++ r <+: p := fun h => along ((prefix_append q r).trans h)
    have differs : q ++ r ≠ p := fun h => off (h ▸ prefix_rfl)
    rw [dataAt_extend, if_neg differs, if_neg off]
  have before : ∃ c, n.find q = some c := by
    obtain ⟨d, there⟩ := find_isSome.mp ⟨c, found⟩
    have same := kept []
    rw [append_nil] at same
    exact find_isSome.mpr ⟨d, same ▸ there⟩
  obtain ⟨c, before⟩ := before
  obtain ⟨r, d, there⟩ := pruned q c nonempty before
  refine ⟨r, d, ?_⟩
  rwa [core, kept]

theorem dataAt_cut {data x : δ} {q : List Key} (found : n.find p = some c)
    (there : (n.cut bare data p).dataAt q = some x) :
    if q = p then x = data else n.dataAt q = some x := by
  induction p generalizing n q with
  | nil =>
    cases q with
    | nil => exact (Option.some.inj there).symm
    | cons k ks => simpa [dataAt_cons, Node.cut, Node.child] using there
  | cons k ks ih =>
    cases q with
    | nil => simpa [dataAt_nil, data_cut_cons] using there
    | cons k' qs =>
      rw [dataAt_cons, child_cut] at there
      by_cases same : k = k'
      · subst same
        obtain ⟨d, here, below⟩ := bind_eq_some_iff.mp found
        rw [if_pos rfl, here, bind_some] at there
        split at there
        · cases there
        · rw [bind_some] at there
          simpa [dataAt_cons, here] using ih below there
      · have differs : ¬ k' = k := fun h => same h.symm
        simpa [same, differs, dataAt_cons] using there

/-- No level has two nodes for one token. -/
def Tidy (n : Node δ) : Prop :=
  ∀ p c l, n.find p = some c → c.next = some l → (l.nodes.map Prod.fst).Nodup

theorem tidy_iff :
    n.Tidy ↔ (∀ l, n.next = some l → (l.nodes.map Prod.fst).Nodup) ∧
      ∀ k c, n.child k = some c → c.Tidy := by
  constructor
  · intro tidy
    refine ⟨fun l next => tidy [] n l rfl next, ?_⟩
    intro k c here p d l found next
    exact tidy (k :: p) d l (by rw [find, here, bind_some, found]) next
  · rintro ⟨first, below⟩ p d l found next
    cases p with
    | nil =>
      cases found
      exact first l next
    | cons k ks =>
      obtain ⟨c, here, found⟩ := bind_eq_some_iff.mp found
      exact below k c here ks d l found next

theorem Tidy.of_next {m : Node δ} (tidy : n.Tidy) (same : m.next = n.next) : m.Tidy := by
  obtain ⟨first, below⟩ := tidy_iff.mp tidy
  refine tidy_iff.mpr ⟨fun l next => first l (same ▸ next), ?_⟩
  intro k c here
  rw [Node.child, same] at here
  exact below k c here

theorem Tidy.made (tidy : n.Tidy) (data : δ) : (mk (some (n.next.getD .newLevel)) data).Tidy := by
  cases next : n.next with
  | some l => exact tidy.of_next next.symm
  | none =>
    refine tidy_iff.mpr ⟨?_, ?_⟩
    · rintro l ⟨⟩
      exact nodup_nil
    · intro k c here
      simp at here

theorem Tidy.extend (tidy : n.Tidy) (new : δ) (put : δ → δ) (p : List Key) :
    (n.extend new put p).Tidy := by
  induction p generalizing n with
  | nil => exact tidy.of_next rfl
  | cons k ks ih =>
    obtain ⟨first, below⟩ := tidy_iff.mp tidy
    refine tidy_iff.mpr ⟨?_, ?_⟩
    · intro l next
      have keys : ((n.next.getD .newLevel).nodes.map Prod.fst).Nodup := by
        cases there : n.next with
        | none => exact nodup_nil
        | some l => exact first l there
      cases next
      exact Level.nodup_setChild keys k _
    · intro k' c here
      rw [child_extend] at here
      split at here
      · cases here
        apply ih
        apply Tidy.made
        cases there : n.child k with
        | none => exact tidy_iff.mpr ⟨by simp, by simp [Node.child]⟩
        | some c => exact below k c there
      · exact below k' c here

theorem Tidy.cut (tidy : n.Tidy) (data : δ) (p : List Key) : (n.cut bare data p).Tidy := by
  induction p generalizing n with
  | nil => exact tidy.of_next rfl
  | cons k ks ih =>
    obtain ⟨first, below⟩ := tidy_iff.mp tidy
    refine tidy_iff.mpr ⟨?_, ?_⟩
    · intro l' next
      cases there : n.next with
      | none => simp [Node.cut, there] at next
      | some l =>
        cases here : l.child k with
        | none =>
          simp only [Node.cut, there, here] at next
          exact first l' (there.trans next)
        | some c =>
          simp only [Node.cut, there, here, next_mk, Option.some.injEq] at next
          subst next
          split
          · exact Level.nodup_pruneNode (first l there) k
          · exact Level.nodup_setChild (first l there) k _
    · intro k' c here
      rw [child_cut] at here
      split at here
      · obtain ⟨d, before, kept⟩ := bind_eq_some_iff.mp here
        split at kept
        · cases kept
        · cases kept
          exact ih (below k d before)
      · exact below k' c here

/-- In a pruned trie a path is there exactly when something is stored at it or below it. -/
theorem Pruned.dataAt_iff (pruned : n.Pruned bare) (nonempty : p ≠ []) :
    (∃ d, n.dataAt p = some d) ↔ ∃ q d, n.core bare (p ++ q) = some d := by
  constructor
  · intro there
    obtain ⟨c, found⟩ := find_isSome.mpr there
    exact pruned p c nonempty found
  · rintro ⟨q, d, something⟩
    rw [core_append] at something
    obtain ⟨c, found, -⟩ := bind_eq_some_iff.mp something
    exact find_isSome.mp ⟨c, found⟩

end

end Node

/-! ### The loops -/

def accepted : List Token → Bool → List Key
  | [], _ => []
  | t :: ts, sfwc =>
    if t = [] ∨ sfwc = true then [] else keyOf t :: accepted ts (keyOf t = .fwc)

def acceptable : List Token → Bool → Bool
  | [], _ => true
  | t :: ts, sfwc => if t = [] ∨ sfwc = true then false else acceptable ts (keyOf t = .fwc)

/-- No token is empty and none follows '>'. -/
def ValidTokens (ts : List Token) : Prop := [] ∉ ts ∧ [Server.fwc] ∉ ts.dropLast

instance (ts : List Token) : Decidable (ValidTokens ts) := inferInstanceAs (Decidable (_ ∧ _))

variable {ts : List Token}

theorem ValidTokens.tail {t : Token} (valid : ValidTokens (t :: ts)) : ValidTokens ts := by
  refine ⟨fun h => valid.1 (mem_cons_of_mem t h), fun h => valid.2 ?_⟩
  cases ts with
  | nil => cases h
  | cons t' ts => exact mem_cons_of_mem t h

theorem keyOf_eq_fwc {t : Token} : keyOf t = .fwc ↔ t = [Server.fwc] := by
  unfold keyOf
  split <;> rename_i wild
  · simp [wild, Server.pwc, Server.fwc]
  · split <;> simp_all

theorem nothing_after_fwc (valid : ValidTokens ts) {p q : List Key} (path : ts.map keyOf = p ++ q)
    (last : p.getLast? = some .fwc) : q = [] := by
  by_contra more
  apply valid.2
  have inside : Key.fwc ∈ (ts.dropLast).map keyOf := by
    rw [map_dropLast, path, dropLast_append_of_ne_nil more]
    exact mem_append_left _ (mem_of_getLast? last)
  obtain ⟨t, member, key⟩ := mem_map.mp inside
  rwa [keyOf_eq_fwc.mp key] at member

theorem acceptable_iff (ts : List Token) (sfwc : Bool) :
    acceptable ts sfwc = true ↔ ValidTokens ts ∧ (sfwc = true → ts = []) := by
  induction ts generalizing sfwc with
  | nil => simp [acceptable, ValidTokens]
  | cons t ts ih =>
    by_cases refused : t = [] ∨ sfwc = true
    · rw [acceptable, if_pos refused]
      have invalid : ¬ (ValidTokens (t :: ts) ∧ (sfwc = true → t :: ts = [])) := by
        rintro ⟨⟨noEmpty, -⟩, last⟩
        rcases refused with empty | after
        · exact noEmpty (by simp [empty])
        · exact cons_ne_nil t ts (last after)
      exact iff_of_false Bool.false_ne_true invalid
    · rw [acceptable, if_neg refused, ih]
      push Not at refused
      cases ts with
      | nil => simp [ValidTokens, refused, Ne.symm refused.1]
      | cons t' ts =>
        simp [ValidTokens, refused, Ne.symm refused.1, keyOf_eq_fwc, dropLast_cons_cons]
        grind

theorem accepted_of_acceptable {sfwc : Bool} (valid : acceptable ts sfwc = true) :
    accepted ts sfwc = ts.map keyOf := by
  induction ts generalizing sfwc with
  | nil => rfl
  | cons t ts ih =>
    by_cases refused : t = [] ∨ sfwc = true
    · rw [acceptable, if_pos refused] at valid
      cases valid
    · rw [acceptable, if_neg refused] at valid
      rw [accepted, if_neg refused, ih valid, map_cons]

theorem insertLoop_eq (new : δ) (put : δ → δ × ρ) (ts : List Token) (sfwc : Bool) (n : Node δ) :
    insertLoop new put ts sfwc n =
      (n.extend new (if acceptable ts sfwc then fun d => (put d).1 else id) (accepted ts sfwc),
        if acceptable ts sfwc then some (put ((n.dataAt (accepted ts sfwc)).getD new)).2
        else none) := by
  induction ts generalizing sfwc n with
  | nil => rfl
  | cons t ts ih =>
    by_cases refused : t = [] ∨ sfwc = true
    · rw [insertLoop, acceptable, accepted, if_pos refused, if_pos refused, if_pos refused]
      simp [Node.extend]
    · rw [insertLoop, acceptable, accepted, if_neg refused, if_neg refused, if_neg refused]
      simp only [ih, Node.extend, Node.dataAt_made, Node.child_next]

/-- An insert at a root with a level: no data is put there, since a subject has a token. -/
theorem mk_insert (new : δ) (put : δ → δ) (subject : Bytes) {n : Node δ}
    (level : n.next.isSome = true) :
    .mk (some ((n.extend new (if acceptable (tokens subject) false then put else id)
        (accepted (tokens subject) false)).next.getD .newLevel)) n.data =
      n.extend new (if acceptable (tokens subject) false then put else id)
        (accepted (tokens subject) false) := by
  rw [← Node.mk_next_extend _ _ _ level, Node.data_extend]
  · simp
  · intro empty
    have refused : ¬ acceptable (tokens subject) false = true := by
      intro ok
      rw [accepted_of_acceptable ok] at empty
      exact keys_ne_nil subject empty
    rw [if_neg refused, id]

theorem mk_cut (bare : δ → Bool) (data : δ) (subject : Bytes) {n : Node δ}
    (level : n.next.isSome = true) :
    .mk (some ((n.cut bare data (keys subject)).next.getD .newLevel)) n.data =
      n.cut bare data (keys subject) := by
  have whole := Node.mk_next_cut bare data (keys subject) level
  obtain ⟨k, ks, shape⟩ := exists_cons_of_ne_nil (keys_ne_nil subject)
  rwa [shape, Node.data_cut_cons, ← shape] at whole

theorem removeLoop_ok_iff (take : δ → Option (δ × ρ)) (bare : δ → Bool) (ts : List Token)
    (sfwc : Bool) (o : Option (Node δ)) (n' : Node δ) (out : ρ) :
    removeLoop take bare ts sfwc o = .ok (n', out) ↔
      acceptable ts sfwc = true ∧ ∃ n d d', o = some n ∧ n.dataAt (ts.map keyOf) = some d ∧
        take d = some (d', out) ∧ n' = n.cut bare d' (ts.map keyOf) := by
  induction ts generalizing sfwc o n' out with
  | nil =>
    cases o with
    | none => simp [removeLoop]
    | some n =>
      cases taken : take n.data with
      | none => simp [removeLoop, taken, Node.dataAt_nil]
      | some r =>
        simp [removeLoop, taken, Node.dataAt_nil, acceptable, Node.cut]
        grind
  | cons t ts ih =>
    by_cases refused : t = [] ∨ sfwc = true
    · rw [removeLoop.eq_def, acceptable, if_pos refused]
      simp [refused]
    rw [removeLoop.eq_def, acceptable, if_neg refused]
    simp only [if_neg refused]
    cases o with
    | none => simp
    | some n =>
      cases next : n.next with
      | none => simp [next, Node.dataAt_cons, Node.child]
      | some l =>
        have child := Node.child_of_next next (keyOf t)
        simp only [next, map_cons, Node.dataAt_cons]
        cases below : removeLoop take bare ts (keyOf t = .fwc) (l.child (keyOf t)) with
        | error e =>
          refine iff_of_false (fun h => by cases h) ?_
          rintro ⟨valid, m, d, d', same, there, taken, -⟩
          cases same
          rw [child] at there
          obtain ⟨c, here, there⟩ := bind_eq_some_iff.mp there
          have found := (ih _ _ (c.cut bare d' (ts.map keyOf)) out).mpr
            ⟨valid, c, d, d', here, there, taken, rfl⟩
          rw [below] at found
          cases found
        | ok r =>
          obtain ⟨c', out'⟩ := r
          obtain ⟨valid, c, d, d', here, there, taken, rfl⟩ := (ih _ _ c' out').mp below
          have cut : n.cut bare d' (keyOf t :: ts.map keyOf) =
              .mk (some (if (c.cut bare d' (ts.map keyOf)).isEmpty bare
                then l.pruneNode (keyOf t) else l.setChild (c.cut bare d' (ts.map keyOf)) (keyOf t)))
                n.data := by
            simp only [Node.cut, next, here]
          constructor
          · intro same
            cases same
            exact ⟨valid, n, d, d', rfl, by rw [child, here, bind_some, there], taken,
              cut.symm⟩
          · rintro ⟨-, m, e, e', same, there', taken', rfl⟩
            cases same
            rw [child, here, bind_some, there] at there'
            cases there'
            rw [taken] at taken'
            cases taken'
            rw [cut]

end LinearNats.Sublists
