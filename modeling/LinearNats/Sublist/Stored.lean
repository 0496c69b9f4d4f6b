import LinearNats.Run
import LinearNats.Sublist.Gsl
import LinearNats.Sublist.Holding

/-! The generic sublist against the set of pairs that it stores. -/
namespace LinearNats.Gsl
open Sublists Server List Table

variable {T : Type} [DecidableEq T]

def entry (n : Node (Subs T)) (path : List Key) (value : T) : Option Bytes :=
  (n.dataAt path).bind (fun subs => Table.get subs value)

def payload : Payload (Subs T) (Bytes × T) where
  has subs p := Table.get subs p.2 = some p.1
  home p := keys p.1
  bare := List.isEmpty
  new := []
  ok subs := (subs.map Prod.fst).Nodup
  new_ok := nodup_nil
  bare_iff := by
    intro subs _
    cases subs with
    | nil => simp
    | cons e rest =>
      refine iff_of_false (by simp) (fun nothing => nothing (e.2, e.1) ?_)
      rw [Table.get, if_pos rfl]
  bare_new := rfl

/-- A trie holds exactly these pairs. -/
structure Holds (n : Node (Subs T)) (stored : List (Bytes × T)) : Prop
    extends Holding payload n stored where
  valid : ∀ p ∈ stored, ValidTokens (tokens p.1)
  tidy : n.Tidy

theorem Holds.empty : Holds (T := T) (.mk (some .newLevel) []) [] :=
  ⟨Holding.empty, by simp, Node.tidy_iff.mpr ⟨by rintro l ⟨⟩; exact nodup_nil, by simp⟩⟩

variable {subs : Subs T} {n : Node (Subs T)} {stored : List (Bytes × T)} {δ : Type}

theorem puts (keys : (subs.map Prod.fst).Nodup) (filter : Bytes) (value : T) :
    payload.Puts (filter, value) subs (Table.set subs value filter) where
  ok := keys_set keys value filter
  self := by simp [payload, get_set]
  keeps := by
    rintro ⟨f, v⟩ home has
    have same : f = filter := keys_injective home
    simp only [payload, get_set] at has ⊢
    split
    · rw [same]
    · exact has
  only := by
    rintro ⟨f, v⟩ has
    simp only [payload, get_set] at has
    split at has
    next same => exact .inl (Prod.ext (Option.some.inj has).symm same.symm)
    · exact .inr has

theorem takes (keys : (subs.map Prod.fst).Nodup) (filter : Bytes) (value : T) :
    payload.Takes (filter, value) subs (Table.erase subs value) where
  ok := keys_erase keys value
  keeps := by
    rintro ⟨f, v⟩ home has differs
    have same : f = filter := keys_injective home
    have other : ¬ value = v := fun h => differs (Prod.ext same h.symm)
    simp only [payload, get_erase, if_neg other]
    exact has
  only := by
    rintro ⟨f, v⟩ has
    simp only [payload, get_erase] at has
    split at has
    · cases has
    next other => exact ⟨has, fun h => other (Prod.mk.inj h).2.symm⟩

theorem Holds.extend (holds : Holds n stored) {filter : Bytes} (valid : ValidTokens (tokens filter))
    (value : T) :
    Holds (n.extend [] (fun subs => Table.set subs value filter) (keys filter))
      (Holding.add stored (filter, value)) := by
  refine ⟨holds.toHolding.extend (i := (filter, value)) (puts (holds.ok_getD _) filter value), ?_,
    holds.tidy.extend _ _ _⟩
  intro p inside
  rcases Holding.mem_add.mp inside with rfl | inside
  · exact valid
  · exact holds.valid p inside

theorem Holds.cut (holds : Holds n stored) {filter : Bytes} {value : T}
    (there : n.dataAt (keys filter) = some subs) :
    Holds (n.cut List.isEmpty (Table.erase subs value) (keys filter))
      (stored.erase (filter, value)) := by
  refine ⟨holds.toHolding.cut (i := (filter, value)) there (takes (holds.ok _ _ there) filter value),
    ?_, holds.tidy.cut _ _⟩
  intro p inside
  exact holds.valid p (mem_of_mem_erase inside)

theorem Holds.entry_iff (holds : Holds n stored) (path : List Key) (value : T) (filter : Bytes) :
    entry n path value = some filter ↔ (filter, value) ∈ stored ∧ path = keys filter :=
  Option.bind_eq_some_iff.trans (holds.entries path (filter, value))

namespace GenericSublist

theorem rootNode_insert (s : GenericSublist T) (filter : Bytes) (value : T) :
    (s.insert filter value).1.rootNode = s.rootNode.extend []
      (if acceptable (tokens filter) false then fun subs => Table.set subs value filter else id)
      (accepted (tokens filter) false) := by
  rw [← mk_insert _ _ _ rfl, insert, insertLoop_eq]
  cases acceptable (tokens filter) false <;> rfl

variable {filter : Bytes} {s : GenericSublist T} {value : T}

theorem insert_valid (s : GenericSublist T) (valid : ValidTokens (tokens filter)) (value : T) :
    (s.insert filter value).1.rootNode =
        s.rootNode.extend [] (fun subs => Table.set subs value filter) (keys filter) ∧
      (s.insert filter value).1.count = (s.count + 1) % 2 ^ 32 ∧
      (s.insert filter value).2 = none := by
  have ok : acceptable (tokens filter) false = true := (acceptable_iff _ _).mpr ⟨valid, by simp⟩
  have root := s.rootNode_insert filter value
  rw [if_pos ok, accepted_of_acceptable ok] at root
  refine ⟨root, ?_⟩
  simp only [insert, insertLoop_eq, ok, if_true, and_self]

theorem remove_taken {subs : Subs T} (valid : ValidTokens (tokens filter))
    (there : s.rootNode.dataAt (keys filter) = some subs)
    (inside : (Table.get subs value).isSome = true) :
    (s.remove filter value).1.rootNode =
        s.rootNode.cut List.isEmpty (Table.erase subs value) (keys filter) ∧
      (s.remove filter value).1.count = (s.count + (2 ^ 32 - 1)) % 2 ^ 32 ∧
      (s.remove filter value).2 = none := by
  have ok : acceptable (tokens filter) false = true := (acceptable_iff _ _).mpr ⟨valid, by simp⟩
  have taken : removeFromNode value subs = some (Table.erase subs value, ()) := if_pos inside
  have result := (removeLoop_ok_iff (removeFromNode value) List.isEmpty (tokens filter) false
    (some s.rootNode) _ ()).mpr ⟨ok, s.rootNode, subs, _, rfl, there, taken, rfl⟩
  simp only [remove, result, and_true]
  exact mk_cut List.isEmpty (Table.erase subs value) filter rfl

theorem remove_refused
    (refused : ∀ subs, ValidTokens (tokens filter) → s.rootNode.dataAt (keys filter) = some subs →
      Table.get subs value = none) : ∃ e, s.remove filter value = (s, some e) := by
  cases result : removeLoop (removeFromNode value) List.isEmpty (tokens filter) false
      (some s.rootNode) with
  | error e => exact ⟨e, by simp only [remove, result]⟩
  | ok r =>
    obtain ⟨ok, n, d, d', same, there, taken, -⟩ := (removeLoop_ok_iff _ _ _ _ _ _ _).mp result
    cases same
    have missing := refused d ((acceptable_iff _ _).mp ok).1 there
    simp [removeFromNode, missing] at taken

theorem remove_missing {stored : List (Bytes × T)} (holds : Holds s.rootNode stored)
    (missing : (filter, value) ∉ stored) : ∃ e, s.remove filter value = (s, some e) := by
  refine remove_refused (fun subs _ there => ?_)
  by_contra inside
  obtain ⟨f, found⟩ := Option.ne_none_iff_exists'.mp inside
  have stored := (holds.entry_iff (keys filter) value f).mp
    (by rw [entry, there, Option.bind_some, found])
  rw [keys_injective stored.2] at missing
  exact missing stored.1

theorem remove_stored {stored : List (Bytes × T)} (holds : Holds s.rootNode stored)
    (inside : (filter, value) ∈ stored) :
    Holds (s.remove filter value).1.rootNode (stored.erase (filter, value)) ∧
      (s.remove filter value).1.count = (s.count + (2 ^ 32 - 1)) % 2 ^ 32 ∧
      (s.remove filter value).2 = none := by
  have found := (holds.entry_iff (keys filter) value filter).mpr ⟨inside, rfl⟩
  obtain ⟨subs, there, found⟩ := Option.bind_eq_some_iff.mp found
  obtain ⟨root, rest⟩ := remove_taken (holds.valid _ inside) there (by rw [found]; rfl)
  exact ⟨root ▸ holds.cut there, rest⟩

end GenericSublist

/-! ### What the queries read -/

section
variable {n : Node (Subs T)} {stored : List (Bytes × T)}

theorem Holds.home_valid (holds : Holds n stored) :
    ∀ p ∈ stored, ∃ ts, ValidTokens ts ∧ payload.home p = ts.map keyOf :=
  fun p inside => ⟨tokens p.1, holds.valid p inside, rfl⟩

def matchedPairs (order : Table.Order (T × Bytes)) (n : Node (Subs T)) (toks : List Token) :
    List (Bytes × T) :=
  (n.visits toks).flatMap (fun e => (order.visit e.2).map Prod.swap)

theorem mem_visit_iff (order : Table.Order (T × Bytes)) {subs : Subs T}
    (keys : (subs.map Prod.fst).Nodup) (p : Bytes × T) :
    p ∈ (order.visit subs).map Prod.swap ↔ payload.has subs p ∧ True := by
  rw [and_true, mem_map]
  constructor
  · rintro ⟨e, inside, rfl⟩
    exact get_of_mem keys ((order.perm subs).mem_iff.mp inside)
  · intro found
    exact ⟨(p.2, p.1), (order.perm subs).mem_iff.mpr (mem_of_get found), rfl⟩

omit [DecidableEq T] in
theorem nodup_visit (order : Table.Order (T × Bytes)) {subs : Subs T}
    (keys : (subs.map Prod.fst).Nodup) : ((order.visit subs).map Prod.swap).Nodup := by
  have entries : subs.Nodup := List.Nodup.of_map _ keys
  exact ((order.perm subs).nodup_iff.mpr entries).map Prod.swap_injective

theorem Holds.mem_matchedPairs (holds : Holds n stored) (order : Table.Order (T × Bytes))
    (toks : List Token) (filter : Bytes) (value : T) :
    (filter, value) ∈ matchedPairs order n toks ↔
      (filter, value) ∈ stored ∧ Covers (keys filter) toks := by
  have read := holds.mem_visited (fun _ => mem_visit_iff order) toks (filter, value)
  rwa [true_and] at read

theorem Holds.nodup_matchedPairs (holds : Holds n stored) (order : Table.Order (T × Bytes))
    (toks : List Token) : (matchedPairs order n toks).Nodup := by
  exact holds.nodup_visited (fun _ => mem_visit_iff order) (fun _ => nodup_visit order) toks

end

/-! ### The single filter -/

def keyed {δ : Type} (l : Level δ) : List (Key × Node δ) :=
  l.pwc.toList.map (fun n => (.pwc, n)) ++ l.fwc.toList.map (fun n => (.fwc, n)) ++
    l.nodes.map (fun e => (.lit e.1, e.2))

theorem branches_eq (l : Level δ) : branches l = (keyed l).map Prod.snd := by
  simp only [branches, keyed, map_append, map_map, Function.comp_def, map_id']

theorem mem_keyed {l : Level δ} (nodup : (l.nodes.map Prod.fst).Nodup) {k : Key} {n : Node δ} :
    (k, n) ∈ keyed l ↔ l.child k = some n := by
  simp only [keyed, mem_append, mem_map, Option.mem_toList, Prod.mk.injEq, Prod.exists]
  cases k with
  | lit t =>
    simp only [Level.child, reduceCtorEq, false_and, and_false, exists_false, false_or,
      Key.lit.injEq]
    constructor
    · rintro ⟨t, m, member, rfl, rfl⟩
      exact get_of_mem nodup member
    · intro found
      exact ⟨t, n, mem_of_get found, rfl, rfl⟩
  | pwc => simp [Level.child]
  | fwc => simp [Level.child]

theorem nodup_keyed {l : Level δ} (nodup : (l.nodes.map Prod.fst).Nodup) :
    ((keyed l).map Prod.fst).Nodup := by
  have literals : (l.nodes.map (fun e => Key.lit e.1)).Nodup := by
    have injective : Function.Injective Key.lit := fun s t same => Key.lit.inj same
    have keys := nodup.map injective
    rwa [map_map] at keys
  simp only [keyed, map_append, map_map, Function.comp_def]
  cases l.pwc <;> cases l.fwc <;> simp [literals]

section
variable (order : Table.Order (T × Bytes)) (f : Bytes)

/-- Every filter below a node is `f`, and there is one. -/
def OnlyFilter (n : Node (Subs T)) : Prop :=
  (∃ q v, q ≠ [] ∧ entry n q v = some f) ∧ ∀ q v f', q ≠ [] → entry n q v = some f' → f' = f

/-- A node of a trie whose entries carry the filters of their paths. -/
structure Owned (pre : List Key) (n : Node (Subs T)) : Prop where
  pruned : n.Pruned List.isEmpty
  tidy : n.Tidy
  once : ∀ path subs, n.dataAt path = some subs → (subs.map Prod.fst).Nodup
  own : ∀ q v f, q ≠ [] → entry n q v = some f → keys f = pre ++ q ∧ f ≠ []

variable {n : Node (Subs T)}

theorem entry_cons {c : Node (Subs T)} {k : Key} (here : n.child k = some c) (q : List Key)
    (v : T) : entry n (k :: q) v = entry c q v := by
  rw [entry, entry, Node.dataAt_cons, here, Option.bind_some]

theorem entry_child {q : List Key} {v : T} {f : Bytes} (nonempty : q ≠ [])
    (there : entry n q v = some f) :
    ∃ k ks c, q = k :: ks ∧ n.child k = some c ∧ entry c ks v = some f := by
  cases q with
  | nil => exact absurd rfl nonempty
  | cons k ks =>
    obtain ⟨subs, here, found⟩ := Option.bind_eq_some_iff.mp there
    rw [Node.dataAt_cons] at here
    obtain ⟨c, child, here⟩ := Option.bind_eq_some_iff.mp here
    exact ⟨k, ks, c, rfl, child, by rw [entry, here, Option.bind_some, found]⟩

section
variable {pre : List Key} {n c : Node (Subs T)} {k : Key}

theorem Owned.child (owned : Owned pre n) (here : n.child k = some c) : Owned (pre ++ [k]) c := by
  refine ⟨owned.pruned.child here, (Node.tidy_iff.mp owned.tidy).2 k c here, ?_, ?_⟩
  · intro path subs there
    exact owned.once (k :: path) subs (by rw [Node.dataAt_cons, here, Option.bind_some, there])
  · intro q v f nonempty there
    rw [append_assoc, singleton_append]
    exact owned.own (k :: q) v f (cons_ne_nil k q) (by rw [entry_cons here, there])

theorem Owned.exists_entry (owned : Owned pre n) (here : n.child k = some c) :
    ∃ q v f, entry n (k :: q) v = some f := by
  obtain ⟨q, subs, there⟩ := owned.pruned.core_child here
  obtain ⟨data, something⟩ := Node.core_eq_some.mp there
  cases subs with
  | nil => cases something
  | cons e rest =>
    exact ⟨q, e.1, e.2, by
      rw [entry_cons here, entry, data, Option.bind_some, Table.get, if_pos rfl]⟩

theorem Owned.not_onlyFilter (owned : Owned pre n) {q q' : List Key} {v v' : T} {g g' : Bytes}
    (nonempty : q ≠ []) (nonempty' : q' ≠ []) (left : entry n q v = some g)
    (right : entry n q' v' = some g') (differ : q ≠ q') : ¬ OnlyFilter f n := by
  rintro ⟨-, every⟩
  have path := (owned.own q v g nonempty left).1
  have path' := (owned.own q' v' g' nonempty' right).1
  rw [every q v g nonempty left] at path
  rw [every q' v' g' nonempty' right] at path'
  exact differ (append_cancel_left (path.symm.trans path'))

/-- The only child: its own entries, if it has any, are all there is unless it has children. -/
theorem Owned.onlyFilter_child (owned : Owned pre n) (here : n.child k = some c)
    (single : ∀ k', k' ≠ k → n.child k' = none) {v : T} {g : Bytes}
    (inside : (v, g) ∈ c.data) :
    OnlyFilter f n ↔ f = g ∧ ∀ k, c.child k = none := by
  have entry_g : entry n [k] v = some g := by
    have data : n.dataAt [k] = some c.data := by rw [Node.dataAt_cons, here]; rfl
    rw [entry, data, Option.bind_some]
    exact get_of_mem (owned.once [k] c.data data) inside
  have path := (owned.own [k] v g (by simp) entry_g).1
  constructor
  · intro only
    refine ⟨(only.2 [k] v g (by simp) entry_g).symm, ?_⟩
    intro k'
    by_contra more
    obtain ⟨d, deeper⟩ := Option.ne_none_iff_exists'.mp more
    obtain ⟨q, v', g', there⟩ := (owned.child here).exists_entry deeper
    rw [← entry_cons here] at there
    exact owned.not_onlyFilter f (by simp) (by simp) entry_g there (by simp) only
  · rintro ⟨rfl, alone⟩
    refine ⟨⟨[k], v, by simp, entry_g⟩, ?_⟩
    intro q v' f' nonempty there
    obtain ⟨k', ks, d, rfl, child, below⟩ := entry_child nonempty there
    have same : k' = k := by
      by_contra other
      rw [single k' other] at child
      cases child
    subst same
    rw [here] at child
    cases child
    cases ks with
    | nil => exact keys_injective ((owned.own [k'] v' f' nonempty there).1.trans path.symm)
    | cons k'' ks =>
      obtain ⟨_, _, e, same, child, -⟩ := entry_child (cons_ne_nil k'' ks) below
      rw [alone] at child
      cases child

end

theorem onlyFilter_below {c : Node (Subs T)} {k : Key} (here : n.child k = some c)
    (single : ∀ k', k' ≠ k → n.child k' = none) (empty : c.data = []) :
    OnlyFilter f n ↔ OnlyFilter f c := by
  have up {q : List Key} {v : T} {g : Bytes} (there : entry c q v = some g) :
      entry n (k :: q) v = some g := by rw [entry_cons here, there]
  have down {q : List Key} {v : T} {g : Bytes} (nonempty : q ≠ []) (there : entry n q v = some g) :
      ∃ ks, ks ≠ [] ∧ entry c ks v = some g := by
    obtain ⟨k', ks, d, rfl, child, below⟩ := entry_child nonempty there
    have same : k' = k := by
      by_contra other
      rw [single k' other] at child
      cases child
    subst same
    rw [here] at child
    cases child
    refine ⟨ks, ?_, below⟩
    rintro rfl
    rw [entry, Node.dataAt_nil, empty, Option.bind_some, get_nil] at below
    cases below
  constructor
  · rintro ⟨⟨q, v, nonempty, there⟩, every⟩
    obtain ⟨ks, deeper, below⟩ := down nonempty there
    exact ⟨⟨ks, v, deeper, below⟩, fun q v g _ there => every (k :: q) v g (by simp) (up there)⟩
  · rintro ⟨⟨q, v, nonempty, there⟩, every⟩
    refine ⟨⟨k :: q, v, by simp, up there⟩, ?_⟩
    intro q v g nonempty there
    obtain ⟨ks, deeper, below⟩ := down nonempty there
    exact every ks v g deeper below

theorem Owned.not_onlyFilter_of_branches {pre : List Key} (owned : Owned pre n) {l : Level (Subs T)}
    (next : n.next = some l) (many : (keyed l).length ≠ 1) : ¬ OnlyFilter f n := by
  have nodup := (Node.tidy_iff.mp owned.tidy).1 l next
  have child (e : Key × Node (Subs T)) (member : e ∈ keyed l) : n.child e.1 = some e.2 := by
    rw [Node.child, next]
    exact (mem_keyed nodup).mp member
  rcases shape : keyed l with _ | ⟨e, _ | ⟨e', rest⟩⟩
  · rintro ⟨⟨q, v, nonempty, there⟩, -⟩
    obtain ⟨k, ks, c, -, here, -⟩ := entry_child nonempty there
    rw [Node.child, next] at here
    have member := (mem_keyed nodup).mpr here
    rw [shape] at member
    cases member
  · rw [shape] at many
    exact absurd rfl many
  · have keys := nodup_keyed nodup
    rw [shape, map_cons, map_cons, nodup_cons] at keys
    have differ : e.1 ≠ e'.1 := fun same => keys.1 (by simp [same])
    obtain ⟨q, v, g, left⟩ := owned.exists_entry (child e (by simp [shape]))
    obtain ⟨q', v', g', right⟩ := owned.exists_entry (child e' (by simp [shape]))
    exact owned.not_onlyFilter f (by simp) (by simp) left right
      (fun same => differ (List.cons.inj same).1)

theorem singleFilter_iff (l : Level (Subs T)) (pre : List Key) (n : Node (Subs T))
    (next : n.next = some l) (owned : Owned pre n) :
    singleFilter order l [] = (f, true) ↔ OnlyFilter f n := by
  have child := Node.child_of_next next
  have nodup := (Node.tidy_iff.mp owned.tidy).1 l next
  rw [singleFilter]
  split
  next nodes =>
    refine iff_of_false (by simp) (owned.not_onlyFilter_of_branches f next ?_)
    simp only [keyed, length_append, length_map]
    omega
  split
  next c single =>
    rw [branches_eq] at single
    obtain ⟨⟨k, d⟩, shape, same⟩ := map_eq_singleton_iff.mp single
    cases same
    have here : n.child k = some d := by
      rw [child, ← mem_keyed nodup, shape]
      exact mem_singleton_self _
    have others (k' : Key) (other : k' ≠ k) : n.child k' = none := by
      by_contra more
      obtain ⟨e, there⟩ := Option.ne_none_iff_exists'.mp more
      rw [child, ← mem_keyed nodup, shape] at there
      cases mem_singleton.mp there
      exact other rfl
    have entries := order.perm d.data
    cases first : (order.visit d.data).head? with
    | none =>
      have empty : d.data = [] := by
        rw [head?_eq_none_iff.mp first] at entries
        exact nil_perm.mp entries
      simp only [Option.map_none, Option.getD_none, ne_eq, not_true_eq_false, if_false]
      rw [onlyFilter_below f here others empty]
      split
      · rename_i last
        refine iff_of_false (by simp) ?_
        rintro ⟨⟨q, v, nonempty, there⟩, -⟩
        obtain ⟨k', ks, e, -, deeper, -⟩ := entry_child nonempty there
        rw [Node.child, last] at deeper
        cases deeper
      · rename_i l' below
        have : sizeOf l' < sizeOf l :=
          sizeOf_branch (by rw [branches_eq, shape]; exact mem_singleton_self d) below
        exact singleFilter_iff l' (pre ++ [k]) d below (owned.child here)
    | some e =>
      have inside : e ∈ d.data := entries.mem_iff.mp (mem_of_head? first)
      have only := owned.onlyFilter_child f here others (v := e.1) (g := e.2) inside
      have named : e.2 ≠ [] := by
        have data : n.dataAt [k] = some d.data := by rw [Node.dataAt_cons, here]; rfl
        refine (owned.own [k] e.1 e.2 (by simp) ?_).2
        rw [entry, data, Option.bind_some]
        exact get_of_mem (owned.once [k] d.data data) inside
      simp only [Option.map_some, Option.getD_some, ne_eq, named, not_false_eq_true, if_true]
      rw [only]
      split
      · rename_i last
        simp [Node.child, last, eq_comm]
      rename_i l' below
      have alone : (∀ k, d.child k = none) ↔ l'.numNodes = 0 := by
        simp only [Level.numNodes_eq_zero, Node.child, below, Option.bind_some]
      rw [alone]
      split
      · rename_i more
        refine iff_of_false (by simp) (fun both => ?_)
        omega
      · rename_i none_
        have zero : l'.numNodes = 0 := by omega
        simp [zero, eq_comm]
  next several =>
    refine iff_of_false (by simp) (owned.not_onlyFilter_of_branches f next ?_)
    intro one
    obtain ⟨e, shape⟩ := length_eq_one_iff.mp one
    exact several e.2 (by rw [branches_eq, shape]; rfl)
termination_by sizeOf l

end

end LinearNats.Gsl
