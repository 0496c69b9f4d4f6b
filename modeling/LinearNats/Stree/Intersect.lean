import LinearNats.Stree.Leaves
import LinearNats.Sublist.Queries

/-! The subjects of a tree in which a generic sublist has interest. -/
namespace LinearNats.Stree
open List

variable {α σ T : Type} [DecidableEq T]

/-- The tree gives fragments of tokens; only the whole tokens before a separator are looked up. -/
def hasInterestForTokens (sl : Gsl.GenericSublist T) (subj : Bytes) (since : Nat) : Bool :=
  (List.range' since (subj.length - since)).all (fun i =>
    if subj[i]? = some tsep then sl.startingIn (subj.take i) else true)

namespace Node

def path : Node α → Bytes
  | .leaf _ suffix => suffix
  | .inner pre _ => pre

def intersectGSL (sl : Gsl.GenericSublist T) (cb : σ → Bytes → α → σ) : Node α → Bytes → σ → σ
  | .leaf value suffix, pre, s =>
    let subj := pre ++ suffix
    if sl.hasInterest subj then cb s subj value else s
  | .inner own kids, pre, s =>
    let pre := pre ++ own
    kids.children.attach.foldl (fun s cn =>
      if hasInterestForTokens sl (pre ++ cn.1.path) pre.length then intersectGSL sl cb cn.1 pre s
      else s) s
termination_by n => sizeOf n
decreasing_by
  have small := Kids.sizeOf_children cn.2
  simp only [Node.inner.sizeOf_spec]
  omega

end Node

def SubjectTree.intersectGSL (t : SubjectTree α) (sl : Gsl.GenericSublist T)
    (cb : σ → Bytes → α → σ) (s : σ) : σ :=
  t.root.elim s (fun n => n.intersectGSL sl cb [] s)

/-! Interest in a subject is interest in each of its first tokens. -/

theorem hasInterestStartingIn_of_covers {δ : Type} {path : List Sublists.Key}
    {front back : List Sublists.Token} (more : back ≠ []) (covers : Sublists.Covers path (front ++ back))
    {n : Sublists.Node δ} {d : δ} (there : n.dataAt path = some d) :
    Gsl.hasInterestStartingIn n.next front = true := by
  induction front generalizing path n with
  | nil =>
    cases next : n.next with
    | some l => rfl
    | none =>
      cases path with
      | nil =>
        obtain ⟨t, ts, rfl⟩ := exists_cons_of_ne_nil more
        exact absurd covers (Sublists.nil_covers t ts)
      | cons k ks =>
        rw [Sublists.Node.dataAt_cons, Sublists.Node.child, next] at there
        cases there
  | cons t ts ih =>
    cases path with
    | nil => exact absurd covers (Sublists.nil_covers t (ts ++ back))
    | cons k ks =>
      rw [Sublists.Node.dataAt_cons] at there
      obtain ⟨c, child, deeper⟩ := Option.bind_eq_some_iff.mp there
      obtain ⟨l, next, child⟩ := Option.bind_eq_some_iff.mp child
      rw [next, Gsl.hasInterestStartingIn]
      cases k with
      | fwc =>
        have full : l.fwc = some c := child
        simp [full]
      | pwc =>
        have wild : l.pwc = some c := child
        have below := ih ((Sublists.pwc_covers _ _ _).mp covers) deeper
        simp [wild, below]
      | lit a =>
        obtain ⟨rfl, tail⟩ := (Sublists.lit_covers _ _ _ _).mp covers
        have literal : Table.get l.nodes a = some c := child
        have below := ih tail deeper
        simp [literal, below]

/-- The test never fails on the way to a subject with interest. -/
theorem hasInterestForTokens_of_prefix {sl : Gsl.GenericSublist T}
    {stored : List (Server.Bytes × T)} (holds : Gsl.Holds sl.rootNode stored) {subject subj : Bytes}
    (full : [] ∉ Sublists.tokens subject) (interest : sl.hasInterest subject = true)
    (along : subj <+: subject) (since : Nat) : hasInterestForTokens sl subj since = true := by
  obtain ⟨rest, rfl⟩ := along
  obtain ⟨filter, value, inside, covers⟩ := (Gsl.GenericSublist.hasInterest_iff holds full).mp interest
  obtain ⟨subs, there, -⟩ := holds.dataAt_of_mem inside
  refine all_eq_true.mpr ?_
  intro i _
  split
  next sep =>
    -- the subject goes on after this separator
    have cut : subj ++ rest = subj.take i ++ tsep :: (subj.drop (i + 1) ++ rest) := by
      obtain ⟨bound, same⟩ := List.getElem?_eq_some_iff.mp sep
      conv_lhs => rw [← take_append_drop i subj, drop_eq_getElem_cons bound, same]
      simp
    have split : Sublists.tokens (subj ++ rest) =
        Sublists.tokens (subj.take i) ++ Sublists.tokens (subj.drop (i + 1) ++ rest) := by
      rw [cut]
      exact Sublists.tokens_append _ _
    rw [Sublists.FilterMatches, split] at covers
    exact hasInterestStartingIn_of_covers (Sublists.tokens_ne_nil _) covers there
  · rfl

namespace Node

theorem path_prefix_leaves {n : Node α} {p : Bytes × α} (member : p ∈ n.leaves) :
    n.path <+: p.1 := by
  cases n with
  | leaf value suffix =>
    rw [leaves, mem_singleton] at member
    rw [member]
    exact prefix_rfl
  | inner pre kids =>
    rw [leaves_inner, mem_flatMap] at member
    obtain ⟨x, -, member⟩ := member
    obtain ⟨q, -, rfl⟩ := mem_map.mp member
    exact prefix_append pre q.1

/-- The leaves in which the sublist has interest, with `pre` in front of their paths. -/
def interested (sl : Gsl.GenericSublist T) (n : Node α) (pre : Bytes) : List (Bytes × α) :=
  (n.leaves.map (under pre)).filter (fun p => sl.hasInterest p.1)

theorem intersectGSL_spec {sl : Gsl.GenericSublist T} {stored : List (Server.Bytes × T)}
    (holds : Gsl.Holds sl.rootNode stored) (cb : σ → Bytes → α → σ) (n : Node α) (pre : Bytes)
    (full : ∀ p ∈ n.leaves, [] ∉ Sublists.tokens (pre ++ p.1)) (s : σ) :
    n.intersectGSL sl cb pre s = (n.interested sl pre).foldl (fun s p => cb s p.1 p.2) s := by
  match n, full with
  | .leaf value suffix, _ =>
    rw [intersectGSL, interested, leaves]
    by_cases interest : sl.hasInterest (pre ++ suffix) = true
    · simp [under, interest]
    · simp [under, interest]
  | .inner own kids, full =>
    have each (x : Node α) (member : x ∈ kids.children) (s : σ) :
        (if hasInterestForTokens sl (pre ++ own ++ x.path) (pre ++ own).length
          then x.intersectGSL sl cb (pre ++ own) s else s) =
          (x.interested sl (pre ++ own)).foldl (fun s p => cb s p.1 p.2) s := by
      have small := Kids.sizeOf_children member
      have filled (p : Bytes × α) (inside : p ∈ x.leaves) :
          [] ∉ Sublists.tokens (pre ++ own ++ p.1) := by
        have leaf : under own p ∈ (Node.inner own kids).leaves := by
          rw [leaves_inner, mem_flatMap]
          exact ⟨x, member, mem_map_of_mem inside⟩
        have whole := full (under own p) leaf
        rwa [under, ← append_assoc] at whole
      split
      · exact intersectGSL_spec holds cb x (pre ++ own) filled s
      next pass =>
      -- a leaf with interest below would have let the test pass
      have none : x.interested sl (pre ++ own) = [] := by
        refine filter_eq_nil_iff.mpr ?_
        intro q inside interest
        obtain ⟨p, member, rfl⟩ := mem_map.mp inside
        apply pass
        refine hasInterestForTokens_of_prefix holds (filled p member) interest ?_ _
        exact (prefix_append_right_inj _).mpr (path_prefix_leaves member)
      rw [none, foldl_nil]
    have split : (Node.inner own kids).interested sl pre =
        kids.children.attach.flatMap (fun x => x.1.interested sl (pre ++ own)) := by
      rw [flatMap_attach kids.children (fun x => x.interested sl (pre ++ own)), interested,
        leaves_inner, map_flatMap, filter_flatMap]
      congr 1
      funext x
      rw [interested, map_map]
      congr 2
      funext p
      exact under_under pre own p
    rw [intersectGSL, split, foldl_flatMap]
    congr 1
    funext s x
    exact each x.1 x.2 s
termination_by sizeOf n
decreasing_by
  simp only [Node.inner.sizeOf_spec]
  omega

end Node

namespace SubjectTree

/-- `IntersectGSL` calls back once for each stored subject in which the sublist has interest, with
its value, and for no other; no test on the way to such a subject fails. -/
theorem intersectGSL_exact (changes : List (Change α)) (ops : List (Gsl.Op T)) :
    ∃ t, (empty : SubjectTree α).run (changes.map Change.op) =
        .ok (t, (specRun [] (changes.map Change.op)).2) ∧
      ∃ found : List (Bytes × α), (found.map Prod.fst).Nodup ∧
        (∀ s v, (s, v) ∈ found ↔
          Table.get (specRun [] (changes.map Change.op)).1 s = some v ∧
            (LinearNats.run Gsl.step Gsl.State.empty ops).sublist.hasInterest s = true) ∧
        (∀ {σ : Type} (cb : σ → Bytes → α → σ) (s : σ),
          t.intersectGSL (LinearNats.run Gsl.step Gsl.State.empty ops).sublist cb s =
            found.foldl (fun s p => cb s p.1 p.2) s) ∧
        (∀ s v, (s, v) ∈ found → ∀ subj since, subj <+: s →
          hasInterestForTokens (LinearNats.run Gsl.step Gsl.State.empty ops).sublist subj since =
            true) := by
  obtain ⟨t, result, rep⟩ := Represents.empty.run (changes.map Change.op)
  have holds := Gsl.run_holds ops
  generalize LinearNats.run Gsl.step (Gsl.State.empty : Gsl.State T) ops = gsl at holds ⊢
  have nothing : TokensFilled ([] : List (Bytes × α)) := by
    intro s v found
    cases found
  have filled := nothing.run changes
  generalize specRun [] (changes.map Change.op) = spec at result rep filled ⊢
  have full {s : Bytes} {v : α} (stored : Table.get spec.1 s = some v) : [] ∉ Sublists.tokens s :=
    fun inside => filled s v stored [] inside rfl
  refine ⟨t, result, ?_⟩
  cases root : t.root with
  | none =>
    refine ⟨[], nodup_nil, ?_, ?_, by simp⟩
    · intro s v
      simp [rep.get_none root s]
    · intro σ cb s
      simp only [intersectGSL, root, Option.elim_none, foldl_nil]
  | some n =>
    have valid := rep.valid n root
    have leaf (s : Bytes) (v : α) : (s, v) ∈ n.leaves ↔ Table.get spec.1 s = some v :=
      (Node.mem_leaves valid).trans (rep.root_has root s v)
    have plain : n.leaves.map (under []) = n.leaves := map_id n.leaves
    have exactly (s : Bytes) (v : α) : (s, v) ∈ n.interested gsl.sublist [] ↔
        Table.get spec.1 s = some v ∧ gsl.sublist.hasInterest s = true := by
      rw [Node.interested, plain, mem_filter, leaf]
    refine ⟨n.interested gsl.sublist [], ?_, exactly, ?_, ?_⟩
    · rw [Node.interested, plain]
      exact (Node.leaves_keys valid).sublist (filter_sublist.map Prod.fst)
    · intro σ cb s
      simp only [intersectGSL, root, Option.elim_some]
      exact n.intersectGSL_spec holds cb [] (fun p inside => full ((leaf p.1 p.2).mp inside)) s
    · intro s v inside subj since along
      obtain ⟨stored, interest⟩ := (exactly s v).mp inside
      exact hasInterestForTokens_of_prefix holds (full stored) interest along since

end SubjectTree

end LinearNats.Stree
