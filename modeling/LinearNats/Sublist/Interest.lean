import LinearNats.Sublist.Cache
import LinearNats.Sublist.Queries

/-! What `NumInterest` counts. Without a cached result the search stops at the first node with
interest, so the subscriptions of one filter are counted. -/
namespace LinearNats.Sublists
open Server List Option Sublist

/-- The stored items that match have one filter. -/
def OneFilter {ι : Type} (filter : ι → Bytes) (stored : List ι) (subject : Bytes) : Prop :=
  ∀ a ∈ stored, ∀ b ∈ stored, FilterMatches (filter a) subject → FilterMatches (filter b) subject →
    filter a = filter b

instance {ι : Type} (filter : ι → Bytes) (stored : List ι) (subject : Bytes) :
    Decidable (OneFilter filter stored subject) :=
  inferInstanceAs (Decidable (∀ a ∈ stored, ∀ b ∈ stored, FilterMatches (filter a) subject →
    FilterMatches (filter b) subject → filter a = filter b))

theorem oneFilter_of_none {ι : Type} {filter : ι → Bytes} {stored : List ι} {subject : Bytes}
    (none_ : ∀ i ∈ stored, ¬ FilterMatches (filter i) subject) : OneFilter filter stored subject :=
  fun a inside _ _ matched _ => absurd matched (none_ a inside)

theorem oneFilter_iff {δ ι : Type} {P : Payload δ ι} {stored : List ι}
    {filter : ι → Bytes} (home : ∀ i, P.home i = keys (filter i)) {subject : Bytes} {path : List Key}
    (covers : Covers path (tokens subject)) (taken : ∃ i ∈ stored, path = P.home i) :
    (∀ i ∈ stored, Covers (P.home i) (tokens subject) → path = P.home i) ↔
      OneFilter filter stored subject := by
  simp only [home] at taken ⊢
  constructor
  · intro all a inA b inB matchA matchB
    exact keys_injective ((all a inA matchA).symm.trans (all b inB matchB))
  · intro one i inside matched
    obtain ⟨first, there, rfl⟩ := taken
    rw [one first there i inside covers matched]

variable {s : Sublist} {stored : List Subscription} {subject : Bytes}

theorem Subscribed.numInterest_exact (subscribed : Subscribed s stored) (full : [] ∉ tokens subject)
    (uncached : ∀ r, s.cache.bind (fun cache => Table.get cache subject) = some r → r = emptyResult) :
    s.numInterest subject =
        ((plainMatches stored subject).length, (queueMatches stored subject).length) ↔
      OneFilter Subscription.subject stored subject := by
  rw [numInterest_uncached full uncached]
  cases found : s.firstInterest subject with
  | none =>
    have none_ := subscribed.firstInterest_none found
    refine iff_of_true ?_ (oneFilter_of_none none_)
    have empty (K : Subscription → Prop) [DecidablePred K] :
        stored.filter (fun s => decide (K s ∧ FilterMatches s.subject subject)) = [] := by
      refine filter_eq_nil_iff.mpr (fun sub inside => ?_)
      simp [none_ sub inside]
    rw [plainMatches, queueMatches, empty, empty]
    rfl
  | some e =>
    obtain ⟨covers, here, taken⟩ := subscribed.firstInterest_some found
    have plain := subscribed.toHolding.read_all_iff (f := NodeSubs.psubs)
      (fun _ ok => ok.mem_psubs) (fun _ ok => ok.psubs) covers here
    have queue := subscribed.toHolding.read_all_iff (f := NodeSubs.queueSubs)
      (fun _ ok => ok.mem_queueSubs) (fun _ ok => ok.nodup_queueSubs) covers here
    have counted : countSubs (0, 0) e.2 = (e.2.psubs.length, e.2.queueSubs.length) := by
      simp [countSubs, NodeSubs.queueSubs, length_flatMap]
    rw [← oneFilter_iff (P := payload) (fun _ => rfl) covers taken, elim_some, counted,
      Prod.mk.injEq]
    refine (and_congr plain queue).trans ?_
    constructor
    · rintro ⟨plain, queue⟩ sub inside matched
      by_cases kind : sub.queue = none
      · exact plain sub inside kind matched
      · exact queue sub inside kind matched
    · intro all
      exact ⟨fun sub inside _ => all sub inside, fun sub inside _ => all sub inside⟩

theorem ExactResult.lengths {qw : Subscription → Int} {r : SublistResult}
    (exactly : ExactResult qw stored subject r) (local_ : ∀ sub ∈ stored, isRemoteQSub sub = false) :
    r.psubs.length = (plainMatches stored subject).length ∧
      (r.qsubs.map List.length).sum = (queueMatches stored subject).length := by
  refine ⟨exactly.psubs.length_eq, ?_⟩
  rw [← length_flatten, exactly.qsubs.length_eq]
  have single : (queueMatches stored subject).flatMap (shadowed qw) =
      (queueMatches stored subject).flatMap (fun sub => [sub]) := by
    refine flatMap_congr (fun sub inside => ?_)
    simp [shadowed, local_ sub (mem_of_mem_filter inside)]
  rw [single, flatMap_singleton']

/-- `NumInterest` gives the numbers of what `Match` returns. -/
def Sublist.CountsMatch (s : Sublist) (orders : Orders) (qw : Subscription → Int) (subject : Bytes) :
    Prop :=
  s.numInterest subject = ((s.matchSubject orders qw subject).2.psubs.length,
    ((s.matchSubject orders qw subject).2.qsubs.map List.length).sum)

instance (s : Sublist) (orders : Orders) (qw : Subscription → Int) (subject : Bytes) :
    Decidable (s.CountsMatch orders qw subject) :=
  inferInstanceAs (Decidable (_ = _))

def Call.Local : Call → Prop
  | .insert _ sub _ => isRemoteQSub sub = false
  | _ => True

instance : (call : Call) → Decidable call.Local
  | .insert _ sub _ => inferInstanceAs (Decidable (isRemoteQSub sub = false))
  | .remove _ | .removeBatch _ | .updateRemoteQSub _ _ | .matchSubject _ _ | .hasInterest _
  | .reduceCacheCount _ => .isTrue trivial

namespace Twins
variable {t : Twins}

theorem mem_of_mem_eraseAll {sub : Subscription} {subs stored : List Subscription}
    (inside : sub ∈ subs.foldl List.erase stored) : sub ∈ stored := by
  induction subs generalizing stored with
  | nil => exact inside
  | cons first rest ih => exact mem_of_mem_erase (ih inside)

structure LocalInv (t : Twins) : Prop extends Inv t where
  local_ : ∀ sub ∈ t.stored, isRemoteQSub sub = false

theorem LocalInv.step (inv : LocalInv t) {call : Call} (distinct : Distinct t call)
    (here : call.Local) : LocalInv (t.step call) := by
  have unseen : Unseen t call := by
    cases call with
    | insert orders sub weight =>
      intro remote
      rw [here] at remote
      cases remote
    | _ => trivial
  refine ⟨inv.toInv.step call distinct unseen, ?_⟩
  intro sub inside
  cases call with
  | insert orders new weight =>
    rcases mem_cons.mp inside with rfl | old
    · exact here
    · exact inv.local_ sub old
  | remove gone => exact inv.local_ sub (mem_of_mem_erase inside)
  | removeBatch subs => exact inv.local_ sub (mem_of_mem_eraseAll inside)
  | updateRemoteQSub _ _ | matchSubject _ _ | hasInterest _ | reduceCacheCount _ =>
    exact inv.local_ sub inside

variable {orders : Orders}

theorem LocalInv.uncached_iff (inv : LocalInv t) (full : [] ∉ tokens subject) :
    t.uncached.CountsMatch orders t.qw subject ↔
      OneFilter Subscription.subject t.stored subject := by
  have missing : t.uncached.cache.bind (fun cache => Table.get cache subject) = none := by
    rw [inv.off, bind_none]
  obtain ⟨plain, queue⟩ := (inv.uncached.matchTrie orders t.qw subject).lengths inv.local_
  rw [Sublist.CountsMatch, matchSubject_missing missing full, plain, queue]
  exact inv.uncached.numInterest_exact full (by simp [missing])

theorem LocalInv.cached_iff (inv : LocalInv t) (full : [] ∉ tokens subject) :
    t.cached.CountsMatch orders t.qw subject ↔
      (t.cached.cache.bind (fun cache => Table.get cache subject)).isSome = true ∨
        OneFilter Subscription.subject t.stored subject := by
  cases found : t.cached.cache.bind (fun cache => Table.get cache subject) with
  | none =>
    obtain ⟨plain, queue⟩ := (inv.cached.matchTrie orders t.qw subject).lengths inv.local_
    rw [Sublist.CountsMatch, matchSubject_missing found full, plain, queue]
    simpa using inv.cached.numInterest_exact full (by simp [found])
  | some r =>
    refine iff_of_true ?_ (.inl rfl)
    have exactly := (inv.lookup found).2
    rw [Sublist.CountsMatch, matchSubject_cached found]
    by_cases some_ : r.psubs.length + r.qsubs.length > 0
    · rw [numInterest, hasInterestNum, found, any_some, if_pos (decide_eq_true some_), elim_some]
    -- an empty result is looked for in the trie again, where nothing matches
    obtain ⟨plain, queue⟩ := exactly.lengths inv.local_
    rw [plain, queue]
    refine (inv.cached.numInterest_exact full ?_).mpr (oneFilter_of_none ?_)
    · intro r' same
      obtain rfl : r = r' := Option.some.inj (found.symm.trans same)
      exact not_not.mp (mt ne_emptyResult.mp some_)
    · intro sub inside matched
      exact some_ (exactly.ne_empty_iff.mpr ⟨sub, inside, matched⟩)

end Twins

end LinearNats.Sublists

namespace LinearNats.Gsl
open Sublists Server

variable {T : Type} [DecidableEq T]

def GenericSublist.numInterest (s : GenericSublist T) (subject : Bytes) : Nat :=
  (s.hasInterestNum subject).2

theorem GenericSublist.numInterest_exact {s : GenericSublist T} {stored : List (Bytes × T)}
    (holds : Holds s.rootNode stored) {subject : Bytes} (full : [] ∉ tokens subject)
    (order : Table.Order (T × Bytes)) :
    s.numInterest subject = (s.matchCallbacks order subject).length ↔
      OneFilter Prod.fst stored subject := by
  have pairs : (matchedPairs order s.rootNode (tokens subject)).Perm
      (stored.filter (fun p => decide (True ∧ Covers (payload.home p) (tokens subject)))) := by
    refine (List.perm_ext_iff_of_nodup (holds.nodup_matchedPairs order _)
      (holds.nodup.filter _)).mpr (fun p => ?_)
    rw [holds.mem_matchedPairs order (tokens subject) p.1 p.2, List.mem_filter, decide_eq_true_eq,
      true_and]
    rfl
  have searched := matchLevelForAny_eq (GenericSublist.counts_none (T := T)) (tokens_ne_nil subject)
    s.rootNode none none 0
  have trie : s.numInterest subject = (matchLevelForAny (fun np subs => np + subs.length)
      List.isEmpty s.rootNode.next (tokens subject) none none 0).2 := by
    rw [numInterest, hasInterestNum, matchTokens_eq full]
    rfl
  rw [trie, searched, s.matchCallbacks_eq order full, List.length_map, pairs.length_eq]
  cases found : (s.rootNode.visits (tokens subject)).find? (stops List.isEmpty) with
  | none =>
    have none_ : ∀ p ∈ stored, ¬ FilterMatches p.1 subject := by
      intro p inside matched
      have interest := (holds.interest_iff holds.home_valid (tokens subject)).mpr ⟨p, inside, matched⟩
      have found' := (matchLevelForAny_iff (GenericSublist.counts_none (T := T))
        (tokens_ne_nil subject) s.rootNode 0).mpr interest
      rw [searched, found] at found'
      cases found'
    refine iff_of_true ?_ (oneFilter_of_none none_)
    rw [eq_comm, Option.elim_none, List.length_eq_zero_iff, List.filter_eq_nil_iff]
    intro p inside
    rw [decide_eq_true_eq, true_and]
    exact none_ p inside
  | some e =>
    obtain ⟨covers, here, taken⟩ := holds.stopped holds.home_valid (fun _ _ => rfl) found
    have all := holds.read_all_iff (f := fun subs => (order.visit subs).map Prod.swap)
      (K := fun _ => True) (fun _ => mem_visit_iff order) (fun _ => nodup_visit order) covers here
    rw [← oneFilter_iff (P := payload) (fun _ => rfl) covers taken, Option.elim_some, zero_add]
    rw [List.length_map, (order.perm e.2).length_eq] at all
    simpa only [true_imp_iff] using all

end LinearNats.Gsl

namespace LinearNats.Sublists
open Server

/-- After any calls `NumInterest` counts what `Match` returns exactly if the result is cached or
all that matches has one filter; for the generic sublist exactly in the second case. -/
theorem num_interest_counts_iff {subject : Bytes} (full : [] ∉ tokens subject) :
    (∀ calls : List Call, Along Twins.step Twins.Distinct .new calls →
      (∀ call ∈ calls, call.Local) → ∀ orders : Orders,
        let t := run Twins.step .new calls
        (t.uncached.CountsMatch orders t.qw subject ↔
          OneFilter Subscription.subject t.stored subject) ∧
        (t.cached.CountsMatch orders t.qw subject ↔
          (t.cached.cache.bind (fun cache => Table.get cache subject)).isSome = true ∨
            OneFilter Subscription.subject t.stored subject)) ∧
    ∀ (T : Type) [DecidableEq T] (ops : List (Gsl.Op T)) (order : Table.Order (T × Bytes)),
      let s := run Gsl.step .empty ops
      (s.sublist.numInterest subject = (s.sublist.matchCallbacks order subject).length ↔
        OneFilter Prod.fst s.stored subject) := by
  constructor
  · intro calls distinct here orders t
    have inv : Twins.LocalInv t := by
      have along : Along Twins.step (fun t call => Twins.Distinct t call ∧ call.Local) .new calls :=
        along_and distinct (along_of_forall Twins.step Call.Local here)
      exact along_invariant Twins.step _ Twins.LocalInv
        (fun t call inv both => inv.step both.1 both.2) ⟨Twins.Inv.new, by simp [Twins.new]⟩ calls along
    exact ⟨inv.uncached_iff full, inv.cached_iff full⟩
  · intro T _ ops order s
    exact Gsl.GenericSublist.numInterest_exact (Gsl.run_holds ops) full order

/-- Plain subscriptions to "a.*" and "a.b": one is counted for "a.b" until the result is cached. -/
theorem two_filters_counted_once :
    let star : Subscription := ⟨0, [97, 46, 42], none, false⟩
    let literal : Subscription := ⟨1, [97, 46, 98], none, false⟩
    let t := run Twins.step .new [.insert .kept star 0, .insert .kept literal 0]
    t.cached.numInterest [97, 46, 98] = (1, 0) ∧
      (t.cached.matchSubject .kept t.qw [97, 46, 98]).2.psubs.length = 2 ∧
      ((t.cached.matchSubject .kept t.qw [97, 46, 98]).1).numInterest [97, 46, 98] = (2, 0) := by
  decide +kernel

/-- Two subscriptions to one filter, and one to another that does not match. -/
theorem num_interest_counts_one_filter :
    let calls : List Call := [.insert .kept ⟨0, [97, 46, 42], none, false⟩ 0,
      .insert .kept ⟨1, [97, 46, 42], some [113], false⟩ 0, .insert .kept ⟨2, [99], none, false⟩ 0]
    let t := run Twins.step .new calls
    t.cached.CountsMatch .kept t.qw [97, 46, 98] := by
  intro calls t
  have full : [] ∉ tokens [97, 46, 98] := by decide
  exact (((num_interest_counts_iff full).1 calls (by decide +kernel) (by decide) .kept).2).mpr
    (.inr (by decide +kernel))

end LinearNats.Sublists
