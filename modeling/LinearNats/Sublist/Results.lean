import LinearNats.Run
import LinearNats.Sublist.Subscribed

/-! What `Match` returns without a cache: every stored subscription that matches, once, or as often
as its weight says, with one slot for each queue name. -/
namespace LinearNats.Sublists
open Server List Option Sublist

/-! ### Slots -/

/-- Every slot has subscriptions of one queue only, and no two slots share a queue. -/
structure Grouped (slots : List (List Subscription)) : Prop where
  queued : ∀ slot ∈ slots, ∀ s ∈ slot, s.queue ≠ none
  same : ∀ slot ∈ slots, ∀ a ∈ slot, ∀ b ∈ slot, a.queue = b.queue
  apart : slots.Pairwise (fun x y => ∀ a ∈ x, ∀ b ∈ y, a.queue ≠ b.queue)

theorem Grouped.nil : Grouped [] := ⟨by simp, by simp, List.Pairwise.nil⟩

def placed (q : Bytes) (subs : List Subscription) (slots : List (List Subscription)) :
    List (List Subscription) :=
  match findQSlot (some q) slots with
  | some i => slots.modify i (· ++ subs)
  | none => slots ++ [subs]

section
variable {q : Bytes} {subs : List Subscription} {slots : List (List Subscription)}

theorem placed_cases (q : Bytes) (subs : List Subscription) (grouped : Grouped slots) :
    (∃ front slot back, slots = front ++ slot :: back ∧
      placed q subs slots = front ++ (slot ++ subs) :: back ∧ slot ≠ [] ∧
        ∀ s ∈ slot, s.queue = some q) ∨
    (placed q subs slots = slots ++ [subs] ∧ ∀ slot ∈ slots, ∀ s ∈ slot, s.queue ≠ some q) := by
  cases found : findQSlot (some q) slots with
  | some i =>
    obtain ⟨bound, head, -⟩ := findIdx?_eq_some_iff_getElem.mp found
    obtain ⟨first, isHead, named⟩ := (any_eq_true _ _).mp head
    have member := mem_of_head? isHead
    refine .inl ⟨slots.take i, slots[i], slots.drop (i + 1), ?_, ?_, ne_nil_of_mem member, ?_⟩
    · rw [getElem_cons_drop bound, take_append_drop]
    · simp only [placed, found]
      exact modify_eq_take_cons_drop bound
    · intro s inside
      rw [grouped.same _ (getElem_mem bound) s inside first member]
      simpa using named
  | none =>
    refine .inr ⟨by simp only [placed, found], ?_⟩
    intro slot member s inside named
    have missing := findIdx?_eq_none_iff.mp found slot member
    obtain ⟨first, rest, rfl⟩ := exists_cons_of_ne_nil (ne_nil_of_mem inside)
    have same := grouped.same _ member first mem_cons_self s inside
    simp [same, named] at missing

theorem flatten_placed (grouped : Grouped slots) :
    (placed q subs slots).flatten.Perm (slots.flatten ++ subs) := by
  rcases placed_cases q subs grouped with
    ⟨front, slot, back, rfl, after, -, -⟩ | ⟨after, -⟩
  · rw [after]
    simp only [flatten_append, flatten_cons, append_assoc]
    refine (List.Perm.append_left _ (List.Perm.append_left _ ?_))
    exact perm_append_comm
  · rw [after]
    simp

theorem placed_ne_nil (q : Bytes) (subs : List Subscription) (slots : List (List Subscription)) :
    placed q subs slots ≠ [] := by
  unfold placed
  split
  next i found =>
    obtain ⟨bound, -⟩ := findIdx?_eq_some_iff_getElem.mp found
    intro empty
    have length := congrArg List.length empty
    rw [length_modify, length_nil] at length
    omega
  · simp

theorem Grouped.placed (grouped : Grouped slots) (named : ∀ s ∈ subs, s.queue = some q) :
    Grouped (placed q subs slots) := by
  rcases placed_cases q subs grouped with
    ⟨front, slot, back, rfl, after, filled, own⟩ | ⟨after, others⟩
  · have all : ∀ s ∈ slot ++ subs, s.queue = some q := forall_mem_append.mpr ⟨own, named⟩
    obtain ⟨queued, slots⟩ := forall_mem_append.mp grouped.queued
    obtain ⟨same, slots'⟩ := forall_mem_append.mp grouped.same
    obtain ⟨s, inside⟩ := exists_mem_of_ne_nil _ filled
    obtain ⟨first, second, between⟩ := pairwise_append.mp grouped.apart
    obtain ⟨ahead, second⟩ := pairwise_cons.mp second
    rw [after]
    refine ⟨forall_mem_append.mpr ⟨queued, forall_mem_cons.mpr ⟨?_, (forall_mem_cons.mp slots).2⟩⟩,
      forall_mem_append.mpr ⟨same, forall_mem_cons.mpr ⟨?_, (forall_mem_cons.mp slots').2⟩⟩, ?_⟩
    · intro a inA
      simp [all a inA]
    · intro a inA b inB
      rw [all a inA, all b inB]
    · refine pairwise_append.mpr ⟨first, pairwise_cons.mpr ⟨?_, second⟩, ?_⟩
      · intro y member a inA b inB
        rw [all a inA, ← own s inside]
        exact ahead y member s inside b inB
      · intro x inFront y member a inA b inB
        rcases mem_cons.mp member with rfl | member
        · rw [all b inB, ← own s inside]
          exact between x inFront slot mem_cons_self a inA s inside
        · exact between x inFront y (mem_cons_of_mem _ member) a inA b inB
  · rw [after]
    refine ⟨forall_mem_append.mpr ⟨grouped.queued, forall_mem_singleton.mpr ?_⟩,
      forall_mem_append.mpr ⟨grouped.same, forall_mem_singleton.mpr ?_⟩,
      pairwise_append.mpr ⟨grouped.apart, pairwise_singleton _ _, ?_⟩⟩
    · intro a inA
      simp [named a inA]
    · intro a inA b inB
      rw [named a inA, named b inB]
    · intro x member
      refine forall_mem_singleton.mpr (fun a inA b inB => ?_)
      rw [named b inB]
      exact others x member a inA

end

/-! ### The results of a node and of a match -/

section
variable (orders : Orders) (qw : Subscription → Int)

theorem queue_of_mem_shadowed {sub s : Subscription} (inside : s ∈ shadowed qw sub) : s = sub := by
  unfold shadowed at inside
  split at inside
  · exact (mem_replicate.mp inside).2
  · exact mem_singleton.mp inside

theorem addQueueToResults_eq {q : Bytes × List Subscription} (filled : q.2 ≠ [])
    (slots : List (List Subscription)) :
    addQueueToResults orders qw slots q =
      placed q.1 ((orders.members.visit q.2).flatMap (shadowed qw)) slots := by
  have nonempty : ¬ q.2.isEmpty = true := fun h => filled (isEmpty_iff.mp h)
  rw [addQueueToResults, if_neg nonempty]
  rfl

theorem addQueues_spec {queues : List (Bytes × List Subscription)}
    (members : ∀ e ∈ queues, NodeSubs.Members e.1 e.2) {slots : List (List Subscription)}
    (grouped : Grouped slots) :
    Grouped (queues.foldl (addQueueToResults orders qw) slots) ∧
      (queues.foldl (addQueueToResults orders qw) slots).flatten.Perm
        (slots.flatten ++ (queues.flatMap Prod.snd).flatMap (shadowed qw)) ∧
      (queues.foldl (addQueueToResults orders qw) slots = [] ↔ slots = [] ∧ queues = []) := by
  induction queues generalizing slots with
  | nil => simp [grouped]
  | cons e rest ih =>
    have own := members e mem_cons_self
    have named (s : Subscription)
        (inside : s ∈ (orders.members.visit e.2).flatMap (shadowed qw)) : s.queue = some e.1 := by
      obtain ⟨sub, member, shadow⟩ := mem_flatMap.mp inside
      rw [queue_of_mem_shadowed qw shadow]
      exact own.queued sub ((orders.members.perm e.2).mem_iff.mp member)
    obtain ⟨after, perm, empty⟩ := ih (fun e' member => members e' (mem_cons_of_mem e member))
      (grouped.placed named)
    rw [foldl_cons, addQueueToResults_eq orders qw own.filled]
    refine ⟨after, ?_, ?_⟩
    · refine perm.trans ?_
      rw [flatMap_cons, flatMap_append, ← append_assoc]
      refine List.Perm.append_right _ ((flatten_placed grouped).trans ?_)
      exact List.Perm.append_left _ ((orders.members.perm e.2).flatMap_right _)
    · rw [empty]
      simp [placed_ne_nil]

def NodeSubs.queueSubs (n : NodeSubs) : List Subscription := n.qsubs.flatMap Prod.snd

variable {n : NodeSubs}

theorem NodeSubs.Ok.members_of_mem (ok : n.Ok) {e : Bytes × List Subscription}
    (inside : e ∈ n.qsubs) : NodeSubs.Members e.1 e.2 :=
  ok.members e.1 e.2 (Table.get_of_mem ok.queues inside)

theorem NodeSubs.Ok.mem_psubs (ok : n.Ok) (s : Subscription) :
    s ∈ n.psubs ↔ n.Has s ∧ s.queue = none := by
  constructor
  · intro inside
    exact ⟨(has_none (ok.plain s inside)).mpr inside, ok.plain s inside⟩
  · rintro ⟨has, plain⟩
    exact (has_none plain).mp has

theorem NodeSubs.Ok.mem_queueSubs (ok : n.Ok) (s : Subscription) :
    s ∈ n.queueSubs ↔ n.Has s ∧ s.queue ≠ none := by
  rw [queueSubs, mem_flatMap]
  constructor
  · rintro ⟨e, member, inside⟩
    have queued := (ok.members_of_mem member).queued s inside
    refine ⟨(has_some queued).mpr ⟨e.2, Table.get_of_mem ok.queues member, inside⟩, ?_⟩
    simp [queued]
  · rintro ⟨has, queued⟩
    obtain ⟨q, kind⟩ := ne_none_iff_exists'.mp queued
    obtain ⟨subs, found, inside⟩ := (has_some kind).mp has
    exact ⟨(q, subs), Table.mem_of_get found, inside⟩

theorem NodeSubs.Ok.nodup_queueSubs (ok : n.Ok) : n.queueSubs.Nodup := by
  refine nodup_flatMap.mpr ⟨fun e member => (ok.members_of_mem member).nodup, ?_⟩
  refine (pairwise_map.mp ok.queues).imp_of_mem ?_
  intro a b inA inB differ s left right
  have one := (ok.members_of_mem inA).queued s left
  have two := (ok.members_of_mem inB).queued s right
  exact differ (Option.some.inj (one.symm.trans two))

theorem NodeSubs.Ok.queueSubs_eq_nil (ok : n.Ok) : n.queueSubs = [] ↔ n.qsubs = [] := by
  rw [queueSubs, flatMap_eq_nil_iff]
  constructor
  · intro each
    refine eq_nil_iff_forall_not_mem.mpr ?_
    intro e inside
    exact (ok.members_of_mem inside).filled (each e inside)
  · intro none_
    simp [none_]

/-- What a result has of a list of nodes. -/
structure Collects (datas : List NodeSubs) (r : SublistResult) : Prop where
  psubs : r.psubs.Perm (datas.flatMap NodeSubs.psubs)
  grouped : Grouped r.qsubs
  qsubs : r.qsubs.flatten.Perm ((datas.flatMap NodeSubs.queueSubs).flatMap (shadowed qw))
  empty : r.qsubs = [] ↔ ∀ d ∈ datas, d.qsubs = []

theorem Collects.nil : Collects qw [] emptyResult :=
  ⟨.refl _, Grouped.nil, .refl _, by simp [emptyResult]⟩

variable {qw} in
theorem Collects.addNode {datas : List NodeSubs} {r : SublistResult} (collects : Collects qw datas r)
    {d : NodeSubs} (ok : d.Ok) : Collects qw (datas ++ [d]) (addNodeToResults orders qw r d) := by
  have members (e : Bytes × List Subscription) (inside : e ∈ orders.qsubs.visit d.qsubs) :
      NodeSubs.Members e.1 e.2 := ok.members_of_mem ((orders.qsubs.perm d.qsubs).mem_iff.mp inside)
  obtain ⟨grouped, perm, empty⟩ := addQueues_spec orders qw members collects.grouped
  have plain : (d.plist.getD (orders.psubs.visit d.psubs)).Perm d.psubs := by
    cases list : d.plist with
    | none => exact orders.psubs.perm d.psubs
    | some subs => exact ok.plist subs list
  refine ⟨?_, grouped, ?_, ?_⟩
  · rw [flatMap_append, flatMap_singleton]
    exact collects.psubs.append plain
  · rw [flatMap_append, flatMap_append, flatMap_singleton]
    refine perm.trans (collects.qsubs.append ?_)
    exact (((orders.qsubs.perm d.qsubs).flatMap_right _).flatMap_right _)
  · have visited : orders.qsubs.visit d.qsubs = [] ↔ d.qsubs = [] := by
      rw [← length_eq_zero_iff, (orders.qsubs.perm d.qsubs).length_eq, length_eq_zero_iff]
    rw [addNodeToResults]
    dsimp only
    rw [empty, collects.empty, visited]
    simp only [mem_append, mem_singleton]
    constructor
    · rintro ⟨before, last⟩ e (inside | rfl)
      · exact before e inside
      · exact last
    · intro all
      exact ⟨fun e inside => all e (.inl inside), all d (.inr rfl)⟩

variable {qw} in
theorem Collects.foldl {datas : List NodeSubs} {r : SublistResult} (collects : Collects qw datas r)
    {more : List NodeSubs} (ok : ∀ d ∈ more, d.Ok) :
    Collects qw (datas ++ more) (more.foldl (addNodeToResults orders qw) r) := by
  induction more generalizing datas r with
  | nil => simpa using collects
  | cons d more ih =>
    have step := ih (collects.addNode orders (ok d mem_cons_self))
      (fun e inside => ok e (mem_cons_of_mem d inside))
    rwa [append_assoc, singleton_append] at step

end

def plainMatches (stored : List Subscription) (subject : Bytes) : List Subscription :=
  stored.filter (fun s => decide (s.queue = none ∧ FilterMatches s.subject subject))

def queueMatches (stored : List Subscription) (subject : Bytes) : List Subscription :=
  stored.filter (fun s => decide (s.queue ≠ none ∧ FilterMatches s.subject subject))

/-- A result has exactly the subscriptions that match. -/
structure ExactResult (qw : Subscription → Int) (stored : List Subscription) (subject : Bytes)
    (r : SublistResult) : Prop where
  psubs : r.psubs.Perm (plainMatches stored subject)
  grouped : Grouped r.qsubs
  qsubs : r.qsubs.flatten.Perm ((queueMatches stored subject).flatMap (shadowed qw))
  empty : r.qsubs = [] ↔ queueMatches stored subject = []

variable {s : Sublist}

theorem Subscribed.matchTrie {stored : List Subscription} (subscribed : Subscribed s stored)
    (orders : Orders) (qw : Subscription → Int) (subject : Bytes) :
    ExactResult qw stored subject (s.matchTrie orders qw (tokens subject)) := by
  have visited := matchLevel_eq (addNodeToResults orders qw) (tokens_ne_nil subject) s.rootNode none
    none emptyResult
  have ok (d : NodeSubs) (inside : d ∈ (s.rootNode.visits (tokens subject)).map Prod.snd) : d.Ok := by
    obtain ⟨e, member, rfl⟩ := mem_map.mp inside
    exact subscribed.ok e.1 e.2 ((Node.mem_visits _ _ _ _).mp member).2
  have collects := (Collects.nil qw).foldl orders ok
  rw [nil_append, ← visited] at collects
  -- the subscriptions of one kind in the nodes visited
  have kind (f : NodeSubs → List Subscription) (K : Subscription → Prop) [DecidablePred K]
      (read : ∀ d : NodeSubs, d.Ok → ∀ s, s ∈ f d ↔ d.Has s ∧ K s)
      (nodup : ∀ d : NodeSubs, d.Ok → (f d).Nodup) :
      (((s.rootNode.visits (tokens subject)).map Prod.snd).flatMap f).Perm
        (stored.filter (fun s => decide (K s ∧ FilterMatches s.subject subject))) := by
    rw [flatMap_map]
    refine (perm_ext_iff_of_nodup (subscribed.nodup_visited read nodup _)
      (subscribed.nodup.filter _)).mpr ?_
    intro i
    rw [subscribed.mem_visited read, mem_filter, decide_eq_true_eq]
    rfl
  have plain := kind NodeSubs.psubs (fun s => s.queue = none) (fun _ ok => ok.mem_psubs)
    (fun _ ok => ok.psubs)
  have queue := kind NodeSubs.queueSubs (fun s => s.queue ≠ none) (fun _ ok => ok.mem_queueSubs)
    (fun _ ok => ok.nodup_queueSubs)
  refine ⟨collects.psubs.trans plain, collects.grouped, collects.qsubs.trans (queue.flatMap_right _),
    collects.empty.trans ?_⟩
  rw [queueMatches, ← List.isEmpty_iff, ← queue.isEmpty_eq, List.isEmpty_iff, flatMap_eq_nil_iff]
  exact forall_congr' (fun d => forall_congr' (fun inside => (ok d inside).queueSubs_eq_nil.symm))

theorem NodeSubs.countSubs_none (np : Nat × Nat) (d : NodeSubs) (none_ : d.noInterest = true) :
    countSubs np d = np := by
  simp only [noInterest, Bool.and_eq_true, List.isEmpty_iff] at none_
  simp [countSubs, none_.1.2, none_.2]

theorem Subscribed.interest_iff {stored : List Subscription} (subscribed : Subscribed s stored)
    (subject : Bytes) (np : Nat × Nat) :
    (matchLevelForAny countSubs NodeSubs.noInterest (some s.root) (tokens subject) none none
      np).1 = true ↔ ∃ sub ∈ stored, FilterMatches sub.subject subject := by
  refine (matchLevelForAny_iff NodeSubs.countSubs_none (tokens_ne_nil subject) s.rootNode np).trans ?_
  refine Iff.trans ?_ (subscribed.toHolding.interest_iff subscribed.home_valid (tokens subject))
  refine exists_congr (fun path => exists_congr (fun d => and_congr_right (fun _ => ?_)))
  refine and_congr_right (fun here => ?_)
  rw [(subscribed.ok path d here).noInterest_eq]
  rfl

/-- What `NumInterest` counts without a cached result: the node at which the search stops. -/
def Sublist.firstInterest (s : Sublist) (subject : Bytes) : Option (List Key × NodeSubs) :=
  (s.rootNode.visits (tokens subject)).find? (stops NodeSubs.noInterest)

theorem Sublist.numInterest_uncached {subject : Bytes} (full : [] ∉ tokens subject)
    (uncached : ∀ r, s.cache.bind (fun cache => Table.get cache subject) = some r → r = emptyResult) :
    s.numInterest subject = (s.firstInterest subject).elim (0, 0) (fun e => countSubs (0, 0) e.2) := by
  have searched := matchLevelForAny_eq NodeSubs.countSubs_none (tokens_ne_nil subject) s.rootNode none
    none (0, 0)
  have trie : s.numInterest subject = (matchLevelForAny countSubs NodeSubs.noInterest s.rootNode.next
      (tokens subject) none none (0, 0)).2 := by
    rw [numInterest, hasInterestNum]
    cases found : s.cache.bind (fun cache => Table.get cache subject) with
    | none => simp [matchTokens_eq full, rootNode]
    | some r => simp [uncached r found, emptyResult, matchTokens_eq full, rootNode]
  rw [trie, searched, firstInterest]
  cases (s.rootNode.visits (tokens subject)).find? (stops NodeSubs.noInterest) <;> rfl

section
variable {stored : List Subscription} {subject : Bytes} (subscribed : Subscribed s stored)

include subscribed

theorem Subscribed.firstInterest_some {e : List Key × NodeSubs}
    (found : s.firstInterest subject = some e) :
    Covers e.1 (tokens subject) ∧ s.rootNode.dataAt e.1 = some e.2 ∧
      ∃ sub ∈ stored, e.1 = keys sub.subject :=
  subscribed.toHolding.stopped subscribed.home_valid (fun _ ok => ok.noInterest_eq) found

theorem Subscribed.firstInterest_none (missing : s.firstInterest subject = none) :
    ∀ sub ∈ stored, ¬ FilterMatches sub.subject subject := by
  intro sub inside covers
  obtain ⟨d, here, has⟩ := subscribed.toHolding.dataAt_of_mem inside
  have passed := find?_eq_none.mp missing (_, d) ((Node.mem_visits _ _ _ d).mpr ⟨covers, here⟩)
  have ok := subscribed.ok _ d here
  rw [stops, ok.noInterest_eq] at passed
  have filled : d.isEmpty = false := Payload.bare_eq_false (P := payload) ok has
  simp [filled] at passed

theorem Subscribed.numInterest_iff (plain : ∀ sub ∈ stored, sub.queue = none)
    (uncached : s.cache.bind (fun cache => Table.get cache subject) = none) :
    (s.numInterest subject).1 ≠ 0 ↔
      [] ∉ tokens subject ∧ ∃ sub ∈ stored, FilterMatches sub.subject subject := by
  by_cases full : [] ∉ tokens subject
  · rw [Sublist.numInterest_uncached full (by simp [uncached]), and_iff_right full]
    cases found : s.firstInterest subject with
    | none =>
      refine iff_of_false (by simp) ?_
      rintro ⟨sub, inside, covers⟩
      exact subscribed.firstInterest_none found sub inside covers
    | some e =>
      obtain ⟨covers, here, sub, inside, home⟩ := subscribed.firstInterest_some found
      obtain ⟨d, there, has⟩ := subscribed.toHolding.dataAt_of_mem inside
      have there : s.rootNode.dataAt (keys sub.subject) = some d := there
      rw [← home, here] at there
      cases there
      rw [home] at covers
      refine iff_of_true ?_ ⟨sub, inside, covers⟩
      have member := ((subscribed.ok _ _ here).mem_psubs sub).mpr ⟨has, plain sub inside⟩
      simpa [Sublist.countSubs] using ne_nil_of_mem member
  · rw [numInterest, hasInterestNum, uncached]
    simp [matchTokens, not_not.mp full]

end

def copies (qw : Subscription → Int) (s : Subscription) : Nat :=
  if isRemoteQSub s then (qw s).toNat else 1

theorem count_shadowed (qw : Subscription → Int) {subs : List Subscription} (nodup : subs.Nodup)
    (s : Subscription) :
    (subs.flatMap (shadowed qw)).count s = if s ∈ subs then copies qw s else 0 := by
  have single (sub : Subscription) :
      (shadowed qw sub).count s = if s = sub then copies qw s else 0 := by
    unfold shadowed copies
    by_cases same : s = sub
    · subst same
      split <;> simp
    · have other : ¬ sub = s := fun h => same h.symm
      split <;> simp [count_replicate, other]
  induction subs with
  | nil => simp
  | cons sub rest ih =>
    obtain ⟨fresh, nodup⟩ := nodup_cons.mp nodup
    rw [flatMap_cons, count_append, single, ih nodup]
    by_cases same : s = sub
    · subst same
      simp [fresh]
    · simp [same]

/-! ### Runs of inserts and removes -/

inductive Op where
  | insert (orders : Orders) (sub : Subscription)
  | remove (sub : Subscription)

/-- The sublist and the subscriptions that the calls so far have stored. -/
structure State where
  sublist : Sublist
  stored : List Subscription

def State.new (enableCache : Bool) : State := ⟨.newSublist enableCache, []⟩

def step (s : State) : Op → State
  | .insert orders sub => ⟨(s.sublist.insert orders sub).1, sub :: s.stored⟩
  | .remove sub => ⟨(s.sublist.remove sub true).1, s.stored.erase sub⟩

def Distinct (s : State) : Op → Prop
  | .insert _ sub => ValidTokens (tokens sub.subject) ∧ sub ∉ s.stored
  | .remove _ => True

instance (s : State) : ∀ op, Decidable (Distinct s op)
  | .insert _ _ => inferInstanceAs (Decidable (_ ∧ _))
  | .remove _ => inferInstanceAs (Decidable True)

theorem Subscribed.step {s : State} (subscribed : Subscribed s.sublist s.stored) {op : Op}
    (distinct : Distinct s op) : Subscribed (step s op).sublist (step s op).stored := by
  cases op with
  | insert orders sub => exact (subscribed.insert orders distinct.1 distinct.2).1
  | remove sub =>
    by_cases inside : sub ∈ s.stored
    · exact (subscribed.remove inside true).1
    · obtain ⟨e, failed⟩ := subscribed.remove_missing inside true
      simp only [Sublists.step, failed, erase_of_not_mem inside]
      exact subscribed

theorem step_uncached {s : State} (uncached : s.sublist.cache = none) (op : Op) :
    (step s op).sublist.cache = none := by
  cases op with
  | insert orders sub =>
    simp only [step, Sublist.insert]
    split <;> simp [Sublist.addToCache, uncached]
  | remove sub =>
    simp only [step, remove]
    split <;> simp [removeFromCache, uncached]

theorem Subscribed.numNodes (subscribed : Subscribed s []) : s.root.numNodes = 0 := by
  refine Level.numNodes_eq_zero.mpr ?_
  intro k
  by_contra some_
  obtain ⟨c, here⟩ := ne_none_iff_exists'.mp some_
  obtain ⟨q, d, there⟩ := subscribed.pruned.core_child (k := k) here
  have found : s.rootNode.core payload.bare (k :: q) = some d := by
    rw [Node.core_cons]
    exact (congrArg (fun o => Option.bind o (Node.core payload.bare q)) here).trans there
  obtain ⟨i, inside, -⟩ := subscribed.of_core found
  cases inside

theorem match_returns_stored (ops : List Op) (distinct : Along step Distinct (.new false) ops) :
    (∀ (orders : Orders) (qw : Subscription → Int) (subject : Bytes), [] ∉ tokens subject →
      let stored := (run step (.new false) ops).stored
      let r := ((run step (.new false) ops).sublist.matchSubject orders qw subject).2
      r.psubs.Perm (plainMatches stored subject) ∧
        (∀ s, r.qsubs.flatten.count s =
          if s ∈ queueMatches stored subject then copies qw s else 0) ∧ Grouped r.qsubs) ∧
      ((run step (.new false) ops).stored = [] →
        (run step (.new false) ops).sublist.root.numNodes = 0) := by
  have subscribed := along_invariant step Distinct (fun s => Subscribed s.sublist s.stored)
    (fun _ _ subscribed distinct => subscribed.step distinct) (Subscribed.newSublist false) ops distinct
  have uncached := run_invariant step (fun s => s.sublist.cache = none)
    (fun _ op uncached => step_uncached uncached op) (s := .new false) rfl ops
  generalize run step (.new false) ops = s at subscribed uncached ⊢
  refine ⟨?_, ?_⟩
  · intro orders qw subject full
    have result : (s.sublist.matchSubject orders qw subject).2 =
        s.sublist.matchTrie orders qw (tokens subject) := by
      simp only [matchSubject, uncached, bind_none, matchTokens_eq full]
    have exactly := subscribed.matchTrie orders qw subject
    dsimp only
    rw [result]
    refine ⟨exactly.psubs, ?_, exactly.grouped⟩
    intro sub
    exact (exactly.qsubs.count_eq sub).trans (count_shadowed qw (subscribed.nodup.filter _) sub)
  · intro none_
    exact Subscribed.numNodes (none_ ▸ subscribed)

def Orders.kept : Orders := ⟨⟨id, .refl⟩, ⟨id, .refl⟩, ⟨id, .refl⟩⟩

/-- A plain subscription to "a.*", one to "b", and a remote queue subscription to "a.>" of weight 3,
for a message on "a.c". -/
theorem match_two_of_three :
    let plain : Subscription := ⟨0, [97, 46, 42], none, false⟩
    let other : Subscription := ⟨1, [98], none, false⟩
    let queued : Subscription := ⟨2, [97, 46, 62], some [113], true⟩
    let ops : List Op := [.insert .kept plain, .insert .kept other, .insert .kept queued]
    let r := ((run step (.new false) ops).sublist.matchSubject .kept (fun _ => 3) [97, 46, 99]).2
    Along step Distinct (.new false) ops ∧ r.psubs.Perm [plain] ∧ r.qsubs.flatten.count queued = 3 := by
  intro plain other queued ops r
  have distinct : Along step Distinct (.new false) ops := by decide +kernel
  obtain ⟨psubs, counts, -⟩ := (match_returns_stored ops distinct).1 .kept (fun _ => 3) [97, 46, 99]
    (by decide +kernel)
  have only : plainMatches (run step (.new false) ops).stored [97, 46, 99] = [plain] := by
    decide +kernel
  have member : queued ∈ queueMatches (run step (.new false) ops).stored [97, 46, 99] := by
    decide +kernel
  refine ⟨distinct, only ▸ psubs, (counts queued).trans ?_⟩
  rw [if_pos member]
  rfl

end LinearNats.Sublists
