import LinearNats.Sublist.Holding
import LinearNats.Sublist.Subscriptions

/-! The sublist against the subscriptions that it stores. -/
namespace LinearNats.Sublists
open Server List Table Sublist

variable {sub : Subscription} {n : NodeSubs}

theorem mem_addKey {keys : List Subscription} {s : Subscription} :
    s ∈ addKey keys sub ↔ s = sub ∨ s ∈ keys := Holding.mem_add

theorem nodup_addKey {keys : List Subscription} (nodup : keys.Nodup) (sub : Subscription) :
    (addKey keys sub).Nodup := Holding.nodup_add nodup sub

namespace NodeSubs

def Has (n : NodeSubs) (sub : Subscription) : Prop :=
  match sub.queue with
  | none => sub ∈ n.psubs
  | some q => ∃ subs, Table.get n.qsubs q = some subs ∧ sub ∈ subs

variable {n : NodeSubs}

theorem has_none {sub : Subscription} (plain : sub.queue = none) : n.Has sub ↔ sub ∈ n.psubs := by
  rw [Has, plain]

theorem has_some {sub : Subscription} {q : Bytes} (queued : sub.queue = some q) :
    n.Has sub ↔ ∃ subs, Table.get n.qsubs q = some subs ∧ sub ∈ subs := by
  rw [Has, queued]

theorem has_setQueue (n : NodeSubs) (q : Bytes) (subs : List Subscription) (s : Subscription) :
    Has { n with qsubs := Table.set n.qsubs q subs } s ↔
      if s.queue = some q then s ∈ subs else n.Has s := by
  cases kind : s.queue with
  | none => simp [has_none kind]
  | some q' =>
    rw [has_some kind, has_some kind]
    simp only [get_set, Option.some.injEq]
    by_cases same : q = q'
    · simp [same]
    · simp [same, Ne.symm same]

theorem has_eraseQueue (n : NodeSubs) (q : Bytes) (s : Subscription) :
    Has { n with qsubs := Table.erase n.qsubs q } s ↔ s.queue ≠ some q ∧ n.Has s := by
  cases kind : s.queue with
  | none => simp [has_none kind]
  | some q' =>
    rw [has_some kind, has_some kind]
    simp only [get_erase, ne_eq, Option.some.injEq]
    by_cases same : q = q'
    · simp [same]
    · simp [same, Ne.symm same]

structure Members (q : Bytes) (subs : List Subscription) : Prop where
  filled : subs ≠ []
  nodup : subs.Nodup
  queued : ∀ s ∈ subs, s.queue = some q

structure Base (n : NodeSubs) : Prop where
  psubs : n.psubs.Nodup
  plain : ∀ s ∈ n.psubs, s.queue = none
  queues : (n.qsubs.map Prod.fst).Nodup
  members : ∀ q subs, Table.get n.qsubs q = some subs → Members q subs

structure Ok (n : NodeSubs) : Prop where
  psubs : n.psubs.Nodup
  plain : ∀ s ∈ n.psubs, s.queue = none
  queues : (n.qsubs.map Prod.fst).Nodup
  members : ∀ q subs, Table.get n.qsubs q = some subs → Members q subs
  plist : ∀ subs, n.plist = some subs → subs.Perm n.psubs

theorem Ok.base (ok : Ok n) : Base n := { ok with }

theorem Base.ok (base : Base n) (plist : ∀ subs, n.plist = some subs → subs.Perm n.psubs) : Ok n :=
  { base with plist := plist }

theorem Base.new : Base new where
  psubs := nodup_nil
  plain := by simp [NodeSubs.new]
  queues := nodup_nil
  members := by simp [NodeSubs.new]

theorem Ok.new : Ok new := Base.new.ok (by simp [NodeSubs.new])

theorem Base.isEmpty_iff (base : Base n) : n.isEmpty = true ↔ ∀ s, ¬ n.Has s := by
  rw [NodeSubs.isEmpty, Bool.and_eq_true, List.isEmpty_iff, List.isEmpty_iff]
  constructor
  · rintro ⟨noPlain, noQueue⟩ s has
    cases kind : s.queue with
    | none =>
      rw [has_none kind, noPlain] at has
      cases has
    | some q =>
      rw [has_some kind, noQueue] at has
      obtain ⟨subs, found, -⟩ := has
      cases found
  · intro nothing
    constructor
    · refine eq_nil_iff_forall_not_mem.mpr ?_
      intro s inside
      exact nothing s ((has_none (base.plain s inside)).mpr inside)
    · cases h : n.qsubs with
      | nil => rfl
      | cons e rest =>
        have found : Table.get n.qsubs e.1 = some e.2 := by rw [h, Table.get, if_pos rfl]
        have members := base.members e.1 e.2 found
        obtain ⟨s, inside⟩ := exists_mem_of_ne_nil _ members.filled
        exact absurd ((has_some (members.queued s inside)).mpr ⟨e.2, found, inside⟩) (nothing s)

theorem Ok.noInterest_eq (ok : Ok n) : n.noInterest = n.isEmpty := by
  rw [noInterest, NodeSubs.isEmpty]
  cases h : n.plist with
  | none => rfl
  | some subs =>
    have same := (ok.plist subs h).isEmpty_eq
    rw [Option.getD_some, same, Bool.and_self]

end NodeSubs

def payload : Payload NodeSubs Subscription where
  has := NodeSubs.Has
  home s := keys s.subject
  bare := NodeSubs.isEmpty
  new := .new
  ok := NodeSubs.Ok
  new_ok := .new
  bare_iff _ ok := ok.base.isEmpty_iff
  bare_new := rfl

theorem NodeSubs.Base.setQueue (base : n.Base) {q : Bytes} {subs : List Subscription}
    (members : Members q subs) : NodeSubs.Base { n with qsubs := Table.set n.qsubs q subs } :=
  ⟨base.psubs, base.plain, keys_set base.queues q subs, all_set base.members q members⟩

theorem NodeSubs.Base.eraseQueue (base : n.Base) (q : Bytes) :
    NodeSubs.Base { n with qsubs := Table.erase n.qsubs q } :=
  ⟨base.psubs, base.plain, keys_erase base.queues q, all_erase base.members q⟩

theorem NodeSubs.Base.insert (base : n.Base) (orders : Orders) (sub : Subscription) :
    (insertIntoNode orders sub n).1.Base := by
  cases kind : sub.queue with
  | none =>
    simp only [insertIntoNode, kind]
    refine ⟨nodup_addKey base.psubs sub, ?_, base.queues, base.members⟩
    intro s inside
    rcases mem_addKey.mp inside with rfl | inside
    · exact kind
    · exact base.plain s inside
  | some q =>
    simp only [insertIntoNode, kind]
    cases found : Table.get n.qsubs q with
    | none => exact base.setQueue ⟨by simp, nodup_singleton sub, by simp [kind]⟩
    | some subs =>
      have members := base.members q subs found
      refine base.setQueue ⟨?_, nodup_addKey members.nodup sub, ?_⟩
      · exact ne_nil_of_mem (mem_addKey.mpr (.inl rfl))
      · intro s inside
        rcases mem_addKey.mp inside with rfl | inside
        · exact kind
        · exact members.queued s inside

theorem NodeSubs.Ok.insert (ok : n.Ok) (orders : Orders) (fresh : ¬ n.Has sub) :
    (insertIntoNode orders sub n).1.Ok := by
  refine (ok.base.insert orders sub).ok ?_
  cases kind : sub.queue with
  | none =>
    rw [has_none kind] at fresh
    have grown : addKey n.psubs sub = sub :: n.psubs := if_neg fresh
    simp only [insertIntoNode, kind, grown]
    intro subs list
    cases h : n.plist with
    | some plist =>
      rw [h] at list
      cases list
      exact (perm_append_singleton sub plist).trans ((ok.plist plist h).cons sub)
    | none =>
      rw [h] at list
      dsimp only at list
      split at list
      · cases list
        exact orders.psubs.perm _
      · cases list
  | some q =>
    simp only [insertIntoNode, kind]
    cases Table.get n.qsubs q <;> exact ok.plist

theorem insertIntoNode_has (orders : Orders) (sub : Subscription) (n : NodeSubs)
    (s : Subscription) : (insertIntoNode orders sub n).1.Has s ↔ s = sub ∨ n.Has s := by
  have other {q : Option Bytes} (kind : sub.queue = q) (kind' : s.queue ≠ q) : s ≠ sub := by
    rintro rfl
    exact kind' kind
  cases kind : sub.queue with
  | none =>
    simp only [insertIntoNode, kind]
    cases kind' : s.queue with
    | none => rw [NodeSubs.has_none kind', NodeSubs.has_none kind', mem_addKey]
    | some q =>
      rw [NodeSubs.has_some kind', NodeSubs.has_some kind', or_iff_right (other kind (by simp [kind']))]
  | some q =>
    simp only [insertIntoNode, kind]
    cases found : Table.get n.qsubs q with
    | none =>
      rw [NodeSubs.has_setQueue]
      by_cases same : s.queue = some q
      · simp [same, NodeSubs.has_some same, found]
      · rw [if_neg same, or_iff_right (other kind same)]
    | some subs =>
      rw [NodeSubs.has_setQueue]
      by_cases same : s.queue = some q
      · simp [same, NodeSubs.has_some same, found, mem_addKey]
      · rw [if_neg same, or_iff_right (other kind same)]

theorem removeFromNode_none (missing : ¬ n.Has sub) : removeFromNode sub n = none := by
  cases kind : sub.queue with
  | none =>
    rw [NodeSubs.has_none kind] at missing
    simp only [removeFromNode, kind, if_neg missing]
  | some q =>
    rw [NodeSubs.has_some kind] at missing
    have absent : sub ∉ (Table.get n.qsubs q).getD [] := by
      cases found : Table.get n.qsubs q with
      | none => simp
      | some subs => exact fun inside => missing ⟨subs, found, inside⟩
    simp only [removeFromNode, kind, if_neg absent]

/-- What is left after a removal; `last` says that no other of the same subject and queue is. -/
theorem removeFromNode_some (base : n.Base) (has : n.Has sub) :
    ∃ d last, removeFromNode sub n = some (d, last) ∧ d.Base ∧ (∀ s, d.Has s ↔ n.Has s ∧ s ≠ sub) ∧
      (last = true ↔ ∀ s, d.Has s → s.queue ≠ sub.queue) := by
  have other {q : Option Bytes} {s : Subscription} (kind : sub.queue = q) (kind' : s.queue ≠ q) :
      s ≠ sub := by
    rintro rfl
    exact kind' kind
  cases kind : sub.queue with
  | none =>
    rw [NodeSubs.has_none kind] at has
    refine ⟨{ n with psubs := n.psubs.erase sub, plist := none }, (n.psubs.erase sub).isEmpty,
      by simp only [removeFromNode, kind, if_pos has], ?_, ?_, ?_⟩
    · exact ⟨base.psubs.erase sub, fun s inside => base.plain s (mem_of_mem_erase inside),
        base.queues, base.members⟩
    · intro s
      cases kind' : s.queue with
      | none =>
        rw [NodeSubs.has_none kind', NodeSubs.has_none kind', base.psubs.mem_erase_iff, and_comm]
      | some q =>
        rw [NodeSubs.has_some kind', NodeSubs.has_some kind',
          and_iff_left (other kind (by simp [kind']))]
    · rw [List.isEmpty_iff, List.eq_nil_iff_forall_not_mem]
      constructor
      · intro none_ s has plain
        exact none_ s ((NodeSubs.has_none plain).mp has)
      · intro none_ s inside
        have plain := base.plain s (mem_of_mem_erase inside)
        exact none_ s ((NodeSubs.has_none plain).mpr inside) plain
  | some q =>
    obtain ⟨subs, found, inside⟩ := (NodeSubs.has_some kind).mp has
    have members := base.members q subs found
    have left (s : Subscription) (same : s.queue = some q) :
        s ∈ subs.erase sub ↔ n.Has s ∧ s ≠ sub := by
      rw [NodeSubs.has_some same, found, members.nodup.mem_erase_iff]
      simp [and_comm]
    by_cases last : (subs.erase sub).isEmpty = true
    · refine ⟨{ n with qsubs := Table.erase n.qsubs q }, true, ?_, base.eraseQueue q, ?_, ?_⟩
      · simp only [removeFromNode, kind, found, Option.getD_some, if_pos inside, if_pos last]
      · intro s
        rw [NodeSubs.has_eraseQueue]
        by_cases same : s.queue = some q
        · rw [← left s same, isEmpty_iff.mp last]
          simp [same]
        · rw [and_iff_right same, and_iff_left (other kind same)]
      · simp only [NodeSubs.has_eraseQueue, true_iff]
        exact fun s has => has.1
    refine ⟨{ n with qsubs := Table.set n.qsubs q (subs.erase sub) }, false, ?_,
      base.setQueue ⟨by simpa using last, members.nodup.erase sub, ?_⟩, ?_, ?_⟩
    · simp only [removeFromNode, kind, found, Option.getD_some, if_pos inside, last]
      rfl
    · intro s inside
      exact members.queued s (mem_of_mem_erase inside)
    · intro s
      rw [NodeSubs.has_setQueue]
      split
      next same =>
        rw [left s same]
      next same =>
        rw [and_iff_left (other kind same)]
    · simp only [NodeSubs.has_setQueue, Bool.false_eq_true, false_iff]
      intro none_
      obtain ⟨s, more⟩ := exists_mem_of_ne_nil _ (fun h => last (isEmpty_iff.mpr h))
      have same := members.queued s (mem_of_mem_erase more)
      exact none_ s (by rw [if_pos same]; exact more) same

theorem insertIntoNode_isnew (orders : Orders) (base : n.Base) (fresh : ¬ n.Has sub) :
    (insertIntoNode orders sub n).2 = true ↔ ∀ s, n.Has s → s.queue ≠ sub.queue := by
  cases kind : sub.queue with
  | none =>
    rw [NodeSubs.has_none kind] at fresh
    have grown : addKey n.psubs sub = sub :: n.psubs := if_neg fresh
    simp only [insertIntoNode, kind, grown, length_cons, beq_iff_eq, Nat.add_eq_right,
      length_eq_zero_iff]
    rw [eq_nil_iff_forall_not_mem]
    constructor
    · intro none_ s has plain
      exact none_ s ((NodeSubs.has_none plain).mp has)
    · intro none_ s inside
      exact none_ s ((NodeSubs.has_none (base.plain s inside)).mpr inside) (base.plain s inside)
  | some q =>
    simp only [insertIntoNode, kind]
    cases found : Table.get n.qsubs q with
    | none =>
      simp only [true_iff]
      intro s has same
      obtain ⟨subs, there, -⟩ := (NodeSubs.has_some same).mp has
      rw [found] at there
      cases there
    | some subs =>
      simp only [Bool.false_eq_true, false_iff]
      intro none_
      have members := base.members q subs found
      obtain ⟨s, inside⟩ := exists_mem_of_ne_nil _ members.filled
      have same := members.queued s inside
      exact none_ s ((NodeSubs.has_some same).mpr ⟨subs, found, inside⟩) same

theorem removeFromNode_plist {d : NodeSubs} {last : Bool}
    (taken : removeFromNode sub n = some (d, last)) :
    d.plist = none ∨ d.plist = n.plist ∧ d.psubs = n.psubs := by
  cases kind : sub.queue with
  | none =>
    simp only [removeFromNode, kind] at taken
    split at taken
    · cases taken
      exact .inl rfl
    · cases taken
  | some q =>
    simp only [removeFromNode, kind] at taken
    split at taken
    · split at taken <;> cases taken <;> exact .inr ⟨rfl, rfl⟩
    · cases taken

theorem NodeSubs.Ok.remove {d : NodeSubs} {last : Bool} (ok : n.Ok)
    (taken : removeFromNode sub n = some (d, last)) (base : d.Base) : d.Ok := by
  refine base.ok (fun subs list => ?_)
  rcases removeFromNode_plist taken with gone | ⟨same, psubs⟩
  · rw [gone] at list
    cases list
  · rw [psubs]
    exact ok.plist subs (same ▸ list)

/-! ### The root after a call -/

namespace Sublist

theorem rootNode_insert (s : Sublist) (orders : Orders) (sub : Subscription) :
    (s.insert orders sub).1.rootNode = s.rootNode.extend .new
      (if acceptable (tokens sub.subject) false then fun d => (insertIntoNode orders sub d).1 else id)
      (accepted (tokens sub.subject) false) := by
  rw [← mk_insert _ _ _ rfl, insert, insertLoop_eq]
  cases acceptable (tokens sub.subject) false <;> rfl

theorem cache_insert (s : Sublist) (orders : Orders) (sub : Subscription) :
    (s.insert orders sub).1.cache =
      if acceptable (tokens sub.subject) false then (s.addToCache sub.subject sub).cache
      else s.cache := by
  rw [insert, insertLoop_eq]
  cases acceptable (tokens sub.subject) false <;> rfl

theorem remove_taken {s : Sublist} {sub : Subscription} {d d' : NodeSubs} {last : Bool}
    (valid : ValidTokens (tokens sub.subject)) (there : s.rootNode.dataAt (keys sub.subject) = some d)
    (taken : removeFromNode sub d = some (d', last)) (doCacheUpdates : Bool) :
    (s.remove sub doCacheUpdates).1.rootNode =
        s.rootNode.cut NodeSubs.isEmpty d' (keys sub.subject) ∧
      (s.remove sub doCacheUpdates).1.cache =
        (if doCacheUpdates then (s.removeFromCache sub.subject).cache else s.cache) ∧
      (s.remove sub doCacheUpdates).2 = .ok (last && subjectIsLiteral sub.subject) := by
  have ok : acceptable (tokens sub.subject) false = true := (acceptable_iff _ _).mpr ⟨valid, by simp⟩
  have result := (removeLoop_ok_iff (removeFromNode sub) NodeSubs.isEmpty (tokens sub.subject) false
    (some s.rootNode) _ last).mpr ⟨ok, s.rootNode, d, d', rfl, there, taken, rfl⟩
  simp only [remove, result]
  refine ⟨?_, ?_, trivial⟩
  · have whole := mk_cut NodeSubs.isEmpty d' sub.subject (n := s.rootNode) rfl
    cases doCacheUpdates <;> exact whole
  · cases doCacheUpdates <;> rfl

theorem remove_refused {s : Sublist} {sub : Subscription}
    (refused : ∀ d r, ValidTokens (tokens sub.subject) →
      s.rootNode.dataAt (keys sub.subject) = some d → removeFromNode sub d ≠ some r)
    (doCacheUpdates : Bool) : ∃ e, s.remove sub doCacheUpdates = (s, .error e) := by
  cases result : removeLoop (removeFromNode sub) NodeSubs.isEmpty (tokens sub.subject) false
      (some s.rootNode) with
  | error e => exact ⟨e, by simp only [remove, result]⟩
  | ok r =>
    obtain ⟨ok, n, d, d', same, there, taken, -⟩ := (removeLoop_ok_iff _ _ _ _ _ _ _).mp result
    cases same
    exact absurd taken (refused d _ ((acceptable_iff _ _).mp ok).1 there)

end Sublist

/-- A sublist stores exactly these subscriptions. -/
structure Subscribed (s : Sublist) (stored : List Subscription) : Prop
    extends Holding payload s.rootNode stored where
  valid : ∀ sub ∈ stored, ValidTokens (tokens sub.subject)

namespace Subscribed
variable {s : Sublist} {stored : List Subscription}

theorem newSublist (enableCache : Bool) : Subscribed (.newSublist enableCache) [] :=
  ⟨Holding.empty, by simp⟩

theorem of_root {s' : Sublist} (subscribed : Subscribed s stored) (same : s'.root = s.root) :
    Subscribed s' stored := by
  have node : s'.rootNode = s.rootNode := by rw [rootNode, rootNode, same]
  exact ⟨node ▸ subscribed.toHolding, subscribed.valid⟩

theorem home_valid (subscribed : Subscribed s stored) :
    ∀ sub ∈ stored, ∃ ts, ValidTokens ts ∧ payload.home sub = ts.map keyOf :=
  fun sub inside => ⟨tokens sub.subject, subscribed.valid sub inside, rfl⟩

def First (stored : List Subscription) (sub : Subscription) : Prop :=
  ∀ s ∈ stored, ¬ (s.subject = sub.subject ∧ s.queue = sub.queue)

theorem has_path_iff {n : Node NodeSubs} (holding : Holding payload n stored) (sub s : Subscription) :
    NodeSubs.Has ((n.dataAt (keys sub.subject)).getD .new) s ↔ s ∈ stored ∧ s.subject = sub.subject := by
  refine (holding.has_getD (keys sub.subject) s).trans (and_congr_right (fun _ => ?_))
  exact ⟨fun same => (keys_injective same).symm, fun same => by rw [← same]; rfl⟩

variable {sub : Subscription}

theorem insert (subscribed : Subscribed s stored) (orders : Orders)
    (valid : ValidTokens (tokens sub.subject)) (fresh : sub ∉ stored) :
    Subscribed (s.insert orders sub).1 (sub :: stored) ∧
      ∃ isnew, (s.insert orders sub).2 = .ok isnew ∧
        (isnew = true ↔ First stored sub ∧ subjectIsLiteral sub.subject = true) := by
  have ok : acceptable (tokens sub.subject) false = true := (acceptable_iff _ _).mpr ⟨valid, by simp⟩
  have path : accepted (tokens sub.subject) false = keys sub.subject := accepted_of_acceptable ok
  have absent : ¬ NodeSubs.Has ((s.rootNode.dataAt (keys sub.subject)).getD .new) sub := by
    rw [has_path_iff subscribed.toHolding]
    exact fun h => fresh h.1
  have fine : NodeSubs.Ok ((s.rootNode.dataAt (keys sub.subject)).getD .new) :=
    subscribed.ok_getD (keys sub.subject)
  have holding : Holding payload (s.rootNode.extend .new (fun d => (insertIntoNode orders sub d).1)
      (keys sub.subject)) (Holding.add stored sub) := subscribed.toHolding.extend
    ⟨fine.insert orders absent, (insertIntoNode_has orders sub _ sub).mpr (.inl rfl),
      fun j _ has => (insertIntoNode_has orders sub _ j).mpr (.inr has),
      fun j => (insertIntoNode_has orders sub _ j).mp⟩
  have grown : Holding.add stored sub = sub :: stored := if_neg fresh
  rw [grown] at holding
  have root := s.rootNode_insert orders sub
  rw [if_pos ok, path] at root
  simp only [Sublist.insert, insertLoop_eq, ok, if_true, path] at root ⊢
  refine ⟨⟨root ▸ holding, ?_⟩, _, rfl, ?_⟩
  · exact forall_mem_cons.mpr ⟨valid, subscribed.valid⟩
  · rw [Bool.and_eq_true, insertIntoNode_isnew orders fine.base absent]
    refine and_congr_left (fun _ => ?_)
    simp only [has_path_iff subscribed.toHolding, First, not_and, and_imp]

theorem cache_insert (s : Sublist) (orders : Orders) (valid : ValidTokens (tokens sub.subject)) :
    (s.insert orders sub).1.cache = (s.addToCache sub.subject sub).cache := by
  have ok : acceptable (tokens sub.subject) false = true := (acceptable_iff _ _).mpr ⟨valid, by simp⟩
  rw [Sublist.cache_insert, if_pos ok]

theorem remove_missing (subscribed : Subscribed s stored) (missing : sub ∉ stored)
    (doCacheUpdates : Bool) : ∃ e, s.remove sub doCacheUpdates = (s, .error e) := by
  refine remove_refused (fun d r _ there taken => ?_) doCacheUpdates
  have absent : ¬ d.Has sub := fun has => missing (subscribed.of_has there has).1
  rw [removeFromNode_none absent] at taken
  cases taken

theorem remove (subscribed : Subscribed s stored) (inside : sub ∈ stored) (doCacheUpdates : Bool) :
    Subscribed (s.remove sub doCacheUpdates).1 (stored.erase sub) ∧
      ∃ last, (s.remove sub doCacheUpdates).2 = .ok last ∧
        (last = true ↔ First (stored.erase sub) sub ∧ subjectIsLiteral sub.subject = true) := by
  obtain ⟨d, there, has⟩ := subscribed.dataAt_of_mem inside
  obtain ⟨d', last, taken, fine, left, isLast⟩ := removeFromNode_some (subscribed.ok _ _ there).base has
  obtain ⟨root, -, result⟩ :=
    remove_taken (subscribed.valid sub inside) there taken doCacheUpdates
  have holding := subscribed.toHolding.cut (i := sub) there
    ⟨(subscribed.ok _ _ there).remove taken fine, fun j _ has differs => (left j).mpr ⟨has, differs⟩,
      fun j => (left j).mp⟩
  refine ⟨⟨root ▸ holding, ?_⟩, _, result, ?_⟩
  · exact fun other member => subscribed.valid other (mem_of_mem_erase member)
  · rw [Bool.and_eq_true, isLast]
    refine and_congr_left (fun _ => forall_congr' (fun other => ?_))
    have here : d.Has other ↔ other ∈ stored ∧ other.subject = sub.subject := by
      have read := has_path_iff subscribed.toHolding sub other
      have same : s.rootNode.dataAt (keys sub.subject) = some d := there
      rwa [same, Option.getD_some] at read
    rw [left, here, subscribed.nodup.mem_erase_iff]
    tauto

end Subscribed

end LinearNats.Sublists
