import LinearNats.Sublist.Results

/-! A sublist with a cache beside one without, through the same calls. -/
namespace LinearNats.Sublists
open Server List Option Table

/-! ### Literal filters -/

theorem keyOf_of_literal {filter : Bytes} (literal : subjectIsLiteral filter = true) {t : Token}
    (inside : t ∈ tokens filter) : keyOf t = .lit t := by
  have each := all_eq_true.mp literal t inside
  simp only [Bool.and_eq_true, bne_iff_ne] at each
  exact keyOf_literal each.1 each.2

theorem covers_lits (ts toks : List Token) : Covers (ts.map .lit) toks ↔ toks = ts := by
  induction ts generalizing toks with
  | nil => cases toks <;> simp
  | cons t ts ih =>
    cases toks with
    | nil => simp
    | cons t' toks => simp [ih, eq_comm]

theorem filterMatches_literal {filter : Bytes} (literal : subjectIsLiteral filter = true)
    (subject : Bytes) : FilterMatches filter subject ↔ subject = filter := by
  have lits : keys filter = (tokens filter).map .lit :=
    map_congr_left (fun _ inside => keyOf_of_literal literal inside)
  rw [FilterMatches, lits, covers_lits, tokens_injective.eq_iff]

/-! ### Results when the stored subscriptions change -/

section
variable {qw qw' : Subscription → Int} {stored : List Subscription} {subject : Bytes}
  {r : SublistResult} {sub : Subscription}

theorem ExactResult.congr {stored' : List Subscription} (exactly : ExactResult qw stored subject r)
    (plain : (plainMatches stored' subject).Perm (plainMatches stored subject))
    (queue : (queueMatches stored' subject).Perm (queueMatches stored subject))
    (weights : ∀ s ∈ queueMatches stored subject, qw' s = qw s) :
    ExactResult qw' stored' subject r := by
  refine ⟨exactly.psubs.trans plain.symm, exactly.grouped, ?_, exactly.empty.trans ?_⟩
  · have same : (queueMatches stored subject).flatMap (shadowed qw) =
        (queueMatches stored subject).flatMap (shadowed qw') := by
      refine flatMap_congr (fun s inside => ?_)
      rw [shadowed, shadowed, weights s inside]
    exact (same ▸ exactly.qsubs).trans (queue.flatMap_right _).symm
  · rw [← List.isEmpty_iff, ← List.isEmpty_iff, queue.isEmpty_eq]

theorem ExactResult.cons (exactly : ExactResult qw stored subject r)
    (other : ¬ FilterMatches sub.subject subject)
    (weights : ∀ s ∈ stored, qw' s = qw s) : ExactResult qw' (sub :: stored) subject r := by
  refine exactly.congr ?_ ?_ (fun s inside => weights s (mem_of_mem_filter inside))
  · rw [plainMatches, filter_cons_of_neg (by simp [other])]
    exact .refl _
  · rw [queueMatches, filter_cons_of_neg (by simp [other])]
    exact .refl _

theorem filter_erase_of_neg {p : Subscription → Bool} (no : p sub = false) :
    (stored.erase sub).filter p = stored.filter p := by
  induction stored with
  | nil => rfl
  | cons s rest ih =>
    by_cases same : s = sub
    · subst same
      simp [no]
    · rw [erase_cons_tail (by simpa using same), filter_cons, filter_cons, ih]

theorem ExactResult.erase (exactly : ExactResult qw stored subject r)
    (other : ¬ FilterMatches sub.subject subject) :
    ExactResult qw (stored.erase sub) subject r := by
  refine exactly.congr ?_ ?_ (fun _ _ => rfl)
  · rw [plainMatches, filter_erase_of_neg (by simp [other])]
    exact .refl _
  · rw [queueMatches, filter_erase_of_neg (by simp [other])]
    exact .refl _

theorem addSubToResult_queue {q : Bytes} (queued : sub.queue = some q) (r : SublistResult) :
    r.addSubToResult sub = ⟨r.psubs, placed q [sub] r.qsubs⟩ := by
  rw [SublistResult.addSubToResult, queued, placed]
  dsimp only
  cases findQSlot (some q) r.qsubs <;> rfl

theorem addSubToResult_plain (plain : sub.queue = none) (r : SublistResult) :
    r.addSubToResult sub = ⟨r.psubs ++ [sub], r.qsubs⟩ := by
  rw [SublistResult.addSubToResult, plain]

theorem ExactResult.addSubToResult (exactly : ExactResult qw stored subject r)
    (matched : FilterMatches sub.subject subject) (weights : ∀ s ∈ stored, qw' s = qw s)
    (single : shadowed qw' sub = [sub]) :
    ExactResult qw' (sub :: stored) subject (r.addSubToResult sub) := by
  have before : ExactResult qw' stored subject r := exactly.congr (.refl _) (.refl _)
    (fun s inside => weights s (mem_of_mem_filter inside))
  cases kind : sub.queue with
  | none =>
    have plain : plainMatches (sub :: stored) subject = sub :: plainMatches stored subject :=
      filter_cons_of_pos (by simp [kind, matched])
    have queue : queueMatches (sub :: stored) subject = queueMatches stored subject :=
      filter_cons_of_neg (by simp [kind])
    rw [addSubToResult_plain kind]
    refine ⟨?_, before.grouped, queue ▸ before.qsubs, queue ▸ before.empty⟩
    rw [plain]
    exact (perm_append_singleton sub r.psubs).trans (before.psubs.cons sub)
  | some q =>
    have plain : plainMatches (sub :: stored) subject = plainMatches stored subject :=
      filter_cons_of_neg (by simp [kind])
    have queue : queueMatches (sub :: stored) subject = sub :: queueMatches stored subject :=
      filter_cons_of_pos (by simp [kind, matched])
    rw [addSubToResult_queue kind]
    refine ⟨plain ▸ before.psubs, before.grouped.placed (by simp [kind]), ?_, ?_⟩
    · rw [queue, flatMap_cons, single, singleton_append]
      refine (flatten_placed before.grouped).trans ((perm_append_singleton sub _).trans ?_)
      exact before.qsubs.cons sub
    · rw [queue]
      exact iff_of_false (placed_ne_nil q [sub] r.qsubs) (cons_ne_nil _ _)

end

/-- A call on a sublist. A weight is set before the insert or the update that makes it known. -/
inductive Call where
  | insert (orders : Orders) (sub : Subscription) (weight : Int)
  | remove (sub : Subscription)
  | removeBatch (subs : List Subscription)
  | updateRemoteQSub (sub : Subscription) (weight : Int)
  | matchSubject (orders : Orders) (subject : Bytes)
  | hasInterest (subject : Bytes)
  | reduceCacheCount (order : Table.Order (Bytes × SublistResult))

def setWeight (qw : Subscription → Int) (sub : Subscription) (weight : Int) : Subscription → Int :=
  fun s => if s = sub then weight else qw s

def Sublist.after (s : Sublist) (qw : Subscription → Int) : Call → Sublist
  | .insert orders sub _ => (s.insert orders sub).1
  | .remove sub => (s.remove sub true).1
  | .removeBatch subs => s.removeBatch subs
  | .updateRemoteQSub sub _ => s.updateRemoteQSub sub
  | .matchSubject orders subject => (s.matchSubject orders qw subject).1
  | .hasInterest _ => s
  | .reduceCacheCount order => s.reduceCacheCount order

structure Twins where
  cached : Sublist
  uncached : Sublist
  qw : Subscription → Int
  stored : List Subscription

namespace Twins

def new : Twins := ⟨.newSublist true, .newSublist false, fun _ => 0, []⟩

def weights (t : Twins) : Call → Subscription → Int
  | .insert _ sub weight => setWeight t.qw sub weight
  | .updateRemoteQSub sub weight => setWeight t.qw sub weight
  | _ => t.qw

def storedAfter (t : Twins) : Call → List Subscription
  | .insert _ sub _ => sub :: t.stored
  | .remove sub => t.stored.erase sub
  | .removeBatch subs => subs.foldl List.erase t.stored
  | _ => t.stored

def step (t : Twins) (call : Call) : Twins :=
  ⟨t.cached.after (t.weights call) call, t.uncached.after (t.weights call) call, t.weights call,
    t.storedAfter call⟩

def Distinct (t : Twins) : Call → Prop
  | .insert _ sub _ => ValidTokens (tokens sub.subject) ∧ sub ∉ t.stored
  | _ => True

/-- The same plain subscriptions, and the same members of each queue equally often. -/
structure Same (r r' : SublistResult) : Prop where
  psubs : r.psubs.Perm r'.psubs
  qsubs : ∀ s, r.qsubs.flatten.count s = r'.qsubs.flatten.count s
  grouped : Grouped r.qsubs ∧ Grouped r'.qsubs

/-- Every `Match` and `HasInterest` answers as without the cache. -/
def Coherent (t : Twins) : Prop :=
  ∀ orders orders' subject,
    Same (t.cached.matchSubject orders t.qw subject).2
      (t.uncached.matchSubject orders' t.qw subject).2 ∧
    (t.cached.hasInterest subject = true ↔
      (t.uncached.matchSubject orders' t.qw subject).2 ≠ emptyResult)

/-- A remote queue subscription with a weight other than one comes when no cached subject matches
it. -/
def Unseen (t : Twins) : Call → Prop
  | .insert _ sub weight => isRemoteQSub sub = true → weight ≠ 1 →
      ∀ e ∈ t.cached.cache.getD [], ¬ FilterMatches sub.subject e.1
  | _ => True

def EntryOk (qw : Subscription → Int) (stored : List Subscription) (e : Bytes × SublistResult) :
    Prop :=
  [] ∉ tokens e.1 ∧ ExactResult qw stored e.1 e.2

structure Inv (t : Twins) : Prop where
  cached : Subscribed t.cached t.stored
  uncached : Subscribed t.uncached t.stored
  off : t.uncached.cache = none
  entries : ∀ e ∈ t.cached.cache.getD [], EntryOk t.qw t.stored e
  on : t.cached.cache.isSome = true

end Twins

/-! ### The entries of the cache after a change -/

section
variable {s : Sublist} {sub : Subscription} {e' : Bytes × SublistResult}

theorem mem_modify {V : Type} {t : List (Bytes × V)} {key : Bytes} {f : V → V} {e' : Bytes × V}
    (inside : e' ∈ Table.modify t key f) :
    (∃ v, (key, v) ∈ t ∧ e' = (key, f v)) ∨ (e' ∈ t ∧ e'.1 ≠ key) := by
  unfold Table.modify at inside
  cases found : Table.get t key with
  | none =>
    rw [found] at inside
    refine .inr ⟨inside, ?_⟩
    rintro rfl
    exact get_eq_none_iff.mp found (mem_map_of_mem inside)
  | some v =>
    rw [found] at inside
    rcases mem_cons.mp inside with rfl | rest
    · exact .inl ⟨v, mem_of_get found, rfl⟩
    · obtain ⟨inside, other⟩ := mem_filter.mp rest
      exact .inr ⟨inside, by simpa using other⟩

theorem mem_addToCache (valid : ValidTokens (tokens sub.subject))
    (full : ∀ e ∈ s.cache.getD [], [] ∉ tokens e.1)
    (inside : e' ∈ (s.addToCache sub.subject sub).cache.getD []) :
    ∃ r, (e'.1, r) ∈ s.cache.getD [] ∧
      e'.2 = if FilterMatches sub.subject e'.1 then r.addSubToResult sub else r := by
  cases cache : s.cache with
  | none => simp [Sublist.addToCache, cache] at inside
  | some entries =>
    rw [cache] at full
    simp only [Sublist.addToCache, cache, map_some, getD_some] at inside full ⊢
    split at inside
    next literal =>
      rcases mem_modify inside with ⟨r, member, rfl⟩ | ⟨member, other⟩
      · exact ⟨r, member, by simp [filterMatches_literal literal]⟩
      · exact ⟨e'.2, member, by simp [filterMatches_literal literal, other]⟩
    obtain ⟨e, member, rfl⟩ := mem_map.mp inside
    refine ⟨e.2, member, ?_⟩
    have same := matchLiteral_iff valid (full e member)
    by_cases matched : FilterMatches sub.subject e.1
    · simp [matched, same.mpr matched]
    · simp [matched, mt same.mp matched]

theorem get_addToCache {key : Bytes}
    (found : ∃ r, s.cache.bind (fun cache => Table.get cache key) = some r) :
    ∃ r, (s.addToCache sub.subject sub).cache.bind (fun cache => Table.get cache key) = some r := by
  cases cache : s.cache with
  | none => simp [cache] at found
  | some entries =>
    obtain ⟨r, found⟩ := found
    simp only [cache, bind_some] at found
    simp only [Sublist.addToCache, cache, map_some, bind_some]
    split
    · rw [get_modify, found]
      split <;> simp
    have read := get_map entries
      (fun k r => if matchLiteral k sub.subject then r.addSubToResult sub else r) key
    rw [found] at read
    exact ⟨_, read⟩

theorem mem_of_removeFromCache {subject : Bytes}
    (inside : e' ∈ (s.removeFromCache subject).cache.getD []) : e' ∈ s.cache.getD [] := by
  cases cache : s.cache with
  | none => simp [Sublist.removeFromCache, cache] at inside
  | some entries =>
    simp only [Sublist.removeFromCache, cache, map_some, getD_some] at inside ⊢
    split at inside
    · exact mem_of_mem_filter inside
    · exact mem_of_mem_filter inside

/-- What stays in the cache when a subscription goes is not matched by it. -/
theorem not_matches_of_removeFromCache (valid : ValidTokens (tokens sub.subject))
    (full : ∀ e ∈ s.cache.getD [], [] ∉ tokens e.1)
    (inside : e' ∈ (s.removeFromCache sub.subject).cache.getD []) :
    ¬ FilterMatches sub.subject e'.1 := by
  have named := full e' (mem_of_removeFromCache inside)
  cases cache : s.cache with
  | none => simp [Sublist.removeFromCache, cache] at inside
  | some entries =>
    simp only [Sublist.removeFromCache, cache, map_some, getD_some] at inside
    split at inside
    next literal =>
      have other := (mem_filter.mp inside).2
      simpa [filterMatches_literal literal] using other
    · have other := (mem_filter.mp inside).2
      rw [← matchLiteral_iff valid named]
      simpa using other

end

/-! ### Answers -/

theorem Sublist.root_matchSubject (s : Sublist) (orders : Orders) (qw : Subscription → Int)
    (subject : Bytes) : (s.matchSubject orders qw subject).1.root = s.root := by
  unfold Sublist.matchSubject
  split
  · rfl
  · split <;> rfl

variable {subject : Bytes} {r : SublistResult} {qw : Subscription → Int}
  {stored : List Subscription}

theorem Sublist.matchSubject_cached {s : Sublist}
    (found : s.cache.bind (fun cache => Table.get cache subject) = some r) (orders : Orders)
    (qw : Subscription → Int) : (s.matchSubject orders qw subject).2 = r := by
  simp only [Sublist.matchSubject, found]

theorem Sublist.matchSubject_missing {s : Sublist}
    (missing : s.cache.bind (fun cache => Table.get cache subject) = none)
    (full : [] ∉ tokens subject) (orders : Orders) (qw : Subscription → Int) :
    (s.matchSubject orders qw subject).2 = s.matchTrie orders qw (tokens subject) := by
  simp only [Sublist.matchSubject, missing, matchTokens_eq full]

theorem ExactResult.same {r' : SublistResult} (exactly : ExactResult qw stored subject r)
    (exactly' : ExactResult qw stored subject r') : Twins.Same r r' :=
  ⟨exactly.psubs.trans exactly'.psubs.symm,
    fun s => (exactly.qsubs.trans exactly'.qsubs.symm).count_eq s, exactly.grouped, exactly'.grouped⟩

theorem ExactResult.count (exactly : ExactResult qw stored subject r) (nodup : stored.Nodup)
    (s : Subscription) :
    r.qsubs.flatten.count s = if s ∈ queueMatches stored subject then copies qw s else 0 := by
  rw [exactly.qsubs.count_eq]
  exact count_shadowed qw (nodup.filter _) s

theorem queue_of_isRemoteQSub {sub : Subscription} (remote : isRemoteQSub sub = true) :
    ∃ q, sub.queue = some q := by
  simp only [isRemoteQSub, Bool.and_eq_true] at remote
  exact isSome_iff_exists.mp remote.1

theorem ExactResult.ne_empty_iff (exactly : ExactResult qw stored subject r) :
    r.psubs.length + r.qsubs.length > 0 ↔ ∃ s ∈ stored, FilterMatches s.subject subject := by
  have plain : r.psubs = [] ↔ plainMatches stored subject = [] := by
    rw [← List.isEmpty_iff, ← List.isEmpty_iff, exactly.psubs.isEmpty_eq]
  have nothing : ¬ (r.psubs.length + r.qsubs.length > 0) ↔ r.psubs = [] ∧ r.qsubs = [] := by
    rw [← length_eq_zero_iff, ← length_eq_zero_iff]
    omega
  rw [← not_iff_not, nothing, plain, exactly.empty, plainMatches, queueMatches,
    filter_eq_nil_iff, filter_eq_nil_iff]
  simp only [decide_eq_true_eq, not_exists, not_and]
  constructor
  · rintro ⟨noPlain, noQueue⟩ s inside
    by_cases kind : s.queue = none
    · exact noPlain s inside kind
    · exact noQueue s inside kind
  · intro none_
    exact ⟨fun s inside _ => none_ s inside, fun s inside _ => none_ s inside⟩

theorem ne_emptyResult : r ≠ emptyResult ↔ r.psubs.length + r.qsubs.length > 0 := by
  obtain ⟨psubs, qsubs⟩ := r
  cases psubs <;> cases qsubs <;> simp [emptyResult]

namespace Twins.Inv
variable {t : Twins}

theorem lookup (inv : Inv t) {subject : Bytes} {r : SublistResult}
    (found : t.cached.cache.bind (fun cache => Table.get cache subject) = some r) :
    [] ∉ tokens subject ∧ ExactResult t.qw t.stored subject r := by
  obtain ⟨cache, on, found⟩ := bind_eq_some_iff.mp found
  exact inv.entries (subject, r) (by rw [on]; exact mem_of_get found)

theorem coherent (inv : Inv t) : Coherent t := by
  intro orders orders' subject
  by_cases full : [] ∉ tokens subject
  · have plain := Sublist.matchSubject_missing (by rw [inv.off, bind_none]) full orders' t.qw
    have exactly := inv.uncached.matchTrie orders' t.qw subject
    rw [plain, ne_emptyResult, exactly.ne_empty_iff]
    cases found : t.cached.cache.bind (fun cache => Table.get cache subject) with
    | some r =>
      have own := (inv.lookup found).2
      refine ⟨?_, ?_⟩
      · rw [Sublist.matchSubject_cached found]
        exact own.same exactly
      · rw [← own.ne_empty_iff, Sublist.hasInterest, Sublist.hasInterestNum]
        simp only [found, any_some, decide_eq_true_eq]
        by_cases some_ : r.psubs.length + r.qsubs.length > 0
        · simp [some_]
        · -- an empty result is looked for in the trie again
          rw [if_neg some_, matchTokens_eq full, elim_some, inv.cached.interest_iff subject,
            own.ne_empty_iff]
    | none =>
      refine ⟨?_, ?_⟩
      · rw [Sublist.matchSubject_missing found full]
        exact (inv.cached.matchTrie orders t.qw subject).same exactly
      · rw [Sublist.hasInterest, Sublist.hasInterestNum]
        simp only [found, any_none, Bool.false_eq_true, if_false, matchTokens_eq full, elim_some]
        exact inv.cached.interest_iff subject _
  · have refused : matchTokens subject = none := if_pos (not_not.mp full)
    have missing : t.cached.cache.bind (fun cache => Table.get cache subject) = none := by
      by_contra found
      obtain ⟨r, found⟩ := ne_none_iff_exists'.mp found
      exact full (inv.lookup found).1
    have empty : Same emptyResult emptyResult := ⟨.refl _, fun _ => rfl, Grouped.nil, Grouped.nil⟩
    simp only [Sublist.matchSubject, missing, inv.off, bind_none, refused]
    refine ⟨empty, ?_⟩
    simp [Sublist.hasInterest, Sublist.hasInterestNum, missing, refused]

theorem new : Inv Twins.new :=
  ⟨.newSublist true, .newSublist false, rfl, by simp [Twins.new, Sublist.newSublist], rfl⟩

theorem full (inv : Inv t) : ∀ e ∈ t.cached.cache.getD [], [] ∉ tokens e.1 :=
  fun e inside => (inv.entries e inside).1

variable {sub : Subscription}

theorem shadowed_single {qw : Subscription → Int} (single : isRemoteQSub sub = true → qw sub = 1) :
    shadowed qw sub = [sub] := by
  unfold shadowed
  split
  next remote =>
    rw [single remote]
    rfl
  · rfl

theorem insert (inv : Inv t) (orders : Orders) {weight : Int}
    (distinct : Distinct t (.insert orders sub weight))
    (unseen : Unseen t (.insert orders sub weight)) : Inv (t.step (.insert orders sub weight)) := by
  obtain ⟨valid, fresh⟩ := distinct
  have cache := Subscribed.cache_insert t.cached orders valid
  refine ⟨(inv.cached.insert orders valid fresh).1, (inv.uncached.insert orders valid fresh).1, ?_, ?_,
    ?_⟩
  · refine (Subscribed.cache_insert t.uncached orders valid).trans ?_
    simp [Sublist.addToCache, inv.off]
  · intro e' inside
    have inside : e' ∈ (t.cached.addToCache sub.subject sub).cache.getD [] := cache ▸ inside
    obtain ⟨r, member, result⟩ := mem_addToCache valid inv.full inside
    obtain ⟨named, exactly⟩ := inv.entries _ member
    have weights (s : Subscription) (stored : s ∈ t.stored) : setWeight t.qw sub weight s = t.qw s := by
      rw [setWeight, if_neg]
      rintro rfl
      exact fresh stored
    refine ⟨named, ?_⟩
    rw [result]
    split
    next matched =>
      refine exactly.addSubToResult matched weights (shadowed_single (fun remote => ?_))
      refine (if_pos rfl).trans ?_
      by_contra heavy
      exact unseen remote heavy _ member matched
    next matched => exact exactly.cons matched weights
  · refine (congrArg Option.isSome cache).trans ?_
    rw [Sublist.addToCache, isSome_map]
    exact inv.on

theorem cache_remove {s : Sublist} {stored : List Subscription} (subscribed : Subscribed s stored)
    (inside : sub ∈ stored) :
    (s.remove sub true).1.cache = (s.removeFromCache sub.subject).cache := by
  obtain ⟨-, last, result, -⟩ := subscribed.remove inside true
  unfold Sublist.remove at result ⊢
  split
  next failed => simp [failed] at result
  · rfl

theorem remove (inv : Inv t) (sub : Subscription) : Inv (t.step (.remove sub)) := by
  by_cases inside : sub ∈ t.stored
  · have valid := inv.cached.valid sub inside
    have cache := cache_remove inv.cached inside
    refine ⟨(inv.cached.remove inside true).1, (inv.uncached.remove inside true).1, ?_, ?_, ?_⟩
    · refine (cache_remove inv.uncached inside).trans ?_
      simp [Sublist.removeFromCache, inv.off]
    · intro e' member
      have member : e' ∈ (t.cached.removeFromCache sub.subject).cache.getD [] := cache ▸ member
      obtain ⟨named, exactly⟩ := inv.entries e' (mem_of_removeFromCache member)
      exact ⟨named, exactly.erase (not_matches_of_removeFromCache valid inv.full member)⟩
    · refine (congrArg Option.isSome cache).trans ?_
      rw [Sublist.removeFromCache, isSome_map]
      exact inv.on
  · obtain ⟨e, failed⟩ := inv.cached.remove_missing inside true
    obtain ⟨e', failed'⟩ := inv.uncached.remove_missing inside true
    have same : t.step (.remove sub) = t := by
      simp only [step, Sublist.after, weights, storedAfter, failed, failed',
        erase_of_not_mem inside]
    rwa [same]

theorem removeAll {s : Sublist} {stored : List Subscription} (subscribed : Subscribed s stored)
    (subs : List Subscription) :
    Subscribed (subs.foldl (fun s sub => (s.remove sub false).1) s) (subs.foldl List.erase stored) := by
  induction subs generalizing s stored with
  | nil => exact subscribed
  | cons sub rest ih =>
    rw [foldl_cons, foldl_cons]
    apply ih
    by_cases inside : sub ∈ stored
    · exact (subscribed.remove inside false).1
    · obtain ⟨e, failed⟩ := subscribed.remove_missing inside false
      rw [failed, erase_of_not_mem inside]
      exact subscribed

theorem removeBatch (inv : Inv t) (subs : List Subscription) : Inv (t.step (.removeBatch subs)) := by
  have each {s : Sublist} (subscribed : Subscribed s t.stored) :
      Subscribed (s.removeBatch subs) (subs.foldl List.erase t.stored) := by
    unfold Sublist.removeBatch
    cases subs with
    | nil => exact subscribed
    | cons sub rest =>
      have off : Subscribed { s with cache := none } t.stored := subscribed.of_root rfl
      exact (removeAll off (sub :: rest)).of_root rfl
  refine ⟨each inv.cached, each inv.uncached, ?_, ?_, ?_⟩
  · simp only [step, Sublist.after, Sublist.removeBatch]
    split
    · exact inv.off
    · simp [inv.off]
  · intro e inside
    simp only [step, Sublist.after, Sublist.removeBatch, inv.on] at inside
    cases subs with
    | nil => exact inv.entries e inside
    | cons sub rest => simp at inside
  · simp only [step, Sublist.after, Sublist.removeBatch]
    split
    · exact inv.on
    · simp [inv.on]

theorem updateRemoteQSub (inv : Inv t) (sub : Subscription) (weight : Int) :
    Inv (t.step (.updateRemoteQSub sub weight)) := by
  refine ⟨inv.cached.of_root rfl, inv.uncached.of_root rfl, ?_, ?_, ?_⟩
  · simp [step, Sublist.after, Sublist.updateRemoteQSub, Sublist.removeFromCache, inv.off]
  · intro e' member
    have member : e' ∈ (t.cached.removeFromCache sub.subject).cache.getD [] := member
    obtain ⟨named, exactly⟩ := inv.entries e' (mem_of_removeFromCache member)
    refine ⟨named, exactly.congr (.refl _) (.refl _) ?_⟩
    -- the entries left do not have the subscription
    intro s inside
    refine if_neg ?_
    rintro rfl
    obtain ⟨stored, kind⟩ := mem_filter.mp inside
    have matched := (of_decide_eq_true kind).2
    exact not_matches_of_removeFromCache (inv.cached.valid s stored) inv.full member matched
  · simp only [step, Sublist.after, Sublist.updateRemoteQSub, Sublist.removeFromCache, isSome_map]
    exact inv.on

theorem matchSubject (inv : Inv t) (orders : Orders) (subject : Bytes) :
    Inv (t.step (.matchSubject orders subject)) := by
  refine ⟨inv.cached.of_root (t.cached.root_matchSubject orders t.qw subject),
    inv.uncached.of_root (t.uncached.root_matchSubject orders t.qw subject), ?_, ?_, ?_⟩
  · simp only [step, Sublist.after, Sublist.matchSubject, weights, inv.off, bind_none]
    split
    · exact inv.off
    · simp
  · intro e member
    have member : e ∈ (t.cached.matchSubject orders t.qw subject).1.cache.getD [] := member
    unfold Sublist.matchSubject at member
    split at member
    · exact inv.entries e member
    split at member
    · exact inv.entries e member
    rename_i toks accepted
    obtain ⟨full, rfl⟩ := matchTokens_eq_some accepted
    obtain ⟨cache, on⟩ := isSome_iff_exists.mp inv.on
    simp only [on, map_some, getD_some, Table.set] at member
    rcases mem_cons.mp member with rfl | rest
    · exact ⟨full, inv.cached.matchTrie orders t.qw subject⟩
    · refine inv.entries e ?_
      rw [on]
      exact mem_of_mem_filter rest
  · simp only [step, Sublist.after, Sublist.matchSubject, weights]
    split
    · exact inv.on
    split
    · exact inv.on
    · rw [isSome_map]
      exact inv.on

theorem reduceCacheCount (inv : Inv t) (order : Table.Order (Bytes × SublistResult)) :
    Inv (t.step (.reduceCacheCount order)) := by
  refine ⟨inv.cached.of_root rfl, inv.uncached.of_root rfl, ?_, ?_, ?_⟩
  · simp [step, Sublist.after, Sublist.reduceCacheCount, inv.off]
  · intro e member
    simp only [step, Sublist.after, Sublist.reduceCacheCount] at member
    cases cache : t.cached.cache with
    | none => simp [cache] at member
    | some entries =>
      rw [cache, map_some, getD_some] at member
      have inside := (order.perm entries).mem_iff.mp (mem_of_mem_drop member)
      exact inv.entries e (by rw [cache]; exact inside)
  · simp only [step, Sublist.after, Sublist.reduceCacheCount, isSome_map]
    exact inv.on

theorem step (inv : Inv t) (call : Call) (distinct : Distinct t call) (unseen : Unseen t call) :
    Inv (t.step call) := by
  cases call with
  | insert orders sub weight => exact inv.insert orders distinct unseen
  | remove sub => exact inv.remove sub
  | removeBatch subs => exact inv.removeBatch subs
  | updateRemoteQSub sub weight => exact inv.updateRemoteQSub sub weight
  | matchSubject orders subject => exact inv.matchSubject orders subject
  | hasInterest subject => exact { inv with }
  | reduceCacheCount order => exact inv.reduceCacheCount order

/-- A weight other than one is not seen in a cached result: the subscription is added once. -/
theorem breaks (inv : Inv t) (call : Call) (distinct : Distinct t call) (seen : ¬ Unseen t call) :
    ¬ Coherent (t.step call) := by
  cases call with
  | insert orders sub weight =>
    obtain ⟨valid, fresh⟩ := distinct
    simp only [Unseen, not_forall, not_not] at seen
    obtain ⟨remote, weighted, e, member, matched⟩ := seen
    obtain ⟨q, queued⟩ := queue_of_isRemoteQSub remote
    obtain ⟨cache, on⟩ := isSome_iff_exists.mp inv.on
    -- the entry found after the insert was one before, with the subscription added
    obtain ⟨r', found⟩ : ∃ r', (t.cached.addToCache sub.subject sub).cache.bind
        (fun cache => Table.get cache e.1) = some r' := by
      refine get_addToCache ?_
      rw [on, bind_some, ← ne_none_iff_exists']
      intro none_
      rw [on] at member
      exact get_eq_none_iff.mp none_ (mem_map_of_mem member)
    obtain ⟨after, on', get'⟩ := bind_eq_some_iff.mp found
    have inside : (e.1, r') ∈ (t.cached.addToCache sub.subject sub).cache.getD [] := by
      rw [on']
      exact mem_of_get get'
    obtain ⟨r, before, result⟩ := mem_addToCache valid inv.full inside
    have result : r' = r.addSubToResult sub := result.trans (if_pos matched)
    have old := (inv.entries _ before).2
    have once : r'.qsubs.flatten.count sub = 1 := by
      rw [result, addSubToResult_queue queued, (flatten_placed old.grouped).count_eq,
        count_append, old.count inv.cached.nodup, if_neg]
      · simp
      · exact fun inside => fresh (mem_of_mem_filter inside)
    -- without the cache it is there as often as it weighs
    have exactly := ((inv.uncached.insert orders valid fresh).1).matchTrie orders
      (setWeight t.qw sub weight) e.1
    have often := exactly.count (inv.uncached.insert orders valid fresh).1.nodup sub
    have own : sub ∈ queueMatches (sub :: t.stored) e.1 :=
      mem_filter.mpr ⟨mem_cons_self, by simp [queued, matched]⟩
    have weight' : copies (setWeight t.qw sub weight) sub = weight.toNat := by
      simp [copies, remote, setWeight]
    rw [if_pos own, weight'] at often
    have missing : (t.uncached.insert orders sub).1.cache.bind
        (fun cache => Table.get cache e.1) = none := by
      simp [Subscribed.cache_insert t.uncached orders valid, Sublist.addToCache, inv.off]
    rw [← Subscribed.cache_insert t.cached orders valid] at found
    intro coherent
    have counts := (coherent orders orders e.1).1.qsubs sub
    simp only [Twins.step, Sublist.after, weights] at counts
    rw [Sublist.matchSubject_cached found, Sublist.matchSubject_missing missing (inv.full e member),
      once, often] at counts
    omega
  | _ => exact absurd trivial seen

end Twins.Inv

/-- Answers are as without the cache as long as no remote queue subscription with a weight other
than one comes for a subject in the cache. -/
theorem cache_coherent_iff (calls : List Call)
    (distinct : Along Twins.step Twins.Distinct .new calls) :
    (∀ n, Twins.Coherent (run Twins.step .new (calls.take n))) ↔
      Along Twins.step Twins.Unseen .new calls :=
  always_iff_along_of Twins.step Twins.Distinct Twins.Unseen Twins.Inv Twins.Coherent
    (fun _ => Twins.Inv.coherent) (fun _ call inv => inv.step call)
    (fun _ call inv => inv.breaks call) Twins.Inv.new calls distinct

instance (t : Twins) : (call : Call) → Decidable (Twins.Distinct t call)
  | .insert _ sub _ => inferInstanceAs (Decidable (ValidTokens (tokens sub.subject) ∧ sub ∉ t.stored))
  | .remove _ | .removeBatch _ | .updateRemoteQSub _ _ | .matchSubject _ _ | .hasInterest _
  | .reduceCacheCount _ => .isTrue trivial

instance (t : Twins) : (call : Call) → Decidable (Twins.Unseen t call)
  | .insert _ sub weight => inferInstanceAs (Decidable (isRemoteQSub sub = true → weight ≠ 1 →
      ∀ e ∈ t.cached.cache.getD [], ¬ FilterMatches sub.subject e.1))
  | .remove _ | .removeBatch _ | .updateRemoteQSub _ _ | .matchSubject _ _ | .hasInterest _
  | .reduceCacheCount _ => .isTrue trivial

/-- A remote queue subscription of weight 3 to "a" before the first message on "a", and one of
weight 1 after it. -/
theorem cache_coherent_weights :
    let first : Subscription := ⟨0, [97], some [113], true⟩
    let second : Subscription := ⟨1, [97], some [113], true⟩
    let calls : List Call :=
      [.insert .kept first 3, .matchSubject .kept [97], .insert .kept second 1]
    Along Twins.step Twins.Distinct .new calls ∧
      ∀ n, Twins.Coherent (run Twins.step .new (calls.take n)) := by
  intro first second calls
  have distinct : Along Twins.step Twins.Distinct .new calls := by decide +kernel
  exact ⟨distinct, (cache_coherent_iff calls distinct).mpr (by decide +kernel)⟩

/-- A message on "a" without subscriptions, then a remote queue subscription of weight 3 to "a": the
next message finds it once in the cache, and three times without it. -/
theorem cached_weight_lost :
    let sub : Subscription := ⟨0, [97], some [113], true⟩
    let calls : List Call := [.matchSubject .kept [97], .insert .kept sub 3]
    let t := run Twins.step .new calls
    Along Twins.step Twins.Distinct .new calls ∧
      (t.cached.matchSubject .kept t.qw [97]).2.qsubs = [[sub]] ∧
      (t.uncached.matchSubject .kept t.qw [97]).2.qsubs = [[sub, sub, sub]] ∧ ¬ t.Coherent := by
  intro sub calls t
  have cached : (t.cached.matchSubject .kept t.qw [97]).2.qsubs = [[sub]] := by decide +kernel
  have uncached : (t.uncached.matchSubject .kept t.qw [97]).2.qsubs = [[sub, sub, sub]] := by
    decide +kernel
  refine ⟨by decide +kernel, cached, uncached, ?_⟩
  intro coherent
  have counts := (coherent .kept .kept [97]).1.qsubs sub
  rw [cached, uncached] at counts
  simp at counts

end LinearNats.Sublists
