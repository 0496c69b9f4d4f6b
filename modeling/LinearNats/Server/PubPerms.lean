import LinearNats.Sublist.Results

/-! The publish permissions of a connection, with the cache of the answers given before and the
subjects of requests that may be answered. Locks are left out, and with them `prun`. -/
namespace LinearNats.Perms
open Server Sublists List

inductive ConnKind where
  | client | router | gateway | system | leaf | jetStream | account
  deriving DecidableEq

/-- The subjects are those that `checkPermSubjectArray` lets through to `Insert`. -/
structure SubjectPermission where
  allow : Option (List Bytes)
  deny : List Bytes
  allowValid : ∀ subject ∈ allow.getD [], ValidTokens (tokens subject)
  denyValid : ∀ subject ∈ deny, ValidTokens (tokens subject)

structure ResponsePermission where
  maxMsgs : Int
  expires : Int

structure Permissions where
  publish : Option SubjectPermission
  response : Option ResponsePermission

structure Resp where
  t : Int
  n : Int

structure ConnPerms where
  allow : Option Sublist
  deny : Option Sublist
  resp : Option ResponsePermission
  pcache : List (Bytes × Bool)
  pcsz : Int

structure Conn where
  kind : ConnKind
  perms : Option ConnPerms
  replies : Option (List (Bytes × Resp))
  repliesSincePrune : Nat
  lastReplyPrune : Int

def mqttPrefix : Bytes := [36, 77, 81, 84, 84, 46]

def maxPermCacheSize : Int := 128
def pruneSize : Nat := 32
def maxPruneAtOnce : Nat := 1000
def replyPermLimit : Nat := 4096
def replyPruneTime : Int := 1000000000

section
variable (orders : Orders)

def permSublist (slcache : Bool) (subjects : List Bytes) : Sublist :=
  subjects.zipIdx.foldl (fun s e => (s.insert orders ⟨e.2, e.1, none, false⟩).1)
    (.newSublist slcache)

def setPermissions (slcache : Bool) (c : Conn) : Option Permissions → Conn
  | none => c
  | some perms =>
    { c with
      perms := some {
        allow := (perms.publish.bind (·.allow)).map (permSublist orders slcache)
        deny := (perms.publish.map (·.deny)).bind (fun deny =>
          if deny.length > 0 then some (permSublist orders slcache deny) else none)
        resp := perms.response
        pcache := []
        pcsz := 0 }
      replies := if perms.response.isSome then some [] else c.replies }

end

/-! ### The check -/

/-- The function given to `Range`, over the entries in the order of the map; `pcsz` does not change
meanwhile. -/
def pruneRange (pcsz : Int) :
    List (Bytes × Bool) → List (Bytes × Bool) → Nat → List (Bytes × Bool) × Nat
  | [], pcache, r => (pcache, r)
  | e :: rest, pcache, r =>
    let pcache := Table.erase pcache e.1
    let r := r + 1
    if (r > pruneSize ∧ pcsz < maxPermCacheSize) ∨ r > maxPruneAtOnce then (pcache, r)
    else pruneRange pcsz rest pcache r

def prunePubPermsCache (order : Table.Order (Bytes × Bool)) : Nat → ConnPerms → ConnPerms
  | 0, p => p
  | i + 1, p =>
    let (pcache, r) := pruneRange p.pcsz (order.visit p.pcache) p.pcache 0
    let p := { p with pcache, pcsz := p.pcsz - r }
    if p.pcsz ≤ maxPermCacheSize then p else prunePubPermsCache order i p

def ConnPerms.allowAllows (p : ConnPerms) (kind : ConnKind) (subject : Bytes) : Bool :=
  let checkAllow := !(kind != .client && mqttPrefix.isPrefixOf subject)
  match p.allow with
  | some allow => if checkAllow then (allow.numInterest subject).1 != 0 else true
  | none => true

def ConnPerms.listsAllow (p : ConnPerms) (kind : ConnKind) (subject : Bytes) : Bool :=
  let allowed := p.allowAllows kind subject
  match p.deny with
  | some deny => if allowed then (deny.numInterest subject).1 == 0 else allowed
  | none => allowed

namespace Conn

def responseAllowed (now : Int) (c : Conn) (subject : Bytes) : Conn × Bool :=
  match c.perms.bind (·.resp) with
  | none => (c, false)
  | some perm =>
    match c.replies.bind (fun replies => Table.get replies subject) with
    | none => (c, false)
    | some resp =>
      let resp := { resp with n := resp.n + 1 }
      if perm.maxMsgs > 0 ∧ resp.n > perm.maxMsgs then
        ({ c with replies := c.replies.map (fun replies => Table.erase replies subject) }, false)
      else if perm.expires > 0 ∧ now - resp.t > perm.expires then
        ({ c with replies := c.replies.map (fun replies => Table.erase replies subject) }, false)
      else ({ c with replies := c.replies.map (fun replies => Table.set replies subject resp) }, true)

section
variable (order : Table.Order (Bytes × Bool)) (now : Int)

def pubAllowedFullCheck (c : Conn) (subject : Bytes) (fullCheck : Bool) : Conn × Bool :=
  match c.perms with
  | none => (c, true)
  | some p =>
    if p.allow.isNone && p.deny.isNone then (c, true)
    else
      match Table.get p.pcache subject with
      | some v => (c, v)
      | none =>
        let allowed := p.listsAllow c.kind subject
        if !allowed && fullCheck && p.resp.isSome then c.responseAllowed now subject
        else
          let p := { p with pcache := Table.set p.pcache subject allowed, pcsz := p.pcsz + 1 }
          let p := if p.pcsz > maxPermCacheSize then prunePubPermsCache order 5 p else p
          ({ c with perms := some p }, allowed)

def pruneReplyPerms (c : Conn) : Conn :=
  match c.perms.bind (·.resp) with
  | none => c
  | some perm =>
    { c with
      replies := c.replies.map (fun replies => replies.filter (fun e =>
        !((perm.maxMsgs > 0 && e.2.n ≥ perm.maxMsgs) ||
          (perm.expires > 0 && now - e.2.t > perm.expires))))
      repliesSincePrune := 0
      lastReplyPrune := now }

/-- What `deliverMsg` does, once a message has been queued for a connection, with the subject to
which an answer may be sent. -/
def trackReply (c : Conn) (reply : Bytes) : Conn :=
  if c.replies.isSome && !reply.isEmpty then
    let (c, allowed) := c.pubAllowedFullCheck order now reply true
    if allowed then c
    else
      let c := { c with
        replies := c.replies.map (fun replies => Table.set replies reply ⟨now, 0⟩)
        repliesSincePrune := c.repliesSincePrune + 1 }
      if c.repliesSincePrune > replyPermLimit ∨ now - c.lastReplyPrune > replyPruneTime then
        c.pruneReplyPerms now
      else c
  else c

end

end Conn

inductive PermCall where
  | check (order : Table.Order (Bytes × Bool)) (now : Int) (subject : Bytes) (fullCheck : Bool)
  | trackReply (order : Table.Order (Bytes × Bool)) (now : Int) (reply : Bytes)
  | prune (order : Table.Order (Bytes × Bool))

def Conn.call (c : Conn) : PermCall → Conn
  | .check order now subject fullCheck => (c.pubAllowedFullCheck order now subject fullCheck).1
  | .trackReply order now reply => c.trackReply order now reply
  | .prune order => { c with perms := c.perms.map (prunePubPermsCache order 5) }

/-! ### What a call keeps -/

def ConnPerms.Honest (p : ConnPerms) (kind : ConnKind) : Prop :=
  ∀ subject v, Table.get p.pcache subject = some v → v = p.listsAllow kind subject

theorem ConnPerms.listsAllow_congr {p p' : ConnPerms} (allow : p'.allow = p.allow)
    (deny : p'.deny = p.deny) (kind : ConnKind) (subject : Bytes) :
    p'.listsAllow kind subject = p.listsAllow kind subject := by
  rw [listsAllow, listsAllow, allowAllows, allowAllows, allow, deny]

def ConnPerms.given (p : ConnPerms) : Option Sublist × Option Sublist × Option ResponsePermission :=
  (p.allow, p.deny, p.resp)

theorem get_pruneRange (pcsz : Int) (entries pcache : List (Bytes × Bool)) (r : Nat) {subject : Bytes}
    {v : Bool} (cached : Table.get (pruneRange pcsz entries pcache r).1 subject = some v) :
    Table.get pcache subject = some v := by
  induction entries generalizing pcache r with
  | nil => exact cached
  | cons e rest ih =>
    rw [pruneRange] at cached
    split at cached
    · exact (Table.get_of_erase cached).2
    · exact (Table.get_of_erase (ih _ _ cached)).2

theorem prunePubPermsCache_given (order : Table.Order (Bytes × Bool)) (attempts : Nat)
    (p : ConnPerms) : (prunePubPermsCache order attempts p).given = p.given := by
  induction attempts generalizing p with
  | zero => rfl
  | succ i ih =>
    rw [prunePubPermsCache]
    simp only
    split
    · rfl
    · rw [ih]
      rfl

theorem get_prunePubPermsCache (order : Table.Order (Bytes × Bool)) (attempts : Nat) (p : ConnPerms)
    {subject : Bytes} {v : Bool}
    (cached : Table.get (prunePubPermsCache order attempts p).pcache subject = some v) :
    Table.get p.pcache subject = some v := by
  induction attempts generalizing p with
  | zero => exact cached
  | succ i ih =>
    rw [prunePubPermsCache] at cached
    simp only at cached
    split at cached
    · exact get_pruneRange _ _ _ _ cached
    · exact get_pruneRange _ _ _ _ (ih _ cached)

theorem ConnPerms.Honest.prune {p : ConnPerms} {kind : ConnKind} (honest : p.Honest kind)
    (order : Table.Order (Bytes × Bool)) (attempts : Nat) :
    (prunePubPermsCache order attempts p).Honest kind := by
  intro subject v cached
  have same := prunePubPermsCache_given order attempts p
  rw [given, given, Prod.mk.injEq, Prod.mk.injEq] at same
  rw [honest subject v (get_prunePubPermsCache order attempts p cached),
    listsAllow_congr same.1 same.2.1]

theorem ConnPerms.Honest.store {p : ConnPerms} {kind : ConnKind} (honest : p.Honest kind)
    (subject : Bytes) (pcsz : Int) :
    { p with pcache := Table.set p.pcache subject (p.listsAllow kind subject), pcsz }.Honest kind :=
  Table.all_set honest subject rfl

namespace Conn

def Honest (c : Conn) : Prop := ∀ p, c.perms = some p → p.Honest c.kind

/-- The same permissions, with a cache that is as honest. -/
structure Keeps (c c' : Conn) : Prop where
  kind : c'.kind = c.kind
  given : c'.perms.map ConnPerms.given = c.perms.map ConnPerms.given
  honest : c.Honest → c'.Honest

theorem Keeps.of_same {c c' : Conn} (kind : c'.kind = c.kind) (perms : c'.perms = c.perms) :
    c.Keeps c' := by
  refine ⟨kind, by rw [perms], ?_⟩
  intro honest p there
  rw [kind]
  exact honest p (perms ▸ there)

theorem Keeps.trans {c d e : Conn} (first : c.Keeps d) (second : d.Keeps e) : c.Keeps e :=
  ⟨second.kind.trans first.kind, second.given.trans first.given, second.honest ∘ first.honest⟩

theorem keeps_responseAllowed (now : Int) (c : Conn) (subject : Bytes) :
    c.Keeps (c.responseAllowed now subject).1 := by
  rw [responseAllowed]
  split
  · exact .of_same rfl rfl
  split
  · exact .of_same rfl rfl
  simp only
  split
  · exact .of_same rfl rfl
  · split <;> exact .of_same rfl rfl

theorem keeps_pubAllowedFullCheck (order : Table.Order (Bytes × Bool)) (now : Int) (c : Conn)
    (subject : Bytes) (fullCheck : Bool) :
    c.Keeps (c.pubAllowedFullCheck order now subject fullCheck).1 := by
  rw [pubAllowedFullCheck]
  split
  · exact .of_same rfl rfl
  rename_i p perms
  split
  · exact .of_same rfl rfl
  split
  · exact .of_same rfl rfl
  simp only
  split
  · exact keeps_responseAllowed now c subject
  refine ⟨rfl, ?_, ?_⟩
  · rw [perms, Option.map_some, Option.map_some]
    split
    · rw [prunePubPermsCache_given]
      rfl
    · rfl
  · intro honest p' there
    have stored := (honest p perms).store subject (p.pcsz + 1)
    cases there
    split
    · exact stored.prune order 5
    · exact stored

theorem keeps_pruneReplyPerms (now : Int) (c : Conn) : c.Keeps (c.pruneReplyPerms now) := by
  rw [pruneReplyPerms]
  split <;> exact .of_same rfl rfl

theorem keeps_trackReply (order : Table.Order (Bytes × Bool)) (now : Int) (c : Conn)
    (reply : Bytes) : c.Keeps (c.trackReply order now reply) := by
  have checked := c.keeps_pubAllowedFullCheck order now reply true
  rw [trackReply]
  split
  · simp only
    split
    · exact checked
    refine checked.trans ?_
    split
    · refine Keeps.trans ?_ (keeps_pruneReplyPerms now _)
      exact .of_same rfl rfl
    · exact .of_same rfl rfl
  · exact .of_same rfl rfl

theorem keeps_call (c : Conn) (call : PermCall) : c.Keeps (c.call call) := by
  cases call with
  | check order now subject fullCheck => exact c.keeps_pubAllowedFullCheck order now subject fullCheck
  | trackReply order now reply => exact c.keeps_trackReply order now reply
  | prune order =>
    refine ⟨rfl, ?_, ?_⟩
    · rw [call, Option.map_map]
      exact congrArg (Option.map · c.perms) (funext (prunePubPermsCache_given order 5))
    · intro honest p there
      obtain ⟨q, perms, rfl⟩ := Option.map_eq_some_iff.mp there
      exact (honest q perms).prune order 5

theorem keeps_run (c : Conn) (calls : List PermCall) : c.Keeps (run call c calls) :=
  run_invariant call c.Keeps (fun d next kept => kept.trans (d.keeps_call next))
    (.of_same rfl rfl) calls

end Conn

/-! ### What the lists say -/

section
variable (orders : Orders) (slcache : Bool)

def EntryMatches (entry subject : Bytes) : Prop := [] ∉ tokens subject ∧ FilterMatches entry subject

instance (entry subject : Bytes) : Decidable (EntryMatches entry subject) :=
  inferInstanceAs (Decidable (_ ∧ _))

theorem permSublist_subscribed (subjects : List Bytes)
    (valid : ∀ subject ∈ subjects, ValidTokens (tokens subject)) :
    ∃ stored, Subscribed (permSublist orders slcache subjects) stored ∧
      (∀ sub ∈ stored, sub.queue = none) ∧ stored.map (·.subject) = subjects.reverse ∧
      (∀ sub ∈ stored, sub.id < subjects.length) ∧
      ∀ cache ∈ (permSublist orders slcache subjects).cache, cache = [] := by
  induction subjects using List.reverseRecOn with
  | nil =>
    refine ⟨[], Subscribed.newSublist slcache, by simp, rfl, by simp, ?_⟩
    intro cache there
    cases slcache <;> simp_all [permSublist, Sublist.newSublist]
  | append_singleton subjects subject ih =>
    obtain ⟨stored, subscribed, plain, entries, ids, empty⟩ :=
      ih (fun s inside => valid s (mem_append_left _ inside))
    have grown : permSublist orders slcache (subjects ++ [subject]) =
        ((permSublist orders slcache subjects).insert orders
          ⟨subjects.length, subject, none, false⟩).1 := by
      simp [permSublist, zipIdx_append]
    have fresh : (⟨subjects.length, subject, none, false⟩ : Subscription) ∉ stored :=
      fun inside => lt_irrefl _ (ids _ inside)
    have ok : ValidTokens (tokens subject) := valid subject (by simp)
    rw [grown]
    refine ⟨_, (subscribed.insert orders ok fresh).1, ?_, ?_, ?_, ?_⟩
    · simpa using plain
    · simp [entries]
    · rw [length_append, length_singleton]
      exact forall_mem_cons.mpr ⟨Nat.lt_succ_self _, fun s inside => Nat.lt_succ_of_lt (ids s inside)⟩
    · intro cache there
      rw [Option.mem_def, Subscribed.cache_insert _ orders ok, Sublist.addToCache] at there
      obtain ⟨before, was, rfl⟩ := Option.map_eq_some_iff.mp there
      rw [empty before was]
      split <;> rfl

theorem numInterest_permSublist {subjects : List Bytes}
    (valid : ∀ subject ∈ subjects, ValidTokens (tokens subject)) (subject : Bytes) :
    ((permSublist orders slcache subjects).numInterest subject).1 ≠ 0 ↔
      ∃ entry ∈ subjects, EntryMatches entry subject := by
  obtain ⟨stored, subscribed, plain, entries, -, empty⟩ :=
    permSublist_subscribed orders slcache subjects valid
  have uncached : (permSublist orders slcache subjects).cache.bind
      (fun cache => Table.get cache subject) = none := by
    cases there : (permSublist orders slcache subjects).cache with
    | none => rfl
    | some cache => rw [empty cache there]; rfl
  rw [subscribed.numInterest_iff plain uncached]
  have inside (entry : Bytes) : entry ∈ subjects ↔ ∃ sub ∈ stored, sub.subject = entry := by
    rw [← mem_reverse, ← entries, mem_map]
  constructor
  · rintro ⟨full, sub, there, covers⟩
    exact ⟨sub.subject, (inside _).mpr ⟨sub, there, rfl⟩, full, covers⟩
  · rintro ⟨entry, there, full, covers⟩
    obtain ⟨sub, stored, rfl⟩ := (inside entry).mp there
    exact ⟨full, sub, stored, covers⟩

end

/-! ### The answer without the cache -/

namespace Permissions
variable (config : Option Permissions)

def allowList : Option (List Bytes) := config.bind (fun perms => perms.publish.bind (·.allow))

def denyList : List Bytes := (config.bind (·.publish)).elim [] (·.deny)

def Allows (subject : Bytes) : Prop :=
  (allowList config).isNone ∨ ∃ entry ∈ (allowList config).getD [], EntryMatches entry subject

def Denies (subject : Bytes) : Prop := ∃ entry ∈ denyList config, EntryMatches entry subject

/-- The tracked reply has messages left and has not expired. -/
def LiveReply (c : Conn) (now : Int) (subject : Bytes) : Prop :=
  match config.bind (·.response), c.replies.bind (fun replies => Table.get replies subject) with
  | some perm, some resp =>
    ¬ (perm.maxMsgs > 0 ∧ resp.n + 1 > perm.maxMsgs) ∧
      ¬ (perm.expires > 0 ∧ now - resp.t > perm.expires)
  | _, _ => False

instance (subject : Bytes) : Decidable (Allows config subject) := inferInstanceAs (Decidable (_ ∨ _))

instance (subject : Bytes) : Decidable (Denies config subject) :=
  inferInstanceAs (Decidable (∃ entry ∈ _, _))

instance (c : Conn) (now : Int) (subject : Bytes) : Decidable (LiveReply config c now subject) :=
  match response : config.bind (·.response),
    reply : c.replies.bind (fun replies => Table.get replies subject) with
  | some perm, some resp => decidable_of_iff (¬ (perm.maxMsgs > 0 ∧ resp.n + 1 > perm.maxMsgs) ∧
      ¬ (perm.expires > 0 ∧ now - resp.t > perm.expires)) (by rw [LiveReply, response, reply])
  | none, _ => .isFalse (by rw [LiveReply, response]; exact id)
  | some _, none => .isFalse (by rw [LiveReply, reply]; simp)

def PubAllowed (c : Conn) (now : Int) (subject : Bytes) (fullCheck : Bool) : Prop :=
  (Allows config subject ∧ ¬ Denies config subject) ∨
    (fullCheck = true ∧ LiveReply config c now subject)

instance (c : Conn) (now : Int) (subject : Bytes) (fullCheck : Bool) :
    Decidable (PubAllowed config c now subject fullCheck) := inferInstanceAs (Decidable (_ ∨ _))

end Permissions

def Conn.permitted (orders : Orders) (slcache : Bool) (kind : ConnKind) (config : Option Permissions) :
    Conn := setPermissions orders slcache ⟨kind, none, none, 0, 0⟩ config

section
open Permissions
variable (orders : Orders) (slcache : Bool)

theorem denyList_valid (config : Option Permissions) :
    ∀ subject ∈ denyList config, ValidTokens (tokens subject) := by
  intro subject inside
  unfold denyList at inside
  cases there : config.bind (·.publish) with
  | none => rw [there] at inside; cases inside
  | some perm => rw [there] at inside; exact perm.denyValid subject inside

theorem allowList_valid {config : Option Permissions} {allow : List Bytes}
    (there : allowList config = some allow) : ∀ subject ∈ allow, ValidTokens (tokens subject) := by
  intro subject inside
  obtain ⟨perms, -, there⟩ := Option.bind_eq_some_iff.mp there
  obtain ⟨perm, -, there⟩ := Option.bind_eq_some_iff.mp there
  exact perm.allowValid subject (by rw [there]; exact inside)

/-- The permissions that a connection keeps, in the words of the configuration. -/
structure Kept (config : Option Permissions) (p : ConnPerms) : Prop where
  allow : p.allow = (allowList config).map (permSublist orders slcache)
  deny : p.deny = if (denyList config).length > 0 then
    some (permSublist orders slcache (denyList config)) else none
  resp : p.resp = config.bind (·.response)

theorem Kept.listsAllow_iff {config : Option Permissions} {p : ConnPerms}
    (kept : Kept orders slcache config p) (kind : ConnKind) (subject : Bytes) :
    p.listsAllow kind subject = true ↔
      (Allows config subject ∨ (kind ≠ .client ∧ mqttPrefix <+: subject)) ∧
        ¬ Denies config subject := by
  have allows : p.allowAllows kind subject = true ↔
      Allows config subject ∨ (kind ≠ .client ∧ mqttPrefix <+: subject) := by
    have exempt : (kind != .client && mqttPrefix.isPrefixOf subject) = true ↔
        kind ≠ .client ∧ mqttPrefix <+: subject := by
      rw [Bool.and_eq_true, bne_iff_ne, isPrefixOf_iff_prefix]
    rw [ConnPerms.allowAllows, kept.allow, Allows, ← exempt]
    cases there : allowList config with
    | none => simp
    | some allow =>
      have matched := numInterest_permSublist orders slcache (allowList_valid there) subject
      cases kind != .client && mqttPrefix.isPrefixOf subject <;> simp [← matched]
  rw [← allows, ConnPerms.listsAllow, kept.deny, Denies]
  by_cases some_ : (denyList config).length > 0
  · have matched := numInterest_permSublist orders slcache (denyList_valid config) subject
    rw [if_pos some_, ← matched, not_not]
    cases p.allowAllows kind subject <;> simp
  · have nothing : denyList config = [] := by simpa using some_
    simp [nothing]

/-- The state that a connection is in after any calls. -/
structure Reached (kind : ConnKind) (config : Option Permissions) (c : Conn) : Prop where
  kind : c.kind = kind
  unset : c.perms = none ↔ config = none
  kept : ∀ p, c.perms = some p → Kept orders slcache config p
  honest : c.Honest

theorem reached_permitted (kind : ConnKind) (config : Option Permissions) :
    Reached orders slcache kind config (.permitted orders slcache kind config) := by
  cases config with
  | none =>
    exact ⟨rfl, by simp [Conn.permitted, setPermissions], by simp [Conn.permitted, setPermissions],
      by simp [Conn.permitted, setPermissions, Conn.Honest]⟩
  | some perms =>
    refine ⟨rfl, by simp [Conn.permitted, setPermissions], ?_, ?_⟩
    · rintro p ⟨⟩
      refine ⟨rfl, ?_, rfl⟩
      cases there : perms.publish with
      | none => simp [denyList, there]
      | some publish => simp [denyList, there]
    · rintro p ⟨⟩ subject v cached
      cases cached

theorem Reached.of_keeps {kind : ConnKind} {config : Option Permissions} {c c' : Conn}
    (reached : Reached orders slcache kind config c) (keeps : c.Keeps c') :
    Reached orders slcache kind config c' := by
  refine ⟨keeps.kind.trans reached.kind, ?_, ?_, keeps.honest reached.honest⟩
  · have same := congrArg Option.isNone keeps.given
    rw [Option.isNone_map, Option.isNone_map] at same
    rw [← reached.unset, ← Option.isNone_iff_eq_none, ← Option.isNone_iff_eq_none, same]
  · intro p' there
    have same := keeps.given
    rw [there, Option.map_some] at same
    obtain ⟨p, before, given⟩ := Option.map_eq_some_iff.mp same.symm
    rw [ConnPerms.given, ConnPerms.given, Prod.mk.injEq, Prod.mk.injEq] at given
    have kept := reached.kept p before
    exact ⟨given.1 ▸ kept.allow, given.2.1 ▸ kept.deny, given.2.2 ▸ kept.resp⟩

theorem reached_run (kind : ConnKind) (config : Option Permissions) (calls : List PermCall) :
    Reached orders slcache kind config
      (run Conn.call (.permitted orders slcache kind config) calls) :=
  (reached_permitted orders slcache kind config).of_keeps orders slcache (Conn.keeps_run _ calls)

section
variable {orders slcache} {kind : ConnKind} {config : Option Permissions} {c : Conn}

theorem Reached.responseAllowed_iff (reached : Reached orders slcache kind config c) (now : Int)
    (subject : Bytes) :
    (c.responseAllowed now subject).2 = true ↔ LiveReply config c now subject := by
  have response : c.perms.bind (·.resp) = config.bind (·.response) := by
    cases there : c.perms with
    | none => rw [reached.unset.mp there]; rfl
    | some p => exact (reached.kept p there).resp
  rw [Conn.responseAllowed, LiveReply, response]
  cases config.bind (·.response) with
  | none => simp
  | some perm =>
    cases c.replies.bind (fun replies => Table.get replies subject) with
    | none => simp
    | some resp =>
      simp only
      split
      next spent => simp [spent]
      rename_i left
      split
      next expired => simp [expired]
      next live => exact iff_of_true rfl ⟨left, live⟩

theorem Reached.pubAllowedFullCheck_iff (reached : Reached orders slcache kind config c)
    (order : Table.Order (Bytes × Bool)) (now : Int) (subject : Bytes) (fullCheck : Bool) :
    (c.pubAllowedFullCheck order now subject fullCheck).2 = true ↔
      ((Allows config subject ∨ (kind ≠ .client ∧ mqttPrefix <+: subject)) ∧
          ¬ Denies config subject) ∨
        (fullCheck = true ∧ LiveReply config c now subject ∧
          c.perms.bind (fun p => Table.get p.pcache subject) = none) := by
  rw [Conn.pubAllowedFullCheck]
  cases perms : c.perms with
  | none =>
    rw [reached.unset.mp perms]
    exact iff_of_true rfl (.inl ⟨.inl (.inl rfl), by simp [Denies, denyList]⟩)
  | some p =>
    have lists := (reached.kept p perms).listsAllow_iff orders slcache kind subject
    rw [← lists]
    simp only [Option.bind_some, reached.kind]
    split
    next unlisted =>
      rw [Bool.and_eq_true, Option.isNone_iff_eq_none, Option.isNone_iff_eq_none] at unlisted
      have free : p.listsAllow kind subject = true := by
        rw [ConnPerms.listsAllow, ConnPerms.allowAllows, unlisted.1, unlisted.2]
      exact iff_of_true rfl (.inl free)
    · cases cached : Table.get p.pcache subject with
      | some v =>
        have same := reached.honest p perms subject v cached
        rw [reached.kind] at same
        simp [same]
      | none =>
        cases allowed : p.listsAllow kind subject with
        | true => simp
        | false =>
          cases fullCheck with
          | false => simp
          | true =>
            have live := reached.responseAllowed_iff now subject
            have resp := (reached.kept p perms).resp
            cases there : p.resp with
            | some perm => simpa using live
            | none =>
              have dead : ¬ LiveReply config c now subject := by
                rw [LiveReply, ← resp, there]
                exact id
              simpa using dead

end

/-- No refusal is cached for the subject of a live reply that is asked for, and no connection is
let through for MQTT only. -/
structure Faithful (kind : ConnKind) (config : Option Permissions) (c : Conn) (now : Int)
    (subject : Bytes) (fullCheck : Bool) : Prop where
  fresh : c.perms.bind (fun p => Table.get p.pcache subject) = some false →
    fullCheck = true → ¬ LiveReply config c now subject
  listed : kind ≠ .client → mqttPrefix <+: subject →
    Allows config subject ∨ Denies config subject ∨
      (fullCheck = true ∧ LiveReply config c now subject)

/-- Answers with and without the replies that a cached answer hides: `A` and `D` are what the lists
say, `M` the exception for MQTT, `R` the reply that is asked for. -/
theorem same_answer_iff {A M D R : Prop} {cached : Option Bool}
    (honest : ∀ v, cached = some v → (v = true ↔ (A ∨ M) ∧ ¬ D)) :
    ((((A ∨ M) ∧ ¬ D) ∨ (R ∧ cached = none)) ↔ ((A ∧ ¬ D) ∨ R)) ↔
      (cached = some false → ¬ R) ∧ (M → A ∨ D ∨ R) := by
  cases cached with
  | none =>
    simp only [and_true, reduceCtorEq, false_implies, true_and]
    tauto
  | some v =>
    have lists := honest v rfl
    cases v with
    | true =>
      simp only [true_iff] at lists
      simp only [reduceCtorEq, and_false, or_false, Option.some.injEq, Bool.true_eq_false,
        false_implies, true_and, iff_true_left lists]
      tauto
    | false =>
      simp only [Bool.false_eq_true, false_iff] at lists
      simp only [reduceCtorEq, and_false, or_false, true_implies, iff_false_left lists]
      tauto

theorem pub_cache_transparent_iff (kind : ConnKind) (config : Option Permissions)
    (calls : List PermCall) (order : Table.Order (Bytes × Bool)) (now : Int) (subject : Bytes)
    (fullCheck : Bool) :
    let c := run Conn.call (.permitted orders slcache kind config) calls
    ((c.pubAllowedFullCheck order now subject fullCheck).2 = true ↔
        PubAllowed config c now subject fullCheck) ↔
      Faithful kind config c now subject fullCheck := by
  intro c
  have reached : Reached orders slcache kind config c := reached_run orders slcache kind config calls
  have honest (v : Bool) (there : c.perms.bind (fun p => Table.get p.pcache subject) = some v) :
      v = true ↔ (Allows config subject ∨ (kind ≠ .client ∧ mqttPrefix <+: subject)) ∧
        ¬ Denies config subject := by
    obtain ⟨p, perms, there⟩ := Option.bind_eq_some_iff.mp there
    rw [reached.honest p perms subject v there, reached.kind]
    exact (reached.kept p perms).listsAllow_iff orders slcache kind subject
  rw [reached.pubAllowedFullCheck_iff, PubAllowed, ← and_assoc, same_answer_iff honest]
  constructor
  · rintro ⟨fresh, listed⟩
    exact ⟨fun refused full live => fresh refused ⟨full, live⟩,
      fun other mqtt => listed ⟨other, mqtt⟩⟩
  · rintro ⟨fresh, listed⟩
    exact ⟨fun refused asked => fresh refused asked.1 asked.2,
      fun exempt => listed exempt.1 exempt.2⟩

/-- A client that may only answer sends a message whose trace is to go to "r", which is refused; then
it gets a request with the reply "r", and its answer is refused as well. -/
theorem traced_reply_refused :
    let order : Table.Order (Bytes × Bool) := ⟨id, .refl⟩
    let config : Option Permissions :=
      some ⟨some ⟨some [], [], by simp, by simp⟩, some ⟨1, 120000000000⟩⟩
    let c := run Conn.call (.permitted .kept true .client config)
      [.check order 0 [114] false, .trackReply order 1 [114]]
    (c.pubAllowedFullCheck order 2 [114] true).2 = false ∧ PubAllowed config c 2 [114] true := by
  decide +kernel

end

end LinearNats.Perms
