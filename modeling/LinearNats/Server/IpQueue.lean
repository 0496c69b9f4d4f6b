import LinearNats.Run

/-! The queue between goroutines. A locked section is one step; the signal of `push` is sent in a step
of its own, after the lock was released. -/
namespace LinearNats.IpQueue
open List

variable {ι T : Type}

structure Opts (T : Type) where
  calc_ : Option (T → UInt64)
  msz : UInt64
  mlen : Nat

/-- `elts` is empty if the slice is nil; `ch` tells whether there is a signal in the channel. -/
structure Queue (T : Type) where
  elts : List T
  pos : Nat
  sz : UInt64
  ch : Bool

inductive PushErr where
  | lenLimitReached | sizeLimitReached
  deriving DecidableEq

section

variable (opts : Opts T) (q : Queue T) (e : T)

def size : UInt64 := opts.calc_.elim 0 (fun f => f e)

def Queue.added : Queue T := { q with elts := q.elts ++ [e], sz := q.sz + size opts e }

/-- The locked section of `push`, with the length before it. -/
def Queue.push : Except PushErr Nat × Queue T :=
  let l := q.elts.length - q.pos
  if 0 < opts.mlen ∧ l = opts.mlen then (.error .lenLimitReached, q)
  else if opts.calc_.isSome ∧ 0 < opts.msz ∧ opts.msz < q.sz + size opts e then
    (.error .sizeLimitReached, q)
  else (.ok l, q.added opts e)

def Queue.pop : List T × Queue T :=
  if q.elts.length - q.pos = 0 then ([], q)
  else (q.elts.drop q.pos, { q with elts := [], pos := 0, sz := 0 })

def Queue.popOne : Option T × Queue T :=
  let l := q.elts.length - q.pos
  match q.elts[q.pos]? with
  | none => (none, q)
  | some e =>
    if 0 < l - 1 then
      (some e, { q with pos := q.pos + 1, sz := q.sz - size opts e, ch := true })
    else (some e, { q with elts := [], pos := 0, sz := 0 })

def Queue.drain : Nat × Queue T := (q.elts.length - q.pos, ⟨[], 0, 0, false⟩)

end

/-! ### Goroutines -/

/-- What a goroutine does next; `receive` takes the signal out of the channel. -/
inductive Step (ι T : Type) where
  | push (i : ι) (e : T)
  | send (i : ι)
  | receive (i : ι)
  | pop (i : ι)
  | popOne (i : ι)
  | drain (i : ι)

/-- The queue and the goroutines that have yet to send a signal, or have taken one and not popped
since. `pushed` are the elements in the order in which they came, and `left` those that went, with
whether they were returned. -/
structure World (ι T : Type) where
  q : Queue T
  sending : ι → Bool
  notified : ι → Bool
  pushed : List T
  left : List (T × Bool)

def World.new : World ι T := ⟨⟨[], 0, 0, false⟩, fun _ => false, fun _ => false, [], []⟩

def World.returns [DecidableEq ι] (w : World ι T) (i : ι) (es : List T) (q : Queue T) : World ι T :=
  { w with q := q, notified := Function.update w.notified i false
           left := w.left ++ es.map (·, true) }

def World.step [DecidableEq ι] (opts : Opts T) (w : World ι T) : Step ι T → World ι T
  | .push i e =>
    if w.sending i then w
    else
      match w.q.push opts e with
      | (.error _, q) => { w with q := q }
      | (.ok l, q) =>
        { w with q := q, sending := Function.update w.sending i (decide (l = 0))
                 pushed := w.pushed ++ [e] }
  | .send i =>
    if w.sending i then
      { w with q := { w.q with ch := true }, sending := Function.update w.sending i false }
    else w
  | .receive i =>
    if w.sending i = false ∧ w.q.ch = true then
      { w with q := { w.q with ch := false }, notified := Function.update w.notified i true }
    else w
  | .pop i => if w.sending i then w else w.returns i w.q.pop.1 w.q.pop.2
  | .popOne i =>
    if w.sending i then w else w.returns i (w.q.popOne opts).1.toList (w.q.popOne opts).2
  | .drain i =>
    if w.sending i then w
    else { w with q := w.q.drain.2
                  left := w.left ++ (w.q.elts.drop w.q.pos).map (·, false) }

/-! ### What holds -/

def Queue.content (q : Queue T) : List T := q.elts.drop q.pos

def total (opts : Opts T) (es : List T) : Nat := (es.map (fun e => (size opts e).toNat)).sum

/-- A goroutine will look at the queue, or be told to. -/
def World.Awake (w : World ι T) : Prop :=
  w.q.ch = true ∨ (∃ i, w.sending i = true) ∨ ∃ i, w.notified i = true

structure Sound (opts : Opts T) (w : World ι T) : Prop where
  fifo : w.pushed = w.left.map Prod.fst ++ w.q.content
  size : w.q.sz.toNat = total opts w.q.content
  sizeLimit : 0 < opts.msz → w.q.sz ≤ opts.msz
  lenLimit : 0 < opts.mlen → w.q.content.length ≤ opts.mlen
  awake : w.q.content ≠ [] → w.Awake

/-- A push that is accepted does not take the sum of the sizes past 64 bits. -/
def Fits (opts : Opts T) (w : World ι T) : Step ι T → Prop
  | .push i e => w.sending i = false → (∃ l, (w.q.push opts e).1 = .ok l) →
      total opts w.q.content + (IpQueue.size opts e).toNat < 2 ^ 64
  | _ => True

variable {opts : Opts T} {q : Queue T} {e : T} {w : World ι T}

theorem total_append (es rest : List T) :
    total opts (es ++ rest) = total opts es + total opts rest := by
  simp [total]

theorem content_added (placed : q.pos ≤ q.elts.length) :
    (q.added opts e).content = q.content ++ [e] :=
  drop_append_of_le_length placed

structure Inv (opts : Opts T) (w : World ι T) : Prop extends Sound opts w where
  placed : w.q.pos ≤ w.q.elts.length

/-- Elements go from the front, and somebody looks after the rest. -/
theorem Inv.leave {w' : World ι T} (inv : Inv opts w) (es rest : List T) (returned : Bool)
    (content : w.q.content = es ++ rest) (content' : w'.q.content = rest)
    (pushed : w'.pushed = w.pushed) (left : w'.left = w.left ++ es.map (·, returned))
    (sz : w'.q.sz.toNat = total opts rest) (placed : w'.q.pos ≤ w'.q.elts.length)
    (awake : rest ≠ [] → w'.Awake) : Inv opts w' := by
  have fewer : total opts rest ≤ total opts w.q.content := by
    rw [content, total_append]
    omega
  refine ⟨⟨?_, content' ▸ sz, fun limit => ?_, fun limit => ?_, content' ▸ awake⟩, placed⟩
  · rw [pushed, left, content', map_append, append_assoc, map_map, inv.fifo, content]
    congr 2
    exact (map_id es).symm
  · refine UInt64.le_trans ?_ (inv.sizeLimit limit)
    rw [UInt64.le_iff_toNat_le, sz, inv.size]
    exact fewer
  · have := inv.lenLimit limit
    rw [content, length_append] at this
    rw [content']
    omega

variable [DecidableEq ι]

theorem Inv.popOne (inv : Inv opts w) (i : ι) :
    Inv opts (w.returns i (w.q.popOne opts).1.toList (w.q.popOne opts).2) := by
  rw [Queue.popOne]
  cases first : w.q.elts[w.q.pos]? with
  | none =>
    have nothing : w.q.content = [] := drop_eq_nil_iff.mpr (getElem?_eq_none_iff.mp first)
    exact inv.leave [] [] true nothing nothing rfl (by simp [World.returns])
      (inv.size.trans (by rw [nothing])) inv.placed (absurd rfl)
  | some e =>
    obtain ⟨inside, rfl⟩ := List.getElem?_eq_some_iff.mp first
    have content : w.q.content = [w.q.elts[w.q.pos]] ++ w.q.elts.drop (w.q.pos + 1) :=
      drop_eq_getElem_cons inside
    dsimp only
    split
    next more =>
      refine inv.leave _ _ true content rfl rfl rfl ?_ inside (fun _ => .inl rfl)
      have sum := inv.size
      rw [content, total_append] at sum
      have one : total opts [w.q.elts[w.q.pos]] = (size opts w.q.elts[w.q.pos]).toNat := by
        simp [total]
      change (w.q.sz - size opts w.q.elts[w.q.pos]).toNat = _
      rw [UInt64.toNat_sub_of_le _ _ (UInt64.le_iff_toNat_le.mpr (by omega))]
      omega
    next last =>
      have rest : w.q.elts.drop (w.q.pos + 1) = [] := drop_eq_nil_iff.mpr (by omega)
      rw [rest] at content
      exact inv.leave _ _ true content rfl rfl rfl rfl le_rfl (absurd rfl)

theorem Inv.pop (inv : Inv opts w) (i : ι) : Inv opts (w.returns i w.q.pop.1 w.q.pop.2) := by
  rw [Queue.pop]
  split
  next empty =>
    have nothing : w.q.content = [] := drop_eq_nil_iff.mpr (by omega)
    exact inv.leave [] [] true nothing nothing rfl (by simp [World.returns])
      (inv.size.trans (by rw [nothing])) inv.placed (absurd rfl)
  · exact inv.leave _ _ true (append_nil _).symm rfl rfl rfl rfl le_rfl (absurd rfl)

theorem push_cases (opts : Opts T) (e : T) {i : ι} (free : w.sending i = false) :
    (∀ l, (w.q.push opts e).1 ≠ .ok l) ∧ w.step opts (.push i e) = w ∨
      (w.q.push opts e).1 = .ok w.q.content.length ∧
        (0 < opts.mlen → w.q.content.length ≠ opts.mlen) ∧
        (opts.calc_.isSome → 0 < opts.msz → w.q.sz + size opts e ≤ opts.msz) ∧
        w.step opts (.push i e) =
          { w with q := w.q.added opts e, pushed := w.pushed ++ [e]
                   sending := Function.update w.sending i (decide (w.q.content.length = 0)) } := by
  simp only [World.step, free, Bool.false_eq_true, if_false, Queue.push, Queue.content,
    length_drop]
  split
  · exact .inl ⟨nofun, rfl⟩
  next short =>
  split
  · exact .inl ⟨nofun, rfl⟩
  next small =>
  refine .inr ⟨rfl, fun limit full => short ⟨limit, full⟩, fun sized limit => ?_, rfl⟩
  exact UInt64.not_lt.mp (fun big => small ⟨sized, limit, big⟩)

theorem Inv.push (inv : Inv opts w) {i : ι} {e : T} (fits : Fits opts w (.push i e)) :
    Inv opts (w.step opts (.push i e)) := by
  cases free : w.sending i with
  | true =>
    rw [World.step, if_pos free]
    exact inv
  | false =>
  obtain ⟨-, refused⟩ | ⟨ok, short, small, accepted⟩ := push_cases opts e free
  · rw [refused]
    exact inv
  have room := fits free ⟨_, ok⟩
  have content : (w.q.added opts e).content = _ := content_added inv.placed
  rw [accepted]
  refine ⟨⟨?_, ?_, fun limit => ?_, fun limit => ?_, fun _ => ?_⟩, ?_⟩
  · rw [content, inv.fifo, append_assoc]
  · rw [content, total_append, Queue.added, UInt64.toNat_add, inv.size, Nat.mod_eq_of_lt room]
    simp [total]
  · cases sized : opts.calc_ with
    | some f => exact small (by rw [sized]; rfl) limit
    | none =>
      have nothing : IpQueue.size opts e = 0 := by rw [IpQueue.size, sized, Option.elim_none]
      rw [Queue.added, nothing, UInt64.add_zero]
      exact inv.sizeLimit limit
  · have := inv.lenLimit limit
    have := short limit
    rw [content, length_append, length_singleton]
    omega
  · -- The queue was empty, and this push has to send a signal, or it was not, and is looked after.
    by_cases empty : w.q.content = []
    · exact .inr (.inl ⟨i, by simp [empty]⟩)
    obtain ch | ⟨j, sending⟩ | notified := inv.awake empty
    · exact .inl ch
    · have other : j ≠ i := by
        rintro rfl
        rw [free] at sending
        cases sending
      exact .inr (.inl ⟨j, (Function.update_of_ne other ..).trans sending⟩)
    · exact .inr (.inr notified)
  · exact inv.placed.trans (by simp [Queue.added])

theorem Inv.step (inv : Inv opts w) (a : Step ι T) (fits : Fits opts w a) :
    Inv opts (w.step opts a) := by
  cases a with
  | push i e => exact inv.push fits
  | send i =>
    rw [World.step]
    split
    · exact ⟨⟨inv.fifo, inv.size, inv.sizeLimit, inv.lenLimit, fun _ => .inl rfl⟩, inv.placed⟩
    · exact inv
  | receive i =>
    rw [World.step]
    split
    · exact ⟨⟨inv.fifo, inv.size, inv.sizeLimit, inv.lenLimit,
        fun _ => .inr (.inr ⟨i, Function.update_self ..⟩)⟩, inv.placed⟩
    · exact inv
  | pop i =>
    rw [World.step]
    split
    · exact inv
    · exact inv.pop i
  | popOne i =>
    rw [World.step]
    split
    · exact inv
    · exact inv.popOne i
  | drain i =>
    rw [World.step]
    split
    · exact inv
    · exact inv.leave _ _ false (append_nil _).symm rfl rfl rfl rfl le_rfl (absurd rfl)

/-- A sum that is too large wraps. -/
theorem Inv.breaks (inv : Inv opts w) (a : Step ι T) (wraps : ¬ Fits opts w a) :
    ¬ Sound opts (w.step opts a) := by
  cases a with
  | push i e =>
    rw [Fits, Classical.not_imp, Classical.not_imp, not_lt] at wraps
    obtain ⟨free, ⟨l, ok⟩, big⟩ := wraps
    obtain ⟨refused, -⟩ | ⟨-, -, -, accepted⟩ := push_cases opts e free
    · exact absurd ok (refused l)
    intro sound
    rw [accepted] at sound
    have sum : (w.q.sz + IpQueue.size opts e).toNat = _ := sound.size
    rw [content_added inv.placed, total_append, UInt64.toNat_add, inv.size] at sum
    have one : total opts [e] = (IpQueue.size opts e).toNat := by simp [total]
    have := Nat.mod_lt (total opts w.q.content + (IpQueue.size opts e).toNat) (Nat.two_pow_pos 64)
    omega
  | _ => exact absurd trivial wraps

theorem sound_iff_fits (opts : Opts T) (steps : List (Step ι T)) :
    (∀ n, Sound opts (run (World.step opts) .new (steps.take n))) ↔
      Along (World.step opts) (Fits opts) .new steps := by
  have initial : Inv opts (World.new : World ι T) :=
    ⟨⟨rfl, rfl, fun _ => UInt64.zero_le, fun _ => Nat.zero_le _, absurd rfl⟩, le_rfl⟩
  exact always_iff_along _ _ (Inv opts) _ (fun _ inv => inv.toSound) (fun _ a inv => inv.step a)
    (fun _ a inv => inv.breaks a) initial steps

/-- A limit of ten, and numbers that are their own size. -/
def upToTen : Opts UInt64 := ⟨some id, 10, 0⟩

def twoPushes : World Unit UInt64 :=
  run (World.step upToTen) .new [.push () 5, .send (), .push () 18446744073709551613]

theorem wrapped_size_accepted :
    twoPushes.q.elts = [5, 18446744073709551613] ∧ twoPushes.q.sz = 2 ∧
      ¬ Sound upToTen twoPushes := by
  have sizes : twoPushes.q.elts = [5, 18446744073709551613] ∧ twoPushes.q.sz = 2 := by
    decide +kernel
  exact ⟨sizes.1, sizes.2, fun sound => absurd sound.size (by decide +kernel)⟩

end LinearNats.IpQueue
