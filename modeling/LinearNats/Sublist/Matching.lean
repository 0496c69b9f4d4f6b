import LinearNats.Sublist.Paths

/-! Which nodes of a trie a subject visits: exactly those whose path covers its tokens, each once. -/
namespace LinearNats.Sublists
open List

variable {δ ρ : Type}

/-- A path covers the tokens of a subject: '*' takes one of them, '>' takes one or more to the end,
and any other token is taken by an equal one. -/
def Covers : List Key → List Token → Prop
  | [], [] => True
  | [.fwc], _ :: _ => True
  | .pwc :: ks, _ :: ts => Covers ks ts
  | .lit a :: ks, t :: ts => a = t ∧ Covers ks ts
  | _, _ => False

instance : ∀ (ks : List Key) (ts : List Token), Decidable (Covers ks ts)
  | [], [] => inferInstanceAs (Decidable True)
  | [], _ :: _ => inferInstanceAs (Decidable False)
  | .pwc :: _, [] => inferInstanceAs (Decidable False)
  | .lit _ :: _, [] => inferInstanceAs (Decidable False)
  | [.fwc], [] => inferInstanceAs (Decidable False)
  | .fwc :: _ :: _, [] => inferInstanceAs (Decidable False)
  | [.fwc], _ :: _ => inferInstanceAs (Decidable True)
  | .fwc :: _ :: _, _ :: _ => inferInstanceAs (Decidable False)
  | .pwc :: ks, _ :: ts => instDecidableCovers ks ts
  | .lit a :: ks, t :: ts =>
    have := instDecidableCovers ks ts
    inferInstanceAs (Decidable (a = t ∧ Covers ks ts))

/-- A filter matches a subject token by token. -/
def FilterMatches (filter subject : Server.Bytes) : Prop := Covers (keys filter) (tokens subject)

instance (filter subject : Server.Bytes) : Decidable (FilterMatches filter subject) :=
  inferInstanceAs (Decidable (Covers _ _))

@[simp] theorem covers_nil (ks : List Key) : Covers ks [] ↔ ks = [] := by
  rcases ks with _ | ⟨k, _ | ⟨k', ks⟩⟩
  · simp [Covers]
  · cases k <;> simp [Covers]
  · cases k <;> simp [Covers]

@[simp] theorem nil_covers (t : Token) (ts : List Token) : ¬ Covers [] (t :: ts) := by
  simp [Covers]

@[simp] theorem fwc_covers (ks : List Key) (t : Token) (ts : List Token) :
    Covers (.fwc :: ks) (t :: ts) ↔ ks = [] := by
  cases ks <;> simp [Covers]

@[simp] theorem pwc_covers (ks : List Key) (t : Token) (ts : List Token) :
    Covers (.pwc :: ks) (t :: ts) ↔ Covers ks ts := by
  simp [Covers]

@[simp] theorem lit_covers (a : Token) (ks : List Key) (t : Token) (ts : List Token) :
    Covers (.lit a :: ks) (t :: ts) ↔ a = t ∧ Covers ks ts := by
  simp [Covers]

namespace Node

def under (k : Key) (o : Option (Node δ)) (below : Node δ → List (List Key × δ)) :
    List (List Key × δ) :=
  (o.elim [] below).map (fun e => (k :: e.1, e.2))

/-- The nodes that `matchLevel` visits, in its order: for the last token the literal node comes
before the wildcard, for the others after it. -/
def visits : List Token → Node δ → List (List Key × δ)
  | [], n => [([], n.data)]
  | t :: ts, n =>
    under .fwc (n.child .fwc) (fun f => [([], f.data)]) ++
      if ts = [] then
        under (.lit t) (n.child (.lit t)) (visits ts) ++ under .pwc (n.child .pwc) (visits ts)
      else
        under .pwc (n.child .pwc) (visits ts) ++ under (.lit t) (n.child (.lit t)) (visits ts)

theorem foldl_under (visit : ρ → δ → ρ) (k : Key) (o : Option (Node δ))
    (below : Node δ → List (List Key × δ)) (r : ρ) :
    ((under k o below).map Prod.snd).foldl visit r =
      o.elim r (fun n => ((below n).map Prod.snd).foldl visit r) := by
  cases o with
  | none => rfl
  | some n => simp only [under, Option.elim_some, map_map, Function.comp_def]

variable {k : Key} {o : Option (Node δ)} {below : Node δ → List (List Key × δ)}

theorem mem_under {e : List Key × δ} :
    e ∈ under k o below ↔ ∃ n path, o = some n ∧ (path, e.2) ∈ below n ∧ e.1 = k :: path := by
  cases o with
  | none => simp [under]
  | some n =>
    simp only [under, Option.elim_some, mem_map]
    constructor
    · rintro ⟨f, member, rfl⟩
      exact ⟨n, f.1, rfl, member, rfl⟩
    · rintro ⟨m, path, same, member, head⟩
      cases same
      exact ⟨(path, e.2), member, by rw [← head]⟩

theorem mem_visits (toks : List Token) (n : Node δ) (path : List Key) (d : δ) :
    (path, d) ∈ n.visits toks ↔ Covers path toks ∧ n.dataAt path = some d := by
  induction toks generalizing n path with
  | nil =>
    simp only [visits, mem_singleton, Prod.mk.injEq, covers_nil]
    constructor
    · rintro ⟨rfl, rfl⟩
      exact ⟨rfl, rfl⟩
    · rintro ⟨rfl, here⟩
      exact ⟨rfl, (Option.some.inj here).symm⟩
  | cons t ts ih =>
    have split : (path, d) ∈ n.visits (t :: ts) ↔
        (path, d) ∈ under .fwc (n.child .fwc) (fun f => [([], f.data)]) ∨
          (path, d) ∈ under .pwc (n.child .pwc) (visits ts) ∨
            (path, d) ∈ under (.lit t) (n.child (.lit t)) (visits ts) := by
      rw [visits]
      by_cases last : ts = []
      · simp only [if_pos last, mem_append, or_comm]
      · simp only [if_neg last, mem_append]
    rw [split]
    simp only [mem_under, ih]
    cases path with
    | nil => simp
    | cons k ks =>
      rw [dataAt_cons]
      cases k with
      | lit a => cases h : n.child (.lit t) <;> grind [lit_covers]
      | pwc => cases h : n.child .pwc <;> grind [pwc_covers]
      | fwc =>
        cases h : n.child .fwc with
        | none => simp
        | some f =>
          simp only [fwc_covers]
          cases ks with
          | nil => simp [dataAt_nil, eq_comm]
          | cons k ks => simp

theorem nodup_under (each : ∀ n, ((below n).map Prod.fst).Nodup) :
    ((under k o below).map Prod.fst).Nodup := by
  cases o with
  | none => exact nodup_nil
  | some n =>
    have paths : (under k (some n) below).map Prod.fst = ((below n).map Prod.fst).map (k :: ·) := by
      simp only [under, Option.elim_some, map_map, Function.comp_def]
    rw [paths]
    exact (each n).map (cons_injective)

theorem under_disjoint {k' : Key} (differ : k ≠ k') {o' : Option (Node δ)}
    {below' : Node δ → List (List Key × δ)} :
    List.Disjoint ((under k o below).map Prod.fst) ((under k' o' below').map Prod.fst) := by
  intro path left right
  obtain ⟨e, member, rfl⟩ := mem_map.mp left
  obtain ⟨e', member', same⟩ := mem_map.mp right
  obtain ⟨-, p, -, -, head⟩ := mem_under.mp member
  obtain ⟨-, p', -, -, head'⟩ := mem_under.mp member'
  rw [head, head'] at same
  exact differ (List.cons.inj same).1.symm

theorem nodup_visits (toks : List Token) (n : Node δ) : ((n.visits toks).map Prod.fst).Nodup := by
  induction toks generalizing n with
  | nil => exact nodup_singleton _
  | cons t ts ih =>
    have first : ((under .fwc (n.child .fwc) (fun f => [([], f.data)])).map Prod.fst).Nodup :=
      nodup_under (fun f => nodup_singleton _)
    have wild := nodup_under (k := .pwc) (o := n.child .pwc) ih
    have literal := nodup_under (k := .lit t) (o := n.child (.lit t)) ih
    rw [visits, map_append]
    split
    · rw [map_append]
      refine first.append (literal.append wild (under_disjoint (by simp))) ?_
      exact disjoint_append_right.mpr ⟨under_disjoint (by simp), under_disjoint (by simp)⟩
    · rw [map_append]
      refine first.append (wild.append literal (under_disjoint (by simp))) ?_
      exact disjoint_append_right.mpr ⟨under_disjoint (by simp), under_disjoint (by simp)⟩

end Node

theorem matchLevel_eq (visit : ρ → δ → ρ) {toks : List Token} (nonempty : toks ≠ []) (n : Node δ)
    (pwc last : Option (Node δ)) (results : ρ) :
    matchLevel visit n.next toks pwc last results =
      ((n.visits toks).map Prod.snd).foldl visit results := by
  induction toks generalizing n pwc last results with
  | nil => exact absurd rfl nonempty
  | cons t ts ih =>
    cases next : n.next with
    | none => simp [matchLevel, Node.visits, Node.child, next, Node.under]
    | some l =>
      simp only [matchLevel, Node.visits, map_append, foldl_append, Node.foldl_under,
        Node.child_of_next next, Level.child]
      have first : (l.fwc.map Node.data).elim results (visit results) =
          l.fwc.elim results (fun f => visit results f.data) := by
        cases l.fwc <;> rfl
      simp only [first, map_cons, map_nil, foldl_cons, foldl_nil]
      generalize (l.fwc.elim results (fun f => visit results f.data)) = r
      by_cases single : ts = []
      · subst single
        cases l.pwc <;> cases Table.get l.nodes t <;>
          simp [matchLevel, Node.under, Node.visits, Node.data]
      rw [if_neg single, map_append, foldl_append, Node.foldl_under, Node.foldl_under]
      have before : l.pwc.elim r (fun p => matchLevel visit p.next ts none none r) =
            l.pwc.elim r (fun p => ((p.visits ts).map Prod.snd).foldl visit r) := by
        cases l.pwc with
        | none => rfl
        | some p => exact ih single p none none r
      rw [before]
      generalize (l.pwc.elim r (fun p => ((p.visits ts).map Prod.snd).foldl visit r)) = r'
      cases Table.get l.nodes t with
      | none =>
        obtain ⟨t', rest, rfl⟩ := exists_cons_of_ne_nil single
        simp [matchLevel]
      | some c => exact ih single c l.pwc (some c) r'

/-- Some node covers the tokens that has something in it or is a '>' node, whatever is in it. -/
def Node.Interest (bare : δ → Bool) (toks : List Token) (n : Node δ) : Prop :=
  ∃ path d, Covers path toks ∧ n.dataAt path = some d ∧
    (path.getLast? = some .fwc ∨ bare d = false)

/-- A node at which `matchLevelForAny` stops. -/
def stops (bare : δ → Bool) (e : List Key × δ) : Bool :=
  decide (e.1.getLast? = some .fwc) || !bare e.2

theorem stops_cons {bare : δ → Bool} {k : Key} (single : k ≠ .fwc) (e : List Key × δ) :
    stops bare (k :: e.1, e.2) = stops bare e := by
  obtain ⟨path, d⟩ := e
  cases path with
  | nil => simp [stops, single]
  | cons k' path => simp [stops, getLast?_cons_cons]

theorem find?_under {bare : δ → Bool} {k : Key} (single : k ≠ .fwc) (o : Option (Node δ))
    (below : Node δ → List (List Key × δ)) :
    (Node.under k o below).find? (stops bare) =
      o.bind (fun n => ((below n).find? (stops bare)).map (fun e => (k :: e.1, e.2))) := by
  cases o with
  | none => rfl
  | some n =>
    rw [Node.under, Option.elim_some, find?_map, Option.bind_some]
    congr 2
    funext e
    exact stops_cons single e

theorem matchLevelForAny_eq {count : ρ → δ → ρ} {bare : δ → Bool}
    (skips : ∀ np d, bare d = true → count np d = np) {toks : List Token} (nonempty : toks ≠ [])
    (n : Node δ) (pwc last : Option (Node δ)) (np : ρ) :
    matchLevelForAny count bare n.next toks pwc last np =
      ((n.visits toks).find? (stops bare)).elim (false, np) (fun e => (true, count np e.2)) := by
  induction toks generalizing n pwc last np with
  | nil => exact absurd rfl nonempty
  | cons t ts ih =>
    cases next : n.next with
    | none => simp [matchLevelForAny, Node.visits, Node.child, next, Node.under]
    | some l =>
      simp only [matchLevelForAny, Node.visits, Node.child_of_next next, Level.child]
      cases l.fwc with
      | some f => simp [Node.under, stops]
      | none =>
        rw [show Node.under .fwc none _ = ([] : List (List Key × δ)) from rfl, nil_append]
        by_cases single : ts = []
        · subst single
          rcases Table.get l.nodes t with _ | c <;> rcases l.pwc with _ | p
          · rfl
          · cases interest : bare p.data <;>
              simp [matchLevelForAny, Node.under, Node.visits, stops, interest, skips]
          · cases interest : bare c.data <;>
              simp [matchLevelForAny, Node.under, Node.visits, stops, interest, skips]
          · cases first : bare c.data <;> cases second : bare p.data <;>
              simp [matchLevelForAny, Node.under, Node.visits, stops, first, second, skips]
        · have viaLit (pwc : Option (Node δ)) : matchLevelForAny count bare
              ((Table.get l.nodes t).bind Node.next) ts pwc (Table.get l.nodes t) np =
                ((Node.under (.lit t) (Table.get l.nodes t) (Node.visits ts)).find?
                  (stops bare)).elim (false, np) (fun e => (true, count np e.2)) := by
            rw [find?_under (by simp)]
            cases Table.get l.nodes t with
            | none =>
              obtain ⟨t', rest, rfl⟩ := exists_cons_of_ne_nil single
              simp [matchLevelForAny]
            | some c =>
              refine (ih single c pwc (some c) np).trans ?_
              rw [Option.bind_some]
              cases (c.visits ts).find? (stops bare) <;> rfl
          rw [if_neg single, find?_append, find?_under (by simp)]
          cases l.pwc with
          | none => simpa using viaLit none
          | some p =>
            simp only [Option.elim_some, ih single p none none np, Option.bind_some]
            cases (p.visits ts).find? (stops bare) with
            | none => simpa using viaLit (some p)
            | some e => rfl

theorem matchLevelForAny_iff {count : ρ → δ → ρ} {bare : δ → Bool}
    (skips : ∀ np d, bare d = true → count np d = np) {toks : List Token} (nonempty : toks ≠ [])
    (n : Node δ) (np : ρ) :
    (matchLevelForAny count bare n.next toks none none np).1 = true ↔ n.Interest bare toks := by
  rw [matchLevelForAny_eq skips nonempty]
  cases found : (n.visits toks).find? (stops bare) with
  | none =>
    refine iff_of_false (by simp) ?_
    rintro ⟨path, d, covers, here, something⟩
    have passed := find?_eq_none.mp found (path, d) ((n.mem_visits toks path d).mpr ⟨covers, here⟩)
    simp only [stops, Bool.or_eq_true, decide_eq_true_eq, Bool.not_eq_true'] at passed
    exact passed something
  | some e =>
    refine iff_of_true rfl ?_
    obtain ⟨covers, here⟩ := (n.mem_visits toks e.1 e.2).mp (mem_of_find?_eq_some found)
    have stopped := find?_some found
    simp only [stops, Bool.or_eq_true, decide_eq_true_eq, Bool.not_eq_true'] at stopped
    exact ⟨e.1, e.2, covers, here, stopped⟩

end LinearNats.Sublists
