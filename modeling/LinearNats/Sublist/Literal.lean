import LinearNats.Sublist.Matching

/-! The comparison of a literal subject with a subscription's subject byte by byte, as the cache
makes it. -/
namespace LinearNats.Sublists
open Server List

def atStart (prev : Option UInt8) : Bool := prev == none || prev == some btsep

/-- `matchLiteral` from some place in the subject on; `prev` is the byte before it. -/
def matchLiteralFrom : Option UInt8 → Bytes → Bytes → Bool
  | _, [], literal => literal.isEmpty
  | _, _ :: _, [] => false
  | prev, [b], c :: literal =>
    -- A wildcard skips the last token of the literal and expects no separator.
    if b = pwc ∧ atStart prev then decide (btsep ∉ c :: literal)
    else if b = fwc ∧ atStart prev then true
    else b == c && matchLiteralFrom (some b) [] literal
  | prev, b :: d :: rest, c :: literal =>
    if b = pwc ∧ atStart prev ∧ d = btsep then
      -- It skips a token and expects a separator, which is then compared with the next byte.
      match (c :: literal).dropWhile (fun x => x != btsep) with
      | [] => false
      | _ :: literal => matchLiteralFrom (some btsep) rest literal
    else b == c && matchLiteralFrom (some b) (d :: rest) literal

def matchLiteral (literal subject : Bytes) : Bool := matchLiteralFrom none subject literal

def subjectIsLiteral (subject : Bytes) : Bool :=
  (tokens subject).all (fun t => t != [pwc] && t != [fwc])

/-! ### Tokens of a text -/

theorem tokens_single {w : Bytes} (inner : btsep ∉ w) : tokens w = [w] :=
  splitOn_eq_singleton inner

theorem tokens_split {a b : Bytes} (inner : btsep ∉ a) : tokens (a ++ btsep :: b) = a :: tokens b := by
  rw [tokens_append, tokens_single inner, singleton_append]

theorem tokens_cases (w : Bytes) :
    (btsep ∉ w ∧ tokens w = [w]) ∨
      ∃ a b, w = a ++ btsep :: b ∧ btsep ∉ a ∧ tokens w = a :: tokens b := by
  by_cases inside : btsep ∈ w
  · obtain ⟨a, b, rfl, inner⟩ := eq_append_cons_of_mem inside
    exact .inr ⟨a, b, rfl, inner, tokens_split inner⟩
  · exact .inl ⟨inside, tokens_single inside⟩

/-! ### One byte, one token -/

/-- The byte is compared: it is no wildcard on its own. -/
theorem matchLiteralFrom_byte {prev : Option UInt8} {b : UInt8} {rest : Bytes}
    (noPwc : b = pwc → atStart prev = true → rest ≠ [] ∧ rest.head? ≠ some btsep)
    (noFwc : b = fwc → atStart prev = true → rest ≠ []) (w : Bytes) :
    matchLiteralFrom prev (b :: rest) w = true ↔
      ∃ w', w = b :: w' ∧ matchLiteralFrom (some b) rest w' = true := by
  cases w with
  | nil => simp [matchLiteralFrom]
  | cons c w =>
    cases rest with
    | nil =>
      have first : ¬ (b = pwc ∧ atStart prev = true) := fun h => (noPwc h.1 h.2).1 rfl
      have second : ¬ (b = fwc ∧ atStart prev = true) := fun h => noFwc h.1 h.2 rfl
      rw [matchLiteralFrom, if_neg first, if_neg second]
      grind
    | cons d rest =>
      have first : ¬ (b = pwc ∧ atStart prev = true ∧ d = btsep) := by
        rintro ⟨wild, start, rfl⟩
        exact (noPwc wild start).2 rfl
      rw [matchLiteralFrom, if_neg first]
      grind

/-- At the end or at a separator the byte before makes no difference. -/
theorem matchLiteralFrom_boundary {rest : Bytes} (boundary : rest = [] ∨ rest.head? = some btsep)
    (p p' : Option UInt8) (w : Bytes) :
    matchLiteralFrom p rest w = true ↔ matchLiteralFrom p' rest w = true := by
  cases rest with
  | nil => simp [matchLiteralFrom]
  | cons b rest =>
    have sep : b = btsep := by simpa using boundary
    subst sep
    have plain : btsep ≠ pwc ∧ btsep ≠ fwc := by decide
    rw [matchLiteralFrom_byte (fun h => absurd h plain.1) (fun h => absurd h plain.2),
      matchLiteralFrom_byte (fun h => absurd h plain.1) (fun h => absurd h plain.2)]

theorem matchLiteralFrom_inside {t rest : Bytes} (inner : btsep ∉ t)
    (boundary : rest = [] ∨ rest.head? = some btsep) {prev : Option UInt8}
    (inside : atStart prev = false) (w : Bytes) :
    matchLiteralFrom prev (t ++ rest) w = true ↔
      ∃ w', w = t ++ w' ∧ matchLiteralFrom none rest w' = true := by
  induction t generalizing prev w with
  | nil => simpa using matchLiteralFrom_boundary boundary prev none w
  | cons b t ih =>
    obtain ⟨notSep, inner⟩ := not_or.mp (mt mem_cons.mpr inner)
    have next : atStart (some b) = false := by simp [atStart, Ne.symm notSep]
    rw [cons_append, matchLiteralFrom_byte (by simp [inside]) (by simp [inside])]
    simp only [ih inner next]
    constructor
    · rintro ⟨_, rfl, w', rfl, rest⟩
      exact ⟨w', rfl, rest⟩
    · rintro ⟨w', rfl, rest⟩
      exact ⟨t ++ w', rfl, w', rfl, rest⟩

theorem matchLiteralFrom_token {t rest : Bytes} (inner : btsep ∉ t) (filled : t ≠ [])
    (noPwc : t ≠ [pwc]) (noFwc : t ≠ [fwc]) (boundary : rest = [] ∨ rest.head? = some btsep)
    (prev : Option UInt8) (w : Bytes) :
    matchLiteralFrom prev (t ++ rest) w = true ↔
      ∃ w', w = t ++ w' ∧ matchLiteralFrom none rest w' = true := by
  cases t with
  | nil => exact absurd rfl filled
  | cons b t =>
    obtain ⟨notSep, inner⟩ := not_or.mp (mt mem_cons.mpr inner)
    have next : atStart (some b) = false := by simp [atStart, Ne.symm notSep]
    have more : b = pwc ∨ b = fwc → t ≠ [] := by
      rintro wild rfl
      rcases wild with rfl | rfl
      · exact noPwc rfl
      · exact noFwc rfl
    have plain : b = pwc → atStart prev = true → t ++ rest ≠ [] ∧ (t ++ rest).head? ≠ some btsep := by
      intro wild _
      obtain ⟨c, t, rfl⟩ := exists_cons_of_ne_nil (more (.inl wild))
      refine ⟨by simp, ?_⟩
      intro sep
      exact inner (by simp [Option.some.inj sep])
    rw [cons_append, matchLiteralFrom_byte plain (fun wild _ => by simp [more (.inr wild)])]
    simp only [matchLiteralFrom_inside inner boundary next]
    constructor
    · rintro ⟨_, rfl, w', rfl, rest⟩
      exact ⟨w', rfl, rest⟩
    · rintro ⟨w', rfl, rest⟩
      exact ⟨t ++ w', rfl, w', rfl, rest⟩

/-! ### Whole subjects -/

theorem keyOf_literal {t : Token} (noPwc : t ≠ [pwc]) (noFwc : t ≠ [fwc]) : keyOf t = .lit t := by
  rw [keyOf, if_neg noPwc, if_neg noFwc]

theorem keyOf_pwc : keyOf [pwc] = .pwc := if_pos rfl

theorem keyOf_fwc : keyOf [fwc] = .fwc := by decide

section
variable {prev : Option UInt8} {w : Bytes}

section

variable (start : atStart prev = true) (filled : w ≠ [])

include start filled

theorem matchLiteralFrom_pwc_end : matchLiteralFrom prev [pwc] w = true ↔ btsep ∉ w := by
  obtain ⟨c, w, rfl⟩ := exists_cons_of_ne_nil filled
  rw [matchLiteralFrom, if_pos ⟨rfl, start⟩, decide_eq_true_eq]

theorem matchLiteralFrom_fwc_end : matchLiteralFrom prev [fwc] w = true := by
  obtain ⟨c, w, rfl⟩ := exists_cons_of_ne_nil filled
  have other : ¬ (fwc = pwc ∧ atStart prev = true) := fun h => absurd h.1 (by decide)
  rw [matchLiteralFrom, if_neg other, if_pos ⟨rfl, start⟩]

theorem matchLiteralFrom_pwc_more (rest : Bytes) :
    matchLiteralFrom prev (pwc :: btsep :: rest) w = true ↔
      ∃ a b, w = a ++ btsep :: b ∧ btsep ∉ a ∧ matchLiteralFrom (some btsep) rest b = true := by
  obtain ⟨c, w, rfl⟩ := exists_cons_of_ne_nil filled
  rw [matchLiteralFrom, if_pos ⟨rfl, start, rfl⟩]
  rcases tokens_cases (c :: w) with ⟨inner, -⟩ | ⟨a, b, same, inner, -⟩
  · have skipped : (c :: w).dropWhile (fun x => x != btsep) = [] := by
      refine dropWhile_eq_nil_iff.mpr ?_
      intro x member
      simpa using fun h : x = btsep => inner (h ▸ member)
    simp only [skipped, Bool.false_eq_true, false_iff]
    rintro ⟨a, b, same, -⟩
    exact inner (by simp [same])
  · have skipped : (c :: w).dropWhile (fun x => x != btsep) = btsep :: b := by
      rw [same, dropWhile_append_of_pos, dropWhile_cons_of_neg (by simp)]
      intro x member
      simpa using fun h : x = btsep => inner (h ▸ member)
    simp only [skipped]
    constructor
    · intro matched
      exact ⟨a, b, same, inner, matched⟩
    · rintro ⟨a', b', same', inner', matched⟩
      have split := congrArg tokens (same.symm.trans same')
      rw [tokens_split inner, tokens_split inner', List.cons.injEq] at split
      rwa [tokens_injective split.2]

end

end

theorem ne_nil_of_tokens {w : Bytes} (full : [] ∉ tokens w) : w ≠ [] := by
  rintro rfl
  exact full (by simp [tokens])

theorem covers_single_pwc (w : Bytes) : Covers [.pwc] (tokens w) ↔ btsep ∉ w := by
  rcases tokens_cases w with ⟨last, whole⟩ | ⟨a, b, rfl, -, whole⟩
  · simp [last, whole]
  · obtain ⟨b', bs, more⟩ := exists_cons_of_ne_nil (tokens_ne_nil b)
    simp [whole, more]

theorem covers_single_fwc (w : Bytes) : Covers [.fwc] (tokens w) := by
  obtain ⟨a, as, whole⟩ := exists_cons_of_ne_nil (tokens_ne_nil w)
  simp [whole]

theorem covers_single_lit {t : Token} (inner : btsep ∉ t) (w : Bytes) :
    Covers [.lit t] (tokens w) ↔ w = t := by
  have whole : Covers [.lit t] (tokens w) ↔ tokens w = tokens t := by
    rw [tokens_single inner]
    obtain ⟨a, as, split⟩ := exists_cons_of_ne_nil (tokens_ne_nil w)
    cases as with
    | nil => simp [split, eq_comm]
    | cons b bs => simp [split]
  rw [whole, tokens_injective.eq_iff]

/-- The comparison from the start of a token on is the match of the tokens. -/
theorem matchLiteralFrom_iff {prev : Option UInt8} (start : atStart prev = true) (subject w : Bytes)
    (valid : ValidTokens (tokens subject)) (full : [] ∉ tokens w) :
    matchLiteralFrom prev subject w = true ↔ FilterMatches subject w := by
  have filled := ne_nil_of_tokens full
  rw [FilterMatches, keys]
  rcases tokens_cases subject with ⟨inner, single⟩ | ⟨t, rest, shape, inner, split⟩
  · -- the last token of the subscription
    rw [single, map_singleton]
    by_cases one : subject = [pwc]
    · subst one
      rw [matchLiteralFrom_pwc_end start filled, keyOf_pwc, covers_single_pwc]
    by_cases all : subject = [fwc]
    · subst all
      exact iff_of_true (matchLiteralFrom_fwc_end start filled) (keyOf_fwc ▸ covers_single_fwc w)
    have compared := matchLiteralFrom_token inner (ne_nil_of_tokens valid.1) one all (.inl rfl) prev w
    rw [append_nil] at compared
    rw [compared, keyOf_literal one all, covers_single_lit inner]
    simp [matchLiteralFrom]
  · rw [split] at valid ⊢
    obtain ⟨r, rs, more⟩ := exists_cons_of_ne_nil (tokens_ne_nil rest)
    have shorter : rest.length < subject.length := by
      rw [shape, length_append, length_cons]
      omega
    have notAll : t ≠ [fwc] := by
      rintro rfl
      exact valid.2 (by simp [more])
    have named : t ≠ [] := fun h => valid.1 (by simp [h])
    -- the tokens after the first one, in both
    have later (a b : Bytes) (whole : [] ∉ tokens (a ++ btsep :: b)) (inner : btsep ∉ a) :
        matchLiteralFrom (some btsep) rest b = true ↔ FilterMatches rest b := by
      rw [tokens_split inner] at whole
      exact matchLiteralFrom_iff rfl rest b valid.tail (fun h => whole (mem_cons_of_mem a h))
    rw [map_cons, shape]
    by_cases one : t = [pwc]
    · subst one
      rw [singleton_append, matchLiteralFrom_pwc_more start filled, keyOf_pwc]
      rcases tokens_cases w with ⟨last, whole⟩ | ⟨a, b, rfl, first, whole⟩
      · rw [whole, pwc_covers, covers_nil]
        refine iff_of_false ?_ (by simp [more])
        rintro ⟨a, b, rfl, -⟩
        exact last (by simp)
      rw [whole, pwc_covers]
      constructor
      · rintro ⟨a', b', same, first', matched⟩
        have tokens := congrArg tokens same
        rw [tokens_split first, tokens_split first', List.cons.injEq] at tokens
        rw [tokens_injective tokens.2] at full ⊢
        exact (later a b' full first).mp matched
      · intro covers
        exact ⟨a, b, rfl, first, (later a b full first).mpr covers⟩
    rw [matchLiteralFrom_token inner named one notAll (.inr rfl), keyOf_literal one notAll]
    have sep (w' : Bytes) : matchLiteralFrom none (btsep :: rest) w' = true ↔
        ∃ b, w' = btsep :: b ∧ matchLiteralFrom (some btsep) rest b = true :=
      matchLiteralFrom_byte (fun h => absurd h (by decide)) (fun h => absurd h (by decide)) w'
    simp only [sep]
    rcases tokens_cases w with ⟨last, whole⟩ | ⟨a, b, rfl, first, whole⟩
    · rw [whole, lit_covers, covers_nil]
      refine iff_of_false ?_ (by simp [more])
      rintro ⟨_, rfl, b, rfl, -⟩
      exact last (by simp)
    rw [whole, lit_covers]
    constructor
    · rintro ⟨_, same, b', rfl, matched⟩
      have tokens := congrArg tokens same
      rw [tokens_split first, tokens_split inner, List.cons.injEq] at tokens
      rw [tokens_injective tokens.2] at full ⊢
      exact ⟨tokens.1.symm, (later a b' full first).mp matched⟩
    · rintro ⟨rfl, covers⟩
      exact ⟨btsep :: b, rfl, b, rfl, (later t b full first).mpr covers⟩
termination_by subject.length

theorem matchLiteral_iff {literal subject : Bytes} (valid : ValidTokens (tokens subject))
    (full : [] ∉ tokens literal) :
    matchLiteral literal subject = true ↔ FilterMatches subject literal :=
  matchLiteralFrom_iff rfl subject literal valid full

end LinearNats.Sublists
