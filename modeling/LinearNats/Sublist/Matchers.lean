import LinearNats.Sublist.Results

/-! The three ways to decide whether a literal subject matches a subscription's subject: byte by
byte, token by token, and by a sublist. -/
namespace LinearNats.Sublists
open Server List Sublist

def isSpace (c : UInt8) : Bool := c == 32 || c == 9 || c == 10 || c == 13 || c == 12

/-- The loop of `isValidSubject` over the tokens, without the check of the runes. -/
def isValidTokens : List Token → Bool → Bool
  | [], _ => true
  | t :: ts, sfwc =>
    if t = [] ∨ sfwc = true then false
    else if t.any isSpace then false
    else isValidTokens ts (t = [fwc])

def isValidSubject (subject : Bytes) : Bool :=
  if subject = [] then false else isValidTokens (tokens subject) false

def isValidLiteralSubject (subject : Bytes) : Bool :=
  (tokens subject).all (fun t => t != [] && t != [pwc] && t != [fwc])

def subjectMatchesFilter (subject filter : Bytes) : Bool := subjectIsSubsetMatch subject filter

theorem tokenizeSubject_eq (subject : Bytes) : tokenizeSubject subject = tokens subject := by
  induction subject with
  | nil => simp [tokenizeSubject, tokens]
  | cons c s ih =>
    rw [tokenizeSubject, ih]
    obtain ⟨t, ts, split⟩ := exists_cons_of_ne_nil (tokens_ne_nil s)
    simp only [tokens, List.splitOn, splitOnP_cons_eq_if_modifyHead] at split ⊢
    rw [split]
    by_cases sep : c = btsep
    · simp [sep]
    · simp [sep, Search.consHead]

theorem validTokens_of_isValid {ts : List Token} {sfwc : Bool} (valid : isValidTokens ts sfwc = true) :
    acceptable ts sfwc = true := by
  induction ts generalizing sfwc with
  | nil => rfl
  | cons t ts ih =>
    rw [isValidTokens] at valid
    split at valid
    · cases valid
    rename_i ok
    split at valid
    · cases valid
    rw [acceptable, if_neg ok]
    have same : decide (keyOf t = .fwc) = decide (t = [fwc]) := decide_eq_decide.mpr keyOf_eq_fwc
    rw [same]
    exact ih valid

theorem validTokens_of_isValidSubject {subject : Bytes} (valid : isValidSubject subject = true) :
    ValidTokens (tokens subject) := by
  unfold isValidSubject at valid
  split at valid
  · cases valid
  · exact ((acceptable_iff _ _).mp (validTokens_of_isValid valid)).1

/-- The key that `isSubsetMatchTokenized` takes a token for: one that starts with '*' is the
wildcard, whatever comes after. -/
def looseKey (t : Token) : Key :=
  if t = [fwc] then .fwc else if t.head? = some pwc then .pwc else .lit t

theorem isSubsetMatchTokenized_iff {test toks : List Token} (valid : ValidTokens test)
    (literal : ∀ t ∈ toks, t ≠ [] ∧ t ≠ [pwc] ∧ t ≠ [fwc]) :
    isSubsetMatchTokenized toks test = true ↔ Covers (test.map looseKey) toks := by
  induction test generalizing toks with
  | nil => cases toks <;> simp [isSubsetMatchTokenized]
  | cons t2 test ih =>
    have named : t2 ≠ [] := fun h => valid.1 (by simp [h])
    cases toks with
    | nil => simp [isSubsetMatchTokenized]
    | cons t1 toks =>
      obtain ⟨full, notPwc, notFwc⟩ := literal t1 mem_cons_self
      rw [isSubsetMatchTokenized, if_neg named, map_cons, looseKey]
      by_cases all : t2 = [fwc]
      · have last : test = [] := by
          by_contra more
          apply valid.2
          rw [dropLast_cons_of_ne_nil more, all]
          exact mem_cons_self
        simp [all, last]
      have rest := ih valid.tail (fun t inside => literal t (mem_cons_of_mem t1 inside))
      rw [if_neg all, if_neg (by simp [full, notFwc]), if_neg notPwc, if_neg all]
      by_cases wild : t2.head? = some pwc
      · simp [wild, rest]
      · by_cases same : t1 = t2
        · simp [wild, same, rest]
        · simp [wild, same, Ne.symm same]

/-- The tokens of the filter that start with '*' and are no wildcards are those of the subject in
the same places. -/
def StarTokensEqual (filter subject : List Token) : Prop :=
  ∀ (i : Nat) (t : Token), filter[i]? = some t → t.head? = some pwc → t ≠ [pwc] → subject[i]? = some t

theorem covers_iff_loose {filter : List Token} (valid : ValidTokens filter) (toks : List Token) :
    Covers (filter.map keyOf) toks ↔
      Covers (filter.map looseKey) toks ∧ StarTokensEqual filter toks := by
  induction filter generalizing toks with
  | nil =>
    have nothing : StarTokensEqual [] toks := by
      intro i t found
      simp at found
    simp [nothing]
  | cons f filter ih =>
    cases toks with
    | nil => simp
    | cons t toks =>
      have split : StarTokensEqual (f :: filter) (t :: toks) ↔
          (f.head? = some pwc → f ≠ [pwc] → t = f) ∧ StarTokensEqual filter toks := by
        constructor
        · intro equal
          refine ⟨fun star longer => by simpa using equal 0 f rfl star longer, ?_⟩
          intro i t' found
          exact equal (i + 1) t' found
        · rintro ⟨first, others⟩ i t' found star longer
          cases i with
          | zero =>
            cases found
            simpa using first star longer
          | succ i => exact others i t' found star longer
      rw [map_cons, map_cons, split]
      by_cases all : f = [fwc]
      · have last : filter = [] := by
          by_contra more
          apply valid.2
          rw [dropLast_cons_of_ne_nil more, all]
          exact mem_cons_self
        subst all last
        have star : fwc ≠ pwc := by decide
        simp [keyOf_fwc, looseKey, star, StarTokensEqual]
      by_cases one : f = [pwc]
      · subst one
        simp [keyOf_pwc, looseKey, all, ih valid.tail]
      rw [keyOf_literal one all, looseKey, if_neg all, lit_covers, ih valid.tail]
      split
      · rw [pwc_covers]
        grind
      · rw [lit_covers]
        grind

/-- The three answers for a literal subject and a filter; the sublist has a subscription to the
filter only. -/
def Agree (subject filter : Bytes) : Prop :=
  matchLiteral subject filter = subjectMatchesFilter subject filter ∧
    ∀ (enableCache : Bool) (orders : Orders) (sub : Subscription), sub.subject = filter →
      matchLiteral subject filter =
        ((newSublist enableCache).insert orders sub).1.hasInterest subject

theorem matchers_agree_iff {subject filter : Bytes} (literal : isValidLiteralSubject subject = true)
    (valid : isValidSubject filter = true) :
    Agree subject filter ↔
      ¬ Covers ((tokens filter).map looseKey) (tokens subject) ∨
        StarTokensEqual (tokens filter) (tokens subject) := by
  have valid := validTokens_of_isValidSubject valid
  have plain (t : Token) (inside : t ∈ tokens subject) : t ≠ [] ∧ t ≠ [pwc] ∧ t ≠ [fwc] := by
    have each := all_eq_true.mp literal t inside
    simpa [and_assoc] using each
  have full : [] ∉ tokens subject := fun h => (plain [] h).1 rfl
  have bytes := matchLiteral_iff valid full
  have loose : subjectMatchesFilter subject filter = true ↔
      Covers ((tokens filter).map looseKey) (tokens subject) := by
    rw [subjectMatchesFilter, subjectIsSubsetMatch, tokenizeSubject_eq, tokenizeSubject_eq]
    exact isSubsetMatchTokenized_iff valid plain
  have trie (enableCache : Bool) (orders : Orders) (sub : Subscription) (same : sub.subject = filter) :
      ((newSublist enableCache).insert orders sub).1.hasInterest subject = true ↔
        FilterMatches filter subject := by
    subst same
    have subscribed := ((Subscribed.newSublist enableCache).insert orders valid (by simp)).1
    have uncached : ((newSublist enableCache).insert orders sub).1.cache.bind
        (fun cache => Table.get cache subject) = none := by
      rw [Subscribed.cache_insert _ orders valid]
      cases enableCache with
      | false => rfl
      | true =>
        simp only [addToCache, newSublist, if_true, Option.map_some]
        split <;> rfl
    rw [hasInterest, hasInterestNum]
    simp only [uncached, Option.any_none, Bool.false_eq_true, if_false, matchTokens_eq full,
      Option.elim_some]
    rw [subscribed.interest_iff subject]
    simp
  have strict := covers_iff_loose valid (tokens subject)
  have interest : ∀ (enableCache : Bool) (orders : Orders) (sub : Subscription),
      sub.subject = filter → matchLiteral subject filter =
        ((newSublist enableCache).insert orders sub).1.hasInterest subject := by
    intro enableCache orders sub same
    rw [Bool.eq_iff_iff, bytes, trie enableCache orders sub same]
  rw [Agree, and_iff_left interest, Bool.eq_iff_iff, bytes, loose, FilterMatches, keys, strict]
  tauto

/-- "foo" against the filter "*x": only the comparison of the tokens says that it matches. -/
theorem star_x_matches_foo :
    isValidLiteralSubject [102, 111, 111] = true ∧ isValidSubject [42, 120] = true ∧
      subjectMatchesFilter [102, 111, 111] [42, 120] = true ∧
      matchLiteral [102, 111, 111] [42, 120] = false ∧
      ((newSublist true).insert .kept ⟨0, [42, 120], none, false⟩).1.hasInterest
        [102, 111, 111] = false := by
  decide +kernel

/-- The subject "*x" itself is matched by the filter. -/
theorem star_x_agrees : isValidLiteralSubject [42, 120] = true ∧ isValidSubject [42, 120] = true ∧
    Agree [42, 120] [42, 120] := by
  refine ⟨by decide +kernel, by decide +kernel, (matchers_agree_iff (by decide +kernel)
    (by decide +kernel)).mpr (.inr ?_)⟩
  intro i t found _ _
  exact found

end LinearNats.Sublists
