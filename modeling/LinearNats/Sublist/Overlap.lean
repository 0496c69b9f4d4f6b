import LinearNats.Sublist.Cache
import LinearNats.Sublist.Matchers

/-! Two filters compared through the literal subjects they match: inclusion and overlap. -/
namespace LinearNats.Sublists
open Server List

/-! ### Literal subjects as lists of tokens -/

/-- A subject that `IsValidPublishSubject` accepts. -/
structure PublishSubject where
  bytes : Bytes
  valid : isValidSubject bytes = true
  literal : isValidLiteralSubject bytes = true

/-- A token of such a subject. -/
structure Plain (t : Token) : Prop where
  filled : t ≠ []
  noPwc : t ≠ [pwc]
  noFwc : t ≠ [fwc]
  inner : btsep ∉ t
  noSpace : t.any isSpace = false

/-- The tokens of a subject that `IsValidSubject` accepts. -/
structure Proper (ts : List Token) : Prop where
  valid : ValidTokens ts
  inner : ∀ t ∈ ts, btsep ∉ t
  noSpace : ∀ t ∈ ts, t.any isSpace = false

theorem sep_notMem_tokens {subject : Bytes} : ∀ t ∈ tokens subject, btsep ∉ t := by
  rw [← tokenizeSubject_eq]
  induction subject with
  | nil => simp [tokenizeSubject]
  | cons c s ih =>
    rw [tokenizeSubject]
    split
    · simpa using ih
    next other =>
      rcases split : tokenizeSubject s with _ | ⟨t, ts⟩
      · simp [Search.consHead, Ne.symm other]
      · rw [split] at ih
        simpa [Search.consHead, Ne.symm other] using ih

theorem noSpace_of_isValid {ts : List Token} {sfwc : Bool} (valid : isValidTokens ts sfwc = true) :
    ∀ t ∈ ts, t.any isSpace = false := by
  induction ts generalizing sfwc with
  | nil => simp
  | cons t ts ih =>
    rw [isValidTokens] at valid
    split at valid
    · cases valid
    · split at valid
      · cases valid
      next clean => exact forall_mem_cons.mpr ⟨Bool.eq_false_iff.mpr clean, ih valid⟩

theorem isValidTokens_plain {ts : List Token} (plain : ∀ t ∈ ts, Plain t) :
    isValidTokens ts false = true := by
  induction ts with
  | nil => rfl
  | cons t ts ih =>
    obtain ⟨first, rest⟩ := forall_mem_cons.mp plain
    rw [isValidTokens, if_neg (by simp [first.filled]), if_neg (by simp [first.noSpace]),
      decide_eq_false first.noFwc]
    exact ih rest

theorem Proper.of_valid {subject : Bytes} (valid : isValidSubject subject = true) :
    Proper (tokens subject) := by
  refine ⟨validTokens_of_isValidSubject valid, sep_notMem_tokens, ?_⟩
  unfold isValidSubject at valid
  split at valid
  · cases valid
  · exact noSpace_of_isValid valid

theorem PublishSubject.plain (s : PublishSubject) : ∀ t ∈ tokens s.bytes, Plain t := by
  intro t inside
  have proper := Proper.of_valid s.valid
  have each := all_eq_true.mp s.literal t inside
  simp only [Bool.and_eq_true, bne_iff_ne] at each
  exact ⟨each.1.1, each.1.2, each.2, proper.inner t inside, proper.noSpace t inside⟩

theorem PublishSubject.exists_of_tokens {ts : List Token} (some_ : ts ≠ [])
    (plain : ∀ t ∈ ts, Plain t) : ∃ s : PublishSubject, tokens s.bytes = ts := by
  have split : tokens ([btsep].intercalate ts) = ts :=
    splitOn_intercalate btsep (fun t inside => (plain t inside).inner) some_
  refine ⟨⟨[btsep].intercalate ts, ?_, ?_⟩, split⟩
  · have filled : [btsep].intercalate ts ≠ [] := by
      intro empty
      rw [empty] at split
      exact (plain [] (by rw [← split]; simp [tokens])).filled rfl
    rw [isValidSubject, if_neg filled, split]
    exact isValidTokens_plain plain
  · rw [isValidLiteralSubject, split, all_eq_true]
    intro t inside
    simp [(plain t inside).filled, (plain t inside).noPwc, (plain t inside).noFwc]

/-! ### Keys and the tokens they take -/

def Key.Takes : Key → Token → Prop
  | .lit a, t => a = t
  | _, _ => True

theorem covers_cons {k : Key} (single : k ≠ .fwc) (ks : List Key) (t : Token) (ts : List Token) :
    Covers (k :: ks) (t :: ts) ↔ k.Takes t ∧ Covers ks ts := by
  cases k with
  | lit a => exact lit_covers a ks t ts
  | pwc => simp [Key.Takes]
  | fwc => exact absurd rfl single

/-- The letters "x" and "y" as tokens. -/
theorem plain_letter : ∀ c ∈ [(120 : UInt8), 121], Plain [c] := by
  intro c inside
  rcases mem_pair.mp inside with rfl | rfl <;> constructor <;> decide

theorem plain_x : Plain [120] := plain_letter 120 mem_cons_self

namespace Proper

variable {t : Token} {ts : List Token}

theorem tail (proper : Proper (t :: ts)) : Proper ts :=
  ⟨proper.valid.tail, fun t inside => proper.inner t (mem_cons_of_mem _ inside),
    fun t inside => proper.noSpace t (mem_cons_of_mem _ inside)⟩

theorem last (proper : Proper (t :: ts)) (all : t = [fwc]) : ts = [] := by
  by_contra more
  apply proper.valid.2
  rw [dropLast_cons_of_ne_nil more, all]
  exact mem_cons_self

theorem head (proper : Proper (t :: ts)) (noPwc : t ≠ [pwc]) (noFwc : t ≠ [fwc]) : Plain t :=
  ⟨fun empty => proper.valid.1 (by simp [empty]), noPwc, noFwc, proper.inner t mem_cons_self,
    proper.noSpace t mem_cons_self⟩

/-- A token for every key, and so a subject for every filter. -/
theorem exists_taken (proper : Proper (t :: ts)) : ∃ x, Plain x ∧ (keyOf t).Takes x := by
  by_cases one : t = [pwc]
  · exact ⟨_, plain_x, by rw [one, keyOf_pwc]; trivial⟩
  · by_cases all : t = [fwc]
    · exact ⟨_, plain_x, by rw [all, keyOf_fwc]; trivial⟩
    · exact ⟨t, proper.head one all, by rw [keyOf_literal one all]; rfl⟩

theorem exists_covered (proper : Proper ts) :
    ∃ toks, (∀ x ∈ toks, Plain x) ∧ Covers (ts.map keyOf) toks := by
  induction ts with
  | nil => exact ⟨[], by simp, by simp⟩
  | cons t ts ih =>
    obtain ⟨x, plain, takes⟩ := proper.exists_taken
    obtain ⟨toks, rest, covers⟩ := ih proper.tail
    by_cases all : t = [fwc]
    · exact ⟨[x], by simpa using plain, by simp [all, keyOf_fwc, proper.last all]⟩
    · refine ⟨x :: toks, forall_mem_cons.mpr ⟨plain, rest⟩, ?_⟩
      exact (covers_cons (fun key => all (keyOf_eq_fwc.mp key)) _ _ _).mpr ⟨takes, covers⟩

end Proper

/-! ### Inclusion -/

def Included (ts us : List Token) : Prop :=
  ∀ toks, (∀ x ∈ toks, Plain x) → Covers (ts.map keyOf) toks → Covers (us.map keyOf) toks

section

variable {t u : Token} {ts us : List Token}

theorem included_cons (properT : Proper (t :: ts)) (oneT : t ≠ [fwc]) (oneU : u ≠ [fwc]) :
    Included (t :: ts) (u :: us) ↔
      (∀ x, Plain x → (keyOf t).Takes x → (keyOf u).Takes x) ∧ Included ts us := by
  have coversT := covers_cons (fun key => oneT (keyOf_eq_fwc.mp key)) (ts.map keyOf)
  have coversU := covers_cons (fun key => oneU (keyOf_eq_fwc.mp key)) (us.map keyOf)
  constructor
  · intro all
    obtain ⟨x, plain, takes⟩ := properT.exists_taken
    obtain ⟨toks, others, covers⟩ := properT.tail.exists_covered
    constructor
    · intro x plain takes
      exact ((coversU x toks).mp (all (x :: toks) (forall_mem_cons.mpr ⟨plain, others⟩)
        ((coversT x toks).mpr ⟨takes, covers⟩))).1
    · intro toks others covers
      exact ((coversU x toks).mp (all (x :: toks) (forall_mem_cons.mpr ⟨plain, others⟩)
        ((coversT x toks).mpr ⟨takes, covers⟩))).2
  · rintro ⟨first, rest⟩ toks plain covers
    cases toks with
    | nil => simp at covers
    | cons x toks =>
      obtain ⟨own, others⟩ := forall_mem_cons.mp plain
      obtain ⟨takes, covers⟩ := (coversT x toks).mp covers
      exact (coversU x toks).mpr ⟨first x own takes, rest toks others covers⟩

/-- '>' takes one token and takes two. -/
theorem not_included_fwc (oneU : u ≠ [fwc]) : ¬ Included [[fwc]] (u :: us) := by
  intro all
  have covers := covers_cons (fun key => oneU (keyOf_eq_fwc.mp key)) (us.map keyOf)
  have one := ((covers _ _).mp (all [[120]] (by simp [plain_x]) (by simp [keyOf_fwc]))).2
  have two := ((covers _ _).mp (all [[120], [120]] (by simp [plain_x]) (by simp [keyOf_fwc]))).2
  rw [(covers_nil _).mp one] at two
  exact nil_covers _ _ two

theorem isSubsetMatchTokenized_included (properT : Proper ts) (properU : Proper us)
    (whole : ∀ u ∈ us, u.head? = some pwc → u = [pwc]) :
    isSubsetMatchTokenized ts us = true ↔ Included ts us := by
  induction us generalizing ts with
  | nil =>
    cases ts with
    | nil => simp [isSubsetMatchTokenized, Included]
    | cons t ts =>
      obtain ⟨toks, plain, covers⟩ := properT.exists_covered
      refine iff_of_false (by simp [isSubsetMatchTokenized]) (fun all => ?_)
      have none_ := all toks plain covers
      cases toks with
      | nil => simp at covers
      | cons x toks => exact nil_covers _ _ none_
  | cons u us ih =>
    cases ts with
    | nil =>
      refine iff_of_false (by simp [isSubsetMatchTokenized]) (fun all => ?_)
      simpa using all [] (by simp) (by simp)
    | cons t ts =>
      have filledT : t ≠ [] := fun empty => properT.valid.1 (by simp [empty])
      have filledU : u ≠ [] := fun empty => properU.valid.1 (by simp [empty])
      rw [isSubsetMatchTokenized, if_neg filledU]
      split
      next all =>
        rw [all, properU.last all]
        refine iff_of_true rfl (fun toks _ covers => ?_)
        cases toks with
        | nil => simp at covers
        | cons x toks => simp [keyOf_fwc]
      next all =>
      by_cases rest : t = [fwc]
      · rw [if_pos (.inr rest), rest, properT.last rest]
        exact iff_of_false Bool.false_ne_true (not_included_fwc all)
      rw [if_neg (by simp [filledT, rest]), included_cons properT rest all,
        ← ih properT.tail properU.tail (fun u inside => whole u (mem_cons_of_mem _ inside))]
      by_cases oneU : u = [pwc]
      · subst oneU
        have takes : ∀ x, Plain x → (keyOf t).Takes x → Key.pwc.Takes x := fun _ _ _ => trivial
        rw [keyOf_pwc, and_iff_right takes]
        split <;> simp
      rw [keyOf_literal oneU all]
      by_cases oneT : t = [pwc]
      · rw [if_pos oneT, if_neg oneU, oneT, keyOf_pwc]
        refine iff_of_false Bool.false_ne_true (fun both => ?_)
        have x := both.1 _ plain_x trivial
        have y := both.1 _ (plain_letter 121 (by simp)) trivial
        exact absurd (x.symm.trans y) (by decide)
      · have star : u.head? ≠ some pwc := fun starts => oneU (whole u mem_cons_self starts)
        rw [if_neg oneT, keyOf_literal oneT rest]
        by_cases same : t = u
        · rw [if_neg (by simp [same]), same, and_iff_right (fun _ _ taken => taken)]
        · rw [if_pos ⟨star, same⟩]
          refine iff_of_false Bool.false_ne_true (fun both => ?_)
          exact same (both.1 t (properT.head oneT rest) rfl).symm

end

/-- A valid subject whose wildcard characters are whole tokens. -/
structure WholeFilter where
  bytes : Bytes
  valid : isValidSubject bytes = true
  whole : ∀ t ∈ tokens bytes, pwc ∈ t ∨ fwc ∈ t → t = [pwc] ∨ t = [fwc]

theorem subset_iff_included (a b : WholeFilter) :
    subjectIsSubsetMatch a.bytes b.bytes = true ↔ Included (tokens a.bytes) (tokens b.bytes) := by
  rw [subjectIsSubsetMatch, tokenizeSubject_eq, tokenizeSubject_eq]
  refine isSubsetMatchTokenized_included (.of_valid a.valid) (.of_valid b.valid) ?_
  intro t inside starts
  rcases b.whole t inside (.inl (mem_of_mem_head? starts)) with one | all
  · exact one
  · rw [all] at starts
    exact absurd starts (by decide)

/-- A test subject is above a subject if it matches all that the subject matches. -/
theorem subset_match_decides_inclusion :
    (∀ a b : WholeFilter, subjectIsSubsetMatch a.bytes b.bytes = true ↔
      ∀ s : PublishSubject, FilterMatches a.bytes s.bytes → FilterMatches b.bytes s.bytes) ∧
    (∀ a : WholeFilter, subjectIsSubsetMatch a.bytes a.bytes = true) ∧
    ∀ a b c : WholeFilter, subjectIsSubsetMatch a.bytes b.bytes = true →
      subjectIsSubsetMatch b.bytes c.bytes = true → subjectIsSubsetMatch a.bytes c.bytes = true := by
  refine ⟨fun a b => (subset_iff_included a b).trans ⟨fun all s => all _ s.plain, ?_⟩, fun a => ?_, ?_⟩
  · intro all toks plain covers
    have some_ : toks ≠ [] := by
      rintro rfl
      exact tokens_ne_nil a.bytes (map_eq_nil_iff.mp ((covers_nil _).mp covers))
    obtain ⟨s, rfl⟩ := PublishSubject.exists_of_tokens some_ plain
    exact all s covers
  · exact (subset_iff_included a a).mpr (fun _ _ covers => covers)
  · intro a b c ab bc
    rw [subset_iff_included] at *
    exact fun toks plain covers => bc toks plain (ab toks plain covers)

/-! ### Overlap -/

/-- Whether there is a partial and whether there is a full wildcard. -/
def analyzeTokens (tokens : List Token) : Bool × Bool :=
  (tokens.any (· == [pwc]), tokens.any (· == [fwc]))

def tokensCanMatch (t1 t2 : Token) : Bool :=
  match t1, t2 with
  | [], _ | _, [] => false
  | t1c :: _, t2c :: _ =>
    if t1c = pwc ∨ t2c = pwc ∨ t1c = fwc ∨ t2c = fwc then true else t1 == t2

def subjectsCollide (subj1 subj2 : Bytes) : Bool :=
  if subj1 = subj2 then true
  else
    let toks1 := tokenizeSubject subj1
    let toks2 := tokenizeSubject subj2
    let (pwc1, fwc1) := analyzeTokens toks1
    let (pwc2, fwc2) := analyzeTokens toks2
    let l1 := !(pwc1 || fwc1)
    let l2 := !(pwc2 || fwc2)
    if l1 && l2 then subj1 == subj2
    else if l1 && !l2 then isSubsetMatchTokenized toks1 toks2
    else if l2 && !l1 then isSubsetMatchTokenized toks2 toks1
    else if !fwc1 && !fwc2 && toks1.length ≠ toks2.length then false
    else if toks1.length < toks2.length && !fwc1 || toks2.length < toks1.length && !fwc2 then false
    -- The loop over the places that both have.
    else (toks1.zip toks2).all (fun (t1, t2) => tokensCanMatch t1 t2)

/-- Some literal subject is matched by both. -/
def Overlap (a b : Bytes) : Prop :=
  ∃ s : PublishSubject, FilterMatches a s.bytes ∧ FilterMatches b s.bytes

def wild (t : Token) : Prop := t = [pwc] ∨ t = [fwc]

/-- At every place that both have, the tokens are equal or one is a wildcard. -/
def NoClash (ts us : List Token) : Prop :=
  ∀ p ∈ ts.zip us, p.1 = p.2 ∨ wild p.1 ∨ wild p.2

/-- Only '>' makes up for a token less. -/
def Lengths (ts us : List Token) : Prop :=
  (ts.length < us.length → [fwc] ∈ ts) ∧ (us.length < ts.length → [fwc] ∈ us)

def Meets (ts us : List Token) : Prop :=
  ∃ toks, (∀ x ∈ toks, Plain x) ∧ Covers (ts.map keyOf) toks ∧ Covers (us.map keyOf) toks

section

variable {t u : Token} {ts us : List Token}

theorem Meets.symm (meets : Meets ts us) : Meets us ts := by
  obtain ⟨toks, plain, first, second⟩ := meets
  exact ⟨toks, plain, second, first⟩

theorem meets_fwc (proper : Proper (u :: us)) : Meets [[fwc]] (u :: us) := by
  obtain ⟨toks, plain, covers⟩ := proper.exists_covered
  refine ⟨toks, plain, ?_, covers⟩
  cases toks with
  | nil => simp at covers
  | cons x toks => simp [keyOf_fwc]

theorem meets_cons (properT : Proper (t :: ts)) (properU : Proper (u :: us)) (oneT : t ≠ [fwc])
    (oneU : u ≠ [fwc]) : Meets (t :: ts) (u :: us) ↔ (t = u ∨ wild t ∨ wild u) ∧ Meets ts us := by
  have coversT := covers_cons (fun key => oneT (keyOf_eq_fwc.mp key)) (ts.map keyOf)
  have coversU := covers_cons (fun key => oneU (keyOf_eq_fwc.mp key)) (us.map keyOf)
  constructor
  · rintro ⟨toks, plain, first, second⟩
    cases toks with
    | nil => simp at first
    | cons x toks =>
      obtain ⟨takesT, first⟩ := (coversT x toks).mp first
      obtain ⟨takesU, second⟩ := (coversU x toks).mp second
      refine ⟨?_, toks, (forall_mem_cons.mp plain).2, first, second⟩
      by_cases starT : t = [pwc]
      · exact .inr (.inl (.inl starT))
      · by_cases starU : u = [pwc]
        · exact .inr (.inr (.inl starU))
        · rw [keyOf_literal starT oneT] at takesT
          rw [keyOf_literal starU oneU] at takesU
          exact .inl (takesT.trans takesU.symm)
  · rintro ⟨fits, toks, plain, first, second⟩
    obtain ⟨x, own, takesT, takesU⟩ : ∃ x, Plain x ∧ (keyOf t).Takes x ∧ (keyOf u).Takes x := by
      rcases fits with rfl | starT | starU
      · obtain ⟨x, own, takes⟩ := properT.exists_taken
        exact ⟨x, own, takes, takes⟩
      · obtain ⟨x, own, takes⟩ := properU.exists_taken
        exact ⟨x, own, by rw [starT.resolve_right oneT, keyOf_pwc]; trivial, takes⟩
      · obtain ⟨x, own, takes⟩ := properT.exists_taken
        exact ⟨x, own, takes, by rw [starU.resolve_right oneU, keyOf_pwc]; trivial⟩
    exact ⟨x :: toks, forall_mem_cons.mpr ⟨own, plain⟩, (coversT x toks).mpr ⟨takesT, first⟩,
      (coversU x toks).mpr ⟨takesU, second⟩⟩

theorem meets_iff (properT : Proper ts) (properU : Proper us) :
    Meets ts us ↔ NoClash ts us ∧ Lengths ts us := by
  induction ts generalizing us with
  | nil =>
    cases us with
    | nil => exact iff_of_true ⟨[], by simp, by simp, by simp⟩ (by simp [NoClash, Lengths])
    | cons u us =>
      refine iff_of_false ?_ (by simp [Lengths])
      rintro ⟨_ | ⟨x, toks⟩, _, first, second⟩
      · simp at second
      · simp at first
  | cons t ts ih =>
    cases us with
    | nil =>
      refine iff_of_false ?_ (by simp [Lengths])
      rintro ⟨_ | ⟨x, toks⟩, _, first, second⟩
      · simp at first
      · simp at second
    | cons u us =>
      by_cases allT : t = [fwc]
      · rw [allT, properT.last allT]
        exact iff_of_true (meets_fwc properU) (by simp [NoClash, Lengths, wild])
      by_cases allU : u = [fwc]
      · rw [allU, properU.last allU]
        exact iff_of_true (meets_fwc properT).symm (by simp [NoClash, Lengths, wild])
      rw [meets_cons properT properU allT allU, ih properT.tail properU.tail]
      simp [NoClash, Lengths, Ne.symm allT, Ne.symm allU, and_assoc]

end

theorem overlap_iff {a b : Bytes} (validA : isValidSubject a = true)
    (validB : isValidSubject b = true) :
    Overlap a b ↔ NoClash (tokens a) (tokens b) ∧ Lengths (tokens a) (tokens b) := by
  rw [← meets_iff (.of_valid validA) (.of_valid validB)]
  constructor
  · rintro ⟨s, first, second⟩
    exact ⟨tokens s.bytes, s.plain, first, second⟩
  · rintro ⟨toks, plain, first, second⟩
    have some_ : toks ≠ [] := by
      rintro rfl
      exact tokens_ne_nil a (map_eq_nil_iff.mp ((covers_nil _).mp first))
    obtain ⟨s, rfl⟩ := PublishSubject.exists_of_tokens some_ plain
    exact ⟨s, first, second⟩

def Literal (ts : List Token) : Prop := ∀ t ∈ ts, ¬ wild t

def StartsWild (t : Token) : Prop := t.head? = some pwc ∨ t.head? = some fwc

/-- The pairs of tokens that the comparison lets pass: the same token twice, and a token that only
starts like a wildcard. Next to a literal subject that is a token of the other with '*' in front. -/
def Passes (ts us : List Token) (p : Token × Token) : Prop :=
  p.1 = p.2 ∨ Literal ts ∧ (p.2.head? = some pwc ∨ p.2 = [fwc]) ∨
    Literal us ∧ (p.1.head? = some pwc ∨ p.1 = [fwc]) ∨
    ¬ Literal ts ∧ ¬ Literal us ∧ (StartsWild p.1 ∨ StartsWild p.2)

section

variable {ts us : List Token} {a b : Bytes}

theorem Lengths.symm (lengths : Lengths ts us) : Lengths us ts := ⟨lengths.2, lengths.1⟩

theorem forall_zip_swap {P : Token × Token → Prop} :
    (∀ p ∈ ts.zip us, P p) ↔ ∀ p ∈ us.zip ts, P p.swap := by
  rw [← zip_swap us ts]
  simp only [mem_map, forall_exists_index, and_imp, forall_apply_eq_imp_iff₂]

theorem map_keyOf_literal (literal : Literal ts) : ts.map keyOf = ts.map .lit := by
  refine map_congr_left (fun t inside => ?_)
  obtain ⟨noPwc, noFwc⟩ := not_or.mp (literal t inside)
  exact keyOf_literal noPwc noFwc

theorem literal_iff (ts : List Token) :
    (!(ts.any (· == [pwc]) || ts.any (· == [fwc]))) = true ↔ Literal ts := by
  simp [Literal, wild, not_or, forall_and]

/-- Two literals meet only if they are the same. -/
theorem subjectsCollide_literals (literalA : Literal (tokens a)) (literalB : Literal (tokens b)) :
    (subjectsCollide a b = true ↔ a = b) ∧ (Meets (tokens a) (tokens b) → a = b) := by
  constructor
  · rw [subjectsCollide]
    simp only [analyzeTokens, tokenizeSubject_eq]
    split
    · simp [*]
    · rw [if_pos (by rw [Bool.and_eq_true, literal_iff, literal_iff]; exact ⟨literalA, literalB⟩),
        beq_iff_eq]
  · rintro ⟨toks, _, first, second⟩
    rw [map_keyOf_literal literalA, covers_lits] at first
    rw [map_keyOf_literal literalB, covers_lits] at second
    exact tokens_injective (first.symm.trans second)

/-- A literal against a filter. -/
theorem isSubsetMatchTokenized_literal (properT : Proper ts) (properU : Proper us)
    (literal : Literal ts) :
    isSubsetMatchTokenized ts us = true ↔
      Lengths ts us ∧ ∀ p ∈ ts.zip us, p.1 = p.2 ∨ p.2.head? = some pwc ∨ p.2 = [fwc] := by
  induction us generalizing ts with
  | nil => cases ts <;> simp [isSubsetMatchTokenized, Lengths]
  | cons u us ih =>
    cases ts with
    | nil => simp [isSubsetMatchTokenized, Lengths]
    | cons t ts =>
      obtain ⟨plain, literal⟩ := forall_mem_cons.mp literal
      obtain ⟨noPwc, noFwc⟩ := not_or.mp plain
      have filledT : t ≠ [] := fun empty => properT.valid.1 (by simp [empty])
      have filledU : u ≠ [] := fun empty => properU.valid.1 (by simp [empty])
      rw [isSubsetMatchTokenized, if_neg filledU]
      split
      next all =>
        rw [all, properU.last all]
        simp [Lengths]
      next all =>
      rw [if_neg (by simp [filledT, noFwc])]
      have lengths : Lengths (t :: ts) (u :: us) ↔ Lengths ts us := by
        simp [Lengths, Ne.symm noFwc, Ne.symm all]
      rw [lengths, zip_cons_cons, forall_mem_cons]
      split
      next apart => simp [apart.1, apart.2, all]
      next passes =>
        rw [ih properT.tail properU.tail literal]
        simp only [not_and, not_not, ne_eq] at passes
        have first : t = u ∨ u.head? = some pwc ∨ u = [fwc] := by
          by_cases star : u.head? = some pwc
          · exact .inr (.inl star)
          · exact .inl (passes star)
        simp only [first, true_and]

theorem StartsWild.of_wild {t : Token} (isWild : wild t) : StartsWild t := by
  rcases isWild with rfl | rfl
  · exact .inl rfl
  · exact .inr rfl

theorem Passes.of_noClash {p : Token × Token} (inside : p ∈ ts.zip us)
    (fits : p.1 = p.2 ∨ wild p.1 ∨ wild p.2) : Passes ts us p := by
  obtain ⟨first, second⟩ := of_mem_zip inside
  rcases fits with same | isWild
  · exact .inl same
  by_cases one : Literal ts
  · refine .inr (.inl ⟨one, ?_⟩)
    rcases isWild.resolve_left (one p.1 first) with star | all
    · exact .inl (by rw [star]; rfl)
    · exact .inr all
  by_cases two : Literal us
  · refine .inr (.inr (.inl ⟨two, ?_⟩))
    rcases isWild.resolve_right (two p.2 second) with star | all
    · exact .inl (by rw [star]; rfl)
    · exact .inr all
  exact .inr (.inr (.inr ⟨one, two, isWild.imp .of_wild .of_wild⟩))

theorem tokensCanMatch_iff {t u : Token} (filledT : t ≠ []) (filledU : u ≠ []) :
    tokensCanMatch t u = true ↔ t = u ∨ StartsWild t ∨ StartsWild u := by
  obtain ⟨c, t, rfl⟩ := exists_cons_of_ne_nil filledT
  obtain ⟨d, u, rfl⟩ := exists_cons_of_ne_nil filledU
  rw [tokensCanMatch]
  split
  next wild => simp only [StartsWild, head?_cons, Option.some.injEq]; tauto
  next plain => simp only [StartsWild, head?_cons, Option.some.injEq, beq_iff_eq]; tauto

/-- The answer for two subjects of which at least one has a wildcard. -/
theorem subjectsCollide_eq_true (validA : isValidSubject a = true)
    (validB : isValidSubject b = true) (some_ : ¬ (Literal (tokens a) ∧ Literal (tokens b))) :
    subjectsCollide a b = true ↔ Lengths (tokens a) (tokens b) ∧
      ∀ p ∈ (tokens a).zip (tokens b), Passes (tokens a) (tokens b) p := by
  have properA := Proper.of_valid validA
  have properB := Proper.of_valid validB
  rw [subjectsCollide]
  simp only [analyzeTokens, tokenizeSubject_eq]
  split
  next same =>
    subst same
    refine iff_of_true rfl ⟨by simp [Lengths], fun p inside => .inl ?_⟩
    rw [zip, zipWith_self] at inside
    obtain ⟨t, _, rfl⟩ := mem_map.mp inside
    rfl
  rw [if_neg (by rwa [Bool.and_eq_true, literal_iff, literal_iff])]
  split
  next first =>
    rw [Bool.and_eq_true, literal_iff, Bool.not_eq_true', Bool.eq_false_iff, ne_eq, literal_iff] at first
    rw [isSubsetMatchTokenized_literal properA properB first.1]
    simp [Passes, first.1, first.2]
  split
  next second =>
    rw [Bool.and_eq_true, literal_iff, Bool.not_eq_true', Bool.eq_false_iff, ne_eq, literal_iff] at second
    rw [isSubsetMatchTokenized_literal properB properA second.1, forall_zip_swap]
    refine and_congr ⟨Lengths.symm, Lengths.symm⟩ (forall₂_congr fun p _ => ?_)
    simp [Passes, second.1, second.2, eq_comm (a := p.2)]
  next noFirst noSecond =>
  have wildA : ¬ Literal (tokens a) := fun one => noFirst (by
    rw [Bool.and_eq_true, literal_iff, Bool.not_eq_true', Bool.eq_false_iff, ne_eq, literal_iff]
    exact ⟨one, fun two => some_ ⟨one, two⟩⟩)
  have wildB : ¬ Literal (tokens b) := fun two => noSecond (by
    rw [Bool.and_eq_true, literal_iff, Bool.not_eq_true', Bool.eq_false_iff, ne_eq, literal_iff]
    exact ⟨two, wildA⟩)
  have full (ts : List Token) : ts.any (· == [fwc]) = true ↔ [fwc] ∈ ts := by simp
  split
  next short =>
    simp only [Bool.and_eq_true, Bool.not_eq_true', Bool.eq_false_iff, ne_eq, full,
      decide_eq_true_eq] at short
    refine iff_of_false Bool.false_ne_true (fun ⟨lengths, _⟩ => ?_)
    rcases Nat.lt_or_gt_of_ne short.2 with less | less
    · exact short.1.1 (lengths.1 less)
    · exact short.1.2 (lengths.2 less)
  split
  next short =>
    simp only [Bool.or_eq_true, Bool.and_eq_true, Bool.not_eq_true', Bool.eq_false_iff, ne_eq, full,
      decide_eq_true_eq] at short
    refine iff_of_false Bool.false_ne_true (fun ⟨lengths, _⟩ => ?_)
    rcases short with ⟨less, none_⟩ | ⟨less, none_⟩
    · exact none_ (lengths.1 less)
    · exact none_ (lengths.2 less)
  next fits =>
    simp only [Bool.or_eq_true, Bool.and_eq_true, Bool.not_eq_true', Bool.eq_false_iff, ne_eq, full,
      decide_eq_true_eq, not_or, not_and, not_not] at fits
    rw [all_eq_true, and_iff_right (show Lengths (tokens a) (tokens b) from fits)]
    refine forall₂_congr fun p inside => ?_
    obtain ⟨first, second⟩ := of_mem_zip inside
    rw [tokensCanMatch_iff (fun empty => properA.valid.1 (empty ▸ first))
      (fun empty => properB.valid.1 (empty ▸ second))]
    simp [Passes, wildA, wildB]

end

/-- The answer is right where no two different tokens stand in one place of which neither is a
wildcard, and elsewhere where the lengths do not fit, both subjects are literal, or one such pair
of tokens does not look like a match to the comparison. -/
theorem subjectsCollide_iff {a b : Bytes} (validA : isValidSubject a = true)
    (validB : isValidSubject b = true) :
    (subjectsCollide a b = true ↔ Overlap a b) ↔
      NoClash (tokens a) (tokens b) ∨ ¬ Lengths (tokens a) (tokens b) ∨
        Literal (tokens a) ∧ Literal (tokens b) ∨
        ∃ p ∈ (tokens a).zip (tokens b), ¬ Passes (tokens a) (tokens b) p := by
  by_cases both : Literal (tokens a) ∧ Literal (tokens b)
  · refine iff_of_true ?_ (.inr (.inr (.inl both)))
    obtain ⟨answer, meets⟩ := subjectsCollide_literals both.1 both.2
    rw [answer, overlap_iff validA validB, ← meets_iff (.of_valid validA) (.of_valid validB)]
    refine ⟨?_, meets⟩
    rintro rfl
    obtain ⟨toks, plain, covers⟩ := (Proper.of_valid validA).exists_covered
    exact ⟨toks, plain, covers, covers⟩
  rw [subjectsCollide_eq_true validA validB both, overlap_iff validA validB]
  have passes : NoClash (tokens a) (tokens b) →
      ∀ p ∈ (tokens a).zip (tokens b), Passes (tokens a) (tokens b) p :=
    fun noClash p inside => .of_noClash inside (noClash p inside)
  constructor
  · intro right
    by_contra none_
    simp only [not_or, not_not, not_exists, not_and] at none_
    exact none_.1 (right.mp ⟨none_.2.1, none_.2.2.2⟩).1
  · rintro (noClash | short | literal | ⟨p, inside, apart⟩)
    · exact ⟨fun yes => ⟨noClash, yes.1⟩, fun yes => ⟨yes.2, passes noClash⟩⟩
    · exact ⟨fun yes => absurd yes.1 short, fun yes => absurd yes.2 short⟩
    · exact absurd literal both
    · exact ⟨fun yes => absurd (yes.2 p inside) apart,
        fun yes => absurd (passes yes.1 p inside) apart⟩

/-- "foo.*" and "*.bar". -/
theorem subjectsCollide_foo_bar :
    subjectsCollide (ascii "foo.*") (ascii "*.bar") = true ↔ Overlap (ascii "foo.*") (ascii "*.bar") :=
  (subjectsCollide_iff (by decide +kernel) (by decide +kernel)).mpr
    (.inl (by unfold NoClash wild; decide +kernel))

/-- The token "*a" is taken for a wildcard. -/
theorem star_a_collides : isValidSubject (ascii "*.*a") = true ∧ isValidSubject (ascii "x.b") = true ∧
    subjectsCollide (ascii "*.*a") (ascii "x.b") = true ∧ ¬ Overlap (ascii "*.*a") (ascii "x.b") := by
  refine ⟨by decide +kernel, by decide +kernel, by decide +kernel, fun overlap => ?_⟩
  have noClash := ((overlap_iff (by decide +kernel) (by decide +kernel)).mp overlap).1
  revert noClash
  unfold NoClash wild
  decide +kernel

end LinearNats.Sublists
