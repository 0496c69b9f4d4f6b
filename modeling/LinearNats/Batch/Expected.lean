import LinearNats.Server.Header
import LinearNats.Table

/-! The numbers in the headers of a published message: the sequences that the publisher expects to be
the last ones, and the time to live. -/
namespace LinearNats.Expected
open Server List

def isDigit (dec : UInt8) : Bool := decide (48 ≤ dec ∧ dec ≤ 57)

/-- The loop of `parseInt64`; an `int64` wraps. -/
def parseInt64From : Int64 → Bytes → Int64
  | n, [] => n
  | n, dec :: d =>
    if isDigit dec then parseInt64From (n * 10 + (Int64.ofNat dec.toNat - 48)) d else -1

def parseInt64 (d : Bytes) : Int64 :=
  if d.length = 0 then -1 else parseInt64From 0 d

def jsExpectedLastSeq : Bytes := ascii "Nats-Expected-Last-Sequence"
def jsExpectedLastSubjSeq : Bytes := ascii "Nats-Expected-Last-Subject-Sequence"
def jsExpectedLastSubjSeqSubj : Bytes := ascii "Nats-Expected-Last-Subject-Sequence-Subject"
def jsMessageTTL : Bytes := ascii "Nats-TTL"

def getExpected (key hdr : Bytes) : Option UInt64 :=
  let bseq := (sliceHeader key hdr).getD []
  if bseq.length = 0 then none else some (parseInt64 bseq).toUInt64

def getExpectedLastSeq (hdr : Bytes) : Option UInt64 := getExpected jsExpectedLastSeq hdr

def getExpectedLastSeqPerSubject (hdr : Bytes) : Option UInt64 :=
  getExpected jsExpectedLastSubjSeq hdr

def getExpectedLastSeqPerSubjectForSubject (hdr : Bytes) : Bytes :=
  (sliceHeader jsExpectedLastSubjSeqSubj hdr).getD []

inductive StoreErr where
  | msgNotFound | other
  deriving DecidableEq

/-- `loadLastMsg` gives the sequence of the last message stored for a subject. -/
structure Stream where
  clseq : UInt64
  clfs : UInt64
  inProcess : List Bytes
  inflight : List Bytes
  loadLastMsg : Bytes → Except StoreErr UInt64

/-- The part of a batch's diff that the checks read; `expected` has the sequence for each subject that
was checked before. -/
structure Diff where
  inflight : List Bytes
  expected : List (Bytes × UInt64)

inductive WrongLast where
  | sequence (last : UInt64)
  | constant
  | perSubjectInvalid
  deriving DecidableEq

section

variable (mset : Stream) (diff : Diff) (subject hdr : Bytes)

def checkExpectedLastSeq : Except WrongLast Unit :=
  match getExpectedLastSeq hdr with
  | none => .ok ()
  | some seq =>
    if seq ≠ mset.clseq - mset.clfs then .error (.sequence (mset.clseq - mset.clfs))
    else if diff.inflight ≠ [] then .error .constant
    else .ok ()

def seqSubj : Bytes :=
  let optSubj := getExpectedLastSeqPerSubjectForSubject hdr
  if optSubj ≠ [] then optSubj else subject

def checkLoaded (seq : UInt64) (subj : Bytes) : Except WrongLast UInt64 :=
  match mset.loadLastMsg subj with
  | .ok fseq => if fseq ≠ seq then .error (.sequence fseq) else .ok fseq
  | .error err => if err = .msgNotFound ∧ seq = 0 then .ok 0 else .error (.sequence 0)

def checkSubject (seq : UInt64) (subj : Bytes) : Except WrongLast Diff :=
  if subj ∈ diff.inflight ∨ subj ∈ mset.inProcess ∨ subj ∈ mset.inflight then .error .constant
  else
    match Table.get diff.expected subj with
    | some sseq => if sseq ≠ seq then .error (.sequence sseq) else .ok diff
    | none =>
      match checkLoaded mset seq subj with
      | .error err => .error err
      | .ok fseq => .ok { diff with expected := Table.set diff.expected subj fseq }

def checkExpectedLastSubjSeq : Except WrongLast Diff :=
  match getExpectedLastSeqPerSubject hdr with
  | none =>
    if getExpectedLastSeqPerSubjectForSubject hdr ≠ [] then .error .perSubjectInvalid else .ok diff
  | some seq => checkSubject mset diff seq (seqSubj subject hdr)

end

/-- `time.ParseDuration`, which takes no number without a unit but 0, and the whole seconds of a
duration. -/
structure DurationLibrary where
  parse : Bytes → Option Int64
  seconds : Int64 → Int64
  zero : parse [48] = some 0
  unit : ∀ text, text.all isDigit → text ≠ [48] → parse text = none

def second : Int64 := 1000000000

def toLower (c : UInt8) : UInt8 := if 65 ≤ c ∧ c ≤ 90 then c + 32 else c

/-- `none` is the error for an invalid time to live. -/
def parseMessageTTL (lib : DurationLibrary) (ttl : Bytes) : Option Int64 :=
  if ttl.map toLower = ascii "never" then some (-1)
  else
    match lib.parse ttl with
    | some dur => if dur < second then none else some (lib.seconds dur)
    | none =>
      let t := parseInt64 ttl
      if t < 0 then none else some t

def getMessageTTL (lib : DurationLibrary) (hdr : Bytes) : Option Int64 :=
  let ttl := (sliceHeader jsMessageTTL hdr).getD []
  if ttl.length = 0 then some 0 else parseMessageTTL lib ttl

/-! ### The parser -/

def value (k : Nat) (text : Bytes) : Nat := text.foldl (fun k c => k * 10 + (c.toNat - 48)) k

/-- The number that a text of digits stands for. -/
def number (text : Bytes) : Option Nat :=
  if text ≠ [] ∧ text.all isDigit then some (value 0 text) else none

theorem digit_ofNat {c : UInt8} (digit : isDigit c = true) :
    Int64.ofNat c.toNat - 48 = Int64.ofNat (c.toNat - 48) := by
  have low : 48 ≤ c.toNat := (of_decide_eq_true digit).1
  rw [Int64.ofNat_sub _ _ low]
  rfl

theorem parseInt64From_digits (text : Bytes) (digits : text.all isDigit) (k : Nat) :
    parseInt64From (Int64.ofNat k) text = Int64.ofNat (value k text) := by
  induction text generalizing k with
  | nil => rfl
  | cons c text ih =>
    rw [all_cons, Bool.and_eq_true] at digits
    have next : Int64.ofNat k * 10 + (Int64.ofNat c.toNat - 48) =
        Int64.ofNat (k * 10 + (c.toNat - 48)) := by
      rw [digit_ofNat digits.1, Int64.ofNat_add, Int64.ofNat_mul]
      rfl
    rw [parseInt64From, if_pos digits.1, next, ih digits.2]
    rfl

theorem parseInt64From_other (text : Bytes) (other : ¬ text.all isDigit) (n : Int64) :
    parseInt64From n text = -1 := by
  induction text generalizing n with
  | nil => exact absurd rfl other
  | cons c text ih =>
    rw [parseInt64From]
    split
    next digit =>
      apply ih
      simpa [digit] using other
    · rfl

theorem parseInt64_eq {text : Bytes} (some_ : text ≠ []) :
    parseInt64 text = (number text).elim (-1) Int64.ofNat := by
  rw [parseInt64, if_neg (by simpa using some_), number]
  split
  next digits => exact parseInt64From_digits text digits.2 0
  next other => exact parseInt64From_other text (fun digits => other ⟨some_, digits⟩) 0

/-- A number that the code takes for `last` is `last`. -/
def Exact (text : Bytes) (last : Nat) : Prop :=
  match number text with
  | some n => n % 2 ^ 64 = last → n < 2 ^ 64
  | none => last ≠ 2 ^ 64 - 1

instance (text : Bytes) (last : Nat) : Decidable (Exact text last) := by
  unfold Exact
  split <;> infer_instance

theorem read_eq_iff {text : Bytes} (some_ : text ≠ []) (last : UInt64) :
    ((parseInt64 text).toUInt64 = last → number text = some last.toNat) ↔
      Exact text last.toNat := by
  rw [parseInt64_eq some_, Exact]
  cases number text with
  | none =>
    simp only [Option.elim_none, reduceCtorEq, imp_false]
    rw [← UInt64.toNat_inj, eq_comm]
    rfl
  | some n =>
    simp only [Option.elim_some, Int64.toUInt64_ofNat', Option.some.injEq]
    rw [← UInt64.toNat_inj, UInt64.toNat_ofNat']
    constructor
    · intro same read
      rw [same read]
      exact last.toNat_lt
    · intro small read
      rw [← read, Nat.mod_eq_of_lt (small read)]

/-! ### The checks -/

/-- The last sequence stored for a subject, 0 if there is none. -/
def lastFor (mset : Stream) (subj : Bytes) : Option UInt64 :=
  match mset.loadLastMsg subj with
  | .ok fseq => some fseq
  | .error .msgNotFound => some 0
  | .error .other => none

/-- The diffs that the messages of a batch lead to. -/
inductive Reached (mset : Stream) : Diff → Prop
  | new : Reached mset ⟨[], []⟩
  | check {diff diff' : Diff} {subject hdr : Bytes} (before : Reached mset diff)
      (passes : checkExpectedLastSubjSeq mset diff subject hdr = .ok diff') : Reached mset diff'
  | stage {diff : Diff} (subject : Bytes) (before : Reached mset diff) :
      Reached mset { diff with inflight := subject :: diff.inflight }

def Blocked (mset : Stream) (diff : Diff) (subj : Bytes) : Prop :=
  subj ∈ diff.inflight ∨ subj ∈ mset.inProcess ∨ subj ∈ mset.inflight

variable {mset : Stream} {diff : Diff} {subject hdr text : Bytes}

theorem checkLoaded_ok_iff {seq fseq : UInt64} {subj : Bytes} :
    checkLoaded mset seq subj = .ok fseq ↔ lastFor mset subj = some seq ∧ fseq = seq := by
  rw [checkLoaded, lastFor]
  cases mset.loadLastMsg subj with
  | ok last =>
    dsimp only
    split
    next differ => simp [differ]
    next same => simp [not_not.mp same, eq_comm]
  | error err =>
    cases err with
    | other => simp
    | msgNotFound =>
      dsimp only
      split
      next zero => simp [zero.2, eq_comm]
      next nonzero => simp_all [eq_comm]

theorem Reached.agrees (reached : Reached mset diff) {subj : Bytes} {sseq : UInt64}
    (cached : Table.get diff.expected subj = some sseq) : lastFor mset subj = some sseq := by
  induction reached with
  | new => cases cached
  | stage _ _ ih => exact ih cached
  | check _ passes ih =>
    rw [checkExpectedLastSubjSeq] at passes
    split at passes
    · split at passes
      · cases passes
      · cases passes
        exact ih cached
    rw [checkSubject] at passes
    split at passes
    · cases passes
    split at passes
    · split at passes
      · cases passes
      · cases passes
        exact ih cached
    split at passes
    · cases passes
    next loaded =>
    cases passes
    rw [Table.get_set] at cached
    split at cached
    next same =>
      cases cached
      obtain ⟨last, rfl⟩ := checkLoaded_ok_iff.mp loaded
      exact same ▸ last
    · exact ih cached

/-- A cached sequence is the one that the store would give. -/
theorem Reached.passes_iff (reached : Reached mset diff) {seq : UInt64}
    (given : getExpectedLastSeqPerSubject hdr = some seq) :
    (∃ diff', checkExpectedLastSubjSeq mset diff subject hdr = .ok diff') ↔
      ¬ Blocked mset diff (seqSubj subject hdr) ∧
        lastFor mset (seqSubj subject hdr) = some seq := by
  rw [checkExpectedLastSubjSeq, given]
  dsimp only
  rw [checkSubject]
  split
  next blocked => simp [Blocked, blocked]
  next free =>
  rw [and_iff_right (show ¬ Blocked mset diff _ from free)]
  cases cached : Table.get diff.expected (seqSubj subject hdr) with
  | some sseq =>
    rw [reached.agrees cached]
    dsimp only
    split
    next differ => simp [differ]
    next same => simp [not_not.mp same]
  | none =>
    dsimp only
    cases loaded : checkLoaded mset seq (seqSubj subject hdr) with
    | ok fseq => simp [(checkLoaded_ok_iff.mp loaded).1]
    | error err =>
      have other : lastFor mset (seqSubj subject hdr) ≠ some seq := by
        intro last
        rw [checkLoaded_ok_iff.mpr ⟨last, rfl⟩] at loaded
        cases loaded
      simp [other]

theorem getExpected_eq {key : Bytes} (there : sliceHeader key hdr = some text) :
    getExpected key hdr = if text = [] then none else some (parseInt64 text).toUInt64 := by
  rw [getExpected, there]
  simp

/-- The checks pass and the time to live is taken only for the numbers that the headers stand for. -/
structure NeverMisread (lib : DurationLibrary) (mset : Stream) (diff : Diff)
    (subject hdr : Bytes) : Prop where
  lastSeq : ∀ text, sliceHeader jsExpectedLastSeq hdr = some text →
    checkExpectedLastSeq mset diff hdr = .ok () →
      number text = some (mset.clseq - mset.clfs).toNat
  lastSubjSeq : ∀ text, sliceHeader jsExpectedLastSubjSeq hdr = some text →
    (∃ diff', checkExpectedLastSubjSeq mset diff subject hdr = .ok diff') →
      ∃ last, lastFor mset (seqSubj subject hdr) = some last ∧ number text = some last.toNat
  ttl : ∀ text n, sliceHeader jsMessageTTL hdr = some text → number text = some n →
    ∀ t, getMessageTTL lib hdr = some t → t.toInt = n

/-- No header is empty, and none that is compared is a number that wraps to the right one. -/
structure Unmistakable (mset : Stream) (diff : Diff) (subject hdr : Bytes) : Prop where
  lastSeq : ∀ text, sliceHeader jsExpectedLastSeq hdr = some text →
    text ≠ [] ∧ (diff.inflight ≠ [] ∨ Exact text (mset.clseq - mset.clfs).toNat)
  lastSubjSeq : ∀ text, sliceHeader jsExpectedLastSubjSeq hdr = some text →
    if text = [] then getExpectedLastSeqPerSubjectForSubject hdr ≠ []
    else Blocked mset diff (seqSubj subject hdr) ∨
      ∀ last, lastFor mset (seqSubj subject hdr) = some last → Exact text last.toNat
  ttl : ∀ text n, sliceHeader jsMessageTTL hdr = some text → number text = some n →
    n % 2 ^ 64 < 2 ^ 63 → n < 2 ^ 63

theorem lastSeq_iff (there : sliceHeader jsExpectedLastSeq hdr = some text) :
    (checkExpectedLastSeq mset diff hdr = .ok () →
      number text = some (mset.clseq - mset.clfs).toNat) ↔
        text ≠ [] ∧ (diff.inflight ≠ [] ∨ Exact text (mset.clseq - mset.clfs).toNat) := by
  rw [checkExpectedLastSeq, getExpectedLastSeq, getExpected_eq there]
  by_cases empty : text = []
  · simp [empty, number]
  rw [if_neg empty, and_iff_right empty, ← read_eq_iff empty]
  dsimp only
  split
  next differ => simp [differ]
  next same =>
  split
  next staged => simp [staged]
  next alone => simp [not_not.mp same, alone]

theorem lastSubjSeq_iff (reached : Reached mset diff)
    (there : sliceHeader jsExpectedLastSubjSeq hdr = some text) :
    ((∃ diff', checkExpectedLastSubjSeq mset diff subject hdr = .ok diff') →
      ∃ last, lastFor mset (seqSubj subject hdr) = some last ∧ number text = some last.toNat) ↔
        if text = [] then getExpectedLastSeqPerSubjectForSubject hdr ≠ []
        else Blocked mset diff (seqSubj subject hdr) ∨
          ∀ last, lastFor mset (seqSubj subject hdr) = some last → Exact text last.toNat := by
  have given : getExpectedLastSeqPerSubject hdr = _ := getExpected_eq there
  split
  next empty =>
    rw [if_pos empty] at given
    rw [checkExpectedLastSubjSeq, given, empty]
    dsimp only
    split
    next named => simp [named]
    next plain => simp [plain, number]
  next some_ =>
  rw [if_neg some_] at given
  rw [reached.passes_iff given]
  cases known : lastFor mset (seqSubj subject hdr) with
  | none => simp
  | some last =>
    simp only [Option.some.injEq, exists_eq_left', forall_eq', ← read_eq_iff some_]
    rw [and_imp, or_iff_not_imp_left, eq_comm]

theorem toLower_digit : ∀ c, isDigit c = true → toLower c ≠ 110 := by decide +kernel

theorem digits_not_never {text : Bytes} {n : Nat} (number_ : number text = some n) :
    text ≠ [] ∧ text.all isDigit ∧ value 0 text = n ∧ text.map toLower ≠ ascii "never" := by
  rw [number] at number_
  split at number_
  next digits =>
    refine ⟨digits.1, digits.2, Option.some.inj number_, fun never => ?_⟩
    obtain ⟨c, rest, rfl⟩ := exists_cons_of_ne_nil digits.1
    exact toLower_digit c (all_eq_true.mp digits.2 c mem_cons_self) (List.cons.inj never).1
  · cases number_

theorem ttl_iff (lib : DurationLibrary) {n : Nat} (there : sliceHeader jsMessageTTL hdr = some text)
    (number_ : number text = some n) :
    (∀ t, getMessageTTL lib hdr = some t → t.toInt = n) ↔ (n % 2 ^ 64 < 2 ^ 63 → n < 2 ^ 63) := by
  obtain ⟨some_, digits, same, never⟩ := digits_not_never number_
  rw [getMessageTTL, there, Option.getD_some, if_neg (by simpa using some_), parseMessageTTL,
    if_neg never]
  by_cases zero : text = [48]
  · have nothing : n = 0 := by
      rw [← same, zero]
      rfl
    rw [zero, lib.zero]
    simp [nothing, second]
  rw [lib.unit text digits zero, parseInt64_eq some_, number_]
  have read : (Int64.ofNat n).toInt =
      if (n : Int) % 2 ^ 64 < 2 ^ 63 then (n : Int) % 2 ^ 64 else (n : Int) % 2 ^ 64 - 2 ^ 64 := by
    rw [Int64.toInt_ofNat', Int.bmod_def]
    rfl
  simp only [Option.elim_some, Int64.lt_iff_toInt_lt, Int64.toInt_zero]
  split
  next negative =>
    have high : ¬ n % 2 ^ 64 < 2 ^ 63 := by
      split at read <;> omega
    exact iff_of_true (by simp) (fun low => absurd low high)
  next other =>
    simp only [Option.some.injEq, forall_eq', read]
    split at read <;> omega

/-- A library that knows no unit. -/
def noUnits : DurationLibrary where
  parse text := if text = [48] then some 0 else none
  seconds dur := dur / second
  zero := rfl
  unit := fun _ _ other => if_neg other

/-- An empty store, at sequence 5. -/
def atFive : Stream := ⟨7, 2, [], [], fun _ => .error .msgNotFound⟩

def expecting (seq : String) : Bytes :=
  ascii ("NATS/1.0\r\nNats-Expected-Last-Sequence:" ++ seq ++ "\r\n\r\n")

end LinearNats.Expected
