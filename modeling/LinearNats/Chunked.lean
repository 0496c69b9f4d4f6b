import Mathlib

/-! A source that hands out its elements in pieces, and a reader that buffers the piece it has got
and gives the elements one by one. -/
namespace LinearNats.Chunked
open List

structure Splitting where
  size : Nat → Nat
  pos : ∀ n, 0 < size n

structure Source (α : Type*) where
  rest : List α
  split : Splitting
  count : Nat

structure Reader (α : Type*) where
  source : Source α
  buffered : List α

variable {α : Type*}

def Source.read (s : Source α) (cap : Nat) : List α × Source α :=
  let n := min cap (s.split.size s.count)
  (s.rest.take n, { s with rest := s.rest.drop n, count := s.count + 1 })

namespace Reader

def init (source : Source α) : Reader α := ⟨source, []⟩

def next (cap : Nat) (r : Reader α) : Option α × Reader α :=
  match r.buffered with
  | a :: rest => (some a, { r with buffered := rest })
  | [] =>
    match r.source.read cap with
    | (a :: rest, source) => (some a, ⟨source, rest⟩)
    | ([], source) => (none, ⟨source, []⟩)

def content (r : Reader α) : List α := r.buffered ++ r.source.rest

def skip (cap : Nat) : Nat → Reader α → Reader α
  | 0, r => r
  | n + 1, r => skip cap n (r.next cap).2

theorem next_spec {cap : Nat} (positive : 0 < cap) (r : Reader α) :
    (r.next cap).1 = r.content.head? ∧ (r.next cap).2.content = r.content.tail := by
  obtain ⟨⟨rest, split, count⟩, buffered⟩ := r
  cases buffered with
  | cons a buffered => exact ⟨rfl, rfl⟩
  | nil =>
    obtain ⟨n, size⟩ : ∃ n, min cap (split.size count) = n + 1 :=
      Nat.exists_eq_add_one.mpr (lt_min positive (split.pos count))
    cases rest with
    | nil => simp [next, Source.read, content]
    | cons a rest => simp [next, Source.read, content, size]

theorem content_skip {cap : Nat} (positive : 0 < cap) (n : Nat) (r : Reader α) :
    (r.skip cap n).content = r.content.drop n := by
  induction n generalizing r with
  | zero => rfl
  | succ n ih => rw [skip, ih, (next_spec positive r).2, drop_tail]

theorem skip_add (cap m n : Nat) (r : Reader α) :
    r.skip cap (m + n) = (r.skip cap m).skip cap n := by
  induction m generalizing r with
  | zero => rw [Nat.zero_add, skip]
  | succ m ih => rw [Nat.succ_add, skip, skip, ih]

end Reader

/-! ### Where the pieces end -/

namespace Splitting

def total (split : Splitting) (cap : Nat) : Nat → Nat
  | 0 => 0
  | n + 1 => split.total cap n + min cap (split.size n)

def EndsAt (split : Splitting) (cap n : Nat) : Prop := ∃ k, split.total cap k = n

theorem total_strictMono (split : Splitting) {cap : Nat} (positive : 0 < cap) :
    StrictMono (split.total cap) :=
  strictMono_nat_of_lt_succ (fun n =>
    Nat.lt_add_of_pos_right (lt_min positive (split.pos n)))

end Splitting

/-- The reader has given `n` elements of `all` and read no more than it had to. -/
structure Took (cap : Nat) (split : Splitting) (all : List α) (n : Nat) (r : Reader α) : Prop where
  same : r.source.split = split
  rest : r.source.rest = all.drop (split.total cap r.source.count)
  content : r.content = all.drop n
  covered : n ≤ split.total cap r.source.count
  needed : ∀ k < r.source.count, split.total cap k < n

section

variable {cap n : Nat} {split : Splitting} {all : List α} {r : Reader α}

theorem took_init (cap : Nat) (split : Splitting) (all : List α) :
    Took cap split all 0 (.init ⟨all, split, 0⟩) :=
  ⟨rfl, rfl, rfl, le_refl _, nofun⟩

theorem Took.next (took : Took cap split all n r) (positive : 0 < cap) (more : n < all.length) :
    Took cap split all (n + 1) (r.next cap).2 := by
  have content : (r.next cap).2.content = all.drop (n + 1) := by
    rw [(Reader.next_spec positive r).2, took.content, tail_drop]
  obtain ⟨⟨rest, split', count⟩, buffered⟩ := r
  obtain ⟨rfl, rest_, before, covered, needed⟩ := took
  dsimp only [Reader.content] at rest_ before covered needed
  have lengths := congrArg List.length before
  rw [rest_, length_append, length_drop, length_drop] at lengths
  cases buffered with
  | cons a buffered =>
    rw [length_cons] at lengths
    refine ⟨rfl, rest_, content, ?_, fun k earlier => Nat.lt_succ_of_lt (needed k earlier)⟩
    show n + 1 ≤ split'.total cap count
    omega
  | nil =>
    -- All pieces so far are used up, so the next one is read.
    have here : split'.total cap count = n := by
      rw [length_nil] at lengths
      omega
    have grows : split'.total cap count < split'.total cap (count + 1) :=
      split'.total_strictMono positive (Nat.lt_succ_self count)
    have source : ((⟨⟨rest, split', count⟩, []⟩ : Reader α).next cap).2.source =
        ⟨rest.drop (min cap (split'.size count)), split', count + 1⟩ := by
      rw [Reader.next]
      dsimp only [Source.read]
      split
      next got => exact (congrArg Prod.snd got).symm
      next got => exact (congrArg Prod.snd got).symm
    refine ⟨by rw [source], ?_, content, ?_, ?_⟩
    · rw [source, rest_, drop_drop]
      rfl
    · rw [source]
      show n + 1 ≤ split'.total cap (count + 1)
      omega
    · rw [source]
      intro k earlier
      have below := (split'.total_strictMono positive).monotone (Nat.le_of_lt_succ earlier)
      exact Nat.lt_succ_of_le (here ▸ below)

theorem took_skip (positive : 0 < cap) (inside : n ≤ all.length) :
    Took cap split all n ((Reader.init ⟨all, split, 0⟩).skip cap n) := by
  induction n with
  | zero => exact took_init cap split all
  | succ n ih =>
    rw [Reader.skip_add]
    exact (ih (by omega)).next positive inside

/-- What a reader that is dropped leaves in the source. -/
theorem Took.rest_of_endsAt (took : Took cap split all n r) (positive : 0 < cap)
    (ends : split.EndsAt cap n) : r.source.rest = all.drop n := by
  obtain ⟨k, here⟩ := ends
  have late : r.source.count ≤ k :=
    le_of_not_gt (fun earlier => absurd here (took.needed k earlier).ne)
  have above := (split.total_strictMono positive).monotone late
  have covered := took.covered
  rw [took.rest, show split.total cap r.source.count = n by omega]

theorem Took.rest_of_not_endsAt (took : Took cap split all n r) (inside : ¬ split.EndsAt cap n) :
    ∃ d, r.source.rest = all.drop (n + (d + 1)) := by
  have covered := took.covered
  have other : split.total cap r.source.count ≠ n := fun here => inside ⟨_, here⟩
  refine ⟨split.total cap r.source.count - n - 1, ?_⟩
  rw [took.rest, show n + (split.total cap r.source.count - n - 1 + 1) =
    split.total cap r.source.count by omega]

end

end LinearNats.Chunked
