import Mathlib

/-! Maps as lists of pairs. The first pair with a key counts; `set` keeps at most one. -/
namespace LinearNats.Table
open List

variable {K V : Type*} [DecidableEq K]

def get : List (K × V) → K → Option V
  | [], _ => none
  | (k, v) :: rest, key => if k = key then some v else get rest key

def erase (t : List (K × V)) (key : K) : List (K × V) :=
  t.filter (fun p => decide (p.1 ≠ key))

def set (t : List (K × V)) (key : K) (v : V) : List (K × V) :=
  (key, v) :: erase t key

def modify (t : List (K × V)) (key : K) (f : V → V) : List (K × V) :=
  match get t key with
  | none => t
  | some v => set t key (f v)

@[simp] theorem get_nil (key : K) : get ([] : List (K × V)) key = none := rfl

theorem get_erase (t : List (K × V)) (key other : K) :
    get (erase t key) other = if key = other then none else get t other := by
  induction t with
  | nil => simp [erase]
  | cons p rest ih =>
    by_cases head : p.1 = key
    · have dropped : erase (p :: rest) key = erase rest key := by simp [erase, head]
      rw [dropped, ih]
      by_cases same : key = other
      · simp [same]
      · simp [get, same, head]
    have kept : erase (p :: rest) key = p :: erase rest key := by simp [erase, head]
    rw [kept, get, get, ih]
    by_cases same : p.1 = other
    · have different : key ≠ other := by
        intro h
        exact head (same.trans h.symm)
      simp [same, different]
    · simp [same]

theorem get_set (t : List (K × V)) (key other : K) (v : V) :
    get (set t key v) other = if key = other then some v else get t other := by
  by_cases same : key = other
  · simp [set, get, same]
  · simp [set, get, same, get_erase]

variable {t : List (K × V)} {key : K} {v : V}

theorem get_of_erase {other : K} (found : get (erase t key) other = some v) :
    key ≠ other ∧ get t other = some v := by
  rw [get_erase] at found
  split at found
  · cases found
  next different => exact ⟨different, found⟩

section

variable {t : List (K × V)} {P : K → V → Prop} (old : ∀ k v, get t k = some v → P k v) (key : K)

include old

/-! What holds of every entry. -/

theorem all_erase : ∀ k v, get (erase t key) k = some v → P k v :=
  fun k v found => old k v (get_of_erase found).2

theorem all_set {value : V} (new : P key value) : ∀ k v, get (set t key value) k = some v → P k v := by
  intro k v found
  rw [get_set] at found
  split at found
  next same =>
    cases found
    exact same ▸ new
  · exact old k v found

end

theorem get_modify (t : List (K × V)) (key other : K) (f : V → V) :
    get (modify t key f) other = if key = other then (get t other).map f else get t other := by
  unfold modify
  split
  next absent =>
    split
    · rename_i same
      rw [← same, absent, Option.map_none]
    · rfl
  rename_i v found
  rw [get_set]
  split
  next same => rw [← same, found, Option.map_some]
  · rfl

theorem mem_of_get (found : get t key = some v) : (key, v) ∈ t := by
  induction t with
  | nil => cases found
  | cons p rest ih =>
    simp only [get] at found
    split at found
    next same =>
      cases found
      subst same
      exact mem_cons_self
    · exact mem_cons_of_mem _ (ih found)

theorem get_map (t : List (K × V)) (f : K → V → V) (key : K) :
    get (t.map (fun (k, v) => (k, f k v))) key = (get t key).map (f key) := by
  induction t with
  | nil => rfl
  | cons p rest ih =>
    simp only [map_cons, get]
    split
    next same => rw [same, Option.map_some]
    · exact ih

theorem get_of_mem (keys : (t.map Prod.fst).Nodup) (inside : (key, v) ∈ t) :
    get t key = some v := by
  induction t with
  | nil => cases inside
  | cons p rest ih =>
    obtain ⟨new, rest_keys⟩ := nodup_cons.mp keys
    rw [get]
    rcases mem_cons.mp inside with same | later
    · rw [if_pos (by rw [← same]), ← same]
    have different : p.1 ≠ key := by
      rintro rfl
      exact new (mem_map.mpr ⟨_, later, rfl⟩)
    rw [if_neg different]
    exact ih rest_keys later

theorem keys_erase (keys : (t.map Prod.fst).Nodup) (key : K) : ((erase t key).map Prod.fst).Nodup :=
  keys.sublist (filter_sublist.map _)

theorem keys_set (keys : (t.map Prod.fst).Nodup) (key : K) (v : V) :
    ((set t key v).map Prod.fst).Nodup := by
  refine nodup_cons.mpr ⟨?_, keys_erase keys key⟩
  intro inside
  obtain ⟨p, there, same⟩ := mem_map.mp inside
  have other := (mem_filter.mp there).2
  simp [same] at other

theorem get_eq_none_iff : get t key = none ↔ key ∉ t.map Prod.fst := by
  induction t with
  | nil => simp
  | cons p rest ih =>
    rw [get, map_cons, mem_cons, not_or]
    by_cases same : p.1 = key
    · simp [same]
    · simp [same, ih, Ne.symm same]

theorem get_append (s t : List (K × V)) (key : K) :
    get (s ++ t) key = (get s key).or (get t key) := by
  induction s with
  | nil => simp
  | cons p rest ih =>
    rw [cons_append, get, get, ih]
    by_cases same : p.1 = key <;> simp [same]

theorem get_perm {s : List (K × V)} (keys : (s.map Prod.fst).Nodup) (perm : s.Perm t) (key : K) :
    get s key = get t key := by
  cases found : get t key with
  | some v => exact get_of_mem keys (perm.mem_iff.mpr (mem_of_get found))
  | none =>
    rw [get_eq_none_iff] at found ⊢
    rwa [(perm.map Prod.fst).mem_iff]

theorem erase_of_none (absent : get t key = none) : erase t key = t := by
  rw [get_eq_none_iff] at absent
  rw [erase, filter_eq_self]
  intro p member
  have other : p.1 ≠ key := by
    rintro rfl
    exact absent (mem_map_of_mem member)
  simpa using other

theorem cons_erase_perm (keys : (t.map Prod.fst).Nodup) (found : get t key = some v) :
    t.Perm ((key, v) :: erase t key) := by
  induction t with
  | nil => cases found
  | cons p rest ih =>
    obtain ⟨fresh, later⟩ := nodup_cons.mp keys
    rw [get] at found
    split at found
    next same =>
      have dropped : erase (p :: rest) key = erase rest key := by simp [erase, same]
      have head : p = (key, v) := Prod.ext same (Option.some.inj found)
      rw [dropped, erase_of_none (get_eq_none_iff.mpr (same ▸ fresh)), head]
    next same =>
      have kept : erase (p :: rest) key = p :: erase rest key := by simp [erase, same]
      rw [kept]
      exact ((ih later found).cons p).trans (List.Perm.swap _ _ _)

theorem length_erase (keys : (t.map Prod.fst).Nodup) (found : get t key = some v) :
    (erase t key).length + 1 = t.length :=
  (cons_erase_perm keys found).length_eq.symm

theorem get_foldl_set {W : Type*} {entries : List (K × V)} (keys : (entries.map Prod.fst).Nodup)
    (f : V → W) (t : List (K × W)) (key : K) :
    get (entries.foldl (fun t e => set t e.1 (f e.2)) t) key =
      ((get entries key).map f).or (get t key) := by
  induction entries generalizing t with
  | nil => simp
  | cons e entries ih =>
    obtain ⟨fresh, later⟩ := nodup_cons.mp keys
    rw [foldl_cons, ih later, get_set, get]
    by_cases same : e.1 = key
    · simp [same, get_eq_none_iff.mpr (same ▸ fresh)]
    · simp [same]

/-- An order in which a loop over a map may visit its entries. -/
structure Order (α : Type) where
  visit : List α → List α
  perm : ∀ t, (visit t).Perm t

end LinearNats.Table
