set_option autoImplicit false

/-! # Tables in order of first entry

A finite map that remembers the order in which its keys were first entered. Entering a key again
replaces its value and keeps its place; erasing a key and entering it again moves it to the end.

The view of a table is `find?`; `find?_put` and `find?_erase` say what the two operations do to it,
and `keys_put_of_mem` and `keys_put_of_not_mem` what entering does to the order. -/

namespace LambdaCalc

/-- A map from `κ` to `ν` listed in order of first entry. -/
structure OrderedTable (κ ν : Type) where
  entries : List (κ × ν) := []
deriving DecidableEq, Repr

namespace OrderedTable

variable {κ ν : Type} [DecidableEq κ]

/-! ## Operations -/

/-- The value entered for a key. -/
def find? (table : OrderedTable κ ν) (key : κ) : Option ν :=
  table.entries.lookup key

/-- Whether a key has a value. -/
def contains (table : OrderedTable κ ν) (key : κ) : Bool :=
  (table.find? key).isSome

/-- The keys in order. -/
def keys (table : OrderedTable κ ν) : List κ := table.entries.map (·.1)

/-- Enter a value: in the place of the key's first entry, or at the end if it has none. -/
def put (table : OrderedTable κ ν) (key : κ) (value : ν) : OrderedTable κ ν :=
  if table.contains key then
    { entries := table.entries.map fun entry => if entry.1 = key then (key, value) else entry }
  else
    { entries := table.entries ++ [(key, value)] }

/-- Remove a key and its value. -/
def erase (table : OrderedTable κ ν) (key : κ) : OrderedTable κ ν :=
  { entries := table.entries.filter fun entry => decide (entry.1 ≠ key) }

/-- Enter pairs one after the other. -/
def ofPairs (pairs : List (κ × ν)) : OrderedTable κ ν :=
  pairs.foldl (fun table pair => table.put pair.1 pair.2) {}

/-- Change every value and keep the keys. -/
def mapValues {μ : Type} (f : ν → μ) (table : OrderedTable κ ν) : OrderedTable κ μ :=
  { entries := table.entries.map fun entry => (entry.1, f entry.2) }

/-! ## What the operations do to look-ups -/

private theorem lookup_map_replace (key other : κ) (value : ν) (entries : List (κ × ν)) :
    (entries.map fun entry => if entry.1 = key then (key, value) else entry).lookup other
      = if other = key then (entries.lookup key).map (fun _ => value)
        else entries.lookup other := by
  induction entries with
  | nil => simp
  | cons entry rest ih =>
    obtain ⟨k, v⟩ := entry
    by_cases hk : k = key
    · subst hk
      by_cases ho : other = k
      · subst ho; simp
      · have : (other == k) = false := by simpa using ho
        simp only [List.map_cons, if_true, List.lookup_cons, this, ih, if_neg ho]
    · by_cases ho : other = key
      · subst ho
        have : (other == k) = false := by simpa using fun h => hk h.symm
        simp only [List.map_cons, if_neg hk, List.lookup_cons, this, ih]
      · simp only [List.map_cons, if_neg hk, List.lookup_cons, ih, if_neg ho]

/-- After entering a value, its key has that value and every other key what it had before. -/
theorem find?_put (table : OrderedTable κ ν) (key other : κ) (value : ν) :
    (table.put key value).find? other = if other = key then some value else table.find? other := by
  unfold put contains find?
  split
  · next h =>
    obtain ⟨old, hold⟩ := Option.isSome_iff_exists.mp h
    simp only [lookup_map_replace, hold, Option.map_some]
  · next h =>
    have hnone : table.entries.lookup key = none := Option.not_isSome_iff_eq_none.mp h
    simp only [List.lookup_append, List.lookup_cons, List.lookup_nil]
    by_cases ho : other = key
    · subst ho; simp [hnone]
    · have : (other == key) = false := by simpa using ho
      simp [this, ho]

/-- After erasing a key it has no value, and every other key has what it had before. -/
theorem find?_erase (table : OrderedTable κ ν) (key other : κ) :
    (table.erase key).find? other = if other = key then none else table.find? other := by
  unfold erase find?
  induction table.entries with
  | nil => simp
  | cons entry rest ih =>
    obtain ⟨k, v⟩ := entry
    by_cases hk : k = key
    · subst hk
      by_cases ho : other = k
      · subst ho; simpa using ih
      · have : (other == k) = false := by simpa using ho
        simpa [List.lookup_cons, this] using ih
    · by_cases ho : other = k
      · subst ho; simp [hk]
      · have : (other == k) = false := by simpa using ho
        simpa [List.lookup_cons, this, hk] using ih

/-- What a key has after a value has been entered is that value, or what it had before. -/
theorem of_find?_put {table : OrderedTable κ ν} {key other : κ} {value found : ν}
    (h : (table.put key value).find? other = some found) :
    other = key ∧ found = value ∨ other ≠ key ∧ table.find? other = some found := by
  rw [find?_put] at h
  split at h
  · next hkey => exact Or.inl ⟨hkey, (Option.some.inj h).symm⟩
  · next hkey => exact Or.inr ⟨hkey, h⟩

/-- What a key has after one has been erased, it had before. -/
theorem of_find?_erase {table : OrderedTable κ ν} {key other : κ} {found : ν}
    (h : (table.erase key).find? other = some found) :
    other ≠ key ∧ table.find? other = some found := by
  rw [find?_erase] at h
  split at h
  · cases h
  · next hkey => exact ⟨hkey, h⟩

/-- Changing every value changes the value of a key. -/
theorem find?_mapValues {μ : Type} (f : ν → μ) (table : OrderedTable κ ν) (key : κ) :
    (table.mapValues f).find? key = (table.find? key).map f := by
  unfold mapValues find?
  induction table.entries with
  | nil => rfl
  | cons entry rest ih =>
    obtain ⟨k, v⟩ := entry
    rw [List.map_cons, List.lookup_cons, List.lookup_cons, ih]
    cases key == k <;> rfl

/-- Changing every value after entering one is entering the changed value. -/
theorem mapValues_put {μ : Type} (f : ν → μ) (table : OrderedTable κ ν) (key : κ) (value : ν) :
    (table.put key value).mapValues f = (table.mapValues f).put key (f value) := by
  have hcontains : (table.mapValues f).contains key = table.contains key := by
    rw [contains, contains, find?_mapValues, Option.isSome_map]
  unfold put
  rw [hcontains]
  split
  · simp only [mapValues, List.map_map, mk.injEq]
    refine List.map_congr_left fun entry _ => ?_
    by_cases hkey : entry.1 = key <;> simp [hkey]
  · simp [mapValues]

/-! ## What the operations do to the order -/

/-- The keys that have a value are those listed. -/
theorem contains_iff_mem_keys (table : OrderedTable κ ν) {key : κ} :
    table.contains key = true ↔ key ∈ table.keys := by
  unfold contains find? keys
  induction table.entries with
  | nil => simp
  | cons entry rest ih =>
    obtain ⟨k, v⟩ := entry
    by_cases hk : key = k
    · simp [hk]
    · have : (key == k) = false := by simpa using hk
      simp [List.lookup_cons, this, hk, ih]

omit [DecidableEq κ] in
theorem keys_mapValues {μ : Type} (f : ν → μ) (table : OrderedTable κ ν) :
    (table.mapValues f).keys = table.keys := by
  simp only [keys, mapValues, List.map_map]
  rfl

/-- Entering a key again keeps every place. -/
theorem keys_put_of_mem (table : OrderedTable κ ν) {key : κ} (value : ν)
    (h : table.contains key = true) : (table.put key value).keys = table.keys := by
  simp only [put, h, if_true, keys, List.map_map]
  apply List.map_congr_left
  intro entry _
  by_cases hk : entry.1 = key <;> simp [hk]

/-- A new key comes last. -/
theorem keys_put_of_not_mem (table : OrderedTable κ ν) {key : κ} (value : ν)
    (h : table.contains key = false) : (table.put key value).keys = table.keys ++ [key] := by
  simp [put, h, keys]

/-- Entering a value lists no key twice. -/
theorem nodup_keys_put {table : OrderedTable κ ν} (h : table.keys.Nodup) (key : κ) (value : ν) :
    (table.put key value).keys.Nodup := by
  cases hcontains : table.contains key with
  | true =>
    rw [keys_put_of_mem table value hcontains]
    exact h
  | false =>
    have hkey : key ∉ table.keys := by
      rw [← contains_iff_mem_keys, hcontains]
      exact Bool.false_ne_true
    rw [keys_put_of_not_mem table value hcontains, List.nodup_append]
    refine ⟨h, by simp, fun other hother key' hkey' => ?_⟩
    rw [List.mem_singleton.mp hkey']
    rintro rfl
    exact hkey hother

theorem nodup_keys_erase {table : OrderedTable κ ν} (h : table.keys.Nodup) (key : κ) :
    (table.erase key).keys.Nodup := by
  rw [keys, List.Nodup, List.pairwise_map] at h ⊢
  exact h.filter _

/-- Whether a key is new can be seen from the keys, and so can where it is entered. -/
theorem keys_put_congr {μ : Type} {table : OrderedTable κ ν} {table' : OrderedTable κ μ}
    (h : table.keys = table'.keys) (key : κ) (value : ν) (value' : μ) :
    (table.put key value).keys = (table'.put key value').keys := by
  have hcontains : table.contains key = table'.contains key := by
    rw [Bool.eq_iff_iff, contains_iff_mem_keys, contains_iff_mem_keys, h]
  cases hnew : table.contains key with
  | true => rw [keys_put_of_mem table _ hnew, keys_put_of_mem table' _ (hcontains ▸ hnew), h]
  | false =>
    rw [keys_put_of_not_mem table _ hnew, keys_put_of_not_mem table' _ (hcontains ▸ hnew), h]

theorem keys_erase (table : OrderedTable κ ν) (key : κ) :
    (table.erase key).keys = table.keys.filter fun other => decide (other ≠ key) := by
  rw [keys, keys, erase, List.filter_map]
  rfl

end OrderedTable

end LambdaCalc
