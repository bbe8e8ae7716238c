import LambdaCalc.Fault
import LambdaCalc.OrderedTable

set_option autoImplicit false

/-! # Names and their copies

Every spelling of an expression has one entry in its `NameTable`, and the entry's place is the
name's id: it stands for all occurrences with this spelling. Parameters with one name are told apart
by copy ids, which `NameTable.freshCopy` hands out from a counter in the entry, so no id is given
twice.

A name may be an alias of another one. `NameTable.canonical` is the id that a name is shown as. -/

namespace LambdaCalc

/-- A spelling and the next copy id that will be handed out for it. -/
structure NameEntry where
  spelling : String
  nextCopy : Int := 0
deriving DecidableEq, Repr

/-- The names of an expression by id, and the aliases among them. -/
structure NameTable where
  entries : List NameEntry := []
  aliases : OrderedTable Nat Nat := {}
deriving DecidableEq, Repr

namespace NameTable

/-- Pair spellings with counters; there must be one counter for each spelling. -/
def ofLists (spellings : List String) (copies : List Int) (aliases : List (Nat × Nat)) :
    Outcome NameTable :=
  if spellings.length = copies.length then
    .ok { entries := List.zipWith NameEntry.mk spellings copies, aliases := .ofPairs aliases }
  else
    .error (.ofKind .internalFailure)

/-- A table whose copy ids all start at zero. -/
def ofSpellings (spellings : List String) (aliases : List (Nat × Nat)) : NameTable :=
  { entries := spellings.map ({ spelling := · }), aliases := .ofPairs aliases }

/-- The number of names. -/
def size (table : NameTable) : Nat := table.entries.length

/-- The spellings by id. -/
def spellings (table : NameTable) : List String := table.entries.map (·.spelling)

/-- The counters by id. -/
def copies (table : NameTable) : List Int := table.entries.map (·.nextCopy)

/-- The spelling of a name. -/
def spelling (table : NameTable) (id : Nat) : Outcome String :=
  match table.entries[id]? with
  | some entry => .ok entry.spelling
  | none => .error (.mishap .missingEntry)

/-- The id that a name is shown as: the target of its alias, or itself. Aliases are not followed
    twice. -/
def canonical (table : NameTable) (id : Nat) : Nat := (table.aliases.find? id).getD id

/-- Count one more copy of a name. -/
def bump (table : NameTable) (id : Nat) : NameTable :=
  { table with
    entries := table.entries.modify id fun entry => { entry with nextCopy := entry.nextCopy + 1 } }

/-- Hand out a copy id that no copy of this name has had. -/
def freshCopy (table : NameTable) (id : Nat) : Outcome (Int × NameTable) :=
  match table.entries[id]? with
  | some entry => .ok (entry.nextCopy, table.bump id)
  | none => .error (.mishap .missingEntry)

/-! ## What counting does -/

/-- Counting a copy changes no spelling. -/
theorem spellings_bump (table : NameTable) (id : Nat) :
    (table.bump id).spellings = table.spellings := by
  apply List.ext_getElem?
  intro place
  simp only [spellings, bump, List.getElem?_map, List.getElem?_modify]
  by_cases h : id = place
  · cases table.entries[place]? <;> simp [h]
  · simp [h]

/-- Counting a copy adds one to the counter of its name. -/
theorem copies_bump (table : NameTable) (id : Nat) :
    (table.bump id).copies = table.copies.modify id (· + 1) := by
  apply List.ext_getElem?
  intro place
  simp only [copies, bump, List.getElem?_map, List.getElem?_modify]
  by_cases h : id = place
  · cases table.entries[place]? <;> simp [h]
  · simp [h]

/-- Two tables differ in nothing but their counters. -/
def SameNames (table table' : NameTable) : Prop :=
  table.spellings = table'.spellings ∧ table.aliases = table'.aliases

theorem SameNames.refl (table : NameTable) : table.SameNames table := ⟨rfl, rfl⟩

theorem SameNames.trans {first second third : NameTable} (h : first.SameNames second)
    (h' : second.SameNames third) : first.SameNames third :=
  ⟨h.1.trans h'.1, h.2.trans h'.2⟩

theorem SameNames.size_eq {table table' : NameTable} (h : table.SameNames table') :
    table.size = table'.size := by
  have hlength := congrArg List.length h.1
  rwa [spellings, spellings, List.length_map, List.length_map] at hlength

/-- A copy id is handed out for every name of a table, and only the counters change. -/
theorem freshCopy_eq_ok {table : NameTable} {id : Nat} (h : id < table.size) :
    ∃ copy, table.freshCopy id = .ok (copy, table.bump id) := by
  have hentry : table.entries[id]? = some table.entries[id] := List.getElem?_eq_getElem h
  refine ⟨table.entries[id].nextCopy, ?_⟩
  rw [freshCopy, hentry]

theorem sameNames_of_freshCopy {table table' : NameTable} {id : Nat} {copy : Int}
    (h : table.freshCopy id = .ok (copy, table')) : table'.SameNames table := by
  unfold freshCopy at h
  split at h
  · cases h
    exact ⟨spellings_bump table id, rfl⟩
  · cases h

end NameTable

/-! ## Calculations that count -/

/-- A calculation that hands out copy ids as it goes. -/
abbrev Copying := StateT NameTable Outcome

/-- Hand out a copy id of a name from the table at hand. -/
def freshCopy (id : Nat) : Copying Int := fun table => table.freshCopy id

namespace Copying

/-- A sequence of two calculations returns what the second one does, started with the result and the
    table of the first. -/
theorem bind_eq_ok {α β : Type} {first : Copying α} {second : α → Copying β} {table : NameTable}
    {result : β × NameTable} :
    (first >>= second) table = .ok result ↔
      ∃ value between, first table = .ok (value, between) ∧ second value between = .ok result := by
  show Except.bind (first table) (fun pair => second pair.1 pair.2) = _ ↔ _
  cases h : first table with
  | error stop => simp [Except.bind]
  | ok pair =>
    obtain ⟨value, between⟩ := pair
    constructor
    · intro hsecond
      exact ⟨value, between, rfl, hsecond⟩
    · rintro ⟨value', between', heq, hsecond⟩
      cases heq
      exact hsecond

/-- A value alone leaves the table as it is. -/
theorem pure_eq_ok {α : Type} {value : α} {table : NameTable} {result : α × NameTable} :
    (pure value : Copying α) table = .ok result ↔ result = (value, table) := by
  show Except.ok (value, table) = Except.ok result ↔ _
  simp only [Except.ok.injEq, eq_comm]

end Copying

end LambdaCalc
