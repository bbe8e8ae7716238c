import LambdaCalc.Proofs.Expression.Scope
import LambdaCalc.Proofs.Phrase.Clash
import LambdaCalc.Proofs.Stops

set_option autoImplicit false

/-! # Taking off qualifiers

Once all groups are closed, no spelling is bound by an open group any more (`Spellings.Closed`), so
taking off the qualifiers cannot contradict itself, and every spelling gets an entry with its
counter. So a name table is made if no spelling is missing (`Binding.exists_nameTable`), and what it
is like is said without the checks (`Binding.unqualifiedFrom`, `Binding.nameTable_eq_ok`). -/

namespace LambdaCalc

namespace OrderedTable

variable {κ ν : Type} [DecidableEq κ]

/-- Pairs with different keys are entered as they are. -/
theorem ofPairs_of_nodup {pairs : List (κ × ν)} (h : (pairs.map (·.1)).Nodup) :
    OrderedTable.ofPairs pairs = { entries := pairs } := by
  suffices hall : ∀ table : OrderedTable κ ν, (table.keys ++ pairs.map (·.1)).Nodup →
      pairs.foldl (fun table pair => table.put pair.1 pair.2) table
        = { entries := table.entries ++ pairs } from hall {} h
  clear h
  induction pairs with
  | nil => exact fun table _ => by rw [List.foldl_nil, List.append_nil]
  | cons pair pairs ih =>
    intro table hnodup
    have hnew : table.contains pair.1 = false := by
      rw [Bool.eq_false_iff, ne_eq, contains_iff_mem_keys]
      intro hmem
      exact (List.nodup_append.mp hnodup).2.2 _ hmem _ List.mem_cons_self rfl
    have hput : table.put pair.1 pair.2 = { entries := table.entries ++ [pair] } := by
      rw [put, hnew]
      rfl
    rw [List.foldl_cons, hput, ih _ (by simpa [keys] using hnodup)]
    simp

end OrderedTable

namespace Binding

/-- No spelling is bound by a group that is still open. -/
def Spellings.Closed (spellings : Spellings) : Prop :=
  ∀ name level position copy, spellings.find? name ≠ some (.live level position copy)

/-- Closing all groups leaves no spelling bound by an open one: by induction on the groups around
    the innermost one. -/
theorem Reading.closed_finish {known : List (Option String)} {outer : List Frame} {inner : Frame}
    {spellings : Spellings} (h : Sound known (inner :: outer) spellings) :
    (finish inner spellings outer).2.Closed := by
  induction outer generalizing inner spellings with
  | nil =>
    intro name level position copy hfind
    obtain ⟨index, hindex, -⟩ := h.pop.addressed hfind
    cases hindex
  | cons around outer ih => exact ih (h.pop.add h.node.1)

/-! ## Without the checks -/

/-- Take the qualifiers off spellings that all have texts and are all closed. -/
def unqualifiedFrom (known : OrderedTable String Nat) (id : Nat) :
    (spellings : List String) → List String × List (Nat × Nat)
  | [] => ([], [])
  | spelling :: spellings =>
      match Qualifier.strip? spelling with
      | none =>
          let (shown, aliases) := unqualifiedFrom known (id + 1) spellings
          (spelling :: shown, aliases)
      | some short =>
          match known.find? short with
          | none =>
              let (shown, aliases) := unqualifiedFrom (known.put short id) (id + 1) spellings
              (short :: shown, aliases)
          | some target =>
              let (shown, aliases) := unqualifiedFrom known (id + 1) spellings
              (spelling :: shown, (id, target) :: aliases)

/-- Take the qualifiers off the spellings of an expression. -/
def unqualified (spellings : List String) : List String × List (Nat × Nat) :=
  unqualifiedFrom { entries := spellings.zipIdx } 0 spellings

/-- The name table of the spellings, given their texts. -/
def namesOf (spellings : Spellings) (texts : List String) : NameTable where
  entries := List.zipWith NameEntry.mk (unqualified texts).1 (spellings.entries.map (·.2.nextCopy))
  aliases := { entries := (unqualified texts).2 }

theorem length_unqualifiedFrom (known : OrderedTable String Nat) (id : Nat)
    (spellings : List String) :
    (unqualifiedFrom known id spellings).1.length = spellings.length := by
  induction spellings generalizing known id with
  | nil => rfl
  | cons spelling spellings ih =>
    unfold unqualifiedFrom
    split
    · exact congrArg Nat.succ (ih _ _)
    · split
      · exact congrArg Nat.succ (ih _ _)
      · exact congrArg Nat.succ (ih _ _)

/-- Names from the one at hand on get aliases, each of them at most one. -/
theorem nodup_unqualifiedFrom (known : OrderedTable String Nat) (id : Nat)
    (spellings : List String) :
    (∀ id' ∈ (unqualifiedFrom known id spellings).2.map (·.1), id ≤ id')
      ∧ ((unqualifiedFrom known id spellings).2.map (·.1)).Nodup := by
  induction spellings generalizing known id with
  | nil => exact ⟨nofun, List.nodup_nil⟩
  | cons spelling spellings ih =>
    have hlater (known : OrderedTable String Nat) :
        ∀ id' ∈ (unqualifiedFrom known (id + 1) spellings).2.map (·.1), id < id' :=
      (ih known (id + 1)).1
    unfold unqualifiedFrom
    split
    · exact ⟨fun id' hmem => Nat.le_of_lt (hlater _ id' hmem), (ih _ _).2⟩
    · split
      · exact ⟨fun id' hmem => Nat.le_of_lt (hlater _ id' hmem), (ih _ _).2⟩
      · refine ⟨List.forall_mem_cons.mpr ⟨Nat.le_refl id, fun id' hmem =>
          Nat.le_of_lt (hlater _ id' hmem)⟩, List.nodup_cons.mpr ⟨fun hmem => ?_, (ih _ _).2⟩⟩
        exact Nat.lt_irrefl id (hlater _ id hmem)

/-! ## With the checks -/

/-- The ids that are known together with the standings are those known without them. -/
def SameIds (known : OrderedTable (Option String) (Nat × Standing))
    (ids : OrderedTable String Nat) : Prop :=
  ∀ text, ids.find? text = (known.find? (some text)).map (·.1)

/-- Nothing that is known is bound by a group that is still open. -/
def KnownClosed (known : OrderedTable (Option String) (Nat × Standing)) : Prop :=
  ∀ name id level position copy, known.find? name ≠ some (id, .live level position copy)

section

variable {known : OrderedTable (Option String) (Nat × Standing)} {ids : OrderedTable String Nat}

theorem SameIds.put (h : SameIds known ids) (short : String) (id : Nat) (standing : Standing) :
    SameIds (known.put (some short) (id, standing)) (ids.put short id) := by
  intro text
  rw [OrderedTable.find?_put, OrderedTable.find?_put, h text]
  by_cases htext : text = short
  · rw [if_pos htext, if_pos (congrArg some htext)]
    rfl
  · rw [if_neg htext, if_neg (mt Option.some.inj htext)]

theorem KnownClosed.put (h : KnownClosed known) (name : Option String) (id : Nat) :
    KnownClosed (known.put name (id, .closed 1)) := by
  intro other id' level position copy hfind
  rw [OrderedTable.find?_put] at hfind
  split at hfind
  · cases hfind
  · exact h other id' level position copy hfind

/-- Qualifiers can be taken off only if all spellings are there. -/
theorem none_notMem_of_unqualifyFrom {id : Nat} {names : List (Option String)}
    {result : List String × List (Nat × Nat)} (h : unqualifyFrom known id names = .ok result) :
    none ∉ names := by
  induction names generalizing known id result with
  | nil => exact List.not_mem_nil
  | cons name names ih =>
    cases name with
    | none => cases h
    | some spelling =>
      refine List.not_mem_cons_of_ne_of_not_mem nofun ?_
      unfold unqualifyFrom at h
      split at h
      · obtain ⟨rest, hrest, -⟩ := Outcome.bind_eq_ok.mp h
        exact ih hrest
      · split at h
        · obtain ⟨rest, hrest, -⟩ := Outcome.bind_eq_ok.mp h
          exact ih hrest
        · cases h
        all_goals
          obtain ⟨rest, hrest, -⟩ := Outcome.bind_eq_ok.mp h
          exact ih hrest

/-- If qualifiers can be taken off, then the result is the one without the checks. -/
theorem eq_of_unqualifyFrom (hids : SameIds known ids) {id : Nat} {texts : List String}
    {result : List String × List (Nat × Nat)}
    (h : unqualifyFrom known id (texts.map some) = .ok result) :
    result = unqualifiedFrom ids id texts := by
  induction texts generalizing known ids id result with
  | nil => exact (Except.ok.inj h).symm
  | cons spelling texts ih =>
    rw [List.map_cons] at h
    unfold unqualifyFrom at h
    split at h
    · next hstrip =>
      obtain ⟨rest, hrest, heq⟩ := Outcome.bind_eq_ok.mp h
      obtain rfl := Except.ok.inj heq
      rw [unqualifiedFrom, hstrip, ih hids hrest]
    · next short hstrip =>
      have hid := hids short
      split at h
      · next hfind =>
        obtain ⟨rest, hrest, heq⟩ := Outcome.bind_eq_ok.mp h
        obtain rfl := Except.ok.inj heq
        rw [hfind] at hid
        simp only [unqualifiedFrom, hstrip, hid, Option.map_none, ih (hids.put short id _) hrest]
      · cases h
      all_goals
        next target _ hfind =>
        obtain ⟨rest, hrest, heq⟩ := Outcome.bind_eq_ok.mp h
        obtain rfl := Except.ok.inj heq
        rw [hfind] at hid
        simp only [unqualifiedFrom, hstrip, hid, Option.map_some, ih hids hrest]

/-- Qualifiers are taken off if all spellings have texts and nothing is bound by an open group. -/
theorem unqualifyFrom_of_closed (hids : SameIds known ids) (hclosed : KnownClosed known) (id : Nat)
    (texts : List String) :
    unqualifyFrom known id (texts.map some) = .ok (unqualifiedFrom ids id texts) := by
  induction texts generalizing known ids id with
  | nil => rfl
  | cons spelling texts ih =>
    rw [List.map_cons, unqualifyFrom, unqualifiedFrom]
    cases Qualifier.strip? spelling with
    | none =>
      simp only [ih hids hclosed]
      rfl
    | some short =>
      simp only [hids short]
      cases hfind : known.find? (some short) with
      | none =>
        simp only [ih (hids.put short id _) (hclosed.put (some short) id)]
        rfl
      | some entry =>
        obtain ⟨target, standing⟩ := entry
        simp only [ih hids hclosed]
        cases standing with
        | live level position copy => exact absurd hfind (hclosed _ _ _ _ _)
        | closed copy | constant => rfl

/-- Nothing else can go wrong but that a spelling is missing, or that one is still bound. -/
theorem unqualifyFrom_stopsOnly (known : OrderedTable (Option String) (Nat × Standing)) (id : Nat)
    (names : List (Option String)) :
    Outcome.StopsOnly
      (fun stop => stop = .mishap .missingName ∨ stop = .ofKind .internalFailure)
      (unqualifyFrom known id names) := by
  induction names generalizing known id with
  | nil => exact .ok _
  | cons name names ih =>
    cases name with
    | none => exact .error (.inl rfl)
    | some spelling =>
      unfold unqualifyFrom
      split
      · exact (ih _ _).bind fun _ _ => .ok _
      · split
        · exact (ih _ _).bind fun _ _ => .ok _
        · exact .error (.inr rfl)
        all_goals exact (ih _ _).bind fun _ _ => .ok _

end

/-! ## Name tables -/

theorem eq_map_some {keys : List (Option String)} (h : none ∉ keys) :
    keys = (keys.filterMap id).map some := by
  induction keys with
  | nil => rfl
  | cons key keys ih =>
    obtain ⟨hkey, hkeys⟩ := List.ne_and_not_mem_of_not_mem_cons h
    cases key with
    | none => exact absurd rfl hkey
    | some text => exact congrArg (some text :: ·) (ih hkeys)

theorem lookup_zipIdx {κ : Type} [DecidableEq κ] (keys : List κ) (start : Nat) (key : κ) :
    (keys.zipIdx start).lookup key
      = if key ∈ keys then some (start + keys.idxOf key) else none := by
  induction keys generalizing start with
  | nil => rfl
  | cons first keys ih =>
    rw [List.zipIdx_cons, List.lookup_cons, ih]
    by_cases hkey : key = first
    · subst hkey
      simp
    · have hne : (key == first) = false := beq_false_of_ne hkey
      simp only [hne, List.mem_cons, hkey, false_or, List.idxOf_cons_ne _ (Ne.symm hkey)]
      split
      · simp
        omega
      · rfl

theorem lookup_map_zipIdx {κ ν : Type} [DecidableEq κ] (entries : List (κ × ν)) (start : Nat)
    (key : κ) :
    ((entries.zipIdx start).map fun entry => (entry.1.1, (entry.2, entry.1.2))).lookup key
      = (entries.lookup key).map fun value => (start + (entries.map (·.1)).idxOf key, value) := by
  induction entries generalizing start with
  | nil => rfl
  | cons entry entries ih =>
    rw [List.zipIdx_cons, List.map_cons, List.lookup_cons, List.lookup_cons, ih]
    by_cases hkey : key = entry.1
    · subst hkey
      simp
    · have hne : (key == entry.1) = false := beq_false_of_ne hkey
      simp only [hne, List.map_cons, List.idxOf_cons_ne _ (Ne.symm hkey)]
      cases entries.lookup key with
      | none => rfl
      | some value =>
        simp
        omega

/-- What is known at first of a spelling is its name id and its standing. -/
theorem Spellings.find?_known (spellings : Spellings) (name : Option String) :
    spellings.known.find? name
      = (spellings.find? name).map fun standing => (spellings.id name, standing) := by
  have hknown := lookup_map_zipIdx spellings.entries 0 name
  simp only [Nat.zero_add] at hknown
  refine hknown.trans (congrArg (Option.map · _) (funext fun standing => ?_))
  unfold Spellings.id OrderedTable.keys
  congr
  exact lawful_beq_subsingleton _ _

theorem Spellings.Closed.known {spellings : Spellings} (h : spellings.Closed) :
    KnownClosed spellings.known := by
  intro name id level position copy hfind
  rw [spellings.find?_known, Option.map_eq_some_iff] at hfind
  obtain ⟨standing, hstanding, heq⟩ := hfind
  obtain ⟨-, rfl⟩ := Prod.mk.inj heq
  exact h name level position copy hstanding

theorem Spellings.sameIds_known {spellings : Spellings} {texts : List String}
    (h : spellings.keys = texts.map some) :
    SameIds spellings.known { entries := texts.zipIdx } := by
  intro text
  have hid (hmem : text ∈ texts) : spellings.id (some text) = texts.idxOf text := by
    rw [Spellings.id, h]
    convert Phrase.idxOf_map (fun _ _ _ _ heq => Option.some.inj heq) hmem
  have hmem : spellings.contains (some text) = true ↔ text ∈ texts := by
    rw [OrderedTable.contains_iff_mem_keys, h, List.mem_map_of_injective (Option.some_injective _)]
  rw [spellings.find?_known, OrderedTable.find?, lookup_zipIdx, Nat.zero_add]
  rw [OrderedTable.contains] at hmem
  cases hfind : spellings.find? (some text) with
  | none =>
    have hmem : text ∉ texts := by
      rw [← hmem, hfind]
      exact Bool.false_ne_true
    rw [if_neg hmem]
    rfl
  | some standing =>
    have hmem : text ∈ texts := by rw [← hmem, hfind]; rfl
    rw [if_pos hmem, ← hid hmem]
    rfl

/-- The counters are as many as the spellings that are shown, and no name has two aliases. -/
theorem ofLists_unqualified {spellings : Spellings} {texts : List String}
    (h : spellings.keys = texts.map some) :
    NameTable.ofLists (unqualified texts).1 (spellings.entries.map (·.2.nextCopy))
        (unqualified texts).2
      = .ok (namesOf spellings texts) := by
  have hlength : (unqualified texts).1.length
      = (spellings.entries.map (·.2.nextCopy)).length := by
    have hkeys := congrArg List.length h
    rw [OrderedTable.keys, List.length_map, List.length_map] at hkeys
    rw [unqualified, length_unqualifiedFrom, List.length_map, hkeys]
  have haliases : OrderedTable.ofPairs (unqualified texts).2
      = { entries := (unqualified texts).2 } :=
    OrderedTable.ofPairs_of_nodup (nodup_unqualifiedFrom _ _ _).2
  rw [NameTable.ofLists, if_pos hlength, haliases]
  rfl

/-- A name table has an entry for every spelling, which is shown without its qualifier if nothing
    else is shown that way. -/
theorem nameTable_eq_ok {spellings : Spellings} {names : NameTable}
    (h : nameTable spellings = .ok names) :
    ∃ texts, spellings.keys = texts.map some ∧ names = namesOf spellings texts := by
  obtain ⟨result, hresult, hlists⟩ := Outcome.bind_eq_ok.mp h
  have hkeys := eq_map_some (none_notMem_of_unqualifyFrom hresult)
  refine ⟨_, hkeys, ?_⟩
  rw [hkeys] at hresult
  obtain rfl := eq_of_unqualifyFrom (Spellings.sameIds_known hkeys) hresult
  exact Except.ok.inj (hlists.symm.trans (ofLists_unqualified hkeys))

theorem none_notMem_keys_of_nameTable {spellings : Spellings} {names : NameTable}
    (h : nameTable spellings = .ok names) : none ∉ spellings.keys := by
  obtain ⟨texts, hkeys, -⟩ := nameTable_eq_ok h
  rw [hkeys]
  exact fun hmem => nomatch List.mem_map.mp hmem

/-- Once all groups are closed, there is a name table unless the missing name is among the
    spellings. Neither is a spelling found to be bound still, nor are there too few counters. -/
theorem exists_nameTable {spellings : Spellings} (hclosed : spellings.Closed)
    (h : none ∉ spellings.keys) : ∃ names, nameTable spellings = .ok names := by
  have hkeys := eq_map_some h
  have hresult := unqualifyFrom_of_closed (Spellings.sameIds_known hkeys) hclosed.known 0
    (spellings.keys.filterMap id)
  rw [← hkeys] at hresult
  exact ⟨_, Outcome.bind_eq_ok.mpr ⟨_, hresult, ofLists_unqualified hkeys⟩⟩

/-- Whatever has been read, making a name table stops for nothing else but these two reasons. -/
theorem nameTable_stopsOnly (spellings : Spellings) :
    Outcome.StopsOnly
      (fun stop => stop = .mishap .missingName ∨ stop = .ofKind .internalFailure)
      (nameTable spellings) := by
  refine (unqualifyFrom_stopsOnly _ _ _).bind fun result _ => ?_
  dsimp only [NameTable.ofLists]
  split_ifs
  · exact .ok _
  · exact .error (.inr rfl)

end Binding

end LambdaCalc
