import LambdaCalc.Proofs.Expression.Names

set_option autoImplicit false

/-! # Which names are merged

The names of an expression are numbered by the spellings of its tokens in order of first occurrence,
qualifiers included. Without their qualifiers some of these spellings are the same, and exactly
these names are merged: they are shown through one of them, which has the spelling without the
qualifier (`Expression.canonical_eq_iff_of_ofTokens`). Aliases lead there in one step, also where a
spelling without a qualifier occurs behind the qualified ones, or where the first of many qualified
ones has taken its place. -/

namespace LambdaCalc

open Qualifier

namespace Binding

/-! ## What is shown in a place -/

/-- The text that is shown in a place is the spelling that has been there, as it was or without its
    qualifier. -/
theorem exists_of_getElem?_unqualifiedFrom {spellings : List String} {place : Nat} {shown : String}
    {known : OrderedTable String Nat} {id : Nat}
    (h : (unqualifiedFrom known id spellings).1[place]? = some shown) :
    ∃ spelling, spellings[place]? = some spelling
      ∧ (shown = spelling ∨ shown = short spelling) := by
  induction spellings generalizing known id place with
  | nil => cases h
  | cons first spellings ih =>
    unfold unqualifiedFrom at h
    -- Behind the first spelling it does not matter how that one is shown.
    have hrest {known : OrderedTable String Nat} {text : String}
        (h : (text :: (unqualifiedFrom known (id + 1) spellings).1)[place]? = some shown)
        (htext : text = first ∨ text = short first) :
        ∃ spelling, (first :: spellings)[place]? = some spelling
          ∧ (shown = spelling ∨ shown = short spelling) := by
      cases place with
      | zero =>
        obtain rfl := Option.some.inj h
        exact ⟨first, rfl, htext⟩
      | succ place => exact ih h
    split at h
    · exact hrest h (.inl rfl)
    · next hstrip =>
      split at h
      · exact hrest h (.inr (short_of_some hstrip).symm)
      · exact hrest h (.inl rfl)

theorem exists_of_spelling_nameTable {spellings : Spellings} {names : NameTable}
    (h : nameTable spellings = .ok names) {id : Nat} {shown : String}
    (hshown : names.spelling id = .ok shown) :
    ∃ spelling, spellings.keys[id]? = some (some spelling)
      ∧ (shown = spelling ∨ shown = short spelling) := by
  obtain ⟨texts, hkeys, rfl⟩ := nameTable_eq_ok h
  unfold NameTable.spelling at hshown
  split at hshown
  · next entry hentry =>
    obtain rfl := Except.ok.inj hshown
    obtain ⟨text, copy, htext, -, rfl⟩ := List.getElem?_zipWith_eq_some.mp hentry
    obtain ⟨spelling, hspelling, heq⟩ := exists_of_getElem?_unqualifiedFrom htext
    refine ⟨spelling, ?_, heq⟩
    rw [hkeys, List.getElem?_map, hspelling]
    rfl
  · cases hshown

/-- The place that a name is shown through has a spelling that is shown the same way. -/
theorem exists_of_canonical {spellings : Spellings} {names : NameTable}
    (h : nameTable spellings = .ok names)
    (honce : ∀ spelling, some spelling ∈ spellings.keys → strip? (short spelling) = none)
    {id : Nat} {spelling : String} (hid : spellings.keys[id]? = some (some spelling)) :
    ∃ home, spellings.keys[names.canonical id]? = some (some home)
      ∧ short home = short spelling := by
  obtain ⟨home, hhome, heq⟩ := exists_of_spelling_nameTable h (spelling_canonical h honce hid)
  refine ⟨home, hhome, ?_⟩
  rcases heq with heq | heq
  · have hstrip : strip? home = none := heq ▸ honce spelling (List.mem_of_getElem? hid)
    rw [short_of_none hstrip, heq]
  · exact heq.symm

/-- Names are shown through one entry if nothing but their qualifiers differs, and only then. -/
theorem canonical_eq_iff {spellings : Spellings} {names : NameTable}
    (h : nameTable spellings = .ok names) (hnodup : spellings.keys.Nodup)
    (honce : ∀ spelling, some spelling ∈ spellings.keys → strip? (short spelling) = none)
    {id id' : Nat} {spelling spelling' : String} (hid : spellings.keys[id]? = some (some spelling))
    (hid' : spellings.keys[id']? = some (some spelling')) :
    names.canonical id = names.canonical id' ↔ short spelling = short spelling' := by
  obtain ⟨target, htarget⟩ := exists_canonical h hnodup
  constructor
  · intro heq
    have hshown := spelling_canonical h honce hid
    rw [heq, spelling_canonical h honce hid', Except.ok.injEq] at hshown
    exact hshown.symm
  · intro heq
    exact Option.some.inj ((htarget id spelling hid).symm.trans (heq ▸ htarget id' _ hid'))

end Binding

namespace Expression

open Binding

/-! ## The names of what is built -/

/-- What is built from tokens whose names carry at most one qualifier has one name and one counter
    for each spelling. Every name is shown through an entry that is shown through itself and has the
    spelling of the name without its qualifier; names share this entry exactly if their spellings
    without the qualifiers are the same. -/
theorem canonical_eq_iff_of_ofTokens {room : Option Nat} {tokens : List Token}
    {expression : Expression} (h : ofTokensWithin room tokens = .ok expression)
    (honce : ∀ spelling, some spelling ∈ meetAll [] tokens → strip? (short spelling) = none) :
    ∃ spellings : List String, meetAll [] tokens = spellings.map some
      ∧ expression.names.size = spellings.length
      ∧ expression.names.copies.length = spellings.length
      ∧ ∀ id spelling, spellings[id]? = some spelling →
          expression.names.spelling (expression.names.canonical id) = .ok (short spelling)
            ∧ expression.names.canonical (expression.names.canonical id)
                = expression.names.canonical id
            ∧ ∀ id' spelling', spellings[id']? = some spelling' →
                (expression.names.canonical id = expression.names.canonical id'
                  ↔ short spelling = short spelling') := by
  obtain ⟨_, spellings, _, _, hkeys, htable⟩ := exists_of_ofTokens h
  have hnodup : spellings.keys.Nodup := hkeys ▸ nodup_meetAll List.nodup_nil tokens
  have hsize := size_nameTable htable
  rw [← hkeys] at honce ⊢
  obtain ⟨texts, htexts, -⟩ := nameTable_eq_ok htable
  have hkey {id : Nat} {spelling : String} (hid : texts[id]? = some spelling) :
      spellings.keys[id]? = some (some spelling) := by
    rw [htexts, List.getElem?_map, hid]
    rfl
  rw [htexts, List.length_map] at hsize
  refine ⟨texts, htexts, hsize, ?_, ?_⟩
  · rw [NameTable.copies, List.length_map]
    exact hsize
  · intro id spelling hid
    refine ⟨spelling_canonical htable honce (hkey hid), ?_, ?_⟩
    · obtain ⟨home, hhome, hshort⟩ := exists_of_canonical htable honce (hkey hid)
      exact (canonical_eq_iff htable hnodup honce hhome (hkey hid)).mpr hshort
    · intro id' spelling' hid'
      exact canonical_eq_iff htable hnodup honce (hkey hid) (hkey hid')

/-- A qualified name takes the place of the name without its qualifier, unless that one occurs as
    well, and the next one is merged with it. -/
theorem canonical_eq_iff_of_ofTokens_adopted : ∃ expression,
    ofTokensWithin (some 3) [.func "$k$x", .func "$k$y", .var "$k$x", .opening, .func "$m$x",
        .var "$m$x", .var "y", .closing] = .ok expression
      ∧ (∀ spelling ∈ ["$k$x", "$k$y", "$m$x", "y"], strip? (short spelling) = none)
      ∧ expression.names.canonical 0 = expression.names.canonical 2
      ∧ expression.names.canonical 1 = expression.names.canonical 3
      ∧ expression.names.canonical 0 ≠ expression.names.canonical 1 := by
  have hbuilt : ofTokensWithin (some 3) [.func "$k$x", .func "$k$y", .var "$k$x", .opening,
        .func "$m$x", .var "$m$x", .var "y", .closing]
      = .ok {
          root := .abs [⟨0, 0⟩, ⟨1, 0⟩] [.bound 0 0, .abs [⟨2, 0⟩] [.bound 0 0, .free 3]]
          names := {
            entries := [⟨"x", 1⟩, ⟨"$k$y", 1⟩, ⟨"$m$x", 1⟩, ⟨"y", 0⟩]
            aliases := { entries := [(1, 3), (2, 0)] } } } := by cbv
  have hmet : meetAll [] [.func "$k$x", .func "$k$y", .var "$k$x", .opening, .func "$m$x",
      .var "$m$x", .var "y", .closing] = ["$k$x", "$k$y", "$m$x", "y"].map some := by cbv
  have honce : ∀ spelling ∈ ["$k$x", "$k$y", "$m$x", "y"], strip? (short spelling) = none := by
    simp only [List.forall_mem_cons]
    exact ⟨by cbv, by cbv, by cbv, by cbv, List.forall_mem_nil _⟩
  obtain ⟨spellings, hspellings, -, -, hnames⟩ := canonical_eq_iff_of_ofTokens hbuilt <| by
    rw [hmet]
    intro spelling hmem
    obtain ⟨_, hmem, ⟨⟩⟩ := List.mem_map.mp hmem
    exact honce spelling hmem
  obtain rfl : ["$k$x", "$k$y", "$m$x", "y"] = spellings :=
    List.map_injective_iff.mpr (Option.some_injective String) (hmet.symm.trans hspellings)
  have hmerged {id id' : Nat} {spelling spelling' : String}
      (hid : ["$k$x", "$k$y", "$m$x", "y"][id]? = some spelling)
      (hid' : ["$k$x", "$k$y", "$m$x", "y"][id']? = some spelling') :=
    (hnames id spelling hid).2.2 id' spelling' hid'
  refine ⟨_, hbuilt, honce, ?_, ?_, ?_⟩
  · exact (hmerged rfl rfl).mpr (by cbv)
  · exact (hmerged rfl rfl).mpr (by cbv)
  · exact (hmerged rfl rfl).not.mpr (by cbv)

end Expression

end LambdaCalc
