import LambdaCalc.Expression.Printer
import LambdaCalc.Proofs.Node.Term

set_option autoImplicit false

/-! # Layouts: trees with the names that are printed

A layout is a tree in which every parameter and every reference has a name (`Layout`); its text is
put together from those (`Layout.text`).

Names in a layout tell apart what they have to if each reference has the name of its own binder and
no other binder around it has that name, and if no binder has the name of a free variable
(`Layout.Unambiguous`). It is enough that names are different wherever one is bound inside the scope
of the other, and whenever one is bound and the other free (`Layout.Clear`). -/

namespace LambdaCalc

/-! ## Addresses and places in scope -/

/-- An index belongs to one address only. -/
theorem Node.index?_inj {scopes : List Nat} {depth depth' : Int} {position position' index : Nat}
    (h : Node.index? scopes depth position = some index)
    (h' : Node.index? scopes depth' position' = some index) :
    depth = depth' ∧ position = position' := by
  induction scopes generalizing depth depth' index with
  | nil => cases h
  | cons count scopes ih =>
    rw [Node.index?] at h h'
    by_cases hzero : depth = 0 <;> by_cases hzero' : depth' = 0
    · simp only [hzero, hzero', if_true] at h h'
      split_ifs at h h'
      obtain rfl := Option.some.inj h
      have := Option.some.inj h'
      exact ⟨hzero.trans hzero'.symm, by omega⟩
    · simp only [hzero, if_true, if_neg hzero'] at h h'
      obtain ⟨outer, _, rfl⟩ := Option.map_eq_some_iff.mp h'
      split_ifs at h
      have := Option.some.inj h
      omega
    · simp only [hzero', if_true, if_neg hzero] at h h'
      obtain ⟨outer, _, rfl⟩ := Option.map_eq_some_iff.mp h
      split_ifs at h'
      have := Option.some.inj h'
      omega
    · rw [if_neg hzero] at h
      rw [if_neg hzero'] at h'
      obtain ⟨outer, houter, rfl⟩ := Option.map_eq_some_iff.mp h
      obtain ⟨outer', houter', heq⟩ := Option.map_eq_some_iff.mp h'
      obtain rfl : outer' = outer := by omega
      obtain ⟨hdepth, hposition⟩ := ih houter houter'
      exact ⟨by omega, hposition⟩

namespace Scopes

variable {α β : Type}

/-- All entries, from the inside out. -/
def entries (stack : Scopes α) : List α := stack.scopes.flatMap List.reverse

/-- How many entries each scope has, from the inside out. -/
def counts (stack : Scopes α) : List Nat := stack.scopes.map List.length

/-- The same scopes with their entries changed. -/
def map (f : α → β) (stack : Scopes α) : Scopes β := { scopes := stack.scopes.map (List.map f) }

@[simp] theorem entries_push (stack : Scopes α) (scope : List α) :
    (stack.push scope).entries = scope.reverse ++ stack.entries := by
  rw [entries, push, List.flatMap_cons]
  rfl

@[simp] theorem counts_push (stack : Scopes α) (scope : List α) :
    (stack.push scope).counts = scope.length :: stack.counts := rfl

@[simp] theorem map_push (f : α → β) (stack : Scopes α) (scope : List α) :
    (stack.push scope).map f = (stack.map f).push (scope.map f) := rfl

theorem resolve_push_zero (stack : Scopes α) (scope : List α) (position : Nat) :
    (stack.push scope).resolve 0 position
      = scope[position]?.elim (.error (.ofKind .internalFailure)) .ok := by
  have hzero : (stack.push scope).resolve 0 position
      = (stack.push scope).resolve (.ofNat 0) position := rfl
  rw [hzero, resolve, lookup?_push_zero]
  cases scope[position]? <;> rfl

theorem resolve_push_of_ne (stack : Scopes α) (scope : List α) {depth : Int} (h : depth ≠ 0)
    (position : Nat) :
    (stack.push scope).resolve depth position = stack.resolve (depth - 1) position := by
  match depth with
  | .ofNat 0 => exact absurd rfl h
  | .ofNat (depth + 1) =>
    have hdepth : Int.ofNat (depth + 1) - 1 = Int.ofNat depth := by
      simp only [Int.ofNat_eq_natCast]
      omega
    rw [hdepth, resolve, resolve, lookup?_push_succ]
  | .negSucc depth => rfl

theorem resolve_map {f : α → β} {stack : Scopes α} {depth : Int} {position : Nat} {name : β} :
    (stack.map f).resolve depth position = .ok name
      ↔ ∃ entry, stack.resolve depth position = .ok entry ∧ f entry = name := by
  cases depth with
  | negSucc depth => exact ⟨nofun, nofun⟩
  | ofNat depth =>
    have hlookup : (stack.map f).lookup? depth position = (stack.lookup? depth position).map f := by
      simp only [lookup?, map, List.getElem?_map]
      cases stack.scopes[depth]? with
      | none => rfl
      | some scope => simp
    rw [resolve, resolve, hlookup]
    cases stack.lookup? depth position with
    | none => exact ⟨nofun, nofun⟩
    | some entry => simp

/-- A reference that is addressed by index finds the entry in that place: by induction on the
    scopes. -/
theorem resolve_eq_ok_iff {stack : Scopes α} {depth : Int} {position : Nat} {entry : α} :
    stack.resolve depth position = .ok entry
      ↔ ∃ index, Node.index? stack.counts depth position = some index
          ∧ stack.entries[index]? = some entry := by
  obtain ⟨scopes⟩ := stack
  induction scopes generalizing depth with
  | nil =>
    cases depth with
    | ofNat depth => simp [resolve, lookup?, counts, Node.index?]
    | negSucc depth => simp [resolve, counts, Node.index?]
  | cons scope scopes ih =>
    have hpush : ({ scopes := scope :: scopes } : Scopes α) = push { scopes } scope := rfl
    rw [hpush, counts_push, entries_push, Node.index?]
    by_cases hzero : depth = 0
    · subst hzero
      rw [resolve_push_zero]
      by_cases hlt : position < scope.length
      · -- The last parameter of a scope comes first among the entries.
        have hback : scope.length - 1 - (scope.length - 1 - position) = position := by omega
        rw [List.getElem?_eq_getElem hlt, Option.elim_some]
        simp only [if_true, if_pos hlt, Option.some.injEq, exists_eq_left', Except.ok.injEq]
        rw [List.getElem?_append_left (by rw [List.length_reverse]; omega),
          List.getElem?_reverse (by omega), hback, List.getElem?_eq_getElem hlt, Option.some.injEq]
      · rw [List.getElem?_eq_none (by omega)]
        simp [hlt]
    · rw [resolve_push_of_ne _ _ hzero, ih, if_neg hzero]
      simp only [Option.map_eq_some_iff]
      constructor
      · rintro ⟨index, hindex, hentry⟩
        refine ⟨index + scope.length, ⟨index, hindex, rfl⟩, ?_⟩
        rw [List.getElem?_append_right (by rw [List.length_reverse]; omega), List.length_reverse,
          Nat.add_sub_cancel, hentry]
      · rintro ⟨_, ⟨index, hindex, rfl⟩, hentry⟩
        rw [List.getElem?_append_right (by rw [List.length_reverse]; omega), List.length_reverse,
          Nat.add_sub_cancel] at hentry
        exact ⟨index, hindex, hentry⟩

/-- Every address of a parameter is the address of an entry. -/
theorem exists_resolve {stack : Scopes α} {depth : Int} {position index : Nat}
    (h : Node.index? stack.counts depth position = some index) :
    ∃ entry, stack.resolve depth position = .ok entry := by
  have hlength : stack.counts.sum = stack.entries.length := by
    simp only [counts, entries, List.length_flatMap, List.length_reverse]
  have hlt := hlength ▸ Node.index?_lt_sum h
  exact ⟨stack.entries[index], resolve_eq_ok_iff.mpr ⟨index, h, List.getElem?_eq_getElem hlt⟩⟩

/-- If all entries are different, each has one address. -/
theorem resolve_inj {stack : Scopes α} (hnodup : stack.entries.Nodup) {depth depth' : Int}
    {position position' : Nat} {entry : α} (h : stack.resolve depth position = .ok entry)
    (h' : stack.resolve depth' position' = .ok entry) :
    depth = depth' ∧ position = position' := by
  obtain ⟨index, hindex, hentry⟩ := resolve_eq_ok_iff.mp h
  obtain ⟨index', hindex', hentry'⟩ := resolve_eq_ok_iff.mp h'
  obtain ⟨hlt, _⟩ := List.getElem?_eq_some_iff.mp hentry
  obtain rfl := (List.getElem?_inj hlt hnodup).mp (hentry.trans hentry'.symm)
  exact Node.index?_inj hindex hindex'

theorem mem_entries_of_resolve {stack : Scopes α} {depth : Int} {position : Nat} {entry : α}
    (h : stack.resolve depth position = .ok entry) : entry ∈ stack.entries := by
  obtain ⟨_, _, hentry⟩ := resolve_eq_ok_iff.mp h
  exact List.mem_of_getElem? hentry

end Scopes

/-! ## Layouts -/

/-- A tree in which every parameter and every reference has a name. -/
inductive Layout (α : Type) where
  | abs (binders : List α) (elements : List (Layout α))
  | bound (depth : Int) (position : Nat) (name : α)
  | free (name : α)
deriving Repr

/-- A reference where it stands: the names bound around it, its address, and its own name. -/
structure Reference (α : Type) where
  scopes : Scopes α
  depth : Int
  position : Nat
  name : α

/-- The same reference with the names changed. -/
def Reference.map {α β : Type} (f : α → β) (reference : Reference α) : Reference β :=
  { reference with scopes := reference.scopes.map f, name := f reference.name }

namespace Layout

variable {α β : Type}

/-- Induction on a layout: what holds of the elements of an abstraction holds of the abstraction. -/
@[induction_eliminator]
theorem induction {motive : Layout α → Prop}
    (abs : ∀ binders elements, (∀ element ∈ elements, motive element) →
      motive (.abs binders elements))
    (bound : ∀ depth position name, motive (.bound depth position name))
    (free : ∀ name, motive (.free name)) (layout : Layout α) : motive layout :=
  @Layout.rec α motive (fun elements => ∀ element ∈ elements, motive element) abs bound free
    (fun _ h => absurd h List.not_mem_nil)
    (fun _ _ helement helements => List.forall_mem_cons.mpr ⟨helement, helements⟩) layout

mutual

/-- The text of a layout. -/
def text (nested : Bool) : Layout String → String
  | .abs binders elements => Printer.assemble nested binders (texts elements)
  | .bound _ _ name | .free name => name

/-- The texts of the elements of an abstraction. -/
def texts : List (Layout String) → List String
  | [] => []
  | element :: elements => element.text true :: texts elements

end

mutual

/-- The same layout with its names changed. -/
def map (f : α → β) : Layout α → Layout β
  | .abs binders elements => .abs (binders.map f) (mapList f elements)
  | .bound depth position name => .bound depth position (f name)
  | .free name => .free (f name)

/-- The same layouts with their names changed. -/
def mapList (f : α → β) : List (Layout α) → List (Layout β)
  | [] => []
  | element :: elements => element.map f :: mapList f elements

end

mutual

/-- The names of all parameters. -/
def binders : Layout α → List α
  | .abs binders elements => binders ++ bindersList elements
  | .bound .. | .free _ => []

/-- The names of all parameters in the elements of an abstraction. -/
def bindersList : List (Layout α) → List α
  | [] => []
  | element :: elements => element.binders ++ bindersList elements

end

mutual

/-- The names of all free variables. -/
def frees : Layout α → List α
  | .abs _ elements => freesList elements
  | .bound .. => []
  | .free name => [name]

/-- The names of all free variables in the elements of an abstraction. -/
def freesList : List (Layout α) → List α
  | [] => []
  | element :: elements => element.frees ++ freesList elements

end

mutual

/-- All references to parameters, inside the given scopes. -/
def references (scopes : Scopes α) : Layout α → List (Reference α)
  | .abs binders elements => referencesList (scopes.push binders) elements
  | .bound depth position name => [{ scopes, depth, position, name }]
  | .free _ => []

/-- All references to parameters in the elements of an abstraction. -/
def referencesList (scopes : Scopes α) : List (Layout α) → List (Reference α)
  | [] => []
  | element :: elements => element.references scopes ++ referencesList scopes elements

end

theorem texts_eq_map (elements : List (Layout String)) :
    texts elements = elements.map (text true) := by
  induction elements with
  | nil => rfl
  | cons element elements ih => rw [texts, ih, List.map_cons]

theorem mapList_eq_map (f : α → β) (elements : List (Layout α)) :
    mapList f elements = elements.map (map f) := by
  induction elements with
  | nil => rfl
  | cons element elements ih => rw [mapList, ih, List.map_cons]

theorem bindersList_eq_flatMap (elements : List (Layout α)) :
    bindersList elements = elements.flatMap binders := by
  induction elements with
  | nil => rfl
  | cons element elements ih => rw [bindersList, ih, List.flatMap_cons]

theorem freesList_eq_flatMap (elements : List (Layout α)) :
    freesList elements = elements.flatMap frees := by
  induction elements with
  | nil => rfl
  | cons element elements ih => rw [freesList, ih, List.flatMap_cons]

theorem referencesList_eq_flatMap (scopes : Scopes α) (elements : List (Layout α)) :
    referencesList scopes elements = elements.flatMap (references scopes) := by
  induction elements with
  | nil => rfl
  | cons element elements ih => rw [referencesList, ih, List.flatMap_cons]

/-! ## Changing names -/

theorem binders_map (f : α → β) (layout : Layout α) :
    (layout.map f).binders = layout.binders.map f := by
  induction layout with
  | abs binders elements ih =>
    rw [map, Layout.binders, Layout.binders, bindersList_eq_flatMap, bindersList_eq_flatMap,
      mapList_eq_map, List.map_append, List.flatMap_map, List.map_flatMap]
    exact congrArg _ (List.flatMap_congr ih)
  | bound _ _ _ | free _ => rfl

theorem frees_map (f : α → β) (layout : Layout α) :
    (layout.map f).frees = layout.frees.map f := by
  induction layout with
  | abs binders elements ih =>
    rw [map, frees, frees, freesList_eq_flatMap, freesList_eq_flatMap, mapList_eq_map,
      List.flatMap_map, List.map_flatMap]
    exact List.flatMap_congr ih
  | bound _ _ _ | free _ => rfl

theorem references_map (f : α → β) (layout : Layout α) (scopes : Scopes α) :
    (layout.map f).references (scopes.map f)
      = (layout.references scopes).map (Reference.map f) := by
  induction layout generalizing scopes with
  | abs binders elements ih =>
    rw [map, references, references, referencesList_eq_flatMap, referencesList_eq_flatMap,
      mapList_eq_map, List.flatMap_map, List.map_flatMap, ← Scopes.map_push]
    exact List.flatMap_congr fun element hmem => ih element hmem _
  | bound _ _ _ | free _ => rfl

/-! ## Telling names apart -/

/-- Every reference has the name of its own binder. -/
def Own (layout : Layout α) : Prop :=
  ∀ reference ∈ layout.references {},
    reference.scopes.resolve reference.depth reference.position = .ok reference.name

/-- The names that have to be told apart are related: the name of a reference to those of the other
    binders around it, and the name of a parameter to those of the free variables. -/
structure Separate (R : α → α → Prop) (layout : Layout α) : Prop where
  scope : ∀ reference ∈ layout.references {}, ∀ depth position name,
    reference.scopes.resolve depth position = .ok name →
      (depth, position) ≠ (reference.depth, reference.position) → R reference.name name
  free : ∀ binder ∈ layout.binders, ∀ name ∈ layout.frees, R binder name

/-- A name says which parameter is meant, or that a free variable is. -/
structure Unambiguous (layout : Layout α) : Prop where
  own : layout.Own
  separate : layout.Separate (· ≠ ·)

theorem Own.map {layout : Layout α} (h : layout.Own) (f : α → β) : (layout.map f).Own := by
  have hreferences := references_map f layout {}
  intro reference hmem
  rw [show ({} : Scopes β) = Scopes.map f {} from rfl, hreferences] at hmem
  obtain ⟨original, horiginal, rfl⟩ := List.mem_map.mp hmem
  exact Scopes.resolve_map.mpr ⟨_, h original horiginal, rfl⟩

theorem separate_map {R : β → β → Prop} {f : α → β} {layout : Layout α} :
    (layout.map f).Separate R ↔ layout.Separate fun a b => R (f a) (f b) := by
  have hreferences : (layout.map f).references {} = (layout.references {}).map (Reference.map f) :=
    references_map f layout {}
  constructor
  · intro h
    refine ⟨fun reference hmem depth position name hname hne => ?_, fun binder hbinder name hname =>
      ?_⟩
    · exact h.scope (reference.map f) (hreferences ▸ List.mem_map.mpr ⟨reference, hmem, rfl⟩) depth
        position _ (Scopes.resolve_map.mpr ⟨name, hname, rfl⟩) hne
    · refine h.free _ ?_ _ ?_
      · rw [binders_map]
        exact List.mem_map.mpr ⟨binder, hbinder, rfl⟩
      · rw [frees_map]
        exact List.mem_map.mpr ⟨name, hname, rfl⟩
  · intro h
    refine ⟨fun reference hmem depth position name hname hne => ?_, ?_⟩
    · rw [hreferences] at hmem
      obtain ⟨original, horiginal, rfl⟩ := List.mem_map.mp hmem
      obtain ⟨_, hentry, rfl⟩ := Scopes.resolve_map.mp hname
      exact h.scope original horiginal depth position _ hentry hne
    · rw [binders_map, frees_map]
      exact List.forall_mem_map.mpr fun binder hbinder =>
        List.forall_mem_map.mpr (h.free binder hbinder)

/-- The names in scope of a reference are those around the layout and those of its parameters. -/
theorem entries_subset_of_mem_references {layout : Layout α} {scopes : Scopes α}
    {reference : Reference α} (h : reference ∈ layout.references scopes) :
    reference.scopes.entries ⊆ scopes.entries ++ layout.binders := by
  induction layout generalizing scopes with
  | abs binders elements ih =>
    rw [references, referencesList_eq_flatMap] at h
    obtain ⟨element, hmem, h⟩ := List.mem_flatMap.mp h
    intro name hname
    have helement := ih element hmem h hname
    rw [Scopes.entries_push] at helement
    rw [Layout.binders, bindersList_eq_flatMap]
    simp only [List.mem_append, List.mem_reverse, List.mem_flatMap] at helement ⊢
    rcases helement with (hbinder | hscope) | hinner
    · exact Or.inr (Or.inl hbinder)
    · exact Or.inl hscope
    · exact Or.inr (Or.inr ⟨element, hmem, hinner⟩)
  | bound depth position name =>
    obtain rfl := List.mem_singleton.mp h
    exact List.subset_append_left _ _
  | free name => cases h

/-- Two ways to relate different names separate alike if they agree on the names of the layout. -/
theorem Unambiguous.separate_congr {layout : Layout α} (h : layout.Unambiguous)
    {R S : α → α → Prop}
    (hiff : ∀ a ∈ layout.binders, ∀ b ∈ layout.binders ++ layout.frees, a ≠ b → (R a b ↔ S a b)) :
    layout.Separate R ↔ layout.Separate S := by
  have hbinder {reference : Reference α} (hmem : reference ∈ layout.references {}) {depth : Int}
      {position : Nat} {name : α} (hname : reference.scopes.resolve depth position = .ok name) :
      name ∈ layout.binders :=
    entries_subset_of_mem_references hmem (Scopes.mem_entries_of_resolve hname)
  have hscope {reference : Reference α} (hmem : reference ∈ layout.references {}) {depth : Int}
      {position : Nat} {name : α} (hname : reference.scopes.resolve depth position = .ok name)
      (hne : (depth, position) ≠ (reference.depth, reference.position)) :
      R reference.name name ↔ S reference.name name :=
    hiff _ (hbinder hmem (h.own reference hmem)) _ (List.mem_append_left _ (hbinder hmem hname))
      (h.separate.scope reference hmem depth position name hname hne)
  have hfree {binder name : α} (hmem : binder ∈ layout.binders) (hname : name ∈ layout.frees) :
      R binder name ↔ S binder name :=
    hiff binder hmem name (List.mem_append_right _ hname) (h.separate.free binder hmem name hname)
  constructor
  · intro hR
    exact ⟨fun reference hmem depth position name hname hne =>
        (hscope hmem hname hne).mp (hR.scope reference hmem depth position name hname hne),
      fun binder hmem name hname => (hfree hmem hname).mp (hR.free binder hmem name hname)⟩
  · intro hS
    exact ⟨fun reference hmem depth position name hname hne =>
        (hscope hmem hname hne).mpr (hS.scope reference hmem depth position name hname hne),
      fun binder hmem name hname => (hfree hmem hname).mpr (hS.free binder hmem name hname)⟩

/-! ## Clear layouts -/

mutual

/-- Names that are bound inside one another are different, none of them is one of the free names,
    and every reference has the name of its own binder. -/
def Clear (free : List α) (scopes : Scopes α) : Layout α → Prop
  | .abs binders elements =>
      (scopes.push binders).entries.Nodup ∧ (∀ binder ∈ binders, binder ∉ free)
        ∧ ClearList free (scopes.push binders) elements
  | .bound depth position name => scopes.resolve depth position = .ok name
  | .free name => name ∈ free

/-- The elements of an abstraction are clear. -/
def ClearList (free : List α) (scopes : Scopes α) : List (Layout α) → Prop
  | [] => True
  | element :: elements => element.Clear free scopes ∧ ClearList free scopes elements

end

theorem clearList_iff {free : List α} {scopes : Scopes α} {elements : List (Layout α)} :
    ClearList free scopes elements ↔ ∀ element ∈ elements, element.Clear free scopes := by
  induction elements with
  | nil => simp [ClearList]
  | cons element elements ih => simp [ClearList, ih]

theorem clear_abs {free : List α} {scopes : Scopes α} {binders : List α}
    {elements : List (Layout α)} :
    (Layout.abs binders elements).Clear free scopes
      ↔ (scopes.push binders).entries.Nodup ∧ (∀ binder ∈ binders, binder ∉ free)
        ∧ ∀ element ∈ elements, element.Clear free (scopes.push binders) := by
  rw [Clear, clearList_iff]

theorem Clear.binders_not_mem {free : List α} {scopes : Scopes α} {layout : Layout α}
    (h : layout.Clear free scopes) : ∀ binder ∈ layout.binders, binder ∉ free := by
  induction layout generalizing scopes with
  | abs binders elements ih =>
    obtain ⟨_, hbinders, helements⟩ := clear_abs.mp h
    rw [Layout.binders, bindersList_eq_flatMap]
    refine List.forall_mem_append.mpr ⟨hbinders, fun binder hbinder => ?_⟩
    obtain ⟨element, hmem, hbinder⟩ := List.mem_flatMap.mp hbinder
    exact ih element hmem (helements element hmem) binder hbinder
  | bound _ _ _ | free _ => exact nofun

theorem Clear.frees_subset {free : List α} {scopes : Scopes α} {layout : Layout α}
    (h : layout.Clear free scopes) : layout.frees ⊆ free := by
  induction layout generalizing scopes with
  | abs binders elements ih =>
    obtain ⟨_, _, helements⟩ := clear_abs.mp h
    rw [frees, freesList_eq_flatMap]
    intro name hname
    obtain ⟨element, hmem, hname⟩ := List.mem_flatMap.mp hname
    exact ih element hmem (helements element hmem) hname
  | bound _ _ _ => exact List.nil_subset _
  | free name => exact List.cons_subset.mpr ⟨h, List.nil_subset _⟩

/-- The names around a reference are different, and it has that of its own binder. -/
theorem Clear.of_mem_references {free : List α} {scopes : Scopes α} {layout : Layout α}
    (h : layout.Clear free scopes) (hnodup : scopes.entries.Nodup) {reference : Reference α}
    (hmem : reference ∈ layout.references scopes) :
    reference.scopes.entries.Nodup
      ∧ reference.scopes.resolve reference.depth reference.position = .ok reference.name := by
  induction layout generalizing scopes with
  | abs binders elements ih =>
    obtain ⟨hnodup', _, helements⟩ := clear_abs.mp h
    rw [references, referencesList_eq_flatMap] at hmem
    obtain ⟨element, helement, hmem⟩ := List.mem_flatMap.mp hmem
    exact ih element helement (helements element helement) hnodup' hmem
  | bound depth position name =>
    obtain rfl := List.mem_singleton.mp hmem
    exact ⟨hnodup, h⟩
  | free name => cases hmem

/-- A clear layout is unambiguous. -/
theorem Clear.unambiguous {free : List α} {layout : Layout α} (h : layout.Clear free {}) :
    layout.Unambiguous where
  own _ hmem := (h.of_mem_references List.nodup_nil hmem).2
  separate := by
    refine ⟨fun reference hmem depth position name hname hne heq => ?_, ?_⟩
    · obtain ⟨hnodup, hown⟩ := h.of_mem_references List.nodup_nil hmem
      obtain ⟨hdepth, hposition⟩ := Scopes.resolve_inj hnodup (heq ▸ hname) hown
      exact hne (Prod.ext hdepth hposition)
    · rintro binder hbinder name hname rfl
      exact h.binders_not_mem binder hbinder (h.frees_subset hname)

end Layout

end LambdaCalc
