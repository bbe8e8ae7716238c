import LambdaCalc.Proofs.Phrase.Basic

set_option autoImplicit false

/-! # The names in a phrase

Which names are bound in a phrase, which are free, and which are bound inside the scope of which. A
phrase is well-named (`Phrase.WellNamed`) if nothing is bound inside its own scope and no name is
both bound somewhere and free somewhere. -/

namespace LambdaCalc.Phrase

variable {ν μ κ : Type}

/-- The names bound in a phrase. -/
def binders : Phrase ν → List ν
  | done => []
  | name _ rest => rest.binders
  | group inner rest => inner.binders ++ rest.binders
  | lam x body => x :: body.binders

/-- The names bound in a phrase, each with every name in whose scope it is bound. -/
def nestings (scope : List ν) : Phrase ν → List (ν × ν)
  | done => []
  | name _ rest => rest.nestings scope
  | group inner rest => inner.nestings scope ++ rest.nestings scope
  | lam x body => scope.map (·, x) ++ body.nestings (x :: scope)

/-- All names that are written in a phrase. -/
def names : Phrase ν → List ν
  | done => []
  | name x rest => x :: rest.names
  | group inner rest => inner.names ++ rest.names
  | lam x body => x :: body.names

/-- The names used in a phrase that are bound neither in it nor around it. -/
def free [DecidableEq ν] (scope : List ν) : Phrase ν → List ν
  | done => []
  | name x rest => if x ∈ scope then rest.free scope else x :: rest.free scope
  | group inner rest => inner.free scope ++ rest.free scope
  | lam x body => body.free (x :: scope)

/-- No name is bound while it is bound already, and none is both bound and free. -/
structure WellNamed [DecidableEq ν] (phrase : Phrase ν) : Prop where
  nestings_ne : ∀ pair ∈ phrase.nestings [], pair.1 ≠ pair.2
  binders_not_free : ∀ x ∈ phrase.binders, x ∉ phrase.free []

instance [DecidableEq ν] (phrase : Phrase ν) : Decidable phrase.WellNamed :=
  decidable_of_iff ((∀ pair ∈ phrase.nestings [], pair.1 ≠ pair.2)
      ∧ ∀ x ∈ phrase.binders, x ∉ phrase.free [])
    ⟨fun h => ⟨h.1, h.2⟩, fun h => ⟨h.nestings_ne, h.binders_not_free⟩⟩

/-! ## All of them are written -/

theorem binders_subset_names (phrase : Phrase ν) : phrase.binders ⊆ phrase.names := by
  induction phrase with
  | done => exact List.Subset.refl _
  | name _ rest ih => exact List.Subset.trans ih (List.subset_cons_self _ _)
  | group inner rest ihi ihr =>
    exact List.append_subset.mpr
      ⟨List.Subset.trans ihi (List.subset_append_left _ _),
        List.Subset.trans ihr (List.subset_append_right _ _)⟩
  | lam x body ih => exact List.cons_subset_cons x ih

theorem free_subset_names [DecidableEq ν] (scope : List ν) (phrase : Phrase ν) :
    phrase.free scope ⊆ phrase.names := by
  induction phrase generalizing scope with
  | done => exact List.Subset.refl _
  | name x rest ih =>
    rw [free, names]
    split
    · exact List.Subset.trans (ih scope) (List.subset_cons_self _ _)
    · exact List.cons_subset_cons x (ih scope)
  | group inner rest ihi ihr =>
    exact List.append_subset.mpr
      ⟨List.Subset.trans (ihi scope) (List.subset_append_left _ _),
        List.Subset.trans (ihr scope) (List.subset_append_right _ _)⟩
  | lam x body ih => exact List.Subset.trans (ih _) (List.subset_cons_self _ _)

/-- A written name is bound around the phrase, bound in it, or free. -/
theorem mem_names_cases [DecidableEq ν] {scope : List ν} {phrase : Phrase ν} {x : ν}
    (h : x ∈ phrase.names) : x ∈ scope ∨ x ∈ phrase.binders ∨ x ∈ phrase.free scope := by
  induction phrase generalizing scope with
  | done => cases h
  | name y rest ih =>
    rw [free]
    rcases List.mem_cons.mp h with rfl | h
    · by_cases hx : x ∈ scope
      · exact Or.inl hx
      · rw [if_neg hx]
        exact Or.inr (Or.inr List.mem_cons_self)
    · refine (ih h).imp_right (Or.imp_right fun hfree => ?_)
      split
      · exact hfree
      · exact List.mem_cons_of_mem _ hfree
  | group inner rest ihi ihr =>
    rcases List.mem_append.mp h with h | h
    · exact (ihi h).imp_right (Or.imp (List.mem_append_left _) (List.mem_append_left _))
    · exact (ihr h).imp_right (Or.imp (List.mem_append_right _) (List.mem_append_right _))
  | lam y body ih =>
    rcases List.mem_cons.mp h with rfl | h
    · exact Or.inr (Or.inl List.mem_cons_self)
    · rcases @ih (y :: scope) h with hscope | hbinder | hfree
      · rcases List.mem_cons.mp hscope with rfl | hscope
        · exact Or.inr (Or.inl List.mem_cons_self)
        · exact Or.inl hscope
      · exact Or.inr (Or.inl (List.mem_cons_of_mem _ hbinder))
      · exact Or.inr (Or.inr hfree)

/-- Both names of a nesting are written in the phrase, or the outer one is bound around it. -/
theorem mem_names_of_mem_nestings {scope : List ν} {phrase : Phrase ν} {pair : ν × ν}
    (h : pair ∈ phrase.nestings scope) :
    (pair.1 ∈ scope ∨ pair.1 ∈ phrase.names) ∧ pair.2 ∈ phrase.names := by
  induction phrase generalizing scope with
  | done => cases h
  | name _ rest ih =>
    obtain ⟨hfirst, hsecond⟩ := ih h
    exact ⟨hfirst.imp_right (List.mem_cons_of_mem _), List.mem_cons_of_mem _ hsecond⟩
  | group inner rest ihi ihr =>
    rcases List.mem_append.mp h with h | h
    · obtain ⟨hfirst, hsecond⟩ := ihi h
      exact ⟨hfirst.imp_right (List.mem_append_left _), List.mem_append_left _ hsecond⟩
    · obtain ⟨hfirst, hsecond⟩ := ihr h
      exact ⟨hfirst.imp_right (List.mem_append_right _), List.mem_append_right _ hsecond⟩
  | lam x body ih =>
    rcases List.mem_append.mp h with h | h
    · obtain ⟨y, hy, rfl⟩ := List.mem_map.mp h
      exact ⟨Or.inl hy, List.mem_cons_self⟩
    · obtain ⟨hfirst, hsecond⟩ := ih h
      refine ⟨?_, List.mem_cons_of_mem _ hsecond⟩
      rcases hfirst with hscope | hbody
      · rcases List.mem_cons.mp hscope with rfl | hscope
        · exact Or.inr List.mem_cons_self
        · exact Or.inl hscope
      · exact Or.inr (List.mem_cons_of_mem _ hbody)

/-! ## Changing names -/

@[simp] theorem binders_map (f : ν → μ) (phrase : Phrase ν) :
    (phrase.map f).binders = phrase.binders.map f := by
  induction phrase with
  | done => rfl
  | name _ rest ih => exact ih
  | group inner rest ihi ihr => simp only [map, binders, ihi, ihr, List.map_append]
  | lam x body ih => simp only [map, binders, ih, List.map_cons]

@[simp] theorem nestings_map (f : ν → μ) (scope : List ν) (phrase : Phrase ν) :
    (phrase.map f).nestings (scope.map f)
      = (phrase.nestings scope).map fun pair => (f pair.1, f pair.2) := by
  induction phrase generalizing scope with
  | done => rfl
  | name _ rest ih => exact ih scope
  | group inner rest ihi ihr => simp only [map, nestings, ihi, ihr, List.map_append]
  | lam x body ih =>
    simp only [map, nestings, ← List.map_cons, ih, List.map_append, List.map_map]
    rfl

theorem names_map (f : ν → μ) (phrase : Phrase ν) :
    (phrase.map f).names = phrase.names.map f := by
  induction phrase with
  | done => rfl
  | name x rest ih => simp only [map, names, ih, List.map_cons]
  | group inner rest ihi ihr => simp only [map, names, ihi, ihr, List.map_append]
  | lam x body ih => simp only [map, names, ih, List.map_cons]

theorem map_map (f : ν → μ) (g : μ → κ) (phrase : Phrase ν) :
    (phrase.map f).map g = phrase.map (g ∘ f) := by
  induction phrase with
  | done => rfl
  | name x rest ih => simp only [map, ih, Function.comp_apply]
  | group inner rest ihi ihr => simp only [map, ihi, ihr]
  | lam x body ih => simp only [map, ih, Function.comp_apply]

/-- A change that leaves every written name as it is changes nothing. -/
theorem map_eq_self {f : ν → ν} {phrase : Phrase ν} (h : ∀ x ∈ phrase.names, f x = x) :
    phrase.map f = phrase := by
  induction phrase with
  | done => rfl
  | name x rest ih =>
    obtain ⟨hx, hrest⟩ := List.forall_mem_cons.mp h
    rw [map, hx, ih hrest]
  | group inner rest ihi ihr =>
    obtain ⟨hinner, hrest⟩ := List.forall_mem_append.mp h
    rw [map, ihi hinner, ihr hrest]
  | lam x body ih =>
    obtain ⟨hx, hbody⟩ := List.forall_mem_cons.mp h
    rw [map, hx, ih hbody]

end LambdaCalc.Phrase
