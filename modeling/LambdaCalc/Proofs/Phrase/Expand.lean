import LambdaCalc.Proofs.Phrase.Clash

set_option autoImplicit false

/-! # Putting phrases in the place of names

`Term.replace` puts λ-terms in the place of the free names of a λ-term; nothing is captured, since
names are not indices. `Phrase.expand` puts phrases in the place of the unbound names of a phrase.
If these phrases share no name with the one that they are put into, the two come to the same
(`Phrase.term_expand`). -/

namespace LambdaCalc

namespace Term

variable {ν μ κ : Type}

/-- Replace the free names of a term. -/
def replace (value : ν → Term μ) : Term ν → Term μ
  | var index => var index
  | free name => value name
  | void => void
  | app function argument => app (function.replace value) (argument.replace value)
  | lam body => lam (body.replace fun name => (value name).shift 1)

theorem replace_apply (function : Term ν) (arguments : List (Term ν)) (value : ν → Term μ) :
    (function.apply arguments).replace value
      = (function.replace value).apply (arguments.map (replace value)) := by
  induction arguments generalizing function with
  | nil => rfl
  | cons argument arguments ih => exact ih _

theorem replace_ofSpine (spine : List (Term ν)) (value : ν → Term μ) :
    (ofSpine spine).replace value = ofSpine (spine.map (replace value)) := by
  cases spine with
  | nil => rfl
  | cons head arguments => exact replace_apply head arguments value

theorem map_rename (term : Term ν) (ρ : Nat → Nat) (f : ν → μ) :
    (term.rename ρ).map f = (term.map f).rename ρ := by
  induction term generalizing ρ with
  | var _ | free _ | void => rfl
  | app function argument ihf iha => simp only [rename, map, ihf, iha]
  | lam body ih => simp only [rename, map, ih]

/-- No index leaves a term. -/
def Closed (term : Term ν) : Prop := ∀ ρ, term.rename ρ = term

theorem closed_free (name : ν) : (free name).Closed := fun _ => rfl

theorem Closed.map {term : Term ν} (h : term.Closed) (f : ν → μ) : (term.map f).Closed := by
  intro ρ
  rw [← map_rename, h ρ]

/-- Closed values are the same under a binder. -/
theorem replace_lam {value : ν → Term μ} (h : ∀ name, (value name).Closed) (body : Term ν) :
    (lam body).replace value = lam (body.replace value) := by
  rw [replace]
  congr 2
  funext name
  exact h name _

end Term

namespace Phrase

variable {ν μ κ : Type}

/-! ## Phrases in further scopes -/

section

variable [DecidableEq ν]

/-- Names that a phrase does not contain may be bound around it. -/
theorem terms_append {inner outer : List ν} {phrase : Phrase ν}
    (h : ∀ x ∈ phrase.names, x ∉ outer) :
    phrase.terms (inner ++ outer) = phrase.terms inner := by
  induction phrase generalizing inner with
  | done => rfl
  | name x rest ih =>
    obtain ⟨hx, hrest⟩ := List.forall_mem_cons.mp h
    have hresolve : resolve (inner ++ outer) x = resolve inner x := by
      by_cases hinner : x ∈ inner
      · rw [resolve_append_of_mem outer hinner, resolve, if_pos hinner]
      · rw [resolve_append_of_not_mem outer hinner, resolve_of_not_mem hx,
          resolve_of_not_mem hinner]
        rfl
    rw [terms, terms, hresolve, ih hrest]
  | group inner' rest ihi ihr =>
    obtain ⟨hinner, hrest⟩ := List.forall_mem_append.mp h
    rw [terms, terms, ihi hinner, ihr hrest]
  | lam x body ih =>
    obtain ⟨_, hbody⟩ := List.forall_mem_cons.mp h
    rw [terms, terms, ← List.cons_append, ih hbody]

theorem rename_resolve (ρ : Nat → Nat) (scope : List ν) (x : ν) :
    (resolve scope x).rename (Term.keep^[scope.length] ρ) = resolve scope x := by
  unfold resolve
  split
  · next hx =>
    have hlt := List.idxOf_lt_length_of_mem hx
    rw [Term.rename, Term.iterate_keep, if_pos hlt]
  · rfl

/-- The indices that leave the λ-terms of a phrase are those of the names in scope. -/
theorem rename_terms (ρ : Nat → Nat) (scope : List ν) (phrase : Phrase ν) :
    (phrase.terms scope).map (Term.rename (Term.keep^[scope.length] ρ)) = phrase.terms scope := by
  induction phrase generalizing scope with
  | done => rfl
  | name x rest ih => rw [terms, List.map_cons, rename_resolve, ih]
  | group inner rest ihi ihr => rw [terms, List.map_cons, Term.rename_ofSpine, ihi, ihr]
  | lam x body ih =>
    have hbody := ih (x :: scope)
    rw [List.length_cons, Function.iterate_succ_apply'] at hbody
    rw [terms, List.map_cons, Term.rename, Term.rename_ofSpine, hbody, List.map_nil]

theorem closed_term (phrase : Phrase ν) : (phrase.term []).Closed := by
  intro ρ
  rw [term, Term.rename_ofSpine]
  exact congrArg Term.ofSpine (rename_terms ρ [] phrase)

/-- Binding more around a phrase leaves fewer names free. -/
theorem free_append_subset (inner outer : List ν) (phrase : Phrase ν) :
    phrase.free (inner ++ outer) ⊆ phrase.free inner := by
  induction phrase generalizing inner with
  | done => exact List.Subset.refl _
  | name x rest ih =>
    rw [free, free]
    by_cases hx : x ∈ inner
    · rw [if_pos hx, if_pos (List.mem_append_left _ hx)]
      exact ih inner
    · rw [if_neg hx]
      split
      · exact List.Subset.trans (ih inner) (List.subset_cons_self _ _)
      · exact List.cons_subset_cons x (ih inner)
  | group inner' rest ihi ihr =>
    exact List.append_subset.mpr ⟨List.Subset.trans (ihi inner) (List.subset_append_left _ _),
      List.Subset.trans (ihr inner) (List.subset_append_right _ _)⟩
  | lam x body ih => exact ih (x :: inner)

end

/-- Binding more around a phrase binds its names in the scope of what is bound. -/
theorem mem_nestings_append {inner outer : List ν} {phrase : Phrase ν} {pair : ν × ν}
    (h : pair ∈ phrase.nestings (inner ++ outer)) :
    pair ∈ phrase.nestings inner ∨ pair.1 ∈ outer ∧ pair.2 ∈ phrase.binders := by
  induction phrase generalizing inner with
  | done => cases h
  | name _ rest ih => exact ih h
  | group inner' rest ihi ihr =>
    rcases List.mem_append.mp h with h | h
    · exact (ihi h).imp (List.mem_append_left _) (And.imp_right (List.mem_append_left _))
    · exact (ihr h).imp (List.mem_append_right _) (And.imp_right (List.mem_append_right _))
  | lam x body ih =>
    rcases List.mem_append.mp h with h | h
    · obtain ⟨y, hy, rfl⟩ := List.mem_map.mp h
      rcases List.mem_append.mp hy with hy | hy
      · exact Or.inl (List.mem_append_left _ (List.mem_map.mpr ⟨y, hy, rfl⟩))
      · exact Or.inr ⟨hy, List.mem_cons_self⟩
    · exact (ih h).imp (List.mem_append_right _) (And.imp_right (List.mem_cons_of_mem _))

/-! ## Expansion -/

variable [DecidableEq ν]

/-- Put phrases in the place of names that are not bound, as groups, and change the other names. -/
def expand (own : ν → μ) (body : ν → Option (Phrase μ)) (scope : List ν) : Phrase ν → Phrase μ
  | done => done
  | name x rest =>
      match if x ∈ scope then none else body x with
      | some phrase => group phrase (rest.expand own body scope)
      | none => name (own x) (rest.expand own body scope)
  | group inner rest => group (inner.expand own body scope) (rest.expand own body scope)
  | lam x inner => lam (own x) (inner.expand own body (x :: scope))

variable {own : ν → μ} {body : ν → Option (Phrase μ)}

theorem expand_name (scope : List ν) (x : ν) (rest : Phrase ν) :
    (name x rest).expand own body scope
      = (if x ∈ scope then none else body x).elim (name (own x) (rest.expand own body scope))
          fun inner => group inner (rest.expand own body scope) := by
  rw [expand]
  cases (if x ∈ scope then none else body x) <;> rfl

theorem expand_group (scope : List ν) (inner rest : Phrase ν) :
    (group inner rest).expand own body scope
      = group (inner.expand own body scope) (rest.expand own body scope) := rfl

theorem expand_lam (scope : List ν) (x : ν) (inner : Phrase ν) :
    (lam x inner).expand own body scope = lam (own x) (inner.expand own body (x :: scope)) := rfl

theorem expand_name_of_some {scope : List ν} {x : ν} {inner : Phrase μ} (hscope : x ∉ scope)
    (hbody : body x = some inner) (rest : Phrase ν) :
    (name x rest).expand own body scope = group inner (rest.expand own body scope) := by
  rw [expand_name, if_neg hscope, hbody, Option.elim_some]

theorem expand_name_of_none {scope : List ν} {x : ν} (h : x ∈ scope ∨ body x = none)
    (rest : Phrase ν) :
    (name x rest).expand own body scope = name (own x) (rest.expand own body scope) := by
  rw [expand_name]
  rcases h with hscope | hbody
  · rw [if_pos hscope, Option.elim_none]
  · rw [hbody, ite_self, Option.elim_none]

/-- A name is changed, or a phrase is put in its place. -/
theorem expand_name_cases (scope : List ν) (x : ν) (rest : Phrase ν) :
    ((x ∈ scope ∨ body x = none)
        ∧ (name x rest).expand own body scope = name (own x) (rest.expand own body scope))
      ∨ ∃ inner, body x = some inner
        ∧ (name x rest).expand own body scope = group inner (rest.expand own body scope) := by
  by_cases hscope : x ∈ scope
  · exact Or.inl ⟨Or.inl hscope, expand_name_of_none (Or.inl hscope) rest⟩
  · cases hbody : body x with
    | none => exact Or.inl ⟨Or.inr rfl, expand_name_of_none (Or.inr hbody) rest⟩
    | some inner => exact Or.inr ⟨inner, rfl, expand_name_of_some hscope hbody rest⟩

/-- Only which names are in scope matters. -/
theorem expand_congr {scope scope' : List ν} (h : ∀ x, x ∈ scope ↔ x ∈ scope') (phrase : Phrase ν) :
    phrase.expand own body scope = phrase.expand own body scope' := by
  induction phrase generalizing scope scope' with
  | done => rfl
  | name x rest ih => simp only [expand_name, h x, ih h]
  | group inner rest ihi ihr => rw [expand_group, expand_group, ihi h, ihr h]
  | lam x inner ih =>
    have hcons : ∀ y, y ∈ x :: scope ↔ y ∈ x :: scope' := fun y => by
      rw [List.mem_cons, List.mem_cons, h y]
    rw [expand_lam, expand_lam, ih hcons]

/-- If nothing stands for anything else, only the names are changed. -/
theorem expand_eq_map (scope : List ν) {phrase : Phrase ν} (h : ∀ x ∈ phrase.names, body x = none) :
    phrase.expand own body scope = phrase.map own := by
  induction phrase generalizing scope with
  | done => rfl
  | name x rest ih =>
    obtain ⟨hx, hrest⟩ := List.forall_mem_cons.mp h
    rw [expand_name_of_none (Or.inr hx), ih scope hrest]
    rfl
  | group inner rest ihi ihr =>
    obtain ⟨hinner, hrest⟩ := List.forall_mem_append.mp h
    rw [expand_group, ihi scope hinner, ihr scope hrest]
    rfl
  | lam x inner ih =>
    rw [expand_lam, ih (x :: scope) (List.forall_mem_cons.mp h).2]
    rfl

/-- Changing the names of an expansion changes those of the phrase and of the phrases put into
    it. -/
theorem map_expand (f : μ → κ) (scope : List ν) (phrase : Phrase ν) :
    (phrase.expand own body scope).map f
      = phrase.expand (f ∘ own) (fun x => (body x).map (map f)) scope := by
  induction phrase generalizing scope with
  | done => rfl
  | name x rest ih =>
    rw [expand_name, expand_name, ← ih]
    by_cases hscope : x ∈ scope
    · rw [if_pos hscope, if_pos hscope]
      rfl
    · rw [if_neg hscope, if_neg hscope]
      cases body x <;> rfl
  | group inner rest ihi ihr =>
    rw [expand_group, expand_group, ← ihi, ← ihr]
    rfl
  | lam x inner ih =>
    rw [expand_lam, expand_lam, ← ih]
    rfl

/-- Only the names that the phrase binds are bound, and those that are bound in the phrases put into
    it. -/
theorem mem_binders_expand {scope : List ν} {phrase : Phrase ν} {y : μ}
    (h : y ∈ (phrase.expand own body scope).binders) :
    (∃ x ∈ phrase.binders, y = own x) ∨ ∃ x inner, body x = some inner ∧ y ∈ inner.binders := by
  induction phrase generalizing scope with
  | done => cases h
  | name x rest ih =>
    rcases expand_name_cases scope x rest with ⟨_, heq⟩ | ⟨inner, hbody, heq⟩ <;> rw [heq] at h
    · exact ih h
    · rcases List.mem_append.mp h with h | h
      · exact Or.inr ⟨x, inner, hbody, h⟩
      · exact ih h
  | group inner rest ihi ihr =>
    rcases List.mem_append.mp h with h | h
    · exact (ihi h).imp_left fun ⟨x, hx, hy⟩ => ⟨x, List.mem_append_left _ hx, hy⟩
    · exact (ihr h).imp_left fun ⟨x, hx, hy⟩ => ⟨x, List.mem_append_right _ hx, hy⟩
  | lam x inner ih =>
    rcases List.mem_cons.mp h with rfl | h
    · exact Or.inl ⟨x, List.mem_cons_self, rfl⟩
    · exact (ih h).imp_left fun ⟨x, hx, hy⟩ => ⟨x, List.mem_cons_of_mem _ hx, hy⟩

/-- Only the names that the phrase leaves free are free, and those that the phrases put into it
    do. -/
theorem mem_free_expand [DecidableEq μ] {scope : List ν} {phrase : Phrase ν} {y : μ}
    (h : y ∈ (phrase.expand own body scope).free (scope.map own)) :
    (∃ x ∈ phrase.free scope, body x = none ∧ y = own x)
      ∨ ∃ x inner, body x = some inner ∧ y ∈ inner.free [] := by
  induction phrase generalizing scope with
  | done => cases h
  | name x rest ih =>
    have hrest (h : y ∈ (rest.expand own body scope).free (scope.map own)) :
        (∃ x' ∈ (name x rest).free scope, body x' = none ∧ y = own x')
          ∨ ∃ x inner, body x = some inner ∧ y ∈ inner.free [] := by
      refine (ih h).imp_left fun ⟨x', hx', hy⟩ => ⟨x', ?_, hy⟩
      rw [free]
      split
      · exact hx'
      · exact List.mem_cons_of_mem _ hx'
    rcases expand_name_cases scope x rest with ⟨hnone, heq⟩ | ⟨inner, hbody, heq⟩ <;> rw [heq] at h
    · rw [free] at h
      split at h
      · exact hrest h
      · next hown =>
        rcases List.mem_cons.mp h with rfl | h
        · have hx : x ∉ scope := fun hx => hown (List.mem_map.mpr ⟨x, hx, rfl⟩)
          refine Or.inl ⟨x, ?_, hnone.resolve_left hx, rfl⟩
          rw [free, if_neg hx]
          exact List.mem_cons_self
        · exact hrest h
    · rcases List.mem_append.mp h with h | h
      · exact Or.inr ⟨x, inner, hbody, free_append_subset [] _ inner h⟩
      · exact hrest h
  | group inner rest ihi ihr =>
    rcases List.mem_append.mp h with h | h
    · exact (ihi h).imp_left fun ⟨x, hx, hy⟩ => ⟨x, List.mem_append_left _ hx, hy⟩
    · exact (ihr h).imp_left fun ⟨x, hx, hy⟩ => ⟨x, List.mem_append_right _ hx, hy⟩
  | lam x inner ih => exact ih h

/-- A name is bound in the scope of another one by the phrase, or inside one of the phrases put into
    it, or it is bound by one of these in the scope of a name of the phrase. -/
theorem mem_nestings_expand {scope : List ν} {phrase : Phrase ν} {pair : μ × μ}
    (h : pair ∈ (phrase.expand own body scope).nestings (scope.map own)) :
    (∃ pair' ∈ phrase.nestings scope, pair = (own pair'.1, own pair'.2))
      ∨ ∃ x inner, body x = some inner
        ∧ (pair ∈ inner.nestings [] ∨ (∃ y, pair.1 = own y) ∧ pair.2 ∈ inner.binders) := by
  induction phrase generalizing scope with
  | done => cases h
  | name x rest ih =>
    rcases expand_name_cases scope x rest with ⟨_, heq⟩ | ⟨inner, hbody, heq⟩ <;> rw [heq] at h
    · exact ih h
    · rcases List.mem_append.mp h with h | h
      · refine Or.inr ⟨x, inner, hbody, ?_⟩
        refine (mem_nestings_append h).imp_right (And.imp_left fun hmem => ?_)
        obtain ⟨y, _, hy⟩ := List.mem_map.mp hmem
        exact ⟨y, hy.symm⟩
      · exact ih h
  | group inner rest ihi ihr =>
    rcases List.mem_append.mp h with h | h
    · exact (ihi h).imp_left fun ⟨pair', hmem, heq⟩ => ⟨pair', List.mem_append_left _ hmem, heq⟩
    · exact (ihr h).imp_left fun ⟨pair', hmem, heq⟩ => ⟨pair', List.mem_append_right _ hmem, heq⟩
  | lam x inner ih =>
    rcases List.mem_append.mp h with h | h
    · obtain ⟨_, hmem, rfl⟩ := List.mem_map.mp h
      obtain ⟨y, hy, rfl⟩ := List.mem_map.mp hmem
      exact Or.inl ⟨(y, x), List.mem_append_left _ (List.mem_map.mpr ⟨y, hy, rfl⟩), rfl⟩
    · refine (@ih (x :: scope) h).imp_left fun ⟨pair', hmem, heq⟩ =>
        ⟨pair', List.mem_append_right _ hmem, heq⟩

/-- The λ-term of the expansion is that of the phrase with λ-terms in the place of names, if the
    names that the phrase changes are not written in the phrases put into it. -/
theorem terms_expand [DecidableEq μ] {g : μ → κ} {value : ν → Term κ}
    (hown : Function.Injective own)
    (hfresh : ∀ x inner, body x = some inner → ∀ y, own y ∉ inner.names)
    (hclosed : ∀ x, (value x).Closed)
    (hvalue : ∀ x inner, body x = some inner → value x = (inner.term []).map g)
    (scope : List ν) {phrase : Phrase ν}
    (hfree : ∀ x ∈ phrase.names, body x = none → value x = .free (g (own x))) :
    ((phrase.expand own body scope).terms (scope.map own)).map (Term.map g)
      = (phrase.terms scope).map (Term.replace value) := by
  induction phrase generalizing scope with
  | done => rfl
  | name x rest ih =>
    obtain ⟨hx, hrest⟩ := List.forall_mem_cons.mp hfree
    rw [terms, List.map_cons, ← ih scope hrest]
    by_cases hscope : x ∈ scope
    · have hmem : own x ∈ scope.map own := List.mem_map.mpr ⟨x, hscope, rfl⟩
      have hidx := @idxOf_map _ _ _ _ own scope (fun _ _ _ _ heq => hown heq) x hscope
      simp only [expand_name_of_none (Or.inl hscope), if_pos hscope, terms, resolve, if_pos hmem,
        hidx, List.map_cons, Term.map, Term.replace]
    · rw [resolve_of_not_mem hscope, Term.replace]
      cases hbody : body x with
      | none =>
        have hmem : own x ∉ scope.map own := by
          rintro hmem
          obtain ⟨y, hy, heq⟩ := List.mem_map.mp hmem
          exact hscope (hown heq ▸ hy)
        rw [hx hbody, expand_name_of_none (Or.inr hbody)]
        simp only [terms, resolve_of_not_mem hmem, List.map_cons, Term.map]
      | some inner =>
        -- None of the parameters around it is written in the phrase that takes the place of `x`.
        have hinner : inner.terms (scope.map own) = inner.terms [] := by
          refine @terms_append _ _ [] _ _ fun z hz hmem => ?_
          obtain ⟨y, _, rfl⟩ := List.mem_map.mp hmem
          exact hfresh x inner hbody y hz
        rw [hvalue x inner hbody, term, expand_name_of_some hscope hbody]
        simp only [terms, hinner, List.map_cons]
  | group inner rest ihi ihr =>
    obtain ⟨hinner, hrest⟩ := List.forall_mem_append.mp hfree
    simp only [expand_group, terms, List.map_cons, Term.map_ofSpine, Term.replace_ofSpine,
      ihi scope hinner, ihr scope hrest]
  | lam x inner ih =>
    have hinner := ih (x :: scope) (List.forall_mem_cons.mp hfree).2
    rw [List.map_cons] at hinner
    simp only [expand_lam, terms, List.map_cons, List.map_nil, Term.map, Term.map_ofSpine,
      Term.replace_lam hclosed, Term.replace_ofSpine, hinner]

/-- Expanding a phrase replaces names in its λ-term. -/
theorem term_expand [DecidableEq μ] {g : μ → κ} {value : ν → Term κ} (hown : Function.Injective own)
    (hfresh : ∀ x inner, body x = some inner → ∀ y, own y ∉ inner.names)
    (hclosed : ∀ x, (value x).Closed)
    (hvalue : ∀ x inner, body x = some inner → value x = (inner.term []).map g) {phrase : Phrase ν}
    (hfree : ∀ x ∈ phrase.names, body x = none → value x = .free (g (own x))) :
    ((phrase.expand own body []).term []).map g = (phrase.term []).replace value := by
  rw [term, term, Term.map_ofSpine, Term.replace_ofSpine]
  exact congrArg Term.ofSpine (terms_expand hown hfresh hclosed hvalue [] hfree)

end Phrase

end LambdaCalc
