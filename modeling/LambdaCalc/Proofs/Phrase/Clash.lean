import LambdaCalc.Proofs.Phrase.Names

set_option autoImplicit false

/-! # Changing the names in a phrase

When the names of a phrase are changed, different names may become one. This is harmless unless they
clash (`Phrase.Clash`): one of them is bound inside the scope of the other, or one is bound and the
other is free. A well-named phrase without a clash is still well-named after the change and has the
same λ-term (`wellNamed_map`, `term_map`); after a clash one of the two is lost
(`wellNamed_and_term_eq_iff`). -/

namespace LambdaCalc

namespace Term

variable {ν μ κ : Type}

/-- Changing free names twice. -/
theorem map_map (term : Term ν) (f : ν → μ) (g : μ → κ) :
    (term.map f).map g = term.map (g ∘ f) := by
  induction term with
  | var _ | free _ | void => rfl
  | app function argument ihf iha => simp only [map, ihf, iha]
  | lam body ih => simp only [map, ih]

theorem map_apply (function : Term ν) (arguments : List (Term ν)) (f : ν → μ) :
    (function.apply arguments).map f = (function.map f).apply (arguments.map (Term.map f)) := by
  induction arguments generalizing function with
  | nil => rfl
  | cons argument arguments ih => exact ih _

theorem map_ofSpine (spine : List (Term ν)) (f : ν → μ) :
    (ofSpine spine).map f = ofSpine (spine.map (Term.map f)) := by
  cases spine with
  | nil => rfl
  | cons head arguments => exact map_apply head arguments f

/-- An application to as many arguments determines its function and its arguments. -/
theorem apply_inj {f g : Term ν} {as bs : List (Term ν)} (hlength : as.length = bs.length)
    (h : f.apply as = g.apply bs) : f = g ∧ as = bs := by
  induction as generalizing f g bs with
  | nil =>
    obtain rfl := List.eq_nil_of_length_eq_zero hlength.symm
    exact ⟨h, rfl⟩
  | cons a as ih =>
    cases bs with
    | nil => cases hlength
    | cons b bs =>
      obtain ⟨happ, hrest⟩ := ih (Nat.succ.inj hlength) h
      obtain ⟨hf, hfirst⟩ := Term.app.inj happ
      exact ⟨hf, by rw [hfirst, hrest]⟩

theorem ofSpine_inj {as bs : List (Term ν)} (hlength : as.length = bs.length)
    (h : ofSpine as = ofSpine bs) : as = bs := by
  match as, bs with
  | [], [] => rfl
  | a :: as, b :: bs =>
    obtain ⟨hhead, hrest⟩ := apply_inj (Nat.succ.inj hlength) h
    rw [hhead, hrest]

end Term

namespace Phrase

variable {ν μ κ : Type}

section

variable [DecidableEq ν] [DecidableEq μ]

@[simp] theorem length_terms_map (f : ν → μ) (scope : List ν) (scope' : List μ)
    (phrase : Phrase ν) : ((phrase.map f).terms scope').length = (phrase.terms scope).length := by
  induction phrase with
  | done | lam _ _ => rfl
  | name _ rest ih => simp only [map, terms, List.length_cons, ih]
  | group _ rest _ ih => simp only [map, terms, List.length_cons, ih]

omit [DecidableEq μ] in
theorem terms_map_congr {f g : ν → μ} (scope : List ν) {phrase : Phrase ν}
    (h : ∀ x ∈ phrase.names, f x = g x) :
    (phrase.terms scope).map (Term.map f) = (phrase.terms scope).map (Term.map g) := by
  induction phrase generalizing scope with
  | done => rfl
  | name x rest ih =>
    obtain ⟨hx, hrest⟩ := List.forall_mem_cons.mp h
    have hresolve : (resolve scope x).map f = (resolve scope x).map g := by
      unfold resolve
      split
      · rfl
      · exact congrArg Term.free hx
    rw [terms, List.map_cons, List.map_cons, hresolve, ih scope hrest]
  | group inner rest ihi ihr =>
    obtain ⟨hinner, hrest⟩ := List.forall_mem_append.mp h
    simp only [terms, List.map_cons, Term.map_ofSpine, ihi scope hinner, ihr scope hrest]
  | lam x body ih =>
    simp only [terms, List.map_cons, List.map_nil, Term.map, Term.map_ofSpine,
      ih (x :: scope) (List.forall_mem_cons.mp h).2]

omit [DecidableEq μ] in
/-- The free names of the λ-term of a phrase are written in it. -/
theorem term_map_congr {f g : ν → μ} {phrase : Phrase ν} (h : ∀ x ∈ phrase.names, f x = g x) :
    (phrase.term []).map f = (phrase.term []).map g := by
  rw [term, Term.map_ofSpine, Term.map_ofSpine, terms_map_congr [] h]

/-! ## Changes that keep the λ-term -/

/-- Different names stay different in a scope. -/
def Separates (f : ν → μ) (scope : List ν) : Prop :=
  ∀ x ∈ scope, ∀ y ∈ scope, f x = f y → x = y

theorem idxOf_map {f : ν → μ} {scope : List ν} (h : Separates f scope) {x : ν} (hx : x ∈ scope) :
    (scope.map f).idxOf (f x) = scope.idxOf x := by
  induction scope with
  | nil => cases hx
  | cons y scope ih =>
    rw [List.map_cons, List.idxOf_cons, List.idxOf_cons]
    by_cases hxy : y = x
    · simp [hxy]
    · have hne : f y ≠ f x := fun heq => hxy (h y List.mem_cons_self x hx heq)
      have hmem : x ∈ scope := (List.mem_cons.mp hx).resolve_left (Ne.symm hxy)
      have hrest : Separates f scope := fun a ha b hb =>
        h a (List.mem_cons_of_mem _ ha) b (List.mem_cons_of_mem _ hb)
      have hf : (f y == f x) = false := beq_false_of_ne hne
      have hy : (y == x) = false := beq_false_of_ne hxy
      rw [hf, hy, cond_false, cond_false, ih hrest hmem]

end

variable [DecidableEq ν]

/-- What a change must not do to the names of a phrase among those around it. -/
structure Harmless (f : ν → μ) (scope : List ν) (phrase : Phrase ν) : Prop where
  separates : Separates f scope
  nestings_ne : ∀ pair ∈ phrase.nestings scope, f pair.1 ≠ f pair.2
  free_ne : ∀ y ∈ phrase.free scope, ∀ x ∈ scope ++ phrase.binders, f x ≠ f y

theorem Harmless.name {f : ν → μ} {scope : List ν} {x : ν} {rest : Phrase ν}
    (h : Harmless f scope (.name x rest)) : Harmless f scope rest := by
  refine ⟨h.separates, h.nestings_ne, fun y hy => h.free_ne y ?_⟩
  rw [free]
  split
  · exact hy
  · exact List.mem_cons_of_mem _ hy

theorem Harmless.inner {f : ν → μ} {scope : List ν} {inner rest : Phrase ν}
    (h : Harmless f scope (.group inner rest)) : Harmless f scope inner := by
  refine ⟨h.separates, fun pair hpair => h.nestings_ne pair (List.mem_append_left _ hpair),
    fun y hy x hx => h.free_ne y (List.mem_append_left _ hy) x ?_⟩
  rw [binders, ← List.append_assoc]
  exact List.mem_append_left _ hx

theorem Harmless.rest {f : ν → μ} {scope : List ν} {inner rest : Phrase ν}
    (h : Harmless f scope (.group inner rest)) : Harmless f scope rest := by
  refine ⟨h.separates, fun pair hpair => h.nestings_ne pair (List.mem_append_right _ hpair),
    fun y hy x hx => h.free_ne y (List.mem_append_right _ hy) x ?_⟩
  rw [binders]
  rcases List.mem_append.mp hx with hscope | hbinder
  · exact List.mem_append_left _ hscope
  · exact List.mem_append_right _ (List.mem_append_right _ hbinder)

theorem Harmless.body {f : ν → μ} {scope : List ν} {x : ν} {body : Phrase ν}
    (h : Harmless f scope (.lam x body)) : Harmless f (x :: scope) body := by
  -- A name that is bound here differs from those around it, which keeps the larger scope apart.
  have hne : ∀ y ∈ scope, f y ≠ f x := fun y hy =>
    h.nestings_ne (y, x) (List.mem_append_left _ (List.mem_map.mpr ⟨y, hy, rfl⟩))
  refine ⟨?_, fun pair hpair => h.nestings_ne pair (List.mem_append_right _ hpair),
    fun y hy z hz => h.free_ne y hy z ?_⟩
  · intro a ha b hb heq
    rcases List.mem_cons.mp ha with hax | ha <;> rcases List.mem_cons.mp hb with hbx | hb
    · rw [hax, hbx]
    · exact absurd (hax ▸ heq.symm) (hne b hb)
    · exact absurd (hbx ▸ heq) (hne a ha)
    · exact h.separates a ha b hb heq
  · rw [binders]
    rcases List.mem_append.mp hz with hz | hz
    · rcases List.mem_cons.mp hz with rfl | hz
      · exact List.mem_append_right _ List.mem_cons_self
      · exact List.mem_append_left _ hz
    · exact List.mem_append_right _ (List.mem_cons_of_mem _ hz)

section

variable [DecidableEq μ]

/-- A harmless change keeps every address, and changes the free names one by one. -/
theorem Harmless.terms_map {f : ν → μ} {scope : List ν} {phrase : Phrase ν}
    (h : Harmless f scope phrase) :
    (phrase.map f).terms (scope.map f) = (phrase.terms scope).map (Term.map f)
      ∧ (phrase.map f).free (scope.map f) = (phrase.free scope).map f := by
  induction phrase generalizing scope with
  | done => exact ⟨rfl, rfl⟩
  | name x rest ih =>
    obtain ⟨hterms, hfree⟩ := ih h.name
    have hscope : f x ∈ scope.map f ↔ x ∈ scope := by
      refine ⟨?_, fun hmem => List.mem_map.mpr ⟨x, hmem, rfl⟩⟩
      intro hmem
      by_contra hx
      obtain ⟨y, hy, heq⟩ := List.mem_map.mp hmem
      refine h.free_ne x ?_ y (List.mem_append_left _ hy) heq
      rw [free, if_neg hx]
      exact List.mem_cons_self
    simp only [map, terms, free, resolve, hscope, hterms, hfree, List.map_cons]
    by_cases hx : x ∈ scope
    · simp only [if_pos hx, idxOf_map h.separates hx, Term.map, and_self]
    · simp only [if_neg hx, Term.map, List.map_cons, and_self]
  | group inner rest ihi ihr =>
    obtain ⟨hterms, hfree⟩ := ihi h.inner
    obtain ⟨hterms', hfree'⟩ := ihr h.rest
    simp only [map, terms, free, hterms, hfree, hterms', hfree', List.map_cons, List.map_append,
      Term.map_ofSpine, and_self]
  | lam x body ih =>
    obtain ⟨hterms, hfree⟩ := ih h.body
    rw [List.map_cons] at hterms hfree
    simp only [map, terms, free, hterms, hfree, List.map_cons, List.map_nil, Term.map,
      Term.map_ofSpine, and_self]

end

/-! ## Clashes -/

/-- Two names become one of which one is bound inside the scope of the other, or one is bound and
    the other is free. -/
def Clash (f : ν → μ) (phrase : Phrase ν) : Prop :=
  (∃ pair ∈ phrase.nestings [], f pair.1 = f pair.2)
    ∨ ∃ x ∈ phrase.binders, ∃ y ∈ phrase.free [], f x = f y

theorem harmless_of_not_clash {f : ν → μ} {phrase : Phrase ν} (h : ¬ phrase.Clash f) :
    Harmless f [] phrase where
  separates := nofun
  nestings_ne pair hpair heq := h (Or.inl ⟨pair, hpair, heq⟩)
  free_ne y hy x hx heq := h (Or.inr ⟨x, hx, y, hy, heq⟩)

variable [DecidableEq μ]

theorem wellNamed_map {f : ν → μ} {phrase : Phrase ν} (h : ¬ phrase.Clash f) :
    (phrase.map f).WellNamed := by
  have hfree := (harmless_of_not_clash h).terms_map.2
  have hnestings := nestings_map f [] phrase
  rw [List.map_nil] at hfree hnestings
  constructor
  · rw [hnestings]
    exact List.forall_mem_map.mpr (harmless_of_not_clash h).nestings_ne
  · rw [binders_map, hfree]
    intro z hz hz'
    obtain ⟨x, hx, rfl⟩ := List.mem_map.mp hz
    obtain ⟨y, hy, heq⟩ := List.mem_map.mp hz'
    exact h (Or.inr ⟨x, hx, y, hy, heq.symm⟩)

theorem term_map {f : ν → μ} {phrase : Phrase ν} (h : ¬ phrase.Clash f) :
    (phrase.map f).term [] = (phrase.term []).map f := by
  have hterms := (harmless_of_not_clash h).terms_map.1
  rw [List.map_nil] at hterms
  rw [term, term, hterms, Term.map_ofSpine]

/-- If the λ-term keeps its addresses, no free name has been captured. -/
theorem mem_free_map {f : ν → μ} {g : μ → κ} (scope : List ν) {phrase : Phrase ν}
    (h : ((phrase.map f).terms (scope.map f)).map (Term.map g)
      = (phrase.terms scope).map (Term.map (g ∘ f))) :
    ∀ y ∈ phrase.free scope, f y ∈ (phrase.map f).free (scope.map f) := by
  induction phrase generalizing scope with
  | done => nofun
  | name x rest ih =>
    simp only [map, terms, List.map_cons, List.cons.injEq] at h
    obtain ⟨hresolve, hrest⟩ := h
    intro y hy
    rw [free] at hy
    rw [map, free]
    by_cases hx : x ∈ scope
    · rw [if_pos hx] at hy
      rw [if_pos (List.mem_map.mpr ⟨x, hx, rfl⟩)]
      exact ih scope hrest y hy
    · have hfx : f x ∉ scope.map f := by
        intro hmem
        rw [resolve, resolve, if_pos hmem, if_neg hx] at hresolve
        cases hresolve
      rw [if_neg hx] at hy
      rw [if_neg hfx]
      rcases List.mem_cons.mp hy with rfl | hy
      · exact List.mem_cons_self
      · exact List.mem_cons_of_mem _ (ih scope hrest y hy)
  | group inner rest ihi ihr =>
    simp only [map, terms, List.map_cons, List.cons.injEq, Term.map_ofSpine] at h
    have hinner := Term.ofSpine_inj (by simp only [List.length_map, length_terms_map f scope]) h.1
    intro y hy
    rcases List.mem_append.mp hy with hy | hy
    · exact List.mem_append_left _ (ihi scope hinner y hy)
    · exact List.mem_append_right _ (ihr scope h.2 y hy)
  | lam x body ih =>
    simp only [map, terms, List.map_cons, List.map_nil, List.cons.injEq, and_true, Term.map,
      Term.lam.injEq, Term.map_ofSpine] at h
    have hlength := length_terms_map f (x :: scope) ((x :: scope).map f) body
    exact ih _ (Term.ofSpine_inj (by simpa only [List.length_map] using hlength) h)

/-- Of a phrase in which two names clash the change loses the good names or the λ-term, even if the
    free names of the λ-terms are compared only after a further change. -/
theorem wellNamed_and_term_eq_iff {f : ν → μ} {g : μ → κ} {phrase : Phrase ν} :
    (phrase.map f).WellNamed ∧ ((phrase.map f).term []).map g = (phrase.term []).map (g ∘ f)
      ↔ ¬ phrase.Clash f := by
  constructor
  · rintro ⟨hnamed, hterm⟩ (⟨pair, hpair, heq⟩ | ⟨x, hx, y, hy, heq⟩)
    · have hnestings := nestings_map f [] phrase
      rw [List.map_nil] at hnestings
      refine hnamed.nestings_ne (f pair.1, f pair.2) ?_ heq
      rw [hnestings]
      exact List.mem_map.mpr ⟨pair, hpair, rfl⟩
    · rw [term, term, Term.map_ofSpine, Term.map_ofSpine] at hterm
      have hterms := Term.ofSpine_inj (by simp only [List.length_map, length_terms_map f []]) hterm
      refine hnamed.binders_not_free (f x) ?_ ?_
      · rw [binders_map]
        exact List.mem_map.mpr ⟨x, hx, rfl⟩
      · rw [heq]
        exact mem_free_map [] hterms y hy
  · intro h
    exact ⟨wellNamed_map h, by rw [term_map h, Term.map_map]⟩

/-! ## Changes that keep names apart -/

omit [DecidableEq μ] in
/-- If different names stay different, none clash in a well-named phrase. -/
theorem WellNamed.not_clash {f : ν → μ} {phrase : Phrase ν} (h : phrase.WellNamed)
    (hf : Separates f phrase.names) : ¬ phrase.Clash f := by
  rintro (⟨pair, hpair, heq⟩ | ⟨x, hx, y, hy, heq⟩)
  · obtain ⟨hfirst, hsecond⟩ := mem_names_of_mem_nestings hpair
    exact h.nestings_ne pair hpair (hf _ (hfirst.resolve_left List.not_mem_nil) _ hsecond heq)
  · have hxy := hf x (binders_subset_names phrase hx) y (free_subset_names [] phrase hy) heq
    exact h.binders_not_free x hx (hxy ▸ hy)

/-- Keeping names apart neither loses nor makes good names. -/
theorem wellNamed_map_iff {f : ν → μ} {g : μ → ν} {phrase : Phrase ν}
    (h : ∀ x ∈ phrase.names, g (f x) = x) : (phrase.map f).WellNamed ↔ phrase.WellNamed := by
  have hf : Separates f phrase.names := fun x hx y hy heq => by rw [← h x hx, heq, h y hy]
  have hg : Separates g (phrase.map f).names := by
    rw [names_map]
    intro a ha b hb heq
    obtain ⟨x, hx, rfl⟩ := List.mem_map.mp ha
    obtain ⟨y, hy, rfl⟩ := List.mem_map.mp hb
    rw [← h x hx, heq, h y hy]
  constructor
  · intro hnamed
    have hback := wellNamed_map (hnamed.not_clash hg)
    have hself : phrase.map (g ∘ f) = phrase := map_eq_self h
    rwa [map_map, hself] at hback
  · exact fun hnamed => wellNamed_map (hnamed.not_clash hf)

end Phrase

end LambdaCalc
