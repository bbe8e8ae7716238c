import LambdaCalc.Proofs.Layout.Outline

set_option autoImplicit false

/-! # The phrase of a layout

The text of a layout is that of a phrase (`Layout.phrase`): nested abstractions are groups, and so
are the elements of an abstraction that binds names, if there are several. The phrase of a clear
layout is well-named (`Layout.Clear.wellNamed_phrase`), and read by lexical scoping it has the
λ-term of the tree that the layout is of (`Printer.term_phrase`). -/

namespace LambdaCalc

namespace Term

variable {ν μ : Type}

theorem map_lams (count : Nat) (body : Term ν) (f : ν → μ) :
    (lams count body).map f = lams count (body.map f) := by
  induction count with
  | zero => rfl
  | succ count ih => exact congrArg lam ih

end Term

/-! ## Binding names and grouping -/

namespace Phrase

variable {ν μ : Type}

/-- Names bound one after the other, up to the end of a phrase. -/
def lams (names : List ν) (body : Phrase ν) : Phrase ν := names.foldr lam body

/-- A phrase in parentheses, or as it is. -/
def grouped (parentheses : Bool) (phrase : Phrase ν) : Phrase ν :=
  if parentheses then group phrase done else phrase

section

variable [DecidableEq ν]

theorem term_lams (names scope : List ν) (body : Phrase ν) :
    (lams names body).term scope = .lams names.length (body.term (names.reverse ++ scope)) := by
  induction names generalizing scope with
  | nil => rfl
  | cons name names ih =>
    have hbody : (lams (name :: names) body).term scope
        = .lam ((lams names body).term (name :: scope)) := rfl
    rw [hbody, ih, List.reverse_cons, List.append_assoc]
    rfl

theorem term_grouped (parentheses : Bool) (scope : List ν) (phrase : Phrase ν) :
    (phrase.grouped parentheses).term scope = phrase.term scope := by
  cases parentheses <;> rfl

theorem free_lams (names scope : List ν) (body : Phrase ν) :
    (lams names body).free scope = body.free (names.reverse ++ scope) := by
  induction names generalizing scope with
  | nil => rfl
  | cons name names ih =>
    have hbody : (lams (name :: names) body).free scope
        = (lams names body).free (name :: scope) := rfl
    rw [hbody, ih, List.reverse_cons, List.append_assoc]
    rfl

theorem free_grouped (parentheses : Bool) (scope : List ν) (phrase : Phrase ν) :
    (phrase.grouped parentheses).free scope = phrase.free scope := by
  cases parentheses with
  | false => rfl
  | true => exact List.append_nil _

end

theorem binders_lams (names : List ν) (body : Phrase ν) :
    (lams names body).binders = names ++ body.binders := by
  induction names with
  | nil => rfl
  | cons name names ih => exact congrArg (name :: ·) ih

theorem binders_grouped (parentheses : Bool) (phrase : Phrase ν) :
    (phrase.grouped parentheses).binders = phrase.binders := by
  cases parentheses with
  | false => rfl
  | true => exact List.append_nil _

/-- If all names in scope are different in the end, those that have been bound are. -/
theorem mem_nestings_lams {names scope : List ν} (hnodup : (names.reverse ++ scope).Nodup)
    {body : Phrase ν} {pair : ν × ν} (h : pair ∈ (lams names body).nestings scope) :
    pair.1 ≠ pair.2 ∨ pair ∈ body.nestings (names.reverse ++ scope) := by
  induction names generalizing scope with
  | nil => exact Or.inr h
  | cons name names ih =>
    have hscope : (name :: names).reverse ++ scope = names.reverse ++ name :: scope := by
      rw [List.reverse_cons, List.append_assoc]
      rfl
    rw [hscope] at hnodup ⊢
    rcases List.mem_append.mp h with h | h
    · obtain ⟨outer, houter, rfl⟩ := List.mem_map.mp h
      have hcons := (List.nodup_append.mp hnodup).2.1
      refine Or.inl fun heq => (List.nodup_cons.mp hcons).1 ?_
      exact (show outer = name from heq) ▸ houter
    · exact ih hnodup h

theorem nestings_grouped (parentheses : Bool) (scope : List ν) (phrase : Phrase ν) :
    (phrase.grouped parentheses).nestings scope = phrase.nestings scope := by
  cases parentheses with
  | false => rfl
  | true => exact List.append_nil _

theorem map_lams (f : ν → μ) (names : List ν) (body : Phrase ν) :
    (lams names body).map f = lams (names.map f) (body.map f) := by
  induction names with
  | nil => rfl
  | cons name names ih => exact congrArg (lam (f name)) ih

theorem map_grouped (f : ν → μ) (parentheses : Bool) (phrase : Phrase ν) :
    (phrase.grouped parentheses).map f = (phrase.map f).grouped parentheses := by
  cases parentheses <;> rfl

end Phrase

/-! ## The phrase of a layout -/

namespace Layout

variable {α β : Type}

/-- The parentheses around the elements of an abstraction. -/
def parentheses (binders : List α) (elements : List (Layout β)) : Bool :=
  !binders.isEmpty && 1 < elements.length

mutual

/-- The phrase of an element in front of the others. -/
def before (rest : Phrase α) : Layout α → Phrase α
  | .abs binders elements =>
      .group (.lams binders ((phraseList elements).grouped (parentheses binders elements))) rest
  | .bound _ _ name | .free name => .name name rest

/-- The phrase of the elements of an abstraction. -/
def phraseList : List (Layout α) → Phrase α
  | [] => .done
  | element :: elements => element.before (phraseList elements)

end

/-- The phrase of a layout, without parentheses around it. -/
def phrase : Layout α → Phrase α
  | .abs binders elements =>
      .lams binders ((phraseList elements).grouped (parentheses binders elements))
  | .bound _ _ name | .free name => .name name .done

theorem before_abs (rest : Phrase α) (binders : List α) (elements : List (Layout α)) :
    (Layout.abs binders elements).before rest = .group (Layout.abs binders elements).phrase rest :=
  rfl

theorem phrase_map (f : α → β) (layout : Layout α) :
    (layout.map f).phrase = layout.phrase.map f := by
  have hbefore (layout : Layout α) : ∀ rest : Phrase α,
      (layout.map f).before (rest.map f) = (layout.before rest).map f := by
    induction layout with
    | abs binders elements ih =>
      intro rest
      have hlist : phraseList (mapList f elements) = (phraseList elements).map f := by
        induction elements with
        | nil => rfl
        | cons element elements ihs =>
          obtain ⟨helement, helements⟩ := List.forall_mem_cons.mp ih
          rw [mapList, phraseList, phraseList, ihs helements, helement]
      have hparentheses : parentheses (binders.map f) (mapList f elements)
          = parentheses binders elements := by
        rw [parentheses, parentheses, mapList_eq_map, List.length_map, List.isEmpty_map]
      rw [before_abs, map, before_abs, phrase, phrase, hlist, hparentheses, Phrase.map,
        Phrase.map_lams, Phrase.map_grouped]
    | bound _ _ _ | free _ => exact fun _ => rfl
  cases layout with
  | abs binders elements =>
    have h := hbefore (.abs binders elements) .done
    rw [map, before_abs] at h
    exact (Phrase.group.inj h).1
  | bound _ _ _ | free _ => rfl

section

variable [DecidableEq α]

theorem terms_before (layout : Layout α) (rest : Phrase α) (scope : List α) :
    (layout.before rest).terms scope = layout.phrase.term scope :: rest.terms scope := by
  cases layout <;> rfl

theorem terms_phraseList (elements : List (Layout α)) (scope : List α) :
    (phraseList elements).terms scope = elements.map fun element => element.phrase.term scope := by
  induction elements with
  | nil => rfl
  | cons element elements ih => rw [phraseList, terms_before, ih, List.map_cons]

theorem term_phrase_abs (binders : List α) (elements : List (Layout α)) (scope : List α) :
    (Layout.abs binders elements).phrase.term scope
      = .lams binders.length (.ofSpine (elements.map fun element =>
          element.phrase.term (binders.reverse ++ scope))) := by
  rw [phrase, Phrase.term_lams, Phrase.term_grouped, Phrase.term, terms_phraseList]

theorem free_phraseList (elements : List (Layout α)) (scope : List α) :
    (phraseList elements).free scope
      = elements.flatMap fun element => element.phrase.free scope := by
  induction elements with
  | nil => rfl
  | cons element elements ih =>
    have hbefore (rest : Phrase α) :
        (element.before rest).free scope = element.phrase.free scope ++ rest.free scope := by
      cases element with
      | abs _ _ => rfl
      | bound _ _ name | free name =>
        simp only [before, phrase, Phrase.free]
        split <;> rfl
    rw [phraseList, hbefore, ih, List.flatMap_cons]

end

theorem binders_phraseList (elements : List (Layout α)) :
    (phraseList elements).binders = elements.flatMap fun element => element.phrase.binders := by
  induction elements with
  | nil => rfl
  | cons element elements ih =>
    have hbefore (rest : Phrase α) :
        (element.before rest).binders = element.phrase.binders ++ rest.binders := by
      cases element <;> rfl
    rw [phraseList, hbefore, ih, List.flatMap_cons]

theorem nestings_phraseList (elements : List (Layout α)) (scope : List α) :
    (phraseList elements).nestings scope
      = elements.flatMap fun element => element.phrase.nestings scope := by
  induction elements with
  | nil => rfl
  | cons element elements ih =>
    have hbefore (rest : Phrase α) :
        (element.before rest).nestings scope
          = element.phrase.nestings scope ++ rest.nestings scope := by
      cases element <;> rfl
    rw [phraseList, hbefore, ih, List.flatMap_cons]

/-- The names that are bound in the phrase are those of the parameters. -/
theorem binders_phrase (layout : Layout α) : layout.phrase.binders = layout.binders := by
  induction layout with
  | abs binders elements ih =>
    rw [phrase, Phrase.binders_lams, Phrase.binders_grouped, binders_phraseList, Layout.binders,
      bindersList_eq_flatMap]
    exact congrArg _ (List.flatMap_congr ih)
  | bound _ _ _ | free _ => rfl

/-! ## Clear layouts -/

variable [DecidableEq α] {free : List α}

/-- The names that are free in the phrase of a clear layout are those of free variables, since every
    other one is in scope. -/
theorem Clear.free_phrase {scopes : Scopes α} {layout : Layout α} (h : layout.Clear free scopes) :
    layout.phrase.free scopes.entries ⊆ layout.frees := by
  induction layout generalizing scopes with
  | abs binders elements ih =>
    obtain ⟨_, _, helements⟩ := clear_abs.mp h
    rw [phrase, Phrase.free_lams, Phrase.free_grouped, ← Scopes.entries_push, free_phraseList,
      frees, freesList_eq_flatMap]
    intro name hname
    obtain ⟨element, hmem, hname⟩ := List.mem_flatMap.mp hname
    exact List.mem_flatMap.mpr ⟨element, hmem, ih element hmem (helements element hmem) hname⟩
  | bound depth position name =>
    rw [phrase, Phrase.free, if_pos (Scopes.mem_entries_of_resolve h)]
    exact List.nil_subset _
  | free name =>
    rw [phrase, Phrase.free]
    split
    · exact List.nil_subset _
    · exact List.Subset.refl _

omit [DecidableEq α] in
theorem Clear.nestings_ne {scopes : Scopes α} {layout : Layout α} (h : layout.Clear free scopes) :
    ∀ pair ∈ layout.phrase.nestings scopes.entries, pair.1 ≠ pair.2 := by
  induction layout generalizing scopes with
  | abs binders elements ih =>
    obtain ⟨hnodup, _, helements⟩ := clear_abs.mp h
    rw [Scopes.entries_push] at hnodup
    intro pair hpair
    rcases Phrase.mem_nestings_lams hnodup hpair with hne | hpair
    · exact hne
    · rw [Phrase.nestings_grouped, ← Scopes.entries_push, nestings_phraseList] at hpair
      obtain ⟨element, hmem, hpair⟩ := List.mem_flatMap.mp hpair
      exact ih element hmem (helements element hmem) pair hpair
  | bound _ _ _ | free _ => exact nofun

/-- The phrase of a clear layout is well-named. -/
theorem Clear.wellNamed_phrase {layout : Layout α} (h : layout.Clear free {}) :
    layout.phrase.WellNamed where
  nestings_ne := h.nestings_ne
  binders_not_free name hbinder hfree := by
    rw [binders_phrase] at hbinder
    exact h.binders_not_mem name hbinder (h.frees_subset (h.free_phrase hfree))

/-- All names in the phrase of a clear layout are those of parameters and of free variables. -/
theorem Clear.names_phrase {layout : Layout α} (h : layout.Clear free {}) :
    layout.phrase.names ⊆ layout.binders ++ layout.frees := by
  intro name hname
  rcases @Phrase.mem_names_cases _ _ [] _ _ hname with hscope | hbinder | hfree
  · cases hscope
  · exact List.mem_append_left _ (binders_phrase layout ▸ hbinder)
  · exact List.mem_append_right _ (h.free_phrase hfree)

end Layout

/-! ## The λ-term of an outline -/

namespace Printer

variable {names : NameTable}

/-- Read by lexical scoping, the phrase of the outline of a tree has the λ-term of the tree: by
    induction on the tree. -/
theorem term_phrase {free : List Label} {node : Node} {scopes : Scopes Label} {counts : List Nat}
    {layout : Layout Label} (hclear : layout.Clear free scopes) (hnodup : scopes.entries.Nodup)
    (hfree : ∀ label ∈ scopes.entries, label ∉ free)
    (h : outline names scopes counts node = .ok layout) :
    layout.phrase.term scopes.entries
      = (node.term scopes.counts).map fun id => .bare (names.canonical id) := by
  induction node generalizing scopes counts layout with
  | abs params spine ih =>
    obtain ⟨made, counts', elements, hmade, helements, rfl⟩ := outline_abs_eq_ok_iff.mp h
    obtain ⟨hnodup', hnot, hclears⟩ := Layout.clear_abs.mp hclear
    have hfree' : ∀ label ∈ (scopes.push made).entries, label ∉ free := by
      rw [Scopes.entries_push]
      exact List.forall_mem_append.mpr
        ⟨fun label hmem => hnot label (List.mem_reverse.mp hmem), hfree⟩
    have hterms : elements.map (fun element => element.phrase.term (scopes.push made).entries)
        = spine.map fun node => (node.term (scopes.push made).counts).map fun id =>
            .bare (names.canonical id) := by
      refine map_eq_of_outlines helements fun node hmem element helement houtline => ?_
      exact ih node hmem (hclears element helement) hnodup' hfree' houtline
    rw [Layout.term_phrase_abs, ← Scopes.entries_push, hterms, Node.term_abs, Term.map_lams,
      Term.map_ofSpine, List.map_map, Scopes.counts_push, (length_of_labels hmade).1]
    rfl
  | bound depth position =>
    obtain ⟨label, hlabel, ⟨⟩⟩ := Outcome.bind_eq_ok.mp h
    obtain ⟨index, hindex, hentry⟩ := Scopes.resolve_eq_ok_iff.mp hlabel
    obtain ⟨hlt, rfl⟩ := List.getElem?_eq_some_iff.mp hentry
    have hresolve : Phrase.resolve scopes.entries scopes.entries[index] = .var index := by
      rw [Phrase.resolve, if_pos (List.getElem_mem hlt), hnodup.idxOf_getElem]
    rw [Node.term_bound hindex]
    exact hresolve
  | free name =>
    cases h
    exact Phrase.resolve_of_not_mem fun hmem => hfree _ hmem hclear
  | hole => cases h

end Printer

end LambdaCalc
