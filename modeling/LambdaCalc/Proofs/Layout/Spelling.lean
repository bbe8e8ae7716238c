import LambdaCalc.Proofs.Layout.Outline

set_option autoImplicit false

/-! # How labels are spelled

A label without a suffix is spelled like its name, and any other one like its name with the suffix
behind an underscore. That may be how another name is spelled (`Label.Mimics`); apart from this,
different labels are spelled differently (`Label.shown_ne_iff`). -/

namespace LambdaCalc

/-! ## Names with a suffix -/

/-- What comes before the first occurrence of a character, and what comes behind it. -/
theorem append_cons_inj {c : Char} {before before' after after' : List Char} (h : c ∉ before)
    (h' : c ∉ before') (heq : before ++ c :: after = before' ++ c :: after') :
    before = before' ∧ after = after' := by
  induction before generalizing before' with
  | nil =>
    cases before' with
    | nil => exact ⟨rfl, (List.cons.inj heq).2⟩
    | cons first before' => exact absurd ((List.cons.inj heq).1 ▸ List.mem_cons_self) h'
  | cons first before ih =>
    cases before' with
    | nil => exact absurd ((List.cons.inj heq).1 ▸ List.mem_cons_self) h
    | cons first' before' =>
      obtain ⟨hfirst, hrest⟩ := List.cons.inj heq
      obtain ⟨hbefore, hafter⟩ :=
        ih (mt (List.mem_cons_of_mem _) h) (mt (List.mem_cons_of_mem _) h') hrest
      exact ⟨by rw [hfirst, hbefore], hafter⟩

namespace Printer

theorem toList_suffixed (spelling : String) (suffix : Nat) :
    (suffixed spelling suffix).toList = spelling.toList ++ '_' :: Nat.toDigits 10 suffix := by
  have hself (text : String) : toString text = text := rfl
  simp [suffixed, hself]

/-- The last underscore tells the name from the suffix. -/
theorem suffixed_inj {spelling other : String} {suffix otherSuffix : Nat}
    (h : suffixed spelling suffix = suffixed other otherSuffix) :
    spelling = other ∧ suffix = otherSuffix := by
  have hlist := congrArg (fun text : String => text.toList.reverse) h
  simp only [toList_suffixed, List.reverse_append, List.reverse_cons, List.append_assoc,
    List.singleton_append] at hlist
  have hdigits (n : Nat) : '_' ∉ (Nat.toDigits 10 n).reverse :=
    mt List.mem_reverse.mp Nat.underscore_not_in_toDigits
  obtain ⟨hsuffix, hspelling⟩ := append_cons_inj (hdigits suffix) (hdigits otherSuffix) hlist
  refine ⟨String.toList_inj.mp (List.reverse_injective hspelling), Nat.repr_injective ?_⟩
  rw [Nat.repr_eq_ofList_toDigits, Nat.repr_eq_ofList_toDigits, List.reverse_injective hsuffix]

/-! ## Labels that are spelled alike -/

namespace Label

variable {names : NameTable} {a b : Label}

/-- A name that has been made up by a suffix is spelled like another name. -/
def Mimics (names : NameTable) (a b : Label) : Prop :=
  a.suffix ≠ 0 ∧ b.suffix = 0
    ∧ names.spellings.getD b.name "" = suffixed (names.spellings.getD a.name "") a.suffix

/-- The name of a label is one that another name is shown as. -/
def Listed (names : NameTable) (label : Label) : Prop :=
  ∃ id < names.size, names.canonical id = label.name

theorem Listed.lt (hlegible : names.Legible) (h : a.Listed names) : a.name < names.size := by
  obtain ⟨id, hid, heq⟩ := h
  obtain ⟨_, hspelling, _⟩ := hlegible.exists_spelling hid
  exact heq ▸ lt_of_spelling hspelling

theorem Listed.name_eq (hlegible : names.Legible) (h : a.Listed names) (h' : b.Listed names)
    (heq : names.spellings.getD a.name "" = names.spellings.getD b.name "") : a.name = b.name := by
  have hspelling := spelling_of_lt (h.lt hlegible)
  rw [heq, ← spelling_of_lt (h'.lt hlegible)] at hspelling
  obtain ⟨id, hid, hname⟩ := h
  obtain ⟨id', hid', hname'⟩ := h'
  rw [← hname, ← hname'] at hspelling ⊢
  exact hlegible.canonical_eq hid hid' hspelling

theorem shown_of_suffix_eq_zero (h : a.suffix = 0) :
    a.shown names = names.spellings.getD a.name "" :=
  if_pos h

theorem shown_of_suffix_ne_zero (h : a.suffix ≠ 0) :
    a.shown names = suffixed (names.spellings.getD a.name "") a.suffix :=
  if_neg h

/-- Different labels are spelled alike exactly if one of them mimics the other. -/
theorem shown_ne_iff (hlegible : names.Legible) (ha : a.Listed names) (hb : b.Listed names)
    (hne : a ≠ b) :
    a.shown names ≠ b.shown names ↔ ¬ a.Mimics names b ∧ ¬ b.Mimics names a := by
  have hlabel (hname : a.name = b.name) (hsuffix : a.suffix = b.suffix) : a = b := by
    cases a
    cases b
    cases hname
    cases hsuffix
    rfl
  by_cases hsuffix : a.suffix = 0 <;> by_cases hsuffix' : b.suffix = 0
  · have hspelling : a.shown names ≠ b.shown names := by
      rw [shown_of_suffix_eq_zero hsuffix, shown_of_suffix_eq_zero hsuffix']
      exact fun heq => hne (hlabel (ha.name_eq hlegible hb heq) (hsuffix.trans hsuffix'.symm))
    exact iff_of_true hspelling ⟨fun h => h.1 hsuffix, fun h => h.1 hsuffix'⟩
  · rw [shown_of_suffix_eq_zero hsuffix, shown_of_suffix_ne_zero hsuffix']
    exact ⟨fun h => ⟨fun hmimics => hmimics.1 hsuffix, fun hmimics => h hmimics.2.2⟩,
      fun h heq => h.2 ⟨hsuffix', hsuffix, heq⟩⟩
  · rw [shown_of_suffix_ne_zero hsuffix, shown_of_suffix_eq_zero hsuffix']
    exact ⟨fun h => ⟨fun hmimics => h hmimics.2.2.symm, fun hmimics => hmimics.1 hsuffix'⟩,
      fun h heq => h.1 ⟨hsuffix, hsuffix', heq.symm⟩⟩
  · have hspelling : a.shown names ≠ b.shown names := by
      rw [shown_of_suffix_ne_zero hsuffix, shown_of_suffix_ne_zero hsuffix']
      intro heq
      obtain ⟨hname, heq⟩ := suffixed_inj heq
      exact hne (hlabel (ha.name_eq hlegible hb hname) heq)
    exact iff_of_true hspelling ⟨fun h => hsuffix' h.2.1, fun h => hsuffix h.2.1⟩

end Label

end Printer

/-- No spelling is another one followed by an underscore and a number. -/
def NameTable.Unsuffixed (names : NameTable) : Prop :=
  ∀ spelling ∈ names.spellings, ∀ other ∈ names.spellings, ∀ digits,
    Word.isNumber digits = true → spelling ≠ s!"{other}_{digits}"

theorem NameTable.unsuffixed_of_not_mem {names : NameTable}
    (h : ∀ spelling ∈ names.spellings, '_' ∉ spelling.toList) : names.Unsuffixed := by
  intro spelling hmem other _ digits _ heq
  refine h spelling hmem ?_
  have hself (text : String) : toString text = text := rfl
  simp [heq, hself]

theorem Word.isNumber_toString (n : Nat) : isNumber (toString n) = true := by
  rw [isNumber, Bool.and_eq_true]
  refine ⟨by simp, List.all_eq_true.mpr fun c hc => ?_⟩
  rw [Nat.toString_eq_ofList_toDigits, String.toList_ofList] at hc
  exact Nat.isDigit_of_mem_toDigits (by decide : 0 < 10) (by decide) hc

namespace Printer

variable {names : NameTable}

theorem Label.not_mimics (hlegible : names.Legible) (h : names.Unsuffixed) {a b : Label}
    (ha : a.Listed names) (hb : b.Listed names) : ¬ a.Mimics names b := by
  rintro ⟨_, _, heq⟩
  have hmem {label : Label} (hlabel : label.Listed names) :
      names.spellings.getD label.name "" ∈ names.spellings := by
    have hlt : label.name < names.spellings.length := by
      rw [NameTable.spellings, List.length_map]
      exact hlabel.lt hlegible
    rw [List.getD_eq_getElem _ _ hlt]
    exact List.getElem_mem hlt
  exact h _ (hmem hb) _ (hmem ha) _ (Word.isNumber_toString a.suffix) heq

/-! ## The labels of an outline -/

theorem listed_of_labels {params : List Param} {counts counts' : List Nat} {made : List Label}
    (hnames : ∀ param ∈ params, param.name < names.size)
    (h : labels names counts params = .ok (made, counts')) :
    ∀ label ∈ made, label.Listed names := by
  induction params generalizing counts made with
  | nil =>
    cases h
    exact nofun
  | cons param params ih =>
    obtain ⟨hparam, hparams⟩ := List.forall_mem_cons.mp hnames
    obtain ⟨suffix, rest, _, hrest, rfl⟩ := labels_cons_eq_ok_iff.mp h
    exact List.forall_mem_cons.mpr ⟨⟨param.name, hparam, rfl⟩, ih hparams hrest⟩

/-- Every label in an outline is listed: by induction on the tree. -/
theorem listed_of_outline {node : Node} {scopes : Scopes Label} {counts : List Nat}
    {layout : Layout Label} (hnames : node.NamesWithin names.size)
    (h : outline names scopes counts node = .ok layout) :
    ∀ label ∈ layout.binders ++ layout.frees, label.Listed names := by
  induction node generalizing scopes counts layout with
  | abs params spine ih =>
    obtain ⟨hparams, hspine⟩ := Node.namesWithin_abs.mp hnames
    obtain ⟨made, counts', elements, hmade, helements, rfl⟩ := outline_abs_eq_ok_iff.mp h
    have hlisted := forall_of_map_eq helements fun node hmem layout hlayout =>
      List.forall_mem_append.mp (ih node hmem (hspine node hmem) hlayout)
    rw [Layout.binders, Layout.frees, Layout.bindersList_eq_flatMap, Layout.freesList_eq_flatMap]
    refine List.forall_mem_append.mpr ⟨List.forall_mem_append.mpr
      ⟨listed_of_labels hparams hmade, ?_⟩, ?_⟩
    · intro label hlabel
      obtain ⟨element, hmem, hlabel⟩ := List.mem_flatMap.mp hlabel
      exact (hlisted element hmem).1 label hlabel
    · intro label hlabel
      obtain ⟨element, hmem, hlabel⟩ := List.mem_flatMap.mp hlabel
      exact (hlisted element hmem).2 label hlabel
  | bound depth position =>
    obtain ⟨_, _, ⟨⟩⟩ := Outcome.bind_eq_ok.mp h
    exact List.forall_mem_nil _
  | free name =>
    cases h
    exact List.forall_mem_singleton.mpr ⟨name, hnames, rfl⟩
  | hole => cases h

end Printer

open Printer in
/-- What is printed for a text, reduced or not, is the text of the outline. That is clear, and all
    its labels are listed. -/
theorem KeywordTable.Yields.exists_outline {table : KeywordTable} {text printed : String}
    {expression : Expression} (h : table.Yields text expression)
    (hrender : expression.render = .ok printed) :
    ∃ layout, expression.outline = .ok layout
      ∧ layout.Clear
          ((expression.root.freeNames.map expression.names.canonical).map Label.bare) {}
      ∧ (∀ label ∈ layout.binders ++ layout.frees, label.Listed expression.names)
      ∧ printed = (layout.map (Label.shown expression.names)).text false := by
  obtain ⟨layout, hlayout, hclear, htext⟩ :=
    Expression.exists_outline (Expression.inFull_of_render hrender)
  obtain ⟨_, _, houtline⟩ := Outcome.bind_eq_ok.mp hlayout
  exact ⟨layout, hlayout, hclear, listed_of_outline h.wellFormed.namesWithin houtline, htext⟩

end LambdaCalc
