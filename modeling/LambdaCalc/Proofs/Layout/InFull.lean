import LambdaCalc.Proofs.Layout.Basic
import LambdaCalc.Proofs.Layout.GivenBack
import LambdaCalc.Proofs.Node.Copies

set_option autoImplicit false

/-! # Printing in full

The printer checks every nested text for its length and stops at the first one that is too long. To
say what it would print without looking at lengths, the check is an argument of
`Printer.nodeUnder`: with `Printer.limited` this is the printer (`Expression.render_eq_nodeUnder`),
and with a check that lets everything pass it prints in full.

A part is never longer than the whole (`Printer.length_le_assemble`). So stopping early changes
nothing but the moment: the text is printed if the full text fits, and is too long otherwise
(`Expression.render_agrees_with_inFull`). -/

namespace LambdaCalc

/-- If two calculations are made for every element of a list, and what the first one returns is read
    off what the second one returns, that is so of the lists. -/
theorem Outcome.exists_map_eq {α β γ : Type} {values : List α} {first : α → Outcome β}
    {second : α → Outcome γ} {back : γ → β} {results : List β}
    (h : values.map first = results.map .ok)
    (hback : ∀ value ∈ values, ∀ result, first value = .ok result →
      ∃ other, second value = .ok other ∧ result = back other) :
    ∃ others : List γ, values.map second = others.map .ok ∧ results = others.map back := by
  induction values generalizing results with
  | nil => exact ⟨[], rfl, List.map_eq_nil_iff.mp h.symm⟩
  | cons value values ih =>
    cases results with
    | nil => cases h
    | cons result results =>
      obtain ⟨hfirst, hrest⟩ := List.cons.inj h
      obtain ⟨hvalue, hvalues⟩ := List.forall_mem_cons.mp hback
      obtain ⟨other, hother, rfl⟩ := hvalue result hfirst
      obtain ⟨others, hothers, rfl⟩ := ih hrest hvalues
      exact ⟨other :: others, by rw [List.map_cons, hother, hothers, List.map_cons], rfl⟩

theorem Node.freeNames_abs (params : List Param) (spine : List Node) :
    (Node.abs params spine).freeNames = spine.flatMap Node.freeNames := by
  have hlist (nodes : List Node) : Node.freeNamesList nodes = nodes.flatMap Node.freeNames := by
    induction nodes with
    | nil => rfl
    | cons node nodes ih => rw [Node.freeNamesList, ih, List.flatMap_cons]
  rw [Node.freeNames, hlist]

namespace Printer

/-! ## Labels and what is shown for them -/

/-- The label of a free variable. -/
def Label.bare (name : Nat) : Label := { name, suffix := 0 }

/-- A spelling with a suffix. -/
def suffixed (spelling : String) (suffix : Nat) : String := s!"{spelling}_{suffix}"

/-- What is shown for a label of a name in the table. -/
def Label.shown (names : NameTable) (label : Label) : String :=
  let spelling := names.spellings.getD label.name ""
  if label.suffix = 0 then spelling else suffixed spelling label.suffix

theorem spelling_of_lt {names : NameTable} {id : Nat} (h : id < names.size) :
    names.spelling id = .ok (names.spellings.getD id "") := by
  rw [NameTable.spelling, List.getElem?_eq_getElem h, NameTable.spellings,
    List.getD_eq_getElem?_getD, List.getElem?_map, List.getElem?_eq_getElem h]
  rfl

theorem lt_of_spelling {names : NameTable} {id : Nat} {spelling : String}
    (h : names.spelling id = .ok spelling) : id < names.size := by
  unfold NameTable.spelling at h
  split at h
  · next hentry => exact (List.getElem?_eq_some_iff.mp hentry).1
  · cases h

theorem Label.text_eq {names : NameTable} {label : Label} (h : label.name < names.size) :
    label.text names = .ok (label.shown names) := by
  rw [Label.text, spelling_of_lt h]
  rfl

theorem Label.eq_shown {names : NameTable} {label : Label} {text : String}
    (h : label.text names = .ok text) : text = label.shown names := by
  obtain ⟨_, hspelling, _⟩ := Outcome.bind_eq_ok.mp h
  exact Except.ok.inj (h.symm.trans (Label.text_eq (lt_of_spelling hspelling)))

variable {names : NameTable}

/-- Parameters can be labelled if there is a count for each of them. -/
theorem exists_labels {params : List Param} {counts : List Nat}
    (h : ∀ param ∈ params, names.canonical param.name < counts.length) :
    ∃ made counts', labels names counts params = .ok (made, counts') := by
  induction params generalizing counts with
  | nil => exact ⟨_, _, rfl⟩
  | cons param params ih =>
    obtain ⟨hparam, hparams⟩ := List.forall_mem_cons.mp h
    obtain ⟨rest, counts', hrest⟩ :=
      @ih (counts.set (names.canonical param.name) (counts[names.canonical param.name] + 1))
        (by rwa [List.length_set])
    exact ⟨_, counts', labels_cons_eq_ok_iff.mpr
      ⟨_, rest, List.getElem?_eq_getElem hparam, hrest, rfl⟩⟩

/-! ## Texts that are too long -/

/-- Printing returns a text, or stops because that is too long. -/
def Prints (outcome : Outcome String) (text : String) : Prop :=
  outcome = .ok text ∨ outcome = .error (.ofKind .characterLimitExceeded) ∧ textLimit < text.length

theorem prints_limited (text : String) : Prints (limited text) text := by
  unfold limited
  split
  · exact Or.inl rfl
  · next hlong => exact Or.inr ⟨rfl, Nat.lt_of_not_le hlong⟩

theorem eq_of_limited {text printed : String} (h : limited text = .ok printed) :
    printed = text := by
  unfold limited at h
  split at h
  · exact (Except.ok.inj h).symm
  · cases h

theorem Prints.bind_limited {outcome : Outcome String} {text : String} (h : Prints outcome text) :
    (outcome >>= limited) = limited text := by
  rcases h with rfl | ⟨rfl, hlong⟩
  · rfl
  · rw [limited, if_neg (Nat.not_le_of_lt hlong)]
    rfl

theorem length_le_intercalate {elements : List String} {element : String} (h : element ∈ elements) :
    element.length ≤ (" ".intercalate elements).length := by
  induction elements with
  | nil => cases h
  | cons first elements ih =>
    cases elements with
    | nil =>
      obtain rfl := List.mem_singleton.mp h
      rw [String.intercalate_singleton]
    | cons second elements =>
      rw [String.intercalate_cons_cons, String.length_append, String.length_append]
      rcases List.mem_cons.mp h with rfl | h
      · omega
      · have := ih h
        omega

/-- What is around an element only adds to it. -/
theorem length_le_assemble (nested : Bool) (binders : List String) {elements : List String}
    {element : String} (h : element ∈ elements) :
    element.length ≤ (assemble nested binders elements).length := by
  have hbody := length_le_intercalate h
  unfold assemble
  simp only
  split_ifs <;> simp only [String.length_append, toString] <;> omega

/-! ## Without a check -/

/-- What the full text of an abstraction is made of. -/
theorem inFull_abs_eq_ok_iff {scopes : Scopes Label} {counts : List Nat} {nested : Bool}
    {params : List Param} {spine : List Node} {text : String} :
    nodeUnder .ok names scopes counts nested (.abs params spine) = .ok text
      ↔ ∃ made counts' binders elements, labels names counts params = .ok (made, counts')
          ∧ made.mapM (Label.text names) = .ok binders
          ∧ spine.map (nodeUnder .ok names (scopes.push made) counts' true) = elements.map .ok
          ∧ text = assemble nested binders elements := by
  rw [nodeUnder, Outcome.bind_eq_ok]
  constructor
  · rintro ⟨⟨made, counts'⟩, hmade, h⟩
    obtain ⟨binders, hbinders, h⟩ := Outcome.bind_eq_ok.mp h
    obtain ⟨elements, helements, ⟨⟩⟩ := Outcome.bind_eq_ok.mp h
    rw [spineUnder_eq_mapM, Outcome.mapM_eq_ok] at helements
    exact ⟨made, counts', binders, elements, hmade, hbinders, helements, rfl⟩
  · rintro ⟨made, counts', binders, elements, hmade, hbinders, helements, rfl⟩
    refine ⟨(made, counts'), hmade, Outcome.bind_eq_ok.mpr ⟨binders, hbinders, ?_⟩⟩
    refine Outcome.bind_eq_ok.mpr ⟨elements, ?_, rfl⟩
    rw [spineUnder_eq_mapM, Outcome.mapM_eq_ok]
    exact helements

/-- The texts of the elements of a spine, unless one of them is too long. -/
theorem prints_spine {scopes : Scopes Label} {counts : List Nat} {spine : List Node}
    {texts : List String} {inFull : Node → Outcome String} (h : spine.map inFull = texts.map .ok)
    (hprints : ∀ element ∈ spine, ∀ text, inFull element = .ok text →
      Prints (nodeUnder limited names scopes counts true element) text) :
    spineUnder limited names scopes counts spine = .ok texts
      ∨ spineUnder limited names scopes counts spine = .error (.ofKind .characterLimitExceeded)
        ∧ ∃ text ∈ texts, textLimit < text.length := by
  induction spine generalizing texts with
  | nil =>
    obtain rfl := List.map_eq_nil_iff.mp h.symm
    exact Or.inl rfl
  | cons first spine ih =>
    cases texts with
    | nil => cases h
    | cons text texts =>
      obtain ⟨htext, hrest⟩ := List.cons.inj h
      obtain ⟨hfirst, hothers⟩ := List.forall_mem_cons.mp hprints
      rw [spineUnder]
      rcases hfirst text htext with hok | ⟨herror, hlong⟩
      · rw [hok]
        rcases ih hrest hothers with hoks | ⟨herror, other, hmem, hlong⟩
        · rw [hoks]
          exact Or.inl rfl
        · rw [herror]
          exact Or.inr ⟨rfl, other, List.mem_cons_of_mem _ hmem, hlong⟩
      · rw [herror]
        exact Or.inr ⟨rfl, text, List.mem_cons_self, hlong⟩

/-- What has a full text is printed as that, unless it is too long: by induction on the tree. If the
    printer stops inside, the whole is too long as well. -/
theorem prints_of_inFull {scopes : Scopes Label} {counts : List Nat} {nested : Bool} {node : Node}
    {text : String} (h : nodeUnder .ok names scopes counts nested node = .ok text) :
    Prints (nodeUnder limited names scopes counts nested node) text := by
  induction node generalizing scopes counts nested text with
  | abs params spine ih =>
    obtain ⟨made, counts', binders, elements, hmade, hbinders, helements, rfl⟩ :=
      inFull_abs_eq_ok_iff.mp h
    rw [nodeUnder, hmade]
    show Prints (made.mapM (Label.text names) >>= fun binders =>
      spineUnder limited names (scopes.push made) counts' spine >>= fun elements =>
        limited (assemble nested binders elements)) _
    rw [hbinders]
    show Prints (spineUnder limited names (scopes.push made) counts' spine >>= fun elements =>
        limited (assemble nested binders elements)) _
    rcases prints_spine helements fun element hmem text => @ih element hmem _ _ true text with
      hok | ⟨herror, element, hmem, hlong⟩
    · rw [hok]
      exact prints_limited _
    · rw [herror]
      exact Or.inr ⟨rfl, Nat.lt_of_lt_of_le hlong (length_le_assemble _ _ hmem)⟩
  | bound _ _ | free _ | hole =>
    rw [nodeUnder] at h ⊢
    exact Or.inl h

/-- What is printed is the full text: by induction on the tree. -/
theorem inFull_of_printed {scopes : Scopes Label} {counts : List Nat} {nested : Bool} {node : Node}
    {text : String} (h : nodeUnder limited names scopes counts nested node = .ok text) :
    nodeUnder .ok names scopes counts nested node = .ok text := by
  induction node generalizing scopes counts nested text with
  | abs params spine ih =>
    rw [nodeUnder] at h
    obtain ⟨⟨made, counts'⟩, hmade, h⟩ := Outcome.bind_eq_ok.mp h
    obtain ⟨binders, hbinders, h⟩ := Outcome.bind_eq_ok.mp h
    obtain ⟨elements, helements, h⟩ := Outcome.bind_eq_ok.mp h
    rw [spineUnder_eq_mapM, Outcome.mapM_eq_ok] at helements
    obtain ⟨texts, htexts, rfl⟩ := @Outcome.exists_map_eq _ _ _ _ _ _ id _ helements
      fun element hmem text htext => ⟨text, ih element hmem htext, rfl⟩
    rw [List.map_id] at h
    exact inFull_abs_eq_ok_iff.mpr
      ⟨made, counts', binders, texts, hmade, hbinders, htexts, eq_of_limited h⟩
  | bound _ _ | free _ | hole =>
    rw [nodeUnder] at h ⊢
    exact h

/-- A tree has a full text if its references address parameters and its names are shown through
    entries: by induction on the tree. -/
theorem exists_inFull {scopes : Scopes Label} {counts : List Nat} {nested : Bool} {node : Node}
    (hcounts : counts.length = names.size)
    (hscopes : ∀ label ∈ scopes.entries, label.name < names.size)
    (hscoped : node.WellScoped scopes.counts)
    (hparams : ∀ param ∈ node.allParams, names.canonical param.name < names.size)
    (hfree : ∀ name ∈ node.freeNames, names.canonical name < names.size) :
    ∃ text, nodeUnder .ok names scopes counts nested node = .ok text := by
  induction node generalizing scopes counts nested with
  | abs params spine ih =>
    rw [Node.allParams_abs, List.forall_mem_append] at hparams
    rw [Node.freeNames_abs] at hfree
    obtain ⟨made, counts', hmade⟩ := exists_labels (hcounts ▸ hparams.1)
    obtain ⟨hlength, hlength', hnames⟩ := length_of_labels hmade
    rw [hcounts] at hlength' hnames
    have hbinders : made.mapM (Label.text names) = .ok (made.map (Label.shown names)) := by
      rw [Outcome.mapM_eq_ok, List.map_map]
      exact List.map_congr_left fun label hmem => Label.text_eq (hnames label hmem)
    have hentries : ∀ label ∈ (scopes.push made).entries, label.name < names.size := by
      rw [Scopes.entries_push]
      exact List.forall_mem_append.mpr
        ⟨fun label hmem => hnames label (List.mem_reverse.mp hmem), hscopes⟩
    have hall : spine.map (nodeUnder .ok names (scopes.push made) counts' true)
        ∈ Set.range (List.map (.ok : String → Outcome String)) := by
      rw [Set.range_list_map]
      refine List.forall_mem_map.mpr fun node hmem => ?_
      obtain ⟨text, htext⟩ := @ih node hmem (scopes.push made) counts' true hlength' hentries
        (by rw [Scopes.counts_push, hlength]; exact Node.wellScoped_abs.mp hscoped node hmem)
        (fun param hparam => hparams.2 param (List.mem_flatMap.mpr ⟨node, hmem, hparam⟩))
        (fun name hname => hfree name (List.mem_flatMap.mpr ⟨node, hmem, hname⟩))
      exact ⟨text, htext.symm⟩
    obtain ⟨elements, hmap⟩ := hall
    exact ⟨_, inFull_abs_eq_ok_iff.mpr
      ⟨made, counts', _, elements, hmade, hbinders, hmap.symm, rfl⟩⟩
  | bound depth position =>
    obtain ⟨index, hindex⟩ := Node.wellScoped_bound.mp hscoped
    obtain ⟨label, hlabel⟩ := Scopes.exists_resolve hindex
    exact ⟨_, Outcome.bind_eq_ok.mpr
      ⟨label, hlabel, Label.text_eq (hscopes label (Scopes.mem_entries_of_resolve hlabel))⟩⟩
  | free name => exact ⟨_, spelling_of_lt (hfree name List.mem_cons_self)⟩
  | hole => exact absurd hscoped id

end Printer

/-! ## Expressions -/

namespace Expression

open Printer

/-- The text of an expression, however long it is. -/
def renderInFull (expression : Expression) : Outcome String := do
  let counts ← expression.outerCounts
  nodeUnder .ok expression.names {} counts false expression.root

/-- Every reference in the tree addresses a parameter, and every name in it is shown through an
    entry. -/
structure Printable (expression : Expression) : Prop where
  wellScoped : expression.root.WellScoped []
  param : ∀ param ∈ expression.root.allParams,
    expression.names.canonical param.name < expression.names.size
  free : ∀ name ∈ expression.root.freeNames,
    expression.names.canonical name < expression.names.size

/-- Counting each name once sets its count to one. -/
theorem getElem?_countOnce (names counts : List Nat) {name : Nat} (hlt : name < counts.length) :
    (names.foldl (fun counts name => counts.set name 1) counts)[name]?
      = if name ∈ names then some 1 else counts[name]? := by
  induction names generalizing counts with
  | nil => rfl
  | cons first names ih =>
    rw [List.foldl_cons, ih (counts.set first 1) (by rwa [List.length_set]), List.getElem?_set]
    by_cases heq : first = name
    · simp [heq, hlt]
    · simp [heq, Ne.symm heq]

theorem length_countOnce (names counts : List Nat) :
    (names.foldl (fun counts name => counts.set name 1) counts).length = counts.length := by
  induction names generalizing counts with
  | nil => rfl
  | cons first names ih => rw [List.foldl_cons, ih, List.length_set]

/-- The counts around an expression: one for a name that is shown free, and zero for any other. -/
theorem outerCounts_spec {expression : Expression} {counts : List Nat}
    (h : expression.outerCounts = .ok counts) :
    counts.length = expression.names.size
      ∧ (∀ name ∈ expression.root.freeNames.map expression.names.canonical,
          name < expression.names.size)
      ∧ ∀ name, name < expression.names.size →
        counts[name]? = some (
          if name ∈ expression.root.freeNames.map expression.names.canonical then 1 else 0) := by
  simp only [outerCounts] at h
  split at h
  · next hall =>
    cases h
    refine ⟨by rw [length_countOnce, List.length_replicate],
      fun name hmem => of_decide_eq_true (List.all_eq_true.mp hall name hmem), fun name hlt => ?_⟩
    rw [getElem?_countOnce _ _ (by rwa [List.length_replicate]), List.getElem?_replicate_of_lt hlt,
      ← apply_ite some]
  · cases h

theorem exists_outerCounts {expression : Expression}
    (h : ∀ name ∈ expression.root.freeNames,
      expression.names.canonical name < expression.names.size) :
    ∃ counts, expression.outerCounts = .ok counts := by
  have hall : ∀ name ∈ expression.root.freeNames.map expression.names.canonical,
      name < expression.names.size := List.forall_mem_map.mpr h
  exact ⟨_, if_pos (List.all_eq_true.mpr fun name hmem => decide_eq_true (hall name hmem))⟩

theorem Printable.exists_inFull {expression : Expression} (h : expression.Printable) :
    ∃ text, expression.renderInFull = .ok text := by
  obtain ⟨counts, hcounts⟩ := exists_outerCounts h.free
  obtain ⟨text, htext⟩ := @Printer.exists_inFull _ {} counts false _ (outerCounts_spec hcounts).1
    (List.forall_mem_nil _) h.wellScoped h.param h.free
  exact ⟨text, Outcome.bind_eq_ok.mpr ⟨counts, hcounts, htext⟩⟩

/-- What has a full text is printed as that, unless it is too long. -/
theorem render_of_inFull {expression : Expression} {text : String}
    (h : expression.renderInFull = .ok text) : expression.render = limited text := by
  obtain ⟨counts, hcounts, htext⟩ := Outcome.bind_eq_ok.mp h
  rw [render_eq_nodeUnder, hcounts]
  exact (prints_of_inFull htext).bind_limited

/-- What is printed is the full text. -/
theorem inFull_of_render {expression : Expression} {text : String}
    (h : expression.render = .ok text) : expression.renderInFull = .ok text := by
  rw [render_eq_nodeUnder] at h
  obtain ⟨counts, hcounts, h⟩ := Outcome.bind_eq_ok.mp h
  obtain ⟨printed, hprinted, h⟩ := Outcome.bind_eq_ok.mp h
  obtain rfl := eq_of_limited h
  exact Outcome.bind_eq_ok.mpr ⟨counts, hcounts, inFull_of_printed hprinted⟩

/-- A printable expression has a full text. It is printed as that if the text has no more than 255
    characters, and otherwise the character limit is exceeded. -/
theorem render_agrees_with_inFull {expression : Expression} (h : expression.Printable) :
    ∃ text, expression.renderInFull = .ok text
      ∧ (text.length ≤ 255 → expression.render = .ok text)
      ∧ (255 < text.length →
          expression.render = .error (.ofKind .characterLimitExceeded)) := by
  obtain ⟨text, htext⟩ := h.exists_inFull
  rw [render_of_inFull htext]
  exact ⟨text, htext, fun hshort => if_pos hshort, fun hlong => if_neg (Nat.not_le_of_lt hlong)⟩

/-- `a (λx.x)`, with any spelling for `x`. -/
def spelled (spelling : String) : Expression where
  root := .abs [] [.free 0, .abs [⟨1, 0⟩] [.bound 0 0]]
  names := { entries := [⟨"a", 0⟩, ⟨spelling, 1⟩] }

theorem inFull_spelled (spelling : String) :
    (spelled spelling).renderInFull = .ok s!"a (λ{spelling}.{spelling})" := by
  have hassembled : (spelled spelling).renderInFull
      = .ok (assemble false [] ["a", assemble true [spelling] [spelling]]) := rfl
  rw [hassembled]
  refine congrArg Except.ok (String.toList_inj.mp ?_)
  simp [assemble, binders, toString]

/-- With a spelling of 124 letters there are 254 characters, which are printed. With one of 126
    letters there are 258, and 256 of them in the nested text, where the printer stops. -/
theorem render_agrees_with_inFull_nested :
    let name := String.ofList (List.replicate 124 'x')
    let longName := String.ofList (List.replicate 126 'x')
    (spelled name).render = .ok s!"a (λ{name}.{name})"
      ∧ (spelled longName).render = .error (.ofKind .characterLimitExceeded) := by
  intro name longName
  have hprintable (spelling : String) : (spelled spelling).Printable :=
    ⟨⟨trivial, ⟨rfl, trivial⟩, trivial⟩, List.forall_mem_singleton.mpr Nat.one_lt_two,
      List.forall_mem_singleton.mpr Nat.two_pos⟩
  have hlength (spelling : String) :
      s!"a (λ{spelling}.{spelling})".length = 2 * spelling.length + 6 := by
    have haround : "a (λ".length + ".".length + ")".length = 6 := by decide +kernel
    simp only [String.length_append, toString]
    omega
  obtain ⟨text, htext, hfits, _⟩ := render_agrees_with_inFull (hprintable name)
  obtain ⟨longText, hlongText, _, hexceeds⟩ := render_agrees_with_inFull (hprintable longName)
  obtain rfl := Except.ok.inj (htext.symm.trans (inFull_spelled name))
  obtain rfl := Except.ok.inj (hlongText.symm.trans (inFull_spelled longName))
  rw [hlength, String.length_ofList, List.length_replicate] at hfits hexceeds
  exact ⟨hfits (by decide), hexceeds (by decide)⟩

end Expression

end LambdaCalc
