import LambdaCalc.Proofs.Expression.Names
import LambdaCalc.Proofs.Layout.InFull

set_option autoImplicit false

/-! # The layout that is printed

`Expression.outline` labels the parameters of an expression like the printer does. The full text of
an expression is that of its outline (`Expression.exists_outline`).

The counts tell how often a name is taken around a place. So a label gets a greater suffix than all
labels of its name in scope, and a parameter with the name of a free variable gets one at all
(`Printer.Counted`): the outline is clear. -/

namespace LambdaCalc

/-- The names in a tree are those of its parameters and the free ones. -/
theorem Node.namesWithin_iff {count : Nat} {node : Node} :
    node.NamesWithin count ↔ (∀ param ∈ node.allParams, param.name < count)
      ∧ ∀ name ∈ node.freeNames, name < count := by
  induction node with
  | abs params spine ih =>
    rw [namesWithin_abs, allParams_abs, freeNames_abs, List.forall_mem_append, and_assoc]
    refine and_congr_right fun _ => ?_
    simp only [List.mem_flatMap]
    constructor
    · intro h
      refine ⟨?_, ?_⟩
      · rintro param ⟨node, hmem, hparam⟩
        exact ((ih node hmem).mp (h node hmem)).1 param hparam
      · rintro name ⟨node, hmem, hname⟩
        exact ((ih node hmem).mp (h node hmem)).2 name hname
    · rintro ⟨hparams, hfree⟩ node hmem
      exact (ih node hmem).mpr ⟨fun param hparam => hparams param ⟨node, hmem, hparam⟩,
        fun name hname => hfree name ⟨node, hmem, hname⟩⟩
  | bound _ _ | hole => exact ⟨fun _ => ⟨nofun, nofun⟩, fun _ => trivial⟩
  | free name => exact ⟨fun h => ⟨nofun, List.forall_mem_singleton.mpr h⟩,
      fun h => h.2 name List.mem_cons_self⟩

namespace Printer

/-! ## Counting names -/

/-- The counts are right about what is in scope: each label there has been counted when it was made,
    and so have the free names. -/
structure Counted (free : List Nat) (scope : List Label) (counts : List Nat) : Prop where
  nodup : scope.Nodup
  label : ∀ label ∈ scope, ∃ count, counts[label.name]? = some count ∧ label.suffix < count
  free : ∀ name ∈ free, ∃ count, counts[name]? = some count ∧ 0 < count

/-- A label that is made by the counts is new, and its name is then counted once more. -/
theorem Counted.cons {free : List Nat} {scope : List Label} {counts : List Nat}
    (h : Counted free scope counts) {name suffix : Nat} (hcount : counts[name]? = some suffix) :
    Counted free ({ name, suffix } :: scope) (counts.set name (suffix + 1))
      ∧ { name, suffix } ∉ free.map Label.bare := by
  obtain ⟨hlt, _⟩ := List.getElem?_eq_some_iff.mp hcount
  have hset (other : Nat) : (counts.set name (suffix + 1))[other]?
      = if name = other then some (suffix + 1) else counts[other]? := by
    rw [List.getElem?_set]
    simp only [hlt, if_true]
  refine ⟨⟨List.nodup_cons.mpr ⟨fun hmem => ?_, h.nodup⟩, ?_, ?_⟩, ?_⟩
  · obtain ⟨count, hcount', hbelow⟩ := h.label _ hmem
    obtain rfl := Option.some.inj (hcount.symm.trans hcount')
    exact Nat.lt_irrefl _ hbelow
  · refine List.forall_mem_cons.mpr ⟨⟨suffix + 1, by rw [hset, if_pos rfl], Nat.lt_succ_self _⟩, ?_⟩
    intro label hmem
    obtain ⟨count, hcount', hbelow⟩ := h.label label hmem
    rw [hset]
    split
    · next heq =>
      obtain rfl := Option.some.inj (hcount.symm.trans (heq ▸ hcount'))
      exact ⟨suffix + 1, rfl, Nat.lt_succ_of_lt hbelow⟩
    · exact ⟨count, hcount', hbelow⟩
  · intro other hmem
    obtain ⟨count, hcount', hpos⟩ := h.free other hmem
    rw [hset]
    split
    · exact ⟨suffix + 1, rfl, Nat.succ_pos _⟩
    · exact ⟨count, hcount', hpos⟩
  · intro hmem
    obtain ⟨other, hother, heq⟩ := List.mem_map.mp hmem
    obtain ⟨rfl, rfl⟩ := Label.mk.inj heq
    obtain ⟨count, hcount', hpos⟩ := h.free _ hother
    rw [Option.some.inj (hcount.symm.trans hcount')] at hpos
    exact Nat.lt_irrefl _ hpos

variable {names : NameTable}

/-- Labelling parameters keeps the counts right, and gives none the label of a free variable: by
    induction on the parameters. -/
theorem counted_of_labels {free : List Nat} {params : List Param} {scope : List Label}
    {counts counts' : List Nat} {made : List Label} (h : Counted free scope counts)
    (hlabels : labels names counts params = .ok (made, counts')) :
    Counted free (made.reverse ++ scope) counts' ∧ ∀ label ∈ made, label ∉ free.map Label.bare := by
  induction params generalizing scope counts made with
  | nil =>
    cases hlabels
    exact ⟨h, nofun⟩
  | cons param params ih =>
    obtain ⟨suffix, rest, hcount, hrest, rfl⟩ := labels_cons_eq_ok_iff.mp hlabels
    obtain ⟨hcounted, hnot⟩ := h.cons hcount
    obtain ⟨hcounted', hnots⟩ := ih hcounted hrest
    refine ⟨?_, List.forall_mem_cons.mpr ⟨hnot, hnots⟩⟩
    rw [List.reverse_cons, List.append_assoc]
    exact hcounted'

/-! ## Outlines -/

mutual

/-- The layout of a tree inside the given scopes, with labels for names. -/
def outline (names : NameTable) (scopes : Scopes Label) (counts : List Nat) :
    Node → Outcome (Layout Label)
  | .free name => return .free (.bare (names.canonical name))
  | .bound depth position => return .bound depth position (← scopes.resolve depth position)
  | .hole => .error (.ofKind .internalFailure)
  | .abs params spine => do
      let (labels, counts) ← labels names counts params
      return .abs labels (← outlineList names (scopes.push labels) counts spine)

/-- The layouts of the elements of a spine. -/
def outlineList (names : NameTable) (scopes : Scopes Label) (counts : List Nat) :
    List Node → Outcome (List (Layout Label))
  | [] => return []
  | element :: elements => do
      let layout ← outline names scopes counts element
      return layout :: (← outlineList names scopes counts elements)

end

theorem outlineList_eq_mapM (scopes : Scopes Label) (counts : List Nat) (elements : List Node) :
    outlineList names scopes counts elements = elements.mapM (outline names scopes counts) := by
  induction elements with
  | nil => rfl
  | cons element elements ih => rw [outlineList, List.mapM_cons, ih]

/-- What the outline of an abstraction is made of. -/
theorem outline_abs_eq_ok_iff {scopes : Scopes Label} {counts : List Nat} {params : List Param}
    {spine : List Node} {layout : Layout Label} :
    outline names scopes counts (.abs params spine) = .ok layout
      ↔ ∃ made counts' elements, labels names counts params = .ok (made, counts')
          ∧ spine.map (outline names (scopes.push made) counts') = elements.map .ok
          ∧ layout = .abs made elements := by
  rw [outline, Outcome.bind_eq_ok]
  constructor
  · rintro ⟨⟨made, counts'⟩, hmade, h⟩
    obtain ⟨elements, helements, ⟨⟩⟩ := Outcome.bind_eq_ok.mp h
    rw [outlineList_eq_mapM, Outcome.mapM_eq_ok] at helements
    exact ⟨made, counts', elements, hmade, helements, rfl⟩
  · rintro ⟨made, counts', elements, hmade, helements, rfl⟩
    refine ⟨(made, counts'), hmade, Outcome.bind_eq_ok.mpr ⟨elements, ?_, rfl⟩⟩
    rw [outlineList_eq_mapM, Outcome.mapM_eq_ok]
    exact helements

/-- What holds of the outline of every node of a spine holds of every element. -/
theorem forall_of_map_eq {scopes : Scopes Label} {counts : List Nat} {spine : List Node}
    {elements : List (Layout Label)}
    (h : spine.map (outline names scopes counts) = elements.map .ok)
    {P : Layout Label → Prop}
    (hP : ∀ node ∈ spine, ∀ layout, outline names scopes counts node = .ok layout → P layout) :
    ∀ element ∈ elements, P element := by
  intro element hmem
  have hok : (.ok element : Outcome (Layout Label)) ∈ spine.map (outline names scopes counts) := by
    rw [h]
    exact List.mem_map.mpr ⟨element, hmem, rfl⟩
  obtain ⟨node, hnode, houtline⟩ := List.mem_map.mp hok
  exact hP node hnode element houtline

/-- What can be said of an element and of its outline alike can be said of a spine. -/
theorem map_eq_of_outlines {γ : Type} {scopes : Scopes Label} {counts : List Nat}
    {spine : List Node} {elements : List (Layout Label)}
    (h : spine.map (outline names scopes counts) = elements.map .ok)
    {f : Layout Label → γ} {g : Node → γ}
    (hfg : ∀ node ∈ spine, ∀ layout ∈ elements, outline names scopes counts node = .ok layout →
      f layout = g node) :
    elements.map f = spine.map g := by
  induction spine generalizing elements with
  | nil =>
    obtain rfl := List.map_eq_nil_iff.mp h.symm
    rfl
  | cons node spine ih =>
    cases elements with
    | nil => cases h
    | cons layout elements =>
      obtain ⟨hlayout, hrest⟩ := List.cons.inj h
      have hothers := ih hrest fun node hmem layout hmem' =>
        hfg node (List.mem_cons_of_mem _ hmem) layout (List.mem_cons_of_mem _ hmem')
      rw [List.map_cons, List.map_cons, hothers,
        hfg node List.mem_cons_self layout List.mem_cons_self hlayout]

/-- Outlines are clear: by induction on the tree. -/
theorem clear_of_outline {free : List Nat} {node : Node} {scopes : Scopes Label}
    {counts : List Nat} {layout : Layout Label} (hcounted : Counted free scopes.entries counts)
    (hfree : ∀ name ∈ node.freeNames, names.canonical name ∈ free)
    (h : outline names scopes counts node = .ok layout) :
    layout.Clear (free.map Label.bare) scopes := by
  induction node generalizing scopes counts layout with
  | abs params spine ih =>
    obtain ⟨made, counts', elements, hmade, helements, rfl⟩ := outline_abs_eq_ok_iff.mp h
    obtain ⟨hcounted', hnot⟩ := counted_of_labels hcounted hmade
    rw [← Scopes.entries_push] at hcounted'
    refine Layout.clear_abs.mpr ⟨hcounted'.nodup, hnot, ?_⟩
    refine forall_of_map_eq helements fun node hmem layout houtline => ?_
    refine ih node hmem hcounted' (fun name hname => hfree name ?_) houtline
    rw [Node.freeNames_abs]
    exact List.mem_flatMap.mpr ⟨node, hmem, hname⟩
  | bound depth position =>
    obtain ⟨label, hlabel, ⟨⟩⟩ := Outcome.bind_eq_ok.mp h
    exact hlabel
  | free name =>
    cases h
    exact List.mem_map.mpr ⟨_, hfree name List.mem_cons_self, rfl⟩
  | hole => cases h

/-- The full text of a tree is that of its outline: by induction on the tree. -/
theorem exists_outline {scopes : Scopes Label} {counts : List Nat} {nested : Bool} {node : Node}
    {text : String} (h : nodeUnder .ok names scopes counts nested node = .ok text) :
    ∃ layout, outline names scopes counts node = .ok layout
      ∧ text = (layout.map (Label.shown names)).text nested := by
  induction node generalizing scopes counts nested text with
  | abs params spine ih =>
    obtain ⟨made, counts', binders, texts, hmade, hbinders, htexts, rfl⟩ :=
      inFull_abs_eq_ok_iff.mp h
    obtain ⟨elements, helements, rfl⟩ := Outcome.exists_map_eq htexts
      fun element hmem text htext => @ih element hmem _ _ true text htext
    obtain ⟨shown, hshown, rfl⟩ := @Outcome.exists_map_eq _ _ _ _ _ .ok (Label.shown names) _
      (Outcome.mapM_eq_ok.mp hbinders) fun label _ text htext => ⟨label, rfl, Label.eq_shown htext⟩
    obtain rfl := List.map_injective_iff.mpr (fun _ _ => Except.ok.inj) hshown
    refine ⟨_, outline_abs_eq_ok_iff.mpr ⟨made, counts', elements, hmade, helements, rfl⟩, ?_⟩
    rw [Layout.map, Layout.text, Layout.texts_eq_map, Layout.mapList_eq_map, List.map_map]
    rfl
  | bound depth position =>
    obtain ⟨label, hlabel, htext⟩ := Outcome.bind_eq_ok.mp h
    exact ⟨_, Outcome.bind_eq_ok.mpr ⟨label, hlabel, rfl⟩, Label.eq_shown htext⟩
  | free name =>
    refine ⟨_, rfl, ?_⟩
    rw [nodeUnder, spelling_of_lt (lt_of_spelling h)] at h
    exact (Except.ok.inj h).symm
  | hole => cases h

end Printer

/-! ## Expressions -/

namespace Expression

open Printer

/-- The layout of an expression, with labels for names. -/
def outline (expression : Expression) : Outcome (Layout Label) := do
  let counts ← expression.outerCounts
  Printer.outline expression.names {} counts expression.root

/-- What is well-formed and has legible names can be printed. -/
theorem WellFormed.printable {expression : Expression} (h : expression.WellFormed)
    (hlegible : expression.names.Legible) : expression.Printable := by
  have hshown {name : Nat} (hname : name < expression.names.size) :
      expression.names.canonical name < expression.names.size := by
    obtain ⟨_, hspelling, _⟩ := hlegible.exists_spelling hname
    exact lt_of_spelling hspelling
  obtain ⟨hparams, hfree⟩ := Node.namesWithin_iff.mp h.namesWithin
  exact ⟨h.wellScoped, fun param hmem => hshown (hparams param hmem),
    fun name hmem => hshown (hfree name hmem)⟩

/-- The full text of an expression is that of its outline, which is clear. -/
theorem exists_outline {expression : Expression} {text : String}
    (h : expression.renderInFull = .ok text) :
    ∃ layout, expression.outline = .ok layout
      ∧ layout.Clear
          ((expression.root.freeNames.map expression.names.canonical).map Label.bare) {}
      ∧ text = (layout.map (Label.shown expression.names)).text false := by
  obtain ⟨counts, hcounts, htext⟩ := Outcome.bind_eq_ok.mp h
  obtain ⟨_, hfree, hcount⟩ := outerCounts_spec hcounts
  have hcounted : Counted (expression.root.freeNames.map expression.names.canonical) [] counts :=
    ⟨List.nodup_nil, nofun, fun name hmem =>
      ⟨1, by rw [hcount name (hfree name hmem), if_pos hmem], Nat.one_pos⟩⟩
  obtain ⟨layout, hlayout, rfl⟩ := Printer.exists_outline htext
  refine ⟨layout, Outcome.bind_eq_ok.mpr ⟨counts, hcounts, hlayout⟩, ?_, rfl⟩
  exact @clear_of_outline _ _ _ {} _ _ hcounted
    (fun name hname => List.mem_map.mpr ⟨name, hname, rfl⟩) hlayout

end Expression

end LambdaCalc
