import Mathlib
import LambdaCalc.Expression.Printer

set_option autoImplicit false

/-! # What the printer gives back

The printer has one list of counts and one stack of scopes, which it changes while it goes through a
tree. Every part of the tree leaves both of them the way it has found them
(`Printer.eq_of_run_node`): the parameters of an abstraction are counted before its spine is
printed and counted off behind it, whatever has been counted in between.

So what is printed for a part depends on nothing but what is kept at its place, and could as well be
passed down to it. Passing it down is `Printer.nodeUnder`, which does what the printer does
(`Printer.node_givesBack`, `Expression.render_eq_nodeUnder`); later proofs go by it and do not look
at what is kept.

With less room for nested calls the printer does the same, unless it is cut off
(`Expression.renderWithin_cut`). -/

namespace LambdaCalc

/-! ## What is left behind -/

/-- A calculation that is started on what the printer keeps has the given outcome, and what it keeps
    is left behind in the given state; unless its room is bounded and it is nested too deeply. -/
def PrinterM.Leaves {α : Type} (room : Room) (state left : Printer.State)
    (calculation : PrinterM α) (outcome : Outcome α) : Prop :=
  calculation.run state = outcome.map (·, left)
    ∨ room.isSome = true ∧ calculation.run state = .error .nestedTooDeeply

namespace PrinterM.Leaves

variable {α β : Type} {room : Room} {state between left : Printer.State}

/-- An outcome leaves everything as it is. -/
theorem lift (outcome : Outcome α) : Leaves room state state (liftM outcome) outcome := by
  cases outcome <;> exact Or.inl rfl

theorem bind {first : PrinterM α} {second : α → PrinterM β} {outcome : Outcome α}
    {next : α → Outcome β} (h : Leaves room state between first outcome)
    (h' : ∀ value, Leaves room between left (second value) (next value)) :
    Leaves room state left (first >>= second) (outcome >>= next) := by
  unfold Leaves
  rw [StateT.run_bind]
  rcases h with heq | ⟨hroom, hcut⟩
  · rw [heq]
    cases outcome with
    | error stop => exact Or.inl rfl
    | ok value => exact h' value
  · rw [hcut]
    exact Or.inr ⟨hroom, rfl⟩

/-- A calculation goes on from what its first step returns and leaves behind. -/
theorem step {first : PrinterM α} {second : α → PrinterM β} {value : α} {outcome : Outcome β}
    (h : first.run state = .ok (value, between))
    (h' : Leaves room between left (second value) outcome) :
    Leaves room state left (first >>= second) outcome := by
  unfold Leaves
  rw [StateT.run_bind, h]
  exact h'

theorem mapM {f : α → PrinterM β} {g : α → Outcome β} {values : List α}
    (h : ∀ value ∈ values, Leaves room state state (f value) (g value)) :
    Leaves room state state (values.mapM f) (values.mapM g) := by
  induction values with
  | nil => exact Or.inl rfl
  | cons value values ih =>
    obtain ⟨hvalue, hvalues⟩ := List.forall_mem_cons.mp h
    rw [List.mapM_cons, List.mapM_cons]
    exact hvalue.bind fun result => (ih hvalues).bind fun results => Or.inl rfl

/-- A call is cut off if no room is left for it. Otherwise there is room inside, which is bounded if
    the room around it is. -/
theorem enter {inside : Room → PrinterM α} {outcome : Outcome α}
    (h : ∀ inner, Leaves inner state left (inside inner) outcome) :
    Leaves room state left (liftM room.enter >>= inside) outcome := by
  match room with
  | none => exact h none
  | some 0 => exact Or.inr ⟨rfl, rfl⟩
  | some (inner + 1) => exact (h (some inner)).imp_right fun hcut => ⟨rfl, hcut.2⟩

end PrinterM.Leaves

namespace Printer

/-! ## Passing it down -/

/-- Label the parameters of an abstraction. The counts say how often each name is taken around them;
    returned are the counts inside. -/
def labels (names : NameTable) (counts : List Nat) : List Param → Outcome (List Label × List Nat)
  | [] => return ([], counts)
  | param :: params => do
      let name := names.canonical param.name
      match counts[name]? with
      | none => throw (.mishap .missingEntry)
      | some suffix =>
          let (rest, counts) ← labels names (counts.set name (suffix + 1)) params
          return ({ name, suffix } :: rest, counts)

mutual

/-- Print a node inside the given scopes, with a check for the text of every abstraction. -/
def nodeUnder (check : String → Outcome String) (names : NameTable) (scopes : Scopes Label)
    (counts : List Nat) (nested : Bool) : Node → Outcome String
  | .free name => names.spelling (names.canonical name)
  | .bound depth position => do (← scopes.resolve depth position).text names
  | .hole => .error (.ofKind .internalFailure)
  | .abs params spine => do
      let (labels, counts) ← labels names counts params
      let binders ← labels.mapM (·.text names)
      let elements ← spineUnder check names (scopes.push labels) counts spine
      check (assemble nested binders elements)

/-- Print the elements of a spine with a check. -/
def spineUnder (check : String → Outcome String) (names : NameTable) (scopes : Scopes Label)
    (counts : List Nat) : List Node → Outcome (List String)
  | [] => return []
  | element :: elements => do
      let text ← nodeUnder check names scopes counts true element
      let texts ← spineUnder check names scopes counts elements
      return text :: texts

end

variable {names : NameTable}

theorem spineUnder_eq_mapM (check : String → Outcome String) (scopes : Scopes Label)
    (counts : List Nat) (elements : List Node) :
    spineUnder check names scopes counts elements
      = elements.mapM (nodeUnder check names scopes counts true) := by
  induction elements with
  | nil => rfl
  | cons element elements ih => rw [spineUnder, List.mapM_cons, ih]

/-- Labelling parameters one after the other. -/
theorem labels_cons_eq_ok_iff {counts counts' : List Nat} {param : Param} {params : List Param}
    {made : List Label} :
    labels names counts (param :: params) = .ok (made, counts')
      ↔ ∃ suffix rest, counts[names.canonical param.name]? = some suffix
          ∧ labels names (counts.set (names.canonical param.name) (suffix + 1)) params
            = .ok (rest, counts')
          ∧ made = { name := names.canonical param.name, suffix } :: rest := by
  rw [labels]
  simp only
  split
  · next hnone => simp [hnone]
  · next suffix hcount =>
    rw [Outcome.bind_eq_ok, hcount]
    constructor
    · rintro ⟨⟨rest, counts''⟩, hrest, ⟨⟩⟩
      exact ⟨suffix, rest, rfl, hrest, rfl⟩
    · rintro ⟨_, rest, ⟨⟩, hrest, rfl⟩
      exact ⟨(rest, counts'), hrest, rfl⟩

theorem length_of_labels {params : List Param} {counts counts' : List Nat} {made : List Label}
    (h : labels names counts params = .ok (made, counts')) :
    made.length = params.length ∧ counts'.length = counts.length
      ∧ ∀ label ∈ made, label.name < counts.length := by
  induction params generalizing counts made with
  | nil =>
    cases h
    exact ⟨rfl, rfl, nofun⟩
  | cons param params ih =>
    obtain ⟨suffix, rest, hcount, hrest, rfl⟩ := labels_cons_eq_ok_iff.mp h
    obtain ⟨hlength, hlength', hnames⟩ := ih hrest
    rw [List.length_set] at hlength' hnames
    exact ⟨congrArg Nat.succ hlength, hlength',
      List.forall_mem_cons.mpr ⟨(List.getElem?_eq_some_iff.mp hcount).1, hnames⟩⟩

/-! ## Counting parameters, and counting them off -/

/-- Labelling the parameters of an abstraction changes the counts and leaves the scopes alone. -/
theorem run_label (params : List Param) (counts : List Nat) (scopes : Scopes Label) :
    (params.mapM (label names)).run { counts, scopes }
      = (labels names counts params).map fun (made, counts) => (made, { counts, scopes }) := by
  induction params generalizing counts with
  | nil => rfl
  | cons param params ih =>
    have hlabel : (label names param).run { counts, scopes }
        = match counts[names.canonical param.name]? with
          | none => .error (.mishap .missingEntry)
          | some suffix => .ok ({ name := names.canonical param.name, suffix },
              { counts := counts.set (names.canonical param.name) (suffix + 1), scopes }) := by
      simp only [label, StateT.run_bind, StateT.run_get, pure_bind]
      cases counts[names.canonical param.name]? <;> rfl
    rw [List.mapM_cons, labels, StateT.run_bind, hlabel]
    simp only
    split
    · rfl
    · next suffix hcount =>
      show ((params.mapM (label names)).run _ >>= _) = _
      rw [ih]
      cases labels names _ params <;> rfl

/-- Count the name of a label as taken once less. -/
def countOff (counts : List Nat) (label : Label) : List Nat :=
  counts.modify label.name (· - 1)

theorem length_countOff (counts : List Nat) (label : Label) :
    (countOff counts label).length = counts.length :=
  List.length_modify _ _ _

/-- Labels are counted off in any order. -/
theorem countOff_comm (counts : List Nat) (first second : Label) :
    countOff (countOff counts first) second = countOff (countOff counts second) first := by
  apply List.ext_getElem?
  intro name
  simp only [countOff, List.getElem?_modify]
  cases counts[name]? with
  | none => rfl
  | some count => split_ifs <;> rfl

/-- Labels whose names have counts are counted off one after the other. -/
theorem run_release {made : List Label} {counts : List Nat} (scopes : Scopes Label)
    (h : ∀ label ∈ made, label.name < counts.length) :
    (made.forM release).run { counts, scopes }
      = .ok ((), { counts := made.foldl countOff counts, scopes }) := by
  induction made generalizing counts with
  | nil => rfl
  | cons label made ih =>
    obtain ⟨hlabel, hmade⟩ := List.forall_mem_cons.mp h
    have hrelease : (release label).run { counts, scopes }
        = .ok ((), { counts := countOff counts label, scopes }) := by
      simp only [release, StateT.run_bind, StateT.run_get, pure_bind]
      rw [if_pos hlabel]
      rfl
    show (release label >>= fun _ => made.forM release).run _ = _
    rw [StateT.run_bind, hrelease]
    exact ih (by simpa only [length_countOff] using hmade)

/-- Counting off all labels of an abstraction undoes what counting its parameters has done: by
    induction on the parameters. The first one was counted first and is counted off first, which
    comes to the same as counting it off last. -/
theorem countOff_labels {params : List Param} {counts counts' : List Nat} {made : List Label}
    (h : labels names counts params = .ok (made, counts')) :
    made.foldl countOff counts' = counts := by
  induction params generalizing counts made with
  | nil =>
    cases h
    rfl
  | cons param params ih =>
    obtain ⟨suffix, rest, hcount, hrest, rfl⟩ := labels_cons_eq_ok_iff.mp h
    obtain ⟨hlt, rfl⟩ := List.getElem?_eq_some_iff.mp hcount
    -- All others are counted off first, and give back the counts behind the first one.
    rw [List.foldl_cons, List.foldl_hom (countOff · _) fun counts label =>
      countOff_comm counts _ label, ih hrest]
    apply List.ext_getElem?
    intro name
    rw [countOff, List.getElem?_modify, List.getElem?_set]
    by_cases heq : names.canonical param.name = name
    · subst heq
      simp [hlt]
    · simp [heq]

/-- The labels of an abstraction can be counted off where its parameters have been counted, and the
    counts are then what they were before. -/
theorem run_release_labels {params : List Param} {counts counts' : List Nat} {made : List Label}
    (h : labels names counts params = .ok (made, counts')) (scopes : Scopes Label) :
    (made.forM release).run { counts := counts', scopes } = .ok ((), { counts, scopes }) := by
  obtain ⟨_, hlength, hnames⟩ := length_of_labels h
  rw [run_release scopes (hlength.symm ▸ hnames), countOff_labels h]

/-! ## Printing a tree -/

theorem spineElements_eq_mapM (room : Room) (elements : List Node) :
    spineElements names room elements = elements.mapM (node names room true) := by
  induction elements with
  | nil => rfl
  | cons element elements ih => rw [spineElements, List.mapM_cons, ih]

/-- Printing a node comes to the same as passing down what is kept, and gives that back: by
    induction on the tree. -/
theorem node_givesBack (room : Room) (nested : Bool) (node : Node) (counts : List Nat)
    (scopes : Scopes Label) :
    PrinterM.Leaves room { counts, scopes } { counts, scopes }
      (Printer.node names room nested node)
      (nodeUnder limited names scopes counts nested node) := by
  induction node generalizing room nested scopes counts with
  | abs params spine ih =>
    rw [Printer.node, nodeUnder]
    refine .enter fun room => ?_
    have hlabels := @run_label names params counts scopes
    cases hmade : labels names counts params with
    | error stop =>
      rw [hmade] at hlabels
      left
      rw [StateT.run_bind, hlabels]
      rfl
    | ok result =>
      obtain ⟨made, counts'⟩ := result
      rw [hmade] at hlabels
      refine .step hlabels ((PrinterM.Leaves.mapM fun label _ => .lift _).bind fun binders => ?_)
      -- The spine is printed inside the scope of the abstraction, which is closed behind it.
      refine .step rfl (.enter fun room => ?_)
      rw [spineElements_eq_mapM, spineUnder_eq_mapM]
      refine (PrinterM.Leaves.mapM fun element hmem => ih element hmem room true _ _).bind
        fun elements => ?_
      exact .step rfl (.step (run_release_labels hmade scopes) (.lift _))
  | bound depth position =>
    rw [Printer.node, nodeUnder]
    exact .enter fun _ => (PrinterM.Leaves.lift _).bind fun label => .lift _
  | free name =>
    rw [Printer.node, nodeUnder]
    exact .enter fun _ => .lift _
  | hole =>
    rw [Printer.node, nodeUnder]
    exact .enter fun _ => Or.inl rfl

/-- Every part of a tree that is printed gives back the counts and the scopes as they have been. -/
theorem eq_of_run_node {room : Room} {nested : Bool} {node : Node} {state state' : State}
    {text : String} (h : (Printer.node names room nested node).run state = .ok (text, state')) :
    state' = state := by
  have hnode := @node_givesBack names room nested node state.counts state.scopes
  rcases hnode with heq | ⟨_, hcut⟩
  · have heq := h.symm.trans heq
    cases hunder : nodeUnder limited names state.scopes state.counts nested node with
    | error stop =>
      rw [hunder] at heq
      cases heq
    | ok printed =>
      rw [hunder] at heq
      exact (Prod.mk.inj (Except.ok.inj heq)).2
  · cases h.symm.trans hcut

end Printer

namespace Expression

open Printer

/-- An expression is printed by passing down its counts. With bounded room it is printed the same,
    or it is nested too deeply. -/
theorem renderWithin_eq_or_cut (room : Room) (expression : Expression) :
    expression.renderWithin room = (do
        let counts ← expression.outerCounts
        let text ← nodeUnder limited expression.names {} counts false expression.root
        limited text)
      ∨ room.isSome = true ∧ expression.renderWithin room = .error .nestedTooDeeply := by
  unfold renderWithin StateT.run'
  cases expression.outerCounts with
  | error stop => exact Or.inl rfl
  | ok counts =>
    show (Prod.fst <$> (node expression.names room false expression.root).run { counts } >>= _) = _
      ∨ _ ∧ (Prod.fst <$> (node expression.names room false _).run { counts } >>= _) = _
    rcases node_givesBack room false expression.root counts {} with heq | ⟨hroom, hcut⟩
    · left
      rw [heq]
      show _ = (nodeUnder limited expression.names {} counts false expression.root >>= limited)
      cases nodeUnder limited expression.names {} counts false expression.root <;> rfl
    · rw [hcut]
      exact Or.inr ⟨hroom, rfl⟩

theorem render_eq_nodeUnder (expression : Expression) :
    expression.render = (do
      let counts ← expression.outerCounts
      let text ← nodeUnder limited expression.names {} counts false expression.root
      limited text) :=
  (renderWithin_eq_or_cut none expression).resolve_right fun hcut => Bool.false_ne_true hcut.1

/-- With bounded room an expression is printed as without a bound, or it is nested too deeply. -/
theorem renderWithin_cut (room : Room) (expression : Expression) :
    expression.renderWithin room = expression.render
      ∨ expression.renderWithin room = .error .nestedTooDeeply := by
  rw [render_eq_nodeUnder]
  exact (renderWithin_eq_or_cut room expression).imp_right fun hcut => hcut.2

/-- What is printed within bounded room is the text of the expression. -/
theorem render_of_renderWithin {room : Room} {expression : Expression} {text : String}
    (h : expression.renderWithin room = .ok text) : expression.render = .ok text := by
  rcases renderWithin_cut room expression with heq | hcut
  · exact heq ▸ h
  · cases h.symm.trans hcut

end Expression

end LambdaCalc
