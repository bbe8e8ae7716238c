import LambdaCalc.Proofs.Expression.Roles

set_option autoImplicit false

/-! # Binding is lexical scoping

Whatever the token stream, an expression that is built has the λ-term that the stream spells: a name
is the open binder of its spelling, or else free, and different spellings are different free names
(`Expression.lexicallyScoped_of_ofTokens`). No group around a single element is left in the tree
(`Node.Unwrapped`).

The second part goes by what holds of every element read so far (`Binding.Elements`): closing a
group makes an element of the elements in it, and no other token makes more than a reference. -/

namespace LambdaCalc

/-! ## Trees without idle groups -/

namespace Node

mutual

/-- No abstraction in a tree stands around a single element without binding anything. -/
def Unwrapped : Node → Prop
  | .abs params spine => ¬ (params = [] ∧ spine.length = 1) ∧ AllUnwrapped spine
  | .bound .. | .free _ | .hole => True

/-- No abstraction in the elements of a spine does. -/
def AllUnwrapped : List Node → Prop
  | [] => True
  | node :: nodes => node.Unwrapped ∧ AllUnwrapped nodes

end

theorem allUnwrapped_iff {nodes : List Node} :
    AllUnwrapped nodes ↔ ∀ node ∈ nodes, node.Unwrapped := by
  induction nodes with
  | nil => simp [AllUnwrapped]
  | cons node nodes ih => simp [AllUnwrapped, ih]

theorem unwrapped_abs {params : List Param} {spine : List Node} :
    (Node.abs params spine).Unwrapped
      ↔ ¬ (params = [] ∧ spine.length = 1) ∧ ∀ node ∈ spine, node.Unwrapped := by
  rw [Unwrapped, allUnwrapped_iff]

theorem Unwrapped.unshift {level : Int} {node : Node} (h : node.Unwrapped) :
    (node.unshift level).Unwrapped := by
  induction node generalizing level with
  | abs params spine ih =>
    obtain ⟨hsingle, helements⟩ := unwrapped_abs.mp h
    rw [Node.unshift, unwrapped_abs, unshiftList_eq_map, List.length_map]
    exact ⟨hsingle, List.forall_mem_map.mpr fun element hmem =>
      ih element hmem (helements element hmem)⟩
  | bound _ _ | free _ | hole => trivial

/-- An abstraction around a single element dissolves if it binds nothing. -/
theorem unwrapped_collapse {params : List Param} {spine : List Node}
    (h : ∀ element ∈ spine, element.Unwrapped) : (Node.abs params spine).collapse.Unwrapped := by
  match params, spine with
  | [], [element] => exact (h element List.mem_cons_self).unshift
  | [], [] | [], _ :: _ :: _ | _ :: _, _ => exact unwrapped_abs.mpr ⟨by simp, h⟩

end Node

/-! ## What holds of every element -/

namespace Binding

/-- A property of references and free names, and of every closed group if it is one of the elements
    in it. -/
structure Composed (P : Node → Prop) : Prop where
  bound (depth : Int) (position : Nat) : P (.bound depth position)
  free (name : Nat) : P (.free name)
  node {frame : Frame} : (∀ element ∈ frame.elements, P element) → P frame.node

theorem composed_unwrapped : Composed Node.Unwrapped where
  bound _ _ := trivial
  free _ := trivial
  node h := Node.unwrapped_collapse fun element hmem => h element (List.mem_reverse.mp hmem)

/-- Every element of the open groups has a property. -/
def Elements (P : Node → Prop) (frames : List Frame) : Prop :=
  ∀ frame ∈ frames, ∀ element ∈ frame.elements, P element

variable {P : Node → Prop}

theorem elements_add {frame : Frame} {outer : List Frame} {element : Node} :
    Elements P (frame.add element :: outer) ↔ P element ∧ Elements P (frame :: outer) := by
  simp only [Elements, Frame.add, List.forall_mem_cons, and_assoc]

namespace Reading

/-- Closing groups: by induction on the groups around. -/
theorem elements_leave (hP : Composed P) {outer : List Frame} {inner : Frame}
    {spellings : Spellings} {reading' : Reading} (h : Elements P (inner :: outer))
    (hleave : leave inner spellings outer = .ok reading') : Elements P reading'.frames := by
  induction outer generalizing inner spellings with
  | nil => cases hleave
  | cons around outer ih =>
    obtain ⟨hinner, houter⟩ := List.forall_mem_cons.mp h
    have hadd : Elements P (around.add inner.node :: outer) :=
      elements_add.mpr ⟨hP.node hinner, houter⟩
    simp only [leave] at hleave
    split at hleave
    · exact ih hadd hleave
    · obtain rfl := Except.ok.inj hleave
      exact hadd

theorem elements_bind {reading reading' : Reading} {name : Option String}
    (h : Elements P reading.frames) (hbind : reading.bind name = .ok reading') :
    Elements P reading'.frames := by
  obtain ⟨_, copy, _, rfl⟩ := bind_eq_ok_iff.mp hbind
  obtain ⟨hinner, houter⟩ := List.forall_mem_cons.mp h
  exact List.forall_mem_cons.mpr ⟨hinner, houter⟩

theorem elements_enter {room : Option Nat} {inlined : Bool} {reading reading' : Reading}
    (h : Elements P reading.frames) (henter : reading.enter room inlined = .ok reading') :
    Elements P reading'.frames := by
  obtain rfl := eq_of_enter henter
  exact List.forall_mem_cons.mpr ⟨nofun, h⟩

theorem elements_use (hP : Composed P) {reading reading' : Reading} {name : Option String}
    (h : Elements P reading.frames) (huse : reading.use name = .ok reading') :
    Elements P reading'.frames := by
  rcases use_eq_ok huse with ⟨_, _, _, _, rfl⟩ | ⟨_, rfl⟩ | ⟨_, rfl⟩
  · exact elements_add.mpr ⟨hP.bound _ _, h⟩
  · exact elements_add.mpr ⟨hP.free _, h⟩
  · exact elements_add.mpr ⟨hP.free _, h⟩

/-- Reading a token keeps what holds of every element. -/
theorem elements_step (hP : Composed P) {room : Option Nat} {reading reading' : Reading}
    {token : Token} (h : Elements P reading.frames)
    (hstep : reading.step room token = .ok reading') : Elements P reading'.frames := by
  obtain ⟨kind, name⟩ := token
  cases kind with
  | opening => exact elements_enter h hstep
  | closing => exact elements_leave hP h hstep
  | func =>
    unfold Reading.step at hstep
    split_ifs at hstep
    · exact elements_bind h hstep
    · obtain ⟨entered, henter, hbind⟩ := Outcome.bind_eq_ok.mp hstep
      exact elements_bind (elements_enter h henter) hbind
  | var => exact elements_use hP h hstep
  | stray label => cases hstep

/-- Reading a whole stream: by induction on its tokens. -/
theorem elements_foldlM (hP : Composed P) {room : Option Nat} {tokens : List Token}
    {reading reading' : Reading} (h : Elements P reading.frames)
    (hrun : tokens.foldlM (Reading.step room) reading = .ok reading') :
    Elements P reading'.frames := by
  induction tokens generalizing reading with
  | nil =>
    obtain rfl := Except.ok.inj hrun
    exact h
  | cons token tokens ih =>
    rw [List.foldlM_cons] at hrun
    obtain ⟨between, hstep, hrest⟩ := Outcome.bind_eq_ok.mp hrun
    exact ih (elements_step hP h hstep) hrest

/-- The end of the stream closes all groups. -/
theorem holds_finish (hP : Composed P) {outer : List Frame} {inner : Frame}
    {spellings : Spellings} (h : Elements P (inner :: outer)) :
    P (finish inner spellings outer).1 := by
  induction outer generalizing inner spellings with
  | nil => exact hP.node (h inner List.mem_cons_self)
  | cons around outer ih =>
    obtain ⟨hinner, houter⟩ := List.forall_mem_cons.mp h
    exact ih (elements_add.mpr ⟨hP.node hinner, houter⟩)

/-! ## Tokens that have been read -/

/-- What is read with little room for groups is read with any. -/
theorem step_of_room {room : Option Nat} {reading reading' : Reading} {token : Token}
    (h : reading.step room token = .ok reading') : reading.step none token = .ok reading' := by
  have henter {inlined : Bool} {entered : Reading} (h : reading.enter room inlined = .ok entered) :
      reading.enter none inlined = .ok entered := by
    rw [eq_of_enter h]
    rfl
  obtain ⟨kind, name⟩ := token
  cases kind with
  | opening => exact henter h
  | func =>
    unfold Reading.step at h ⊢
    split_ifs at h ⊢
    · exact h
    · obtain ⟨entered, hentered, hbind⟩ := Outcome.bind_eq_ok.mp h
      exact Outcome.bind_eq_ok.mpr ⟨entered, henter hentered, hbind⟩
  | closing | var | stray _ => exact h

theorem foldlM_of_room {room : Option Nat} {tokens : List Token} {reading reading' : Reading}
    (h : tokens.foldlM (Reading.step room) reading = .ok reading') :
    tokens.foldlM (Reading.step none) reading = .ok reading'
      ∧ ∀ token ∈ tokens, ∀ label, token.kind ≠ .stray label := by
  induction tokens generalizing reading with
  | nil => exact ⟨h, nofun⟩
  | cons token tokens ih =>
    rw [List.foldlM_cons] at h ⊢
    obtain ⟨between, hstep, hrest⟩ := Outcome.bind_eq_ok.mp h
    obtain ⟨hrun, hstray⟩ := ih hrest
    refine ⟨Outcome.bind_eq_ok.mpr ⟨between, step_of_room hstep, hrun⟩,
      List.forall_mem_cons.mpr ⟨?_, hstray⟩⟩
    intro label hlabel
    rw [Reading.step, hlabel] at hstep
    cases hstep

end Reading

end Binding

namespace Expression

open Binding

/-- An expression that is built within some room is built without a bound to it, and no token means
    nothing in it. -/
theorem ofTokens_of_room {room : Option Nat} {tokens : List Token} {expression : Expression}
    (h : ofTokensWithin room tokens = .ok expression) :
    ofTokens tokens = .ok expression ∧ ∀ token ∈ tokens, ∀ label, token.kind ≠ .stray label := by
  unfold ofTokens
  unfold ofTokensWithin at h ⊢
  split_ifs at h ⊢
  obtain ⟨reading, hrun, hresult⟩ := Outcome.bind_eq_ok.mp h
  obtain ⟨hrun, hstray⟩ := Reading.foldlM_of_room hrun
  exact ⟨Outcome.bind_eq_ok.mpr ⟨reading, hrun, hresult⟩, hstray⟩

/-- Whatever the tokens, an expression that is built from them is the phrase that they spell: its
    λ-term is read by lexical scoping, with the free names by their places among all spellings, so
    that different ones stay different. No reference leads nowhere, and no abstraction stands around
    a single element without binding anything. -/
theorem lexicallyScoped_of_ofTokens {room : Option Nat} {tokens : List Token}
    {expression : Expression} (h : ofTokensWithin room tokens = .ok expression) :
    expression.root.term [] = ((Phrase.ofTokens tokens).term []).map (meetAll [] tokens).idxOf
      ∧ Phrase.Separates (meetAll [] tokens).idxOf (Phrase.ofTokens tokens).names
      ∧ expression.root.WellScoped [] ∧ expression.root.Unwrapped := by
  obtain ⟨hscoped, _, hterm⟩ := ofTokens_spec h
  obtain ⟨hbuilt, hstray⟩ := ofTokens_of_room h
  obtain ⟨_, _, _, hnamed⟩ := (ofTokens_isOk_iff hstray).mp ⟨expression, hbuilt⟩
  have hnames := names_subset_meetAll tokens [] (Phrase.ofTokens tokens) List.mem_cons_self
  have hseparates : Phrase.Separates (meetAll [] tokens).idxOf (Phrase.ofTokens tokens).names :=
    fun x hx y _ heq => (List.idxOf_inj (hnames hx)).mp heq
  obtain ⟨reading, spellings, hrun, hfinish, _⟩ := exists_of_ofTokens h
  have hstart : Elements Node.Unwrapped (Reading.frames {}) :=
    List.forall_mem_singleton.mpr (List.forall_mem_nil _)
  have hunwrapped : (Reading.finish reading.inner reading.spellings reading.outer).1.Unwrapped :=
    Reading.holds_finish composed_unwrapped (Reading.elements_foldlM composed_unwrapped hstart hrun)
  rw [hfinish] at hunwrapped
  exact ⟨by rw [hterm, Phrase.term_map (hnamed.not_clash hseparates)], hseparates, hscoped,
    hunwrapped⟩

/-- In `λx.((a λy.y x)) (λy.(y) x a` the inner `x` stands in an inlined abstraction in a group that
    dissolves, `y` is bound twice, and the last group is left open. -/
theorem lexicallyScoped_of_ofTokens_dissolving :
    ofTokensWithin none [.func "x", .opening, .opening, .var "a", .func "y", .var "y", .var "x",
        .closing, .closing, .opening, .func "y", .opening, .var "y", .closing, .var "x", .var "a"]
      = .ok {
          root := .abs [⟨0, 0⟩] [
            .abs [] [.free 1, .abs [⟨2, 0⟩] [.bound 0 0, .bound 2 0]],
            .abs [⟨2, 1⟩] [.bound 0 0, .bound 1 0, .free 1]]
          names := { entries := [⟨"x", 1⟩, ⟨"a", 0⟩, ⟨"y", 2⟩] } }
    ∧ (Node.abs [⟨0, 0⟩] [
            .abs [] [.free 1, .abs [⟨2, 0⟩] [.bound 0 0, .bound 2 0]],
            .abs [⟨2, 1⟩] [.bound 0 0, .bound 1 0, .free 1]]).term []
      = (Term.lam (.app
          (.app (.free (some "a")) (.lam (.app (.var 0) (.var 1))))
          (.lam (.app (.app (.var 0) (.var 1)) (.free (some "a")))))).map
            [some "x", some "a", some "y"].idxOf
    ∧ (Node.abs [⟨0, 0⟩] [
            .abs [] [.free 1, .abs [⟨2, 0⟩] [.bound 0 0, .bound 2 0]],
            .abs [⟨2, 1⟩] [.bound 0 0, .bound 1 0, .free 1]]).Unwrapped := by
  have hbuilt :
      ofTokensWithin none [.func "x", .opening, .opening, .var "a", .func "y", .var "y", .var "x",
        .closing, .closing, .opening, .func "y", .opening, .var "y", .closing, .var "x", .var "a"]
      = .ok {
          root := .abs [⟨0, 0⟩] [
            .abs [] [.free 1, .abs [⟨2, 0⟩] [.bound 0 0, .bound 2 0]],
            .abs [⟨2, 1⟩] [.bound 0 0, .bound 1 0, .free 1]]
          names := { entries := [⟨"x", 1⟩, ⟨"a", 0⟩, ⟨"y", 2⟩] } } := by cbv
  obtain ⟨hterm, _, _, hunwrapped⟩ := lexicallyScoped_of_ofTokens hbuilt
  exact ⟨hbuilt, hterm, hunwrapped⟩

end Expression

end LambdaCalc
