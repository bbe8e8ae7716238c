import LambdaCalc.Proofs.Node.Room
import LambdaCalc.Proofs.Node.Substitute

set_option autoImplicit false

/-! # What the copying budget allows

Every node of a copy is checked against the budget, by the levels between itself and the
abstraction that receives the copy. So a copy exceeds the budget exactly if the deepest of its nodes
does (`copy_stopsIff`), and an abstraction refuses an argument exactly if the argument is too deep
for one of the places where it is to stand (`substituteList_stopsIff`). Nothing else stops either of
them, as long as no term is missing and every name has a counter.

An abstraction that does not refuse an argument becomes its body under the remaining parameters,
with the argument put in without capture (`instantiates_of_substituteList`). -/

namespace LambdaCalc.Node

open Copying (Ensures Returns StopsIff)

/-! ## Levels below the root -/

/-- How many levels a tree has below its root. -/
def levelsBelow : Node → Nat
  | .abs _ spine => levelsList spine
  | .bound .. | .free _ | .hole => 0

theorem levels_eq_levelsBelow (node : Node) : node.levels = node.levelsBelow + 1 := by
  cases node <;> rfl

/-- An abstraction has one level more below it than the deepest element of its spine, and none if
    the spine is empty. -/
theorem lt_levelsBelow_abs_iff {params : List Param} {spine : List Node} {bound : Nat} :
    bound < (Node.abs params spine).levelsBelow ↔ ∃ node ∈ spine, bound ≤ node.levelsBelow := by
  rw [levelsBelow, ← Nat.not_le, levelsList_le_iff]
  simp only [levels_eq_levelsBelow, not_forall, exists_prop, Nat.not_le, Nat.lt_succ_iff]

/-! ## Whole trees -/

/-- No term is missing in a well-scoped tree. -/
theorem WellScoped.hasHole {scopes : List Nat} {node : Node} (h : node.WellScoped scopes) :
    node.hasHole = false := by
  induction node generalizing scopes with
  | abs params spine ih =>
    exact hasHole_abs.mpr fun element hmem => ih element hmem (wellScoped_abs.mp h element hmem)
  | bound _ _ | free _ => rfl
  | hole => exact absurd h id

/-! ## Copying -/

theorem checkNesting_stopsIff (size budget : Nat) (spent : Int) :
    StopsIff size (.ofKind .expressionSizeLimit) (budget < spent)
      (liftM (checkNesting budget spent)) := by
  intro table _
  unfold checkNesting
  split
  · next hle => exact ⟨fun hlt => absurd hlt (Int.not_lt.mpr hle), fun _ => ⟨_, rfl⟩⟩
  · next hnot => exact ⟨fun _ => rfl, fun hlt => absurd (Int.not_le.mp hnot) hlt⟩

theorem copyParams_stopsIff {size : Nat} {stop : Stop} {params : List Param}
    (h : ∀ param ∈ params, param.name < size) :
    StopsIff size stop False (Param.copyList params) := by
  induction params with
  | nil => exact .pure []
  | cons param params ih =>
    obtain ⟨hfirst, hothers⟩ := List.forall_mem_cons.mp h
    have hcopy : StopsIff size stop False (freshCopy param.name) := by
      intro table hsize
      obtain ⟨copy, hcopy⟩ := NameTable.freshCopy_eq_ok (hsize ▸ hfirst)
      exact ⟨False.elim, fun _ => ⟨_, hcopy⟩⟩
    rw [Param.copyList_cons]
    refine (hcopy.bind (freshCopy_ensures param.name) fun copy _ =>
      (ih hothers).bind (copyParams_ensures params) fun _ _ => .pure _).congr ?_
    simp only [or_false]

/-- A copy exceeds the budget exactly if its deepest node does: by induction on the tree, since each
    element of a spine is checked one level further in than the abstraction. -/
theorem copy_stopsIff {size budget : Nat} {offset level : Int} {node : Node}
    (hwhole : node.hasHole = false) (hnames : node.NamesWithin size) :
    StopsIff size (.ofKind .expressionSizeLimit) (budget < offset + level + node.levelsBelow)
      (node.copy budget offset level) := by
  induction node generalizing level with
  | abs params spine ih =>
    obtain ⟨hparams, hspine⟩ := namesWithin_abs.mp hnames
    have helements := hasHole_abs.mp hwhole
    have hcopies : ∀ node ∈ spine,
        Ensures (node.copy budget offset (level + 1)) (NamesWithin size) :=
      fun node hmem => copy_ensures (hspine node hmem)
    have hspine' : StopsIff size (.ofKind .expressionSizeLimit)
        (∃ node ∈ spine, budget < offset + (level + 1) + node.levelsBelow)
        (spine.mapM (copy budget offset (level + 1))) :=
      StopsIff.mapM (fun node hmem => ih node hmem (helements node hmem) (hspine node hmem)) hcopies
    rw [copy_abs]
    refine ((checkNesting_stopsIff size budget (offset + level)).bind (Ensures.lift _) fun _ _ =>
      (copyParams_stopsIff hparams).bind (copyParams_ensures params) fun _ _ =>
        hspine'.bind (Ensures.mapM hcopies) fun _ _ => .pure _).congr ?_
    rw [false_or, or_false]
    by_cases hroot : (budget : Int) < offset + level
    · exact iff_of_true (Or.inl hroot) (by omega)
    · -- What is left of the budget at the root is a number of levels.
      obtain ⟨left, hleft⟩ := Int.eq_ofNat_of_zero_le (Int.sub_nonneg.mpr (Int.not_lt.mp hroot))
      have hbelow : left < (Node.abs params spine).levelsBelow ↔ _ := lt_levelsBelow_abs_iff
      rw [or_iff_right hroot]
      constructor
      · rintro ⟨node, hmem, hlt⟩
        have := hbelow.mpr ⟨node, hmem, by omega⟩
        omega
      · intro hlt
        obtain ⟨node, hmem, hle⟩ := hbelow.mp (by omega)
        exact ⟨node, hmem, by omega⟩
  | bound _ _ | free _ =>
    refine ((checkNesting_stopsIff size budget (offset + level)).bind (Ensures.lift _) fun _ _ =>
      .pure _).congr ?_
    simp [levelsBelow]
  | hole => cases hwhole

/-! ## Substituting -/

mutual

/-- The places where the first parameter of the abstraction `level` levels out is referred to, each
    by the level at which it stands. -/
def places (level : Int) : Node → List Int
  | .abs _ spine => placesList (level + 1) spine
  | .bound depth position => if depth = level ∧ position = 0 then [level] else []
  | .free _ | .hole => []

/-- The places where the parameter is referred to in the elements of a spine. -/
def placesList (level : Int) : List Node → List Int
  | [] => []
  | node :: nodes => node.places level ++ placesList level nodes

end

theorem placesList_eq_flatMap (level : Int) (nodes : List Node) :
    placesList level nodes = nodes.flatMap (places level) := by
  induction nodes with
  | nil => rfl
  | cons node nodes ih => rw [placesList, ih, List.flatMap_cons]

theorem exists_mem_placesList {level : Int} {nodes : List Node} {P : Int → Prop} :
    (∃ place ∈ placesList level nodes, P place)
      ↔ ∃ node ∈ nodes, ∃ place ∈ node.places level, P place := by
  simp only [placesList_eq_flatMap, List.mem_flatMap]
  constructor
  · rintro ⟨place, ⟨node, hmem, hplace⟩, h⟩
    exact ⟨node, hmem, place, hplace, h⟩
  · rintro ⟨node, hmem, place, hplace, h⟩
    exact ⟨place, ⟨node, hmem, hplace⟩, h⟩

/-- Substituting exceeds the budget exactly if the copy for one of the places does. -/
theorem substitute_stopsIff {size budget : Nat} {argument node : Node} {level : Int}
    (hargument : argument.hasHole = false) (harguments : argument.NamesWithin size)
    (hwhole : node.hasHole = false) (hnames : node.NamesWithin size) :
    StopsIff size (.ofKind .expressionSizeLimit)
      (∃ place ∈ node.places level, budget < place + argument.levelsBelow)
      (substitute budget argument level node) := by
  induction node generalizing level with
  | abs params spine ih =>
    have hspine := (namesWithin_abs.mp hnames).2
    have hsubstituted : ∀ node ∈ spine,
        Ensures (substitute budget argument (level + 1) node) (NamesWithin size) :=
      fun node hmem => substitute_ensures harguments (hspine node hmem)
    rw [substitute_abs, places]
    refine ((StopsIff.mapM (fun node hmem => ih node hmem (hasHole_abs.mp hwhole node hmem)
      (hspine node hmem)) hsubstituted).bind (Ensures.mapM hsubstituted) fun _ _ =>
        .pure _).congr ?_
    rw [or_false, exists_mem_placesList]
  | bound depth position =>
    by_cases hdepth : depth = level
    · subst hdepth
      cases position with
      | zero =>
        rw [substitute_bound_zero]
        exact (copy_stopsIff hargument harguments).congr (by simp [places])
      | succ position =>
        rw [substitute_bound_succ]
        exact (StopsIff.pure _).congr (by simp [places])
    · rw [substitute_bound_of_ne hdepth]
      exact (StopsIff.pure _).congr (by simp [places, hdepth])
  | free name => exact (StopsIff.pure _).congr (by simp [places])
  | hole => cases hwhole

/-- An abstraction refuses an argument exactly if the argument exceeds the budget at one of the
    places of the parameter. -/
theorem substituteList_stopsIff {size budget : Nat} {argument : Node} {nodes : List Node}
    {level : Int} (hargument : argument.hasHole = false) (harguments : argument.NamesWithin size)
    (hwhole : ∀ node ∈ nodes, node.hasHole = false)
    (hnames : ∀ node ∈ nodes, node.NamesWithin size) :
    StopsIff size (.ofKind .expressionSizeLimit)
      (∃ place ∈ placesList level nodes, budget < place + argument.levelsBelow)
      (substituteList budget argument level nodes) := by
  rw [substituteList_eq_mapM, exists_mem_placesList]
  exact StopsIff.mapM
    (fun node hmem => substitute_stopsIff hargument harguments (hwhole node hmem)
      (hnames node hmem))
    fun node hmem => substitute_ensures harguments (hnames node hmem)

/-- A budget that is large enough for an abstraction to take an argument: it allows for the deepest
    of the places. -/
theorem substituteList_returns {size : Nat} {outer scopes : List Nat} {argument : Node}
    {nodes : List Node} (level : Int) (hargument : argument.WellScoped outer)
    (harguments : argument.NamesWithin size) (hscoped : ∀ node ∈ nodes, node.WellScoped scopes)
    (hnames : ∀ node ∈ nodes, node.NamesWithin size) :
    Returns size fun budget => substituteList budget argument level nodes := by
  intro table hsize
  obtain ⟨deepest, hdeepest⟩ := (placesList level nodes).toFinset.exists_le
  refine ⟨(deepest + argument.levelsBelow).toNat, ?_⟩
  refine (substituteList_stopsIff hargument.hasHole harguments
    (fun node hmem => (hscoped node hmem).hasHole) hnames hsize).2 ?_
  rintro ⟨place, hplace, hlt⟩
  have := hdeepest place (List.mem_toFinset.mpr hplace)
  omega

/-! ## Taking an argument -/

/-- What is left of an abstraction that has taken an argument is well-scoped among the same scopes,
    and its λ-term is the old body under the remaining parameters, with the λ-term of the argument
    put in for the first one without capture. As long as every name has a counter, an abstraction
    takes its argument unless it goes beyond the budget. -/
theorem instantiates_of_substituteList {budget : Nat} {scopes : List Nat} {param : Param}
    {params : List Param} {body : List Node} {argument : Node} {table : NameTable}
    (hhead : (Node.abs (param :: params) body).WellScoped scopes)
    (hargument : argument.WellScoped scopes) :
    (∀ body' table', substituteList budget argument 0 body table = .ok (body', table') →
        (Node.abs params body').WellScoped scopes
          ∧ (Node.abs params body').term scopes
            = (Term.lams params.length (.ofSpine
                (body.map (term ((param :: params).length :: scopes))))).instantiate
                (argument.term scopes))
      ∧ ((Node.abs (param :: params) body).NamesWithin table.size →
          argument.NamesWithin table.size →
          substituteList budget argument 0 body table ≠ .error (.ofKind .expressionSizeLimit) →
            ∃ result, substituteList budget argument 0 body table = .ok result) := by
  constructor
  · intro body' table' h
    obtain ⟨hscoped, inner, hlam, hterm⟩ := contract_spec hhead hargument h
    rw [term_abs] at hlam
    rw [hterm, ← Term.lam.inj hlam]
    exact ⟨hscoped, rfl⟩
  · intro hnames harguments hne
    have hstops : Copying.StopsIff table.size _ _ (substituteList budget argument 0 body) :=
      substituteList_stopsIff hargument.hasHole harguments (hasHole_abs.mp hhead.hasHole)
        (namesWithin_abs.mp hnames).2
    exact (hstops rfl).2 fun hplace => hne ((hstops rfl).1 hplace)

/-- In `λz.(λx.λy.x (λw.x y w z)) (λv.z v)` the argument refers to `z` from two places, which are
    one and two levels further in. The copies are one level deep, so that a budget of one is too
    small. -/
theorem instantiates_of_substituteList_nested :
    (Node.abs [⟨0, 0⟩, ⟨1, 0⟩] [.bound 0 0,
        .abs [⟨2, 0⟩] [.bound 1 0, .bound 1 1, .bound 0 0, .bound 2 0]]).WellScoped [1]
      ∧ (Node.abs [⟨3, 0⟩] [.bound 1 0, .bound 0 0]).WellScoped [1]
      ∧ substituteList 2 (.abs [⟨3, 0⟩] [.bound 1 0, .bound 0 0]) 0 [.bound 0 0,
          .abs [⟨2, 0⟩] [.bound 1 0, .bound 1 1, .bound 0 0, .bound 2 0]]
          { entries := [⟨"x", 1⟩, ⟨"y", 1⟩, ⟨"w", 1⟩, ⟨"v", 1⟩] }
        = .ok ([.abs [⟨3, 1⟩] [.bound 2 0, .bound 0 0],
            .abs [⟨2, 0⟩] [.abs [⟨3, 2⟩] [.bound 3 0, .bound 0 0], .bound 1 0, .bound 0 0,
              .bound 2 0]],
          { entries := [⟨"x", 1⟩, ⟨"y", 1⟩, ⟨"w", 1⟩, ⟨"v", 3⟩] })
      ∧ (Node.abs [⟨1, 0⟩] [.abs [⟨3, 1⟩] [.bound 2 0, .bound 0 0],
            .abs [⟨2, 0⟩] [.abs [⟨3, 2⟩] [.bound 3 0, .bound 0 0], .bound 1 0, .bound 0 0,
              .bound 2 0]]).term [1]
        = .lam (.app (.lam (.app (.var 2) (.var 0)))
            (.lam (.app (.app (.app (.lam (.app (.var 3) (.var 0))) (.var 1)) (.var 0)) (.var 2))))
      ∧ substituteList 1 (.abs [⟨3, 0⟩] [.bound 1 0, .bound 0 0]) 0 [.bound 0 0,
          .abs [⟨2, 0⟩] [.bound 1 0, .bound 1 1, .bound 0 0, .bound 2 0]]
          { entries := [⟨"x", 1⟩, ⟨"y", 1⟩, ⟨"w", 1⟩, ⟨"v", 1⟩] }
        = .error (.ofKind .expressionSizeLimit) := by
  have hhead : (Node.abs [⟨0, 0⟩, ⟨1, 0⟩] [.bound 0 0,
      .abs [⟨2, 0⟩] [.bound 1 0, .bound 1 1, .bound 0 0, .bound 2 0]]).WellScoped [1] :=
    ⟨rfl, ⟨rfl, rfl, rfl, rfl, trivial⟩, trivial⟩
  have hargument : (Node.abs [⟨3, 0⟩] [.bound 1 0, .bound 0 0]).WellScoped [1] :=
    ⟨rfl, rfl, trivial⟩
  have htaken :
      substituteList 2 (.abs [⟨3, 0⟩] [.bound 1 0, .bound 0 0]) 0 [.bound 0 0,
          .abs [⟨2, 0⟩] [.bound 1 0, .bound 1 1, .bound 0 0, .bound 2 0]]
          { entries := [⟨"x", 1⟩, ⟨"y", 1⟩, ⟨"w", 1⟩, ⟨"v", 1⟩] }
        = .ok ([.abs [⟨3, 1⟩] [.bound 2 0, .bound 0 0],
            .abs [⟨2, 0⟩] [.abs [⟨3, 2⟩] [.bound 3 0, .bound 0 0], .bound 1 0, .bound 0 0,
              .bound 2 0]],
          { entries := [⟨"x", 1⟩, ⟨"y", 1⟩, ⟨"w", 1⟩, ⟨"v", 3⟩] }) := rfl
  exact ⟨hhead, hargument, htaken,
    ((instantiates_of_substituteList hhead hargument).1 _ _ htaken).2, rfl⟩

end LambdaCalc.Node
