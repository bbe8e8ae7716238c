import LambdaCalc.Proofs.Node.Budget
import LambdaCalc.Proofs.Node.Soundness

set_option autoImplicit false

/-! # Why a reduction stops

Reducing a well-scoped tree whose names are in the table stops only because it nests too deeply or
copies too much (`reduceWithin_stopsOnly`): no term is missing, every name has a counter, and the
turns allowed for driving a head are never used up, because a head that can take an argument has put
nothing in front of it. -/

namespace LambdaCalc.Node

open Copying (Ensures StopsOnly)

/-! ## Splicing, collapsing and taking an argument -/

section

variable {scopes : List Nat} {room : Room} {node : Node}

theorem spliceWithin_stopsOnly (h : node.WellScoped scopes) :
    Outcome.StopsOnly Stop.Excessive (node.spliceWithin room) := by
  refine (spliceWithin_cut room.within_none node).stopsOnly ?_ fun _ => id
  rw [spliceWithin_none h.hasHole]
  exact .ok _

theorem collapseWithin_stopsOnly (h : node.WellScoped scopes) :
    Outcome.StopsOnly Stop.Excessive (node.collapseWithin room) := by
  refine (collapseWithin_cut room.within_none node).stopsOnly ?_ fun _ => id
  rw [collapseWithin_none h.hasHole]
  exact .ok _

/-- An abstraction takes an argument unless the copies of it exceed the budget, or the calls for
    them the room. -/
theorem takeWithin_stopsOnly {size budget : Nat} {outer : List Nat} {argument : Node}
    {body : List Node} (hargument : argument.WellScoped outer)
    (harguments : argument.NamesWithin size) (hscoped : ∀ node ∈ body, node.WellScoped scopes)
    (hnames : ∀ node ∈ body, node.NamesWithin size) :
    StopsOnly size Stop.Excessive (takeWithin room budget argument body) := by
  intro table hsize
  have hstops : StopsOnly size _ (substituteList budget argument 0 body) :=
    (substituteList_stopsIff hargument.hasHole harguments
      (fun node hmem => (hscoped node hmem).hasHole) hnames).stopsOnly
  exact (takeWithin_cut room.within_none (Nat.le_refl budget) argument body table).stopsOnly
    ((hstops hsize).mono fun _ => Or.inr) fun _ => id

end

/-! ## Driving and reducing -/

/-- What a way to reduce the head at hand has to guarantee, besides that its results are right: it
    does not stop without need. -/
structure Reliable (size : Nat) (reduceHead : Node → Copying Node) : Prop where
  settles : Settles reduceHead
  sound : Sound reduceHead
  names {node : Node} : node.NamesWithin size → Ensures (reduceHead node) (NamesWithin size)
  stopsOnly {scopes : List Nat} {node : Node} : node.WellScoped scopes → node.NamesWithin size →
    StopsOnly size Stop.Excessive (reduceHead node)

/-- Reducing and splicing the head a last time. -/
theorem settle_stopsOnly {size : Nat} {reduceHead : Node → Copying Node}
    (hreliable : Reliable size reduceHead) {room : Room} {scopes : List Nat} {head : Node}
    (hhead : head.WellScoped scopes ∧ head.NamesWithin size) (spine : List Node) :
    StopsOnly size Stop.Excessive (driveTurns.settle reduceHead room head spine) := by
  intro table hsize
  refine Outcome.StopsOnly.bind (hreliable.stopsOnly hhead.1 hhead.2 hsize) ?_
  rintro ⟨result, between⟩ hreduce
  have hresult := (hreliable.sound hreduce hhead.1).1
  exact ((spliceWithin_stopsOnly hresult).bind fun _ _ => .ok _).bind fun _ _ => .ok _

/-- Driving stops only where it goes beyond a limit: by induction on the turns, one of which is left
    for each element of the spine. -/
theorem driveTurns_stopsOnly {size : Nat} {reduceHead : Node → Copying Node}
    (hreliable : Reliable size reduceHead) {room : Room} {budget turns : Nat} {scopes : List Nat}
    {head : Node} {spine : List Node} (hturns : spine.length ≤ turns)
    (hhead : head.WellScoped scopes ∧ head.NamesWithin size)
    (hspine : ∀ element ∈ spine, element.WellScoped scopes ∧ element.NamesWithin size) :
    StopsOnly size Stop.Excessive (driveTurns reduceHead room budget turns head spine) := by
  induction turns generalizing head spine with
  | zero =>
    obtain rfl := List.eq_nil_of_length_eq_zero (Nat.le_zero.mp hturns)
    exact settle_stopsOnly hreliable hhead []
  | succ turns ih =>
    cases spine with
    | nil => exact settle_stopsOnly hreliable hhead []
    | cons argument elements =>
      intro table hsize stop hstop
      obtain ⟨hargument, helements⟩ := List.forall_mem_cons.mp hspine
      cases hreduce : reduceHead head table with
      | error reason =>
        have hrun : driveTurns reduceHead room budget (turns + 1) head (argument :: elements) table
            = .error reason := by
          rw [driveTurns]
          show Except.bind (reduceHead head table) _ = _
          rw [hreduce]
          rfl
        obtain rfl := Except.error.inj (hrun.symm.trans hstop)
        exact hreliable.stopsOnly hhead.1 hhead.2 hsize hreduce
      | ok reduced =>
        obtain ⟨result, between⟩ := reduced
        obtain ⟨hscoped, _⟩ := hreliable.sound hreduce hhead.1
        obtain ⟨hnames, hsame⟩ := hreliable.names hhead.2 hreduce
        have hbetween := hsame.size_eq.trans hsize
        cases hbinds : result.splice.1.binds with
        | true =>
          rw [(hreliable.settles.canonical hreduce).splice_of_binds hbinds] at hbinds
          obtain ⟨param, params, body, rfl⟩ := exists_abs_of_binds hbinds
          rw [driveTurns_of_abs hreduce] at hstop
          obtain ⟨hparams, hbody⟩ := namesWithin_abs.mp hnames
          refine Outcome.StopsOnly.bind (takeWithin_stopsOnly hargument.1 hargument.2
            (wellScoped_abs.mp hscoped) hbody hbetween) (fun contracted hrun => ?_) hstop
          obtain ⟨body', between'⟩ := contracted
          -- The head with its argument put in is driven against the elements that are left.
          have htaken := (takeWithin_cut room.within_none (Nat.le_refl budget) _ _ _).eq_ok hrun
          obtain ⟨hbody', hsame'⟩ := substituteList_ensures hargument.2 hbody htaken
          have hnames' : (Node.abs params body').NamesWithin size := namesWithin_abs.mpr
            ⟨fun param hmem => hparams param (List.mem_cons_of_mem _ hmem), hbody'⟩
          exact ih (Nat.le_of_succ_le_succ hturns)
            ⟨(contract_spec hscoped hargument.1 htaken).1, hnames'⟩ helements
            (hsame'.size_eq.trans hbetween)
        | false =>
          cases hspliced : result.spliceWithin room with
          | error reason =>
            rw [driveTurns, Copying.bind_of_ok hreduce, hspliced] at hstop
            obtain rfl := Except.error.inj hstop
            exact spliceWithin_stopsOnly hscoped hspliced
          | ok spliced =>
            obtain rfl := eq_splice_of_spliceWithin hspliced
            rw [driveTurns_of_not_binds hreduce hspliced hbinds,
              settle_of_not_binds hreliable.settles hreduce hspliced hbinds] at hstop
            cases hstop

/-- Reducing a well-scoped tree whose names are in the table stops only because it goes beyond a
    limit: by induction on the room. -/
theorem reduceWithin_stopsOnly {size budget nesting : Nat} {scopes : List Nat} {node : Node}
    (hscoped : node.WellScoped scopes) (hnames : node.NamesWithin size) :
    StopsOnly size Stop.Excessive (reduceWithin budget nesting node) := by
  induction nesting using Nat.strong_induction_on generalizing node scopes with
  | _ nesting ih =>
    have hreliable (inner : Nat) (hinner : inner < nesting) :
        Reliable size (reduceWithin budget inner) :=
      ⟨reduceWithin_settles budget inner, reduceWithin_sound budget inner, reduceWithin_ensures,
        ih inner hinner⟩
    match node, nesting with
    | _, 0 => exact .throw (Or.inl rfl)
    | .abs params (head :: spine), 1 => exact .throw (Or.inl rfl)
    | .abs params (head :: spine), nesting + 2 =>
      intro table hsize
      obtain ⟨hhead, hspine⟩ := List.forall_mem_cons.mp (wellScoped_abs.mp hscoped)
      obtain ⟨hheadNames, hspineNames⟩ := List.forall_mem_cons.mp (namesWithin_abs.mp hnames).2
      have hdriving := hreliable nesting (by omega)
      have helement := hreliable (nesting + 1) (by omega)
      rw [reduceWithin, driveWithin]
      refine Outcome.StopsOnly.bind (driveTurns_stopsOnly hdriving (Nat.le_refl _)
        ⟨hhead, hheadNames⟩ (fun element hmem => ⟨hspine element hmem, hspineNames element hmem⟩)
        hsize) fun driven hdrive => ?_
      obtain ⟨⟨head', left⟩, between⟩ := driven
      -- A drive that returns does the same without a bound.
      have hdriven := ((driveTurns_eq_ok_iff hdriving.settles (Nat.le_refl _)).mp hdrive).mono
        (fun _ => Copying.Below.refl _) (Room.within_none _) (Nat.le_refl budget)
      obtain ⟨hhead', hleft, _⟩ := hdriven.sound hdriving.settles hdriving.sound hhead hspine
      obtain ⟨⟨_, hleftNames⟩, hsame⟩ := hdriven.ensures hdriving.names hheadNames hspineNames
      refine Outcome.StopsOnly.bind (StopsOnly.mapM
        (fun element hmem => helement.stopsOnly (hleft element hmem) (hleftNames element hmem))
        (fun element hmem => helement.names (hleftNames element hmem)) (hsame.size_eq.trans hsize))
        fun reduced hreduced => ?_
      have hscopeds := Copying.forall_mem_of_forall₂ (Copying.mapM_forall₂
        (fun element hmem _ _ _ hrun => (helement.sound hrun (hleft element hmem)).1) hreduced)
      exact (collapseWithin_stopsOnly
        (wellScoped_abs.mpr (List.forall_mem_cons.mpr ⟨hhead', hscopeds⟩))).bind fun _ _ => .ok _
    | .abs params [], _ + 1 | .bound _ _, _ + 1 | .free _, _ + 1 => exact .pure _
    | .hole, _ + 1 => exact absurd hscoped id

end LambdaCalc.Node
