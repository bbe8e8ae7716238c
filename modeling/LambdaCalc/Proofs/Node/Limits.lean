import LambdaCalc.Proofs.Node.Room

set_option autoImplicit false

/-! # Larger limits

Everything that a reduction is made of does within smaller limits what it does within larger ones,
until it is cut off: unshifting and splicing, copying and substituting, driving and reducing
(`reduceWithin_cut`). So within larger limits a reduction returns no less, and what it returns is
the same (`reduceWithin_mono`). -/

namespace LambdaCalc.Node

open Copying (Below Cut)

variable {room room' : Room} {budget budget' : Nat}

/-! ## Less room to go through a tree -/

theorem visitList_cut {nodes : List Node}
    (h : ∀ node ∈ nodes, Outcome.Cut (node.visit room) (node.visit room')) :
    Outcome.Cut (visitList room nodes) (visitList room' nodes) := by
  induction nodes with
  | nil => exact .refl _
  | cons node nodes ih =>
    obtain ⟨hfirst, hothers⟩ := List.forall_mem_cons.mp h
    rw [visitList, visitList]
    exact hfirst.bind fun _ => ih hothers

theorem visit_cut (h : room.Within room') (node : Node) :
    Outcome.Cut (node.visit room) (node.visit room') := by
  induction node generalizing room room' with
  | abs params spine ih =>
    rw [visit, visit]
    exact .enter h fun _ _ hinner => visitList_cut fun node hmem => ih node hmem hinner
  | bound _ _ | free _ =>
    rw [visit, visit]
    exact .enter h fun _ _ _ => .refl _
  | hole => exact .refl _

theorem visitSpliced_cut (h : room.Within room') (head : Node) :
    Outcome.Cut (visitSpliced room head) (visitSpliced room' head) := by
  induction head with
  | abs params spine ih =>
    match params, spine with
    | [], first :: others =>
      rw [visitSpliced, visitSpliced]
      refine .enter h fun _ _ hinner => ?_
      exact (visitList_cut fun node _ => visit_cut hinner node).bind
        fun _ => ih first List.mem_cons_self
    | [], [] | _ :: _, _ => exact .refl _
  | bound _ _ | free _ | hole => exact .refl _

theorem spliceWithin_cut (h : room.Within room') (head : Node) :
    Outcome.Cut (head.spliceWithin room) (head.spliceWithin room') :=
  .enter h fun _ _ hinner => (visitSpliced_cut hinner head).bind fun _ => .refl _

theorem collapseWithin_cut (h : room.Within room') (node : Node) :
    Outcome.Cut (node.collapseWithin room) (node.collapseWithin room') := by
  match node with
  | .abs [] [element] =>
    exact .enter h fun _ _ hinner => (visit_cut hinner element).bind fun _ => .refl _
  | .abs [] [] | .abs [] (_ :: _ :: _) | .abs (_ :: _) _ | .bound _ _ | .free _ | .hole =>
    exact .refl _

/-! ## A smaller budget, and less room to copy -/

theorem checkNesting_cut (h : budget ≤ budget') (spent : Int) :
    Cut (liftM (checkNesting budget spent)) (liftM (checkNesting budget' spent)) := by
  unfold checkNesting
  split
  · rw [if_pos (by omega)]
    exact Cut.refl _
  · exact Cut.throw (Or.inr rfl) _

theorem copyParams_cut (h : room.Within room') (params : List Param) :
    Cut (Param.copyListWithin room params) (Param.copyListWithin room' params) := by
  induction params with
  | nil => exact Cut.refl _
  | cons param params ih =>
    rw [Param.copyListWithin, Param.copyListWithin]
    exact .enter h fun _ _ _ => (Cut.refl _).bind fun _ => ih.bind fun _ => Cut.refl _

theorem copyWithin_cut (hroom : room.Within room') (hbudget : budget ≤ budget')
    (offset level : Int) (node : Node) :
    Cut (node.copyWithin room budget offset level)
      (node.copyWithin room' budget' offset level) := by
  induction node generalizing room room' level with
  | abs params spine ih =>
    rw [copyWithin, copyWithin]
    refine .enter hroom fun inner inner' hinner => .enter hinner fun _ _ _ => ?_
    refine (checkNesting_cut hbudget _).bind fun _ => .enter hinner fun _ _ hnaming => ?_
    refine (copyParams_cut hnaming params).bind fun params' => .enter hinner fun _ _ hinner => ?_
    rw [copyListWithin_eq_mapM, copyListWithin_eq_mapM]
    exact (Cut.mapM fun node hmem => ih node hmem hinner (level + 1)).bind fun _ => Cut.refl _
  | bound _ _ | free _ =>
    rw [copyWithin, copyWithin]
    exact .enter hroom fun _ _ hinner => .enter hinner fun _ _ _ =>
      (checkNesting_cut hbudget _).bind fun _ => Cut.refl _
  | hole => exact Cut.refl _

theorem substituteWithin_cut (hroom : room.Within room') (hbudget : budget ≤ budget')
    (argument : Node) (level : Int) (node : Node) :
    Cut (substituteWithin room budget argument level node)
      (substituteWithin room' budget' argument level node) := by
  induction node generalizing room room' level with
  | abs params spine ih =>
    rw [substituteWithin, substituteWithin]
    refine .enter hroom fun inner inner' hinner => .enter hinner fun inner inner' hinner => ?_
    rw [substituteListWithin_eq_mapM, substituteListWithin_eq_mapM]
    exact (Cut.mapM fun node hmem => ih node hmem hinner (level + 1)).bind fun _ => Cut.refl _
  | bound depth position =>
    rw [substituteWithin, substituteWithin]
    refine .enter hroom fun inner inner' hinner => ?_
    split
    · cases position with
      | zero => exact copyWithin_cut hinner hbudget level 0 argument
      | succ position => exact Cut.refl _
    · exact Cut.refl _
  | free _ =>
    rw [substituteWithin, substituteWithin]
    exact .enter hroom fun _ _ _ => Cut.refl _
  | hole => exact Cut.refl _

theorem takeWithin_cut (hroom : room.Within room') (hbudget : budget ≤ budget') (argument : Node)
    (body : List Node) :
    Cut (takeWithin room budget argument body) (takeWithin room' budget' argument body) := by
  refine .enter hroom fun _ _ hinner => ?_
  rw [substituteListWithin_eq_mapM, substituteListWithin_eq_mapM]
  exact Cut.mapM fun node _ => substituteWithin_cut hinner hbudget argument 0 node

theorem substituteList_mono (h : budget ≤ budget') (argument : Node) (level : Int)
    (nodes : List Node) :
    Below (substituteList budget argument level nodes)
      (substituteList budget' argument level nodes) := by
  rw [substituteList_eq_mapM, substituteList_eq_mapM]
  exact Below.mapM fun node _ =>
    (substituteWithin_cut (Room.within_none none) h argument level node).below

/-! ## Smaller limits for driving and reducing -/

/-- Driving a head is cut off only where something is that it is made of: by induction on the
    turns. -/
theorem driveTurns_cut {reduceHead reduceHead' : Node → Copying Node}
    (hreduceHead : ∀ node, Cut (reduceHead node) (reduceHead' node)) (hroom : room.Within room')
    (hbudget : budget ≤ budget') (turns : Nat) (head : Node) (spine : List Node) :
    Cut (driveTurns reduceHead room budget turns head spine)
      (driveTurns reduceHead' room' budget' turns head spine) := by
  have hsettle (head : Node) (spine : List Node) :
      Cut (driveTurns.settle reduceHead room head spine)
        (driveTurns.settle reduceHead' room' head spine) :=
    (hreduceHead head).bind fun result =>
      (Cut.lift (spliceWithin_cut hroom result)).bind fun _ => Cut.refl _
  induction turns generalizing head spine with
  | zero =>
    cases spine with
    | nil => exact hsettle head []
    | cons element elements => exact Cut.refl _
  | succ turns ih =>
    cases spine with
    | nil => exact hsettle head []
    | cons element elements =>
      rw [driveTurns, driveTurns]
      refine (hreduceHead head).bind fun result => ?_
      refine (Cut.lift (spliceWithin_cut hroom result)).bind fun spliced => ?_
      dsimp only
      split
      · exact (takeWithin_cut hroom hbudget _ _).bind fun body => ih _ _
      · exact hsettle _ _

/-- Within smaller limits a reduction does the same, until it is cut off: by induction on the room,
    which one call takes for the reduction and another one for driving its head. -/
theorem reduceWithin_cut {nesting nesting' : Nat} (hbudget : budget ≤ budget')
    (hnesting : nesting ≤ nesting') (node : Node) :
    Cut (reduceWithin budget nesting node) (reduceWithin budget' nesting' node) := by
  induction nesting using Nat.strong_induction_on generalizing nesting' node with
  | _ nesting ih =>
    match nesting with
    | 0 => exact Cut.throw (Or.inl rfl) _
    | nesting + 1 =>
      obtain ⟨nesting', rfl⟩ := Nat.exists_eq_add_of_le' ((Nat.succ_pos nesting).trans_le hnesting)
      have hnesting := Nat.le_of_succ_le_succ hnesting
      -- Driving takes one call more, and the reductions inside have the others.
      have hdrive (head : Node) (spine : List Node) :
          Cut (driveWithin budget nesting head spine)
            (driveWithin budget' nesting' head spine) := by
        match nesting with
        | 0 => exact Cut.throw (Or.inl rfl) _
        | inner + 1 =>
          obtain ⟨inner', rfl⟩ := Nat.exists_eq_add_of_le' ((Nat.succ_pos inner).trans_le hnesting)
          have hinner := Nat.le_of_succ_le_succ hnesting
          exact driveTurns_cut (fun node => ih inner (by omega) hinner node)
            (Room.within_some hinner) hbudget _ head spine
      match node with
      | .abs params (head :: spine) =>
        rw [reduceWithin, reduceWithin]
        refine (hdrive head spine).bind fun driven => ?_
        refine (Cut.mapM fun node _ => ih nesting (Nat.lt_succ_self _) hnesting node).bind ?_
        exact fun _ => Cut.lift (collapseWithin_cut (Room.within_some hnesting) _)
      | .abs params [] | .bound _ _ | .free _ | .hole => exact Cut.refl _

/-- Within larger limits a reduction returns what it returned. -/
theorem reduceWithin_mono {nesting nesting' : Nat} (hbudget : budget ≤ budget')
    (hnesting : nesting ≤ nesting') (node : Node) :
    Below (reduceWithin budget nesting node) (reduceWithin budget' nesting' node) :=
  (reduceWithin_cut hbudget hnesting node).below

end LambdaCalc.Node
