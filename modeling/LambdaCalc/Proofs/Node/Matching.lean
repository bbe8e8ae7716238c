import LambdaCalc.Expression.Basic
import LambdaCalc.Proofs.Agreement
import LambdaCalc.Proofs.Node.Names

set_option autoImplicit false

/-! # Trees that match

Two trees match (`Node.Matches`) if they have the same shape, and the names and the parameters at
the same places are related, in whatever way is at hand. Reduction only looks at the shape, and at a
name only to count its copies. So from matching trees and related tables it goes the same way, as
long as the tables hand out related copies of related parameters (`Expression.reduce_parallel`). -/

namespace LambdaCalc

open Copying (Parallel)

/-- Trees of the same shape with related names and parameters. -/
inductive Node.Matches (N : Nat → Nat → Prop) (P : Param → Param → Prop) : Node → Node → Prop where
  | abs {params params' : List Param} {spine spine' : List Node}
      (hparams : List.Forall₂ P params params') (hspine : List.Forall₂ (Matches N P) spine spine') :
      Matches N P (.abs params spine) (.abs params' spine')
  | bound (depth : Int) (position : Nat) :
      Matches N P (.bound depth position) (.bound depth position)
  | free {name name' : Nat} (h : N name name') : Matches N P (.free name) (.free name')
  | hole : Matches N P .hole .hole

/-- Parameters with related names, whatever their copy ids. -/
def Param.Named (N : Nat → Nat → Prop) (param param' : Param) : Prop := N param.name param'.name

namespace Node

variable {N N' : Nat → Nat → Prop} {P P' : Param → Param → Prop} {node node' : Node}
  {nodes nodes' : List Node}

/-- What holds of the first of two related elements may be used where they are related. -/
theorem forall₂_imp_of_mem {α β : Type} {R S : α → β → Prop} {values : List α} {values' : List β}
    (h : List.Forall₂ R values values') (himp : ∀ a ∈ values, ∀ b, R a b → S a b) :
    List.Forall₂ S values values' :=
  ((List.forall₂_and_left _ _).mpr ⟨himp, h⟩).imp fun _ _ h => h.1 _ h.2

/-! ## Relations -/

theorem Matches.mono (h : node.Matches N P node') (hN : ∀ name name', N name name' → N' name name')
    (hP : ∀ param param', P param param' → P' param param') : node.Matches N' P' node' := by
  induction node generalizing node' with
  | abs params spine ih =>
    cases h with
    | abs hparams hspine =>
      exact .abs (hparams.imp hP) (forall₂_imp_of_mem hspine fun node hmem _ => ih node hmem)
  | bound depth position =>
    cases h
    exact .bound _ _
  | free name =>
    cases h with
    | free h => exact .free (hN _ _ h)
  | hole =>
    cases h
    exact .hole

theorem Matches.symm (h : node.Matches N P node') :
    node'.Matches (flip N) (flip P) node := by
  induction node generalizing node' with
  | abs params spine ih =>
    cases h with
    | abs hparams hspine =>
      exact .abs hparams.flip (forall₂_imp_of_mem hspine fun node hmem _ => ih node hmem).flip
  | bound depth position =>
    cases h
    exact .bound _ _
  | free name =>
    cases h with
    | free h => exact .free h
  | hole =>
    cases h
    exact .hole

theorem forall₂_comp {α β γ : Type} {R : α → β → Prop} {S : β → γ → Prop} {values : List α}
    {values' : List β} {values'' : List γ} (h : List.Forall₂ R values values')
    (h' : List.Forall₂ S values' values'') : List.Forall₂ (Relation.Comp R S) values values'' := by
  induction h generalizing values'' with
  | nil =>
    cases h'
    exact .nil
  | cons hfirst _ ih =>
    cases h' with
    | cons hsecond hothers => exact .cons ⟨_, hfirst, hsecond⟩ (ih hothers)

theorem Matches.trans {node'' : Node} (h : node.Matches N P node')
    (h' : node'.Matches N' P' node'') :
    node.Matches (Relation.Comp N N') (Relation.Comp P P') node'' := by
  induction node generalizing node' node'' with
  | abs params spine ih =>
    cases h with
    | abs hparams hspine =>
      cases h' with
      | abs hparams' hspine' =>
        refine .abs (forall₂_comp hparams hparams') ?_
        refine forall₂_imp_of_mem (forall₂_comp hspine hspine') fun node hmem _ hcomp => ?_
        obtain ⟨_, hnode, hnode'⟩ := hcomp
        exact ih node hmem hnode hnode'
  | bound depth position =>
    cases h
    cases h'
    exact .bound _ _
  | free name =>
    cases h with
    | free h =>
      cases h' with
      | free h' => exact .free ⟨_, h, h'⟩
  | hole =>
    cases h
    cases h'
    exact .hole

theorem matches_self (hN : ∀ name, N name name) (hP : ∀ param, P param param) (node : Node) :
    node.Matches N P node := by
  induction node with
  | abs params spine ih =>
    exact .abs (List.forall₂_same.mpr fun param _ => hP param) (List.forall₂_same.mpr ih)
  | bound depth position => exact .bound _ _
  | free name => exact .free (hN name)
  | hole => exact .hole

theorem matches_eq_iff : node.Matches Eq Eq node' ↔ node = node' := by
  constructor
  · intro h
    induction node generalizing node' with
    | abs params spine ih =>
      cases h with
      | abs hparams hspine =>
        rw [List.forall₂_eq_eq_eq] at hparams
        have hspine := forall₂_imp_of_mem (S := Eq) hspine fun node hmem _ => ih node hmem
        rw [List.forall₂_eq_eq_eq] at hspine
        rw [hparams, hspine]
    | bound depth position =>
      cases h
      rfl
    | free name =>
      cases h with
      | free h => rw [h]
    | hole =>
      cases h
      rfl
  · rintro rfl
    exact matches_self (fun _ => rfl) (fun _ => rfl) node

/-- Trees with matching names are those that differ in nothing but copy ids. -/
theorem alike_iff_matches : node.alike node' = true ↔ node.Matches Eq (Param.Named Eq) node' := by
  have hmap {α β : Type} {f : α → β} {values values' : List α} :
      values.map f = values'.map f ↔ List.Forall₂ (fun a b => f a = f b) values values' := by
    rw [← List.forall₂_eq_eq_eq, List.forall₂_map_left_iff, List.forall₂_map_right_iff]
  rw [alike, decide_eq_true_eq]
  induction node generalizing node' with
  | abs params spine ih =>
    cases node' with
    | abs params' spine' =>
      rw [bare, bare, abs.injEq, bareList_eq_map, bareList_eq_map, hmap, hmap]
      constructor
      · rintro ⟨hparams, hspine⟩
        exact .abs (hparams.imp fun _ _ h => (Param.mk.inj h).1)
          (forall₂_imp_of_mem hspine fun node hmem _ => (ih node hmem).mp)
      · rintro (⟨hparams, hspine⟩)
        exact ⟨hparams.imp fun _ _ h => congrArg (Param.mk · 0) h,
          forall₂_imp_of_mem hspine fun node hmem _ => (ih node hmem).mpr⟩
    | bound | free | hole => exact ⟨nofun, nofun⟩
  | bound depth position =>
    cases node' with
    | bound depth' position' =>
      constructor
      · rintro ⟨⟩
        exact .bound _ _
      · rintro ⟨⟩
        rfl
    | abs | free | hole => exact ⟨nofun, nofun⟩
  | free name =>
    cases node' with
    | free name' =>
      constructor
      · rintro ⟨⟩
        exact .free rfl
      · rintro (_ | _ | ⟨⟨⟩⟩)
        rfl
    | abs | bound | hole => exact ⟨nofun, nofun⟩
  | hole =>
    cases node' with
    | hole => exact ⟨fun _ => .hole, fun _ => rfl⟩
    | abs | bound | free => exact ⟨nofun, nofun⟩

/-- Where the names of a tree are below a bound, those that are related to others are below it. -/
theorem Matches.within (h : node.Matches N (Param.Named N) node') {size : Nat}
    (hnames : node.NamesWithin size) :
    node.Matches (fun name name' => N name name' ∧ name < size)
      (Param.Named fun name name' => N name name' ∧ name < size) node' := by
  induction node generalizing node' with
  | abs params spine ih =>
    cases h with
    | abs hparams hspine =>
      obtain ⟨hwithin, helements⟩ := namesWithin_abs.mp hnames
      exact .abs (forall₂_imp_of_mem hparams fun param hmem _ h => ⟨h, hwithin param hmem⟩)
        (forall₂_imp_of_mem hspine fun node hmem _ h => ih node hmem h (helements node hmem))
  | bound depth position =>
    cases h
    exact .bound _ _
  | free name =>
    cases h with
    | free h => exact .free ⟨h, hnames⟩
  | hole =>
    cases h
    exact .hole

/-! ## Moving matching trees -/

theorem Matches.unshift (h : node.Matches N P node') (level : Int) :
    (node.unshift level).Matches N P (node'.unshift level) := by
  induction node generalizing node' level with
  | abs params spine ih =>
    cases h with
    | abs hparams hspine =>
      rw [Node.unshift, Node.unshift, unshiftList_eq_map, unshiftList_eq_map]
      refine .abs hparams (List.forall₂_map_left_iff.mpr (List.forall₂_map_right_iff.mpr ?_))
      exact forall₂_imp_of_mem hspine fun node hmem _ h => ih node hmem h (level + 1)
  | bound depth position =>
    cases h
    exact .bound _ _
  | free name =>
    cases h with
    | free h => exact .free h
  | hole =>
    cases h
    exact .hole

theorem matches_unshiftList (h : List.Forall₂ (Matches N P) nodes nodes') (level : Int) :
    List.Forall₂ (Matches N P) (unshiftList level nodes) (unshiftList level nodes') := by
  rw [unshiftList_eq_map, unshiftList_eq_map]
  exact List.forall₂_map_left_iff.mpr
    (List.forall₂_map_right_iff.mpr (h.imp fun _ _ h => h.unshift level))

theorem visitList_eq {room : Room}
    (h : List.Forall₂ (fun node node' => node.visit room = node'.visit room) nodes nodes') :
    visitList room nodes = visitList room nodes' := by
  induction h with
  | nil => rfl
  | cons hfirst _ ih => rw [visitList, visitList, hfirst, ih]

/-- Matching trees are gone through alike. -/
theorem Matches.visit_eq (h : node.Matches N P node') (room : Room) :
    node.visit room = node'.visit room := by
  induction node generalizing node' room with
  | abs params spine ih =>
    cases h with
    | abs hparams hspine =>
      rw [visit, visit]
      refine congrArg (room.enter >>= ·) (funext fun inner => visitList_eq ?_)
      exact forall₂_imp_of_mem hspine fun node hmem _ h => ih node hmem h inner
  | bound depth position =>
    cases h
    rfl
  | free name =>
    cases h
    rfl
  | hole =>
    cases h
    rfl

theorem Matches.visitSpliced_eq (h : node.Matches N P node') (room : Room) :
    node.visitSpliced room = node'.visitSpliced room := by
  induction node generalizing node' with
  | abs params spine ih =>
    cases h with
    | abs hparams hspine =>
      cases hparams with
      | cons hparam hparams => rfl
      | nil =>
        cases hspine with
        | nil => rfl
        | cons hfirst hothers =>
          have hreverse := List.rel_reverse (List.Forall₂.cons hfirst hothers)
          rw [visitSpliced, visitSpliced, ih _ List.mem_cons_self hfirst]
          refine congrArg (room.enter >>= ·) (funext fun inner => ?_)
          rw [visitList_eq (hreverse.imp fun _ _ h => h.visit_eq inner)]
  | bound depth position =>
    cases h
    rfl
  | free name =>
    cases h
    rfl
  | hole =>
    cases h
    rfl

/-- A head and the elements behind it match those of another spine. -/
def MatchesSpine (N : Nat → Nat → Prop) (P : Param → Param → Prop)
    (driven driven' : Node × List Node) : Prop :=
  driven.1.Matches N P driven'.1 ∧ List.Forall₂ (Matches N P) driven.2 driven'.2

theorem Matches.splice (h : node.Matches N P node') :
    MatchesSpine N P node.splice node'.splice := by
  induction node generalizing node' with
  | abs params spine ih =>
    cases h with
    | abs hparams hspine =>
      cases hparams with
      | cons hparam hparams => exact ⟨.abs (.cons hparam hparams) hspine, .nil⟩
      | nil =>
        cases hspine with
        | nil => exact ⟨.abs .nil .nil, .nil⟩
        | cons hfirst hothers =>
          obtain ⟨hhead, hpushed⟩ := ih _ List.mem_cons_self hfirst
          exact ⟨hhead.unshift 0,
            List.rel_append (matches_unshiftList hpushed 0) (matches_unshiftList hothers 0)⟩
  | bound depth position =>
    cases h
    exact ⟨.bound _ _, .nil⟩
  | free name =>
    cases h with
    | free h => exact ⟨.free h, .nil⟩
  | hole =>
    cases h
    exact ⟨.hole, .nil⟩

theorem Matches.spliceWithin (h : node.Matches N P node') (room : Room) :
    Outcome.Alike Eq (MatchesSpine N P) (node.spliceWithin room) (node'.spliceWithin room) := by
  refine .bind_self (fun _ => rfl) room.enter fun inner => ?_
  rw [h.visitSpliced_eq inner]
  exact .bind_self (fun _ => rfl) _ fun _ => .ok h.splice

theorem Matches.collapse (h : node.Matches N P node') :
    node.collapse.Matches N P node'.collapse := by
  cases h with
  | bound depth position => exact .bound _ _
  | free h => exact .free h
  | hole => exact .hole
  | abs hparams hspine =>
    cases hparams with
    | cons hparam hparams => exact .abs (.cons hparam hparams) hspine
    | nil =>
      cases hspine with
      | nil => exact .abs .nil .nil
      | cons hfirst hothers =>
        cases hothers with
        | nil => exact hfirst.unshift 0
        | cons hsecond hothers => exact .abs .nil (.cons hfirst (.cons hsecond hothers))

theorem Matches.collapseWithin (h : node.Matches N P node') (room : Room) :
    Outcome.Alike Eq (Matches N P) (node.collapseWithin room) (node'.collapseWithin room) := by
  have hcollapse := h.collapse
  cases h with
  | bound _ _ | free _ | hole => exact .ok hcollapse
  | abs hparams hspine =>
    cases hparams with
    | cons _ _ => exact .ok hcollapse
    | nil =>
      cases hspine with
      | nil => exact .ok hcollapse
      | cons hfirst hothers =>
        cases hothers with
        | cons _ _ => exact .ok hcollapse
        | nil =>
          refine .bind_self (fun _ => rfl) room.enter fun inner => ?_
          rw [unshiftWithin, unshiftWithin, hfirst.visit_eq inner]
          exact .bind_self (fun _ => rfl) _ fun _ => .ok (hfirst.unshift 0)

end Node

/-! ## Running in parallel -/

/-- From related tables, related copies of related parameters are handed out. -/
def CopiesAlike (P : Param → Param → Prop) (T : NameTable → NameTable → Prop) : Prop :=
  ∀ param param', P param param' →
    Parallel T (fun copy copy' => P ⟨param.name, copy⟩ ⟨param'.name, copy'⟩)
      (freshCopy param.name) (freshCopy param'.name)

section

variable {N : Nat → Nat → Prop} {P : Param → Param → Prop} {T : NameTable → NameTable → Prop}
  (hcopies : CopiesAlike P T)

include hcopies

theorem Param.copyListWithin_parallel {params params' : List Param} (room : Room)
    (h : List.Forall₂ P params params') :
    Parallel T (List.Forall₂ P) (Param.copyListWithin room params)
      (Param.copyListWithin room params') := by
  induction h with
  | nil => exact .pure .nil
  | cons hparam _ ih =>
    refine .bind_lift _ fun _ => ?_
    exact (hcopies _ _ hparam).bind fun _ _ hcopy => ih.bind fun _ _ hparams =>
      .pure (.cons hcopy hparams)

namespace Node

variable {node node' : Node} {nodes nodes' : List Node}

theorem copyWithin_parallel (h : node.Matches N P node') (room : Room) (budget : Nat)
    (offset level : Int) :
    Parallel T (Matches N P) (node.copyWithin room budget offset level)
      (node'.copyWithin room budget offset level) := by
  induction node generalizing node' room level with
  | abs params spine ih =>
    cases h with
    | abs hparams hspine =>
      rw [copyWithin, copyWithin]
      refine .bind_lift _ fun _ => .bind_lift _ fun _ => .bind_lift _ fun _ => ?_
      refine .bind_lift _ fun naming => ?_
      refine (Param.copyListWithin_parallel hcopies naming hparams).bind fun _ _ hparams' => ?_
      refine .bind_lift _ fun inner => ?_
      rw [copyListWithin_eq_mapM, copyListWithin_eq_mapM]
      have hspine := forall₂_imp_of_mem hspine fun node hmem node' h =>
        ih node hmem h inner (level + 1)
      exact (Parallel.mapM hspine fun _ _ => id).bind fun _ _ hspine' =>
        .pure (.abs hparams' hspine')
  | bound depth position =>
    cases h
    rw [copyWithin]
    exact .bind_lift _ fun _ => .bind_lift _ fun _ => .bind_lift _ fun _ => .pure (.bound _ _)
  | free name =>
    cases h with
    | free h =>
      rw [copyWithin, copyWithin]
      exact .bind_lift _ fun _ => .bind_lift _ fun _ => .bind_lift _ fun _ => .pure (.free h)
  | hole =>
    cases h
    exact .throw _

theorem substituteWithin_parallel {argument argument' : Node}
    (hargument : argument.Matches N P argument') (h : node.Matches N P node') (room : Room)
    (budget : Nat) (level : Int) :
    Parallel T (Matches N P) (substituteWithin room budget argument level node)
      (substituteWithin room budget argument' level node') := by
  induction node generalizing node' room level with
  | abs params spine ih =>
    cases h with
    | abs hparams hspine =>
      rw [substituteWithin, substituteWithin]
      refine .bind_lift _ fun _ => .bind_lift _ fun inner => ?_
      rw [substituteListWithin_eq_mapM, substituteListWithin_eq_mapM]
      have hspine := forall₂_imp_of_mem hspine fun node hmem node' h =>
        ih node hmem h inner (level + 1)
      exact (Parallel.mapM hspine fun _ _ => id).bind fun _ _ hspine' =>
        .pure (.abs hparams hspine')
  | bound depth position =>
    cases h
    rw [substituteWithin, substituteWithin]
    refine .bind_lift _ fun inner => ?_
    split
    · cases position with
      | zero => exact copyWithin_parallel hcopies hargument inner budget level 0
      | succ position => exact .pure (.bound _ _)
    · exact .pure (.bound _ _)
  | free name =>
    cases h with
    | free h => exact .bind_lift _ fun _ => .pure (.free h)
  | hole =>
    cases h
    exact .throw _

theorem takeWithin_parallel {argument argument' : Node}
    (hargument : argument.Matches N P argument') (h : List.Forall₂ (Matches N P) nodes nodes')
    (room : Room) (budget : Nat) :
    Parallel T (List.Forall₂ (Matches N P)) (takeWithin room budget argument nodes)
      (takeWithin room budget argument' nodes') := by
  refine .bind_lift _ fun inner => ?_
  rw [substituteListWithin_eq_mapM, substituteListWithin_eq_mapM]
  exact Parallel.mapM h fun _ _ h => substituteWithin_parallel hcopies hargument h inner budget 0

/-- Driving a head runs in parallel if reducing one does: by induction on the turns. -/
theorem driveTurns_parallel {reduceHead : Node → Copying Node}
    (hreduceHead : ∀ head head', head.Matches N P head' →
      Parallel T (Matches N P) (reduceHead head) (reduceHead head'))
    (room : Room) (budget turns : Nat) {head head' : Node} {spine spine' : List Node}
    (hhead : head.Matches N P head') (hspine : List.Forall₂ (Matches N P) spine spine') :
    Parallel T (MatchesSpine N P) (driveTurns reduceHead room budget turns head spine)
      (driveTurns reduceHead room budget turns head' spine') := by
  have hsettle {head head' : Node} {spine spine' : List Node} (hhead : head.Matches N P head')
      (hspine : List.Forall₂ (Matches N P) spine spine') :
      Parallel T (MatchesSpine N P) (driveTurns.settle reduceHead room head spine)
        (driveTurns.settle reduceHead room head' spine') :=
    (hreduceHead _ _ hhead).bind fun _ _ hresult =>
      (Parallel.lift (hresult.spliceWithin room)).bind fun _ _ hspliced =>
        .pure ⟨hspliced.1, List.rel_append hspliced.2 hspine⟩
  induction turns generalizing head head' spine spine' with
  | zero =>
    cases hspine with
    | nil => exact hsettle hhead .nil
    | cons _ _ => exact .throw _
  | succ turns ih =>
    cases hspine with
    | nil => exact hsettle hhead .nil
    | cons helement helements =>
      rw [driveTurns, driveTurns]
      refine (hreduceHead _ _ hhead).bind fun result result' hresult => ?_
      refine (Parallel.lift (hresult.spliceWithin room)).bind ?_
      rintro ⟨first, pushed⟩ ⟨first', pushed'⟩ ⟨hfirst, hpushed⟩
      -- What the head does depends on its shape and on whether an element is left.
      have hbehind := List.rel_append hpushed (.cons helement helements)
      dsimp only at hfirst hbehind ⊢
      generalize pushed ++ _ = behind at hbehind ⊢
      generalize pushed' ++ _ = behind' at hbehind ⊢
      cases hfirst with
      | bound depth position => exact hsettle (.bound _ _) hbehind
      | free h => exact hsettle (.free h) hbehind
      | hole => exact hsettle .hole hbehind
      | abs hparams hbody =>
        cases hparams with
        | nil => exact hsettle (.abs .nil hbody) hbehind
        | cons hparam hparams =>
          cases hbehind with
          | nil => exact hsettle (.abs (.cons hparam hparams) hbody) .nil
          | cons hargument hrest =>
            exact (takeWithin_parallel hcopies hargument hbody room budget).bind
              fun _ _ hbody' => ih (.abs hparams hbody') hrest

/-- Matching trees are reduced in parallel: by induction on the room. -/
theorem reduceWithin_parallel (budget nesting : Nat) (h : node.Matches N P node') :
    Parallel T (Matches N P) (reduceWithin budget nesting node)
      (reduceWithin budget nesting node') := by
  induction nesting using Nat.strong_induction_on generalizing node node' with
  | _ nesting ih =>
    match nesting with
    | 0 => exact .throw _
    | nesting + 1 =>
      cases h with
      | bound depth position => exact .pure (.bound _ _)
      | free h => exact .pure (.free h)
      | hole => exact .throw _
      | abs hparams hspine =>
        cases hspine with
        | nil => exact .pure (.abs hparams .nil)
        | @cons head head' spine spine' hhead hbehind =>
          have hdrive : Parallel T (MatchesSpine N P) (driveWithin budget nesting head spine)
              (driveWithin budget nesting head' spine') := by
            match nesting with
            | 0 => exact .throw _
            | inner + 1 =>
              rw [driveWithin, driveWithin, hbehind.length_eq]
              exact driveTurns_parallel hcopies (fun _ _ => ih inner (by omega)) (some inner)
                budget _ hhead hbehind
          rw [reduceWithin, reduceWithin]
          refine hdrive.bind ?_
          rintro ⟨_, _⟩ ⟨_, _⟩ ⟨hhead', hleft⟩
          refine (Parallel.mapM hleft fun _ _ => ih nesting (Nat.lt_succ_self _)).bind
            fun _ _ hspine' => ?_
          exact .lift ((Matches.abs hparams (.cons hhead' hspine')).collapseWithin _)

end Node

/-- Expressions with matching trees and related tables are reduced in parallel, within any
    limits. -/
theorem Expression.reduce_parallel {expression expression' : Expression}
    (hroot : expression.root.Matches N P expression'.root)
    (hnames : T expression.names expression'.names) (limits : Limits) :
    Outcome.Alike Eq (fun reduced reduced' => reduced.root.Matches N P reduced'.root
        ∧ T reduced.names reduced'.names)
      (expression.reduce limits) (expression'.reduce limits) := by
  have h := Node.reduceWithin_parallel hcopies limits.copying limits.nesting hroot hnames
  unfold Expression.reduce Node.reduce StateT.run
  generalize expression.root.reduceWithin _ _ expression.names = outcome at h ⊢
  generalize expression'.root.reduceWithin _ _ expression'.names = outcome' at h ⊢
  cases h with
  | ok h => exact .ok h
  | @error stop stop' h =>
    obtain rfl := h
    cases stop <;> exact .error rfl

end

end LambdaCalc
