import LambdaCalc.Proofs.Node.Driving

set_option autoImplicit false

/-! # Names in a table

The names of a tree that is built or reduced are places of its name table (`Node.NamesWithin`), so
that a copy id can be handed out for each of them. Reducing changes nothing but the counters of the
table, and keeps the names within it (`reduceWithin_ensures`). -/

namespace LambdaCalc.Node

mutual

/-- All names in a tree, of parameters and free ones, are less than a bound. -/
def NamesWithin (count : Nat) : Node → Prop
  | .abs params spine => (∀ param ∈ params, param.name < count) ∧ AllNamesWithin count spine
  | .bound .. => True
  | .free name => name < count
  | .hole => True

/-- All names in the elements of a spine are less than a bound. -/
def AllNamesWithin (count : Nat) : List Node → Prop
  | [] => True
  | node :: nodes => node.NamesWithin count ∧ AllNamesWithin count nodes

end

theorem allNamesWithin_iff {count : Nat} {nodes : List Node} :
    AllNamesWithin count nodes ↔ ∀ node ∈ nodes, node.NamesWithin count := by
  induction nodes with
  | nil => simp [AllNamesWithin]
  | cons node nodes ih => simp [AllNamesWithin, ih]

theorem namesWithin_abs {count : Nat} {params : List Param} {spine : List Node} :
    (Node.abs params spine).NamesWithin count
      ↔ (∀ param ∈ params, param.name < count) ∧ ∀ node ∈ spine, node.NamesWithin count := by
  rw [NamesWithin, allNamesWithin_iff]

/-- Leaving an abstraction changes no name. -/
theorem NamesWithin.unshift {count : Nat} {level : Int} {node : Node} (h : node.NamesWithin count) :
    (node.unshift level).NamesWithin count := by
  induction node generalizing level with
  | abs params spine ih =>
    obtain ⟨hparams, hspine⟩ := namesWithin_abs.mp h
    rw [Node.unshift, namesWithin_abs, unshiftList_eq_map]
    exact ⟨hparams, List.forall_mem_map.mpr fun element hmem =>
      ih element hmem (hspine element hmem)⟩
  | bound _ _ | hole => trivial
  | free name => exact h

theorem namesWithin_unshiftList {count : Nat} {level : Int} {nodes : List Node}
    (h : ∀ node ∈ nodes, node.NamesWithin count) :
    ∀ node ∈ unshiftList level nodes, node.NamesWithin count := by
  rw [unshiftList_eq_map]
  exact List.forall_mem_map.mpr fun node hmem => (h node hmem).unshift

theorem NamesWithin.splice {count : Nat} {node : Node} (h : node.NamesWithin count) :
    node.splice.1.NamesWithin count ∧ ∀ element ∈ node.splice.2, element.NamesWithin count := by
  induction node with
  | abs params spine ih =>
    cases params with
    | cons _ _ => exact ⟨h, List.forall_mem_nil _⟩
    | nil =>
      cases spine with
      | nil => exact ⟨h, List.forall_mem_nil _⟩
      | cons first others =>
        obtain ⟨hfirst, hothers⟩ := List.forall_mem_cons.mp (namesWithin_abs.mp h).2
        obtain ⟨hhead, hpushed⟩ := ih first List.mem_cons_self hfirst
        rw [Node.splice]
        exact ⟨hhead.unshift, List.forall_mem_append.mpr
          ⟨namesWithin_unshiftList hpushed, namesWithin_unshiftList hothers⟩⟩
  | bound _ _ | free _ | hole => exact ⟨h, List.forall_mem_nil _⟩

theorem NamesWithin.collapse {count : Nat} {node : Node} (h : node.NamesWithin count) :
    node.collapse.NamesWithin count := by
  unfold Node.collapse
  split
  · exact ((namesWithin_abs.mp h).2 _ List.mem_cons_self).unshift
  · exact h

/-! ## Copying and substituting -/

open Copying (Ensures)

theorem freshCopy_ensures (id : Nat) : Ensures (freshCopy id) fun _ => True :=
  fun _ _ _ h => ⟨trivial, NameTable.sameNames_of_freshCopy h⟩

theorem copyParams_ensures (params : List Param) :
    Ensures (Param.copyList params) fun params' => params'.map (·.name) = params.map (·.name) := by
  induction params with
  | nil => exact Ensures.pure rfl
  | cons param params ih =>
    rw [Param.copyList_cons]
    refine (freshCopy_ensures param.name).bind fun copy _ => ih.bind fun params' hparams => ?_
    exact Ensures.pure (by rw [List.map_cons, List.map_cons, hparams])

/-- A copy has the names of the original. -/
theorem copy_ensures {budget count : Nat} {offset level : Int} {node : Node}
    (h : node.NamesWithin count) :
    Ensures (node.copy budget offset level) (NamesWithin count) := by
  induction node generalizing level with
  | abs params spine ih =>
    obtain ⟨hparams, hspine⟩ := namesWithin_abs.mp h
    rw [copy_abs]
    refine (Ensures.lift _).bind fun _ _ =>
      (copyParams_ensures params).bind fun params' hnames => ?_
    refine (Ensures.mapM fun node hmem => ih node hmem (hspine node hmem)).bind
      fun spine' hspine' => ?_
    refine Ensures.pure (namesWithin_abs.mpr ⟨fun param hparam => ?_, hspine'⟩)
    have hname : param.name ∈ params.map (·.name) :=
      hnames ▸ List.mem_map.mpr ⟨param, hparam, rfl⟩
    obtain ⟨original, horiginal, heq⟩ := List.mem_map.mp hname
    exact heq ▸ hparams original horiginal
  | bound depth position =>
    rw [copy_bound]
    exact (Ensures.lift _).bind fun _ _ => Ensures.pure trivial
  | free name =>
    rw [copy_free]
    exact (Ensures.lift _).bind fun _ _ => Ensures.pure h
  | hole => exact fun _ _ _ h => absurd h Copying.throw_ne_ok

theorem substitute_ensures {budget count : Nat} {argument : Node} {level : Int} {node : Node}
    (hargument : argument.NamesWithin count) (h : node.NamesWithin count) :
    Ensures (substitute budget argument level node) (NamesWithin count) := by
  induction node generalizing level with
  | abs params spine ih =>
    obtain ⟨hparams, hspine⟩ := namesWithin_abs.mp h
    rw [substitute_abs]
    refine (Ensures.mapM fun node hmem => ih node hmem (hspine node hmem)).bind
      fun spine' hspine' => ?_
    exact Ensures.pure (namesWithin_abs.mpr ⟨hparams, hspine'⟩)
  | bound depth position =>
    obtain hcopy | ⟨_, hbound⟩ := substitute_bound_cases budget argument level depth position
    · rw [hcopy]
      exact copy_ensures hargument
    · rw [hbound]
      exact Ensures.pure trivial
  | free name => exact Ensures.pure h
  | hole => exact fun _ _ _ h => absurd h Copying.throw_ne_ok

theorem substituteList_ensures {budget count : Nat} {argument : Node} {level : Int}
    {nodes : List Node} (hargument : argument.NamesWithin count)
    (h : ∀ node ∈ nodes, node.NamesWithin count) :
    Ensures (substituteList budget argument level nodes)
      fun nodes' => ∀ node ∈ nodes', node.NamesWithin count := by
  rw [substituteList_eq_mapM]
  exact Ensures.mapM fun node hmem => substitute_ensures hargument (h node hmem)

/-! ## Driving and reducing -/

theorem Driven.ensures {reduceHead : Node → Copying Node} {budget count : Nat}
    (hreduceHead : ∀ {node : Node}, node.NamesWithin count →
      Ensures (reduceHead node) (NamesWithin count))
    {head head' : Node} {spine spine' : List Node} {table table' : NameTable}
    (h : Driven reduceHead none budget head spine table head' spine' table')
    (hhead : head.NamesWithin count) (hspine : ∀ element ∈ spine, element.NamesWithin count) :
    (head'.NamesWithin count ∧ ∀ element ∈ spine', element.NamesWithin count)
      ∧ table'.SameNames table := by
  induction h with
  | rest hreduce _ _ =>
    obtain ⟨hresult, hsame⟩ := hreduceHead hhead hreduce
    obtain ⟨hfirst, hpushed⟩ := hresult.splice
    exact ⟨⟨hfirst, List.forall_mem_append.mpr ⟨hpushed, hspine⟩⟩, hsame⟩
  | consume hreduce htake _ ih =>
    obtain ⟨hresult, hsame⟩ := hreduceHead hhead hreduce
    obtain ⟨hparams, hbody⟩ := namesWithin_abs.mp hresult
    obtain ⟨hargument, hrest⟩ := List.forall_mem_cons.mp hspine
    obtain ⟨hbody', hsame'⟩ := substituteList_ensures hargument hbody htake
    obtain ⟨hnames, hsame''⟩ := ih (namesWithin_abs.mpr
      ⟨fun param hparam => hparams param (List.mem_cons_of_mem _ hparam), hbody'⟩) hrest
    exact ⟨hnames, hsame''.trans (hsame'.trans hsame)⟩

/-- Reducing keeps the names of a tree and those of its table. -/
theorem reduceWithin_ensures {budget nesting count : Nat} {node : Node}
    (h : node.NamesWithin count) :
    Ensures (reduceWithin budget nesting node) (NamesWithin count) := by
  induction nesting generalizing node with
  | zero => exact fun _ _ _ h => absurd h Copying.throw_ne_ok
  | succ nesting ih =>
    match node with
    | .abs params (head :: spine) =>
      intro table result table' hrun
      obtain ⟨hparams, hnodes⟩ := namesWithin_abs.mp h
      obtain ⟨hhead, hspine⟩ := List.forall_mem_cons.mp hnodes
      obtain ⟨head', left, between, spine', hdrive, hmapM, rfl⟩ :=
        exists_of_reduceWithin_abs hrun
      obtain ⟨⟨hhead', hleft⟩, hsame⟩ := hdrive.ensures ih hhead hspine
      obtain ⟨hspine', hsame'⟩ := Ensures.mapM (fun node hmem => ih (hleft node hmem)) hmapM
      exact ⟨(namesWithin_abs.mpr
        ⟨hparams, List.forall_mem_cons.mpr ⟨hhead', hspine'⟩⟩).collapse, hsame'.trans hsame⟩
    | .abs params [] | .bound _ _ | .free _ => exact Ensures.pure h
    | .hole => exact fun _ _ _ h => absurd h Copying.throw_ne_ok

end LambdaCalc.Node
