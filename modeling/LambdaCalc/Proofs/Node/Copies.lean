import LambdaCalc.Proofs.Node.Driving

set_option autoImplicit false

/-! # Copy ids

Copy ids tell the instances of a parameter apart: in a tree no two parameters have both the same
name and the same copy id, and every copy id is one that the counter of its name has handed out
(`Param.Apart`). A copy of an argument gets fresh ids throughout, and an argument is dropped once
its copies have been made, so that reducing keeps the parameters of a tree apart from each other and
from all others that have been handed out before (`Node.reduceWithin_keepsApart`). -/

namespace LambdaCalc

/-! ## Parameters that are told apart -/

namespace Param

/-- The copy id of a parameter has been handed out: the counter of its name is beyond it. -/
def Issued (counters : List Int) (param : Param) : Prop :=
  ∃ counter, counters[param.name]? = some counter ∧ param.copy < counter

/-- No two parameters have both the same name and the same copy id, and all copy ids have been
    handed out. -/
structure Apart (counters : List Int) (params : List Param) : Prop where
  nodup : params.Nodup
  issued : ∀ param ∈ params, param.Issued counters

variable {counters counters' : List Int} {param : Param} {params params' : List Param}

/-- What has been handed out stays so while counters go up. -/
theorem Issued.mono (h : param.Issued counters) (hle : List.Forall₂ (· ≤ ·) counters counters') :
    param.Issued counters' := by
  obtain ⟨counter, hcounter, hlt⟩ := h
  obtain ⟨hbound, rfl⟩ := List.getElem?_eq_some_iff.mp hcounter
  have hbound' : param.name < counters'.length := hle.length_eq ▸ hbound
  exact ⟨_, List.getElem?_eq_getElem hbound', Int.lt_of_lt_of_le hlt (hle.get hbound hbound')⟩

theorem Apart.perm (h : Apart counters params) (hperm : params.Perm params') :
    Apart counters params' :=
  ⟨hperm.nodup_iff.mp h.nodup, fun param hmem => h.issued param (hperm.mem_iff.mpr hmem)⟩

/-- Parameters that are dropped do not matter to the others. -/
theorem Apart.sublist (h : Apart counters params) (hsub : params'.Sublist params) :
    Apart counters params' :=
  ⟨h.nodup.sublist hsub, fun param hmem => h.issued param (hsub.subset hmem)⟩

end Param

open Param (Apart)

/-! ## Counting up -/

theorem NameTable.copies_le_bump (table : NameTable) (id : Nat) :
    List.Forall₂ (· ≤ ·) table.copies (table.bump id).copies := by
  rw [copies_bump, List.forall₂_iff_get]
  refine ⟨(List.length_modify _ _ _).symm, fun place hlt hlt' => ?_⟩
  rw [List.get_eq_getElem, List.get_eq_getElem, List.getElem_modify]
  split <;> omega

/-- A fresh copy id is apart from all that have been handed out. -/
theorem NameTable.apart_freshCopy {table table' : NameTable} {id : Nat} {copy : Int}
    (h : table.freshCopy id = .ok (copy, table')) {params : List Param}
    (hparams : Apart table.copies params) : Apart table'.copies (⟨id, copy⟩ :: params) := by
  unfold freshCopy at h
  split at h
  · next entry hentry =>
    obtain ⟨rfl, rfl⟩ := Prod.mk.inj (Except.ok.inj h)
    have hcounter : table.copies[id]? = some entry.nextCopy := by
      rw [copies, List.getElem?_map, hentry]
      rfl
    refine ⟨List.nodup_cons.mpr ⟨fun hmem => ?_, hparams.nodup⟩, List.forall_mem_cons.mpr ⟨?_,
      fun param hmem => (hparams.issued param hmem).mono (table.copies_le_bump id)⟩⟩
    · obtain ⟨counter, hcounter', hlt⟩ := hparams.issued _ hmem
      rw [Option.some.inj (hcounter'.symm.trans hcounter)] at hlt
      exact Int.lt_irrefl _ hlt
    · refine ⟨entry.nextCopy + 1, ?_, Int.lt_succ _⟩
      rw [copies_bump, List.getElem?_modify, hcounter]
      exact congrArg some (if_pos rfl)
  · cases h

namespace Copying

variable {α β : Type} {before middle : List Param} {after : α → List Param}

/-- A calculation takes parameters to those of its result. No counter goes down, and if the
    parameters are apart, from whatever others there are, so are those of the result. -/
def KeepsApart (calculation : Copying α) (before : List Param) (after : α → List Param) : Prop :=
  ∀ ⦃table result table'⦄, calculation table = .ok (result, table') →
    List.Forall₂ (· ≤ ·) table.copies table'.copies
      ∧ ∀ others, Apart table.copies (before ++ others) →
        Apart table'.copies (after result ++ others)

theorem forall₂_le_refl (counters : List Int) : List.Forall₂ (· ≤ ·) counters counters :=
  List.forall₂_refl counters

theorem forall₂_le_trans {first second third : List Int} (h : List.Forall₂ (· ≤ ·) first second)
    (h' : List.Forall₂ (· ≤ ·) second third) : List.Forall₂ (· ≤ ·) first third := by
  induction h generalizing third with
  | nil => exact h'
  | cons hle _ ih =>
    cases h' with
    | cons hle' h' => exact .cons (Int.le_trans hle hle') (ih h')

theorem KeepsApart.pure {value : α} (h : (after value).Sublist before) :
    KeepsApart (Pure.pure value : Copying α) before after := by
  intro table result table' hresult
  obtain ⟨rfl, rfl⟩ := pure_inj hresult
  exact ⟨forall₂_le_refl _, fun others hapart =>
    hapart.sublist (h.append (List.Sublist.refl others))⟩

theorem KeepsApart.lift (outcome : Outcome α) (before : List Param) :
    KeepsApart (liftM outcome : Copying α) before fun _ => before := by
  intro table result table' hresult
  obtain ⟨_, _, heq⟩ := lift_eq_ok.mp hresult
  cases heq
  exact ⟨forall₂_le_refl _, fun _ => id⟩

theorem KeepsApart.bind {first : Copying α} {second : α → Copying β} {between : α → List Param}
    {after : β → List Param} (h : KeepsApart first before between)
    (h' : ∀ value, KeepsApart (second value) (between value) after) :
    KeepsApart (first >>= second) before after := by
  intro table result table' hresult
  obtain ⟨value, _, hfirst, hsecond⟩ := bind_eq_ok.mp hresult
  obtain ⟨hle, hapart⟩ := h hfirst
  obtain ⟨hle', hapart'⟩ := h' value hsecond
  exact ⟨forall₂_le_trans hle hle', fun others hbefore => hapart' others (hapart others hbefore)⟩

/-- Parameters behind those at hand stay apart from them. -/
theorem KeepsApart.append {calculation : Copying α} (h : KeepsApart calculation before after)
    (more : List Param) :
    KeepsApart calculation (before ++ more) fun result => after result ++ more := by
  intro table result table' hresult
  obtain ⟨hle, hapart⟩ := h hresult
  refine ⟨hle, fun others hbefore => ?_⟩
  rw [List.append_assoc] at hbefore ⊢
  exact hapart _ hbefore

/-- Parameters in front of those at hand stay apart from them. -/
theorem KeepsApart.prepend {calculation : Copying α} (h : KeepsApart calculation before after)
    (more : List Param) :
    KeepsApart calculation (more ++ before) fun result => more ++ after result := by
  intro table result table' hresult
  obtain ⟨hle, hapart⟩ := h.append more hresult
  exact ⟨hle, fun others hbefore =>
    (hapart others (hbefore.perm (List.perm_append_comm.append_right others))).perm
      (List.perm_append_comm.append_right others)⟩

theorem KeepsApart.mapM {f : α → Copying β} {before : α → List Param} {after : β → List Param}
    {values : List α} (h : ∀ value ∈ values, KeepsApart (f value) (before value) after) :
    KeepsApart (values.mapM f) (values.flatMap before) fun results => results.flatMap after := by
  induction values with
  | nil => exact .pure (List.Sublist.refl _)
  | cons value values ih =>
    obtain ⟨hfirst, hothers⟩ := List.forall_mem_cons.mp h
    rw [List.mapM_cons, List.flatMap_cons]
    refine (hfirst.append _).bind fun result => ((ih hothers).prepend _).bind fun results => ?_
    exact .pure (List.flatMap_cons ▸ List.Sublist.refl _)

end Copying

open Copying (KeepsApart)

theorem freshCopy_keepsApart (id : Nat) :
    KeepsApart (freshCopy id) [] fun copy => [⟨id, copy⟩] := by
  intro table copy table' h
  refine ⟨?_, fun others hothers => NameTable.apart_freshCopy h hothers⟩
  unfold freshCopy NameTable.freshCopy at h
  split at h
  · cases h
    exact table.copies_le_bump id
  · cases h

theorem Param.copyList_keepsApart (params : List Param) :
    KeepsApart (Param.copyList params) [] id := by
  induction params with
  | nil => exact .pure (List.Sublist.refl _)
  | cons param params ih =>
    rw [Param.copyList_cons]
    refine (freshCopy_keepsApart param.name).bind fun copy => ?_
    refine (ih.prepend [⟨param.name, copy⟩]).bind fun params' => ?_
    exact .pure (List.Sublist.refl _)

namespace Node

/-! ## The parameters of a tree -/

mutual

/-- All parameters in a tree, as they stand from left to right. -/
def allParams : Node → List Param
  | .abs params spine => params ++ allParamsList spine
  | .bound .. | .free _ | .hole => []

/-- All parameters in the elements of a spine. -/
def allParamsList : List Node → List Param
  | [] => []
  | node :: nodes => node.allParams ++ allParamsList nodes

end

theorem allParams_abs (params : List Param) (spine : List Node) :
    (Node.abs params spine).allParams = params ++ spine.flatMap allParams := by
  have hlist (nodes : List Node) : allParamsList nodes = nodes.flatMap allParams := by
    induction nodes with
    | nil => rfl
    | cons node nodes ih => rw [allParamsList, ih, List.flatMap_cons]
  rw [allParams, hlist]

/-- Leaving an abstraction changes no parameter. -/
theorem allParams_unshift (level : Int) (node : Node) :
    (node.unshift level).allParams = node.allParams := by
  induction node generalizing level with
  | abs params spine ih =>
    rw [unshift, unshiftList_eq_map, allParams_abs, allParams_abs, List.flatMap_map]
    exact congrArg (params ++ ·)
      (List.flatMap_congr fun element hmem => ih element hmem (level + 1))
  | bound _ _ | free _ | hole => rfl

theorem flatMap_allParams_unshiftList (level : Int) (nodes : List Node) :
    (unshiftList level nodes).flatMap allParams = nodes.flatMap allParams := by
  rw [unshiftList_eq_map, List.flatMap_map]
  exact List.flatMap_congr fun node _ => allParams_unshift level node

theorem allParams_splice (node : Node) :
    node.splice.1.allParams ++ node.splice.2.flatMap allParams = node.allParams := by
  induction node with
  | abs params spine ih =>
    match params, spine with
    | _ :: _, _ | [], [] => exact List.append_nil _
    | [], first :: others =>
      rw [splice, allParams_unshift, List.flatMap_append, flatMap_allParams_unshiftList,
        flatMap_allParams_unshiftList, ← List.append_assoc, ih first List.mem_cons_self,
        allParams_abs]
      rfl
  | bound _ _ | free _ | hole => rfl

theorem allParams_collapse (node : Node) : node.collapse.allParams = node.allParams := by
  unfold collapse
  split
  · rw [allParams_unshift, allParams_abs]
    exact (List.append_nil _).symm
  · rfl

/-! ## Copying and substituting -/

/-- A copy has none but fresh copy ids. -/
theorem copy_keepsApart (budget : Nat) (offset level : Int) (node : Node) :
    KeepsApart (node.copy budget offset level) [] allParams := by
  induction node generalizing level with
  | abs params spine ih =>
    rw [copy_abs]
    refine (KeepsApart.lift _ []).bind fun _ => ?_
    refine (Param.copyList_keepsApart params).bind fun params' => ?_
    have hspine := KeepsApart.mapM fun node hmem => ih node hmem (level + 1)
    have hnone : spine.flatMap (fun _ => ([] : List Param)) = [] := by simp
    rw [hnone] at hspine
    have hbefore := hspine.prepend params'
    rw [List.append_nil] at hbefore
    exact hbefore.bind fun spine' => .pure (allParams_abs params' spine' ▸ List.Sublist.refl _)
  | bound depth position =>
    rw [copy_bound]
    exact (KeepsApart.lift _ []).bind fun _ => .pure (List.Sublist.refl _)
  | free name =>
    rw [copy_free]
    exact (KeepsApart.lift _ []).bind fun _ => .pure (List.Sublist.refl _)
  | hole => exact fun _ _ _ h => absurd h Copying.throw_ne_ok

/-- Substituting leaves the parameters of a body as they are, and adds those of copies. -/
theorem substitute_keepsApart (budget : Nat) (argument : Node) (level : Int) (node : Node) :
    KeepsApart (substitute budget argument level node) node.allParams allParams := by
  induction node generalizing level with
  | abs params spine ih =>
    rw [substitute_abs, allParams_abs]
    have hspine := KeepsApart.mapM fun node hmem => ih node hmem (level + 1)
    exact (hspine.prepend params).bind fun spine' =>
      .pure (allParams_abs params spine' ▸ List.Sublist.refl _)
  | bound depth position =>
    obtain hcopy | ⟨_, hbound⟩ := substitute_bound_cases budget argument level depth position
    · rw [hcopy]
      exact copy_keepsApart budget level 0 argument
    · rw [hbound]
      exact .pure (List.Sublist.refl _)
  | free name => exact .pure (List.Sublist.refl _)
  | hole => exact fun _ _ _ h => absurd h Copying.throw_ne_ok

theorem substituteList_keepsApart (budget : Nat) (argument : Node) (level : Int)
    (nodes : List Node) :
    KeepsApart (substituteList budget argument level nodes) (nodes.flatMap allParams)
      (·.flatMap allParams) := by
  rw [substituteList_eq_mapM]
  exact KeepsApart.mapM fun node _ => substitute_keepsApart budget argument level node

/-! ## Driving and reducing -/

/-- Driving a head keeps the parameters of the head and of the spine apart: by induction on how it
    is driven. -/
theorem Driven.keepsApart {reduceHead : Node → Copying Node} {budget : Nat}
    (hreduceHead : ∀ node : Node, KeepsApart (reduceHead node) node.allParams allParams)
    {head head' : Node} {spine spine' : List Node} {table table' : NameTable}
    (h : Driven reduceHead none budget head spine table head' spine' table') :
    List.Forall₂ (· ≤ ·) table.copies table'.copies
      ∧ ∀ others, Apart table.copies (head.allParams ++ spine.flatMap allParams ++ others) →
          Apart table'.copies (head'.allParams ++ spine'.flatMap allParams ++ others) := by
  induction h with
  | @rest head result spine table table' hreduce _ _ =>
    obtain ⟨hle, hapart⟩ := (hreduceHead head).append (spine.flatMap allParams) hreduce
    refine ⟨hle, fun others hbefore => ?_⟩
    rw [List.flatMap_append, ← List.append_assoc, allParams_splice]
    exact hapart others hbefore
  | @consume head argument head' param params body body' spine spine' table between between' table'
      hreduce htake _ ih =>
    obtain ⟨hle, hapart⟩ :=
      (hreduceHead head).append ((argument :: spine).flatMap allParams) hreduce
    obtain ⟨hle', hapart'⟩ := ((substituteList_keepsApart budget argument 0 body).prepend
      (param :: params)).append ((argument :: spine).flatMap allParams) htake
    obtain ⟨hle'', hapart''⟩ := ih
    refine ⟨Copying.forall₂_le_trans hle (Copying.forall₂_le_trans hle' hle''),
      fun others hbefore => hapart'' others ?_⟩
    have hreduced : Apart between.copies ((Node.abs (param :: params) body).allParams
        ++ (argument :: spine).flatMap allParams ++ others) := hapart others hbefore
    rw [allParams_abs] at hreduced
    -- The parameter is consumed, and the argument is dropped with its own parameters.
    refine (hapart' others hreduced).sublist ?_
    rw [allParams_abs]
    refine List.Sublist.append (List.Sublist.append ?_ ?_) (List.Sublist.refl others)
    · exact List.Sublist.cons param (List.Sublist.refl _)
    · exact List.sublist_append_right argument.allParams _

/-- Reducing keeps the parameters of a tree apart, from each other and from all others: by induction
    on the nesting. -/
theorem reduceWithin_keepsApart (budget nesting : Nat) (node : Node) :
    KeepsApart (reduceWithin budget nesting node) node.allParams allParams := by
  induction nesting generalizing node with
  | zero => exact fun _ _ _ h => absurd h Copying.throw_ne_ok
  | succ nesting ih =>
    match node with
    | .abs params (head :: spine) =>
      intro table result table' hrun
      obtain ⟨head', left, between, spine', hdrive, hspine, rfl⟩ :=
        exists_of_reduceWithin_abs hrun
      obtain ⟨hle, hapart⟩ := hdrive.keepsApart ih
      obtain ⟨hle', hapart'⟩ :=
        (KeepsApart.mapM fun element _ => ih element).prepend head'.allParams hspine
      refine ⟨Copying.forall₂_le_trans hle hle', fun others hbefore => ?_⟩
      have hperm (inner : List Param) :
          (params ++ inner ++ others).Perm (inner ++ (params ++ others)) := by
        rw [← List.append_assoc]
        exact List.perm_append_comm.append_right others
      rw [allParams_collapse, allParams_abs]
      rw [allParams_abs] at hbefore
      exact (hapart' _ (hapart _ (hbefore.perm (hperm _)))).perm (hperm _).symm
    | .abs params [] | .bound _ _ | .free _ => exact .pure (List.Sublist.refl _)
    | .hole => exact fun _ _ _ h => absurd h Copying.throw_ne_ok

end Node

end LambdaCalc
