import Mathlib
import LambdaCalc.Node.Shift

set_option autoImplicit false

/-! # Results are canonical

A tree is canonical if no spine in it can be driven any further, none starts with an abstraction
that should have been spliced, no abstraction stands around a single element without binding
anything, and no term is missing (`Node.Canonical`).

Splicing and collapsing are what makes a tree canonical: a canonical node comes to rest when it is
spliced (`Canonical.splice`), and an abstraction whose head is at rest is canonical once it is
collapsed (`canonical_collapse`). -/

namespace LambdaCalc.Node

/-! ## Canonical trees -/

/-- Whether a node is an abstraction with parameters. -/
def binds : Node → Bool
  | .abs (_ :: _) _ => true
  | _ => false

theorem exists_abs_of_binds {node : Node} (h : node.binds = true) :
    ∃ param params body, node = .abs (param :: params) body := by
  match node with
  | .abs (param :: params) body => exact ⟨param, params, body, rfl⟩
  | .abs [] _ | .bound _ _ | .free _ | .hole => cases h

/-- Whether a node is an abstraction without parameters around a spine. -/
def isGroup : Node → Bool
  | .abs [] (_ :: _) => true
  | _ => false

/-- The head of a spine has come to rest: it is no group, and it takes no argument if there is
    one. -/
def HeadAtRest : List Node → Prop
  | [] => True
  | head :: arguments => head.isGroup = false ∧ (arguments ≠ [] → head.binds = false)

mutual

/-- In every abstraction of a tree the head of the spine is at rest, and the abstraction is not
    without parameters around a single element; no term is missing. -/
def Canonical : Node → Prop
  | .abs params spine =>
      HeadAtRest spine ∧ ¬ (params = [] ∧ spine.length = 1) ∧ AllCanonical spine
  | .bound .. | .free _ => True
  | .hole => False

/-- All elements of a spine are canonical. -/
def AllCanonical : List Node → Prop
  | [] => True
  | node :: nodes => node.Canonical ∧ AllCanonical nodes

end

theorem allCanonical_iff {nodes : List Node} :
    AllCanonical nodes ↔ ∀ node ∈ nodes, node.Canonical := by
  induction nodes with
  | nil => simp [AllCanonical]
  | cons node nodes ih => simp [AllCanonical, ih]

theorem canonical_abs {params : List Param} {spine : List Node} :
    (Node.abs params spine).Canonical
      ↔ HeadAtRest spine ∧ ¬ (params = [] ∧ spine.length = 1) ∧ ∀ node ∈ spine, node.Canonical := by
  rw [Canonical, allCanonical_iff]

/-! ## Unshifting keeps the shape -/

@[simp] theorem binds_unshift (level : Int) (node : Node) :
    (node.unshift level).binds = node.binds := by
  cases node with
  | abs params spine => cases params <;> rfl
  | bound _ _ | free _ | hole => rfl

@[simp] theorem isGroup_unshift (level : Int) (node : Node) :
    (node.unshift level).isGroup = node.isGroup := by
  cases node with
  | abs params spine => cases params <;> cases spine <;> rfl
  | bound _ _ | free _ | hole => rfl

theorem headAtRest_unshiftList (level : Int) {spine : List Node} (h : HeadAtRest spine) :
    HeadAtRest (unshiftList level spine) := by
  cases spine with
  | nil => trivial
  | cons head arguments =>
    refine ⟨(isGroup_unshift level head).trans h.1, ?_⟩
    intro hne
    rw [binds_unshift]
    exact h.2 fun hnil => hne (by rw [hnil]; rfl)

theorem Canonical.unshift {level : Int} {node : Node} (h : node.Canonical) :
    (node.unshift level).Canonical := by
  induction node generalizing level with
  | abs params spine ih =>
    obtain ⟨hhead, hsingle, helements⟩ := canonical_abs.mp h
    rw [Node.unshift, canonical_abs]
    refine ⟨headAtRest_unshiftList _ hhead, ?_, ?_⟩
    · rw [unshiftList_eq_map, List.length_map]
      exact hsingle
    · rw [unshiftList_eq_map]
      exact List.forall_mem_map.mpr fun element hmem => ih element hmem (helements element hmem)
  | bound _ _ | free _ => trivial
  | hole => exact h

theorem canonical_unshiftList {level : Int} {nodes : List Node}
    (h : ∀ node ∈ nodes, node.Canonical) :
    ∀ node ∈ unshiftList level nodes, node.Canonical := by
  rw [unshiftList_eq_map]
  exact List.forall_mem_map.mpr fun node hmem => (h node hmem).unshift

/-! ## Splicing and collapsing -/

theorem splice_of_not_group {node : Node} (h : node.isGroup = false) :
    node.splice = (node, []) := by
  unfold splice
  split
  · cases h
  · rfl

/-- A canonical head that is no group is spliced if there is room for a call at all. -/
theorem Canonical.spliceWithin {node : Node} (hcanonical : node.Canonical)
    (h : node.isGroup = false) (room : Room) :
    node.spliceWithin room = room.enter.map fun _ => (node, []) := by
  have hvisit (inner : Room) : visitSpliced inner node = .ok () := by
    unfold visitSpliced
    split
    · cases h
    · rfl
    · rfl
    · rfl
    · exact absurd hcanonical id
  unfold Node.spliceWithin
  simp only [hvisit, splice_of_not_group h]
  cases room.enter <;> rfl

/-- Splicing goes on until the head is no group. -/
theorem isGroup_splice (node : Node) : node.splice.1.isGroup = false := by
  induction node with
  | abs params spine ih =>
    match params, spine with
    | [], first :: others =>
      rw [splice, isGroup_unshift]
      exact ih first List.mem_cons_self
    | [], [] => rfl
    | _ :: _, _ => rfl
  | bound _ _ | free _ | hole => rfl

/-- A head has come to rest before a spine: it is canonical, and nothing drives it any further. -/
structure AtRest (head : Node) (spine : List Node) : Prop where
  canonical : head.Canonical
  headAtRest : HeadAtRest (head :: spine)

/-- A canonical node comes to rest when it is spliced, together with the elements that it pushes,
    and those are canonical. -/
theorem Canonical.splice {node : Node} (h : node.Canonical) :
    AtRest node.splice.1 node.splice.2 ∧ ∀ element ∈ node.splice.2, element.Canonical := by
  by_cases hgroup : node.isGroup = false
  · rw [splice_of_not_group hgroup]
    exact ⟨⟨h, hgroup, fun hne => absurd rfl hne⟩, nofun⟩
  · match node with
    | .abs [] (first :: others) =>
      obtain ⟨hhead, _, helements⟩ := canonical_abs.mp h
      obtain ⟨hfirst, hothers⟩ := List.forall_mem_cons.mp helements
      rw [Node.splice, splice_of_not_group hhead.1]
      exact ⟨⟨hfirst.unshift, headAtRest_unshiftList 0 hhead⟩, canonical_unshiftList hothers⟩
    | .abs [] [] | .abs (_ :: _) _ | .bound _ _ | .free _ | .hole => exact absurd rfl hgroup

/-- A canonical node whose spliced head binds something has nothing to splice. -/
theorem Canonical.splice_of_binds {node : Node} (h : node.Canonical)
    (hbinds : node.splice.1.binds = true) : node.splice = (node, []) := by
  match node with
  | .abs [] (first :: others) =>
    -- The elements of a canonical group are at least two, so its head binds nothing.
    obtain ⟨hhead, hsingle, _⟩ := canonical_abs.mp h
    rw [Node.splice, splice_of_not_group hhead.1, binds_unshift, hhead.2] at hbinds
    · cases hbinds
    · rintro rfl
      exact hsingle ⟨rfl, rfl⟩
  | .abs [] [] | .abs (_ :: _) _ | .bound _ _ | .free _ | .hole => rfl

/-- An abstraction whose head is at rest and whose elements are canonical is canonical once it is
    collapsed. -/
theorem canonical_collapse {params : List Param} {head : Node} {spine : List Node}
    (hhead : HeadAtRest (head :: spine)) (helements : ∀ node ∈ head :: spine, node.Canonical) :
    (Node.abs params (head :: spine)).collapse.Canonical := by
  match params, spine with
  | [], [] => exact (helements head List.mem_cons_self).unshift
  | [], element :: elements => exact canonical_abs.mpr ⟨hhead, by simp, helements⟩
  | param :: params, spine => exact canonical_abs.mpr ⟨hhead, by simp, helements⟩

end LambdaCalc.Node
