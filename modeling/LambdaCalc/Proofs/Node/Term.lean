import LambdaCalc.Node.Shift
import LambdaCalc.Proofs.Term.Basic

set_option autoImplicit false

/-! # The λ-term of a tree

An abstraction is its parameters as nested binders, the first one outermost, around its spine, and a
bound reference is the index of the parameter that it addresses (`Node.index?`). Both depend on the
numbers of parameters of the abstractions around a node, listed from the inside out.

`Node.WellScoped` says that every reference addresses a parameter and that no term is missing.
Leaving an abstraction without parameters, splicing and collapsing keep a well-scoped tree
well-scoped and its λ-term as it is. -/

namespace LambdaCalc.Node

/-! ## Indices -/

/-- The index of the parameter at `position` of the abstraction `depth` levels out, if there is one,
    given the numbers of parameters of the enclosing abstractions from the inside out. -/
def index? : (scopes : List Nat) → (depth : Int) → (position : Nat) → Option Nat
  | [], _, _ => none
  | count :: scopes, depth, position =>
      if depth = 0 then
        if position < count then some (count - 1 - position) else none
      else
        (index? scopes (depth - 1) position).map (· + count)

theorem index?_of_neg {scopes : List Nat} {depth : Int} {position : Nat} (h : depth < 0) :
    index? scopes depth position = none := by
  induction scopes generalizing depth with
  | nil => rfl
  | cons count scopes ih => rw [index?, if_neg (by omega), ih (by omega), Option.map_none]

/-- An address among inner and outer scopes is one of the inner ones, or one of the outer ones
    behind all parameters of the inner ones. -/
theorem index?_append (inner outer : List Nat) (depth : Int) (position : Nat) :
    index? (inner ++ outer) depth position
      = if depth < inner.length then index? inner depth position
        else (index? outer (depth - inner.length) position).map (· + inner.sum) := by
  induction inner generalizing depth with
  | nil =>
    by_cases h : depth < 0
    · simp [h, index?_of_neg h]
    · simp [h]
  | cons count inner ih =>
    rw [List.cons_append, index?, index?, ih]
    by_cases hzero : depth = 0
    · simp [hzero]
    · rw [if_neg hzero, if_neg hzero]
      by_cases h : depth - 1 < inner.length
      · rw [if_pos h, if_pos (by simp only [List.length_cons]; omega)]
      · rw [if_neg h, if_neg (by simp only [List.length_cons]; omega), Option.map_map]
        have hdepth :
            depth - 1 - (inner.length : Int) = depth - ((count :: inner).length : Nat) := by
          simp only [List.length_cons]
          omega
        rw [hdepth]
        congr 1
        funext index
        simp only [Function.comp_apply, List.sum_cons]
        omega

/-- The parameter of an address is one of those counted. -/
theorem index?_lt_sum {scopes : List Nat} {depth : Int} {position index : Nat}
    (h : index? scopes depth position = some index) : index < scopes.sum := by
  induction scopes generalizing depth index with
  | nil => cases h
  | cons count scopes ih =>
    rw [index?] at h
    rw [List.sum_cons]
    split_ifs at h
    · cases h
      omega
    · obtain ⟨outer, houter, rfl⟩ := Option.map_eq_some_iff.mp h
      have := ih houter
      omega

/-! ## λ-terms -/

/-- The λ-term of a reference. One that addresses nothing has none; it is read as the constant. -/
def referenceTerm (scopes : List Nat) (depth : Int) (position : Nat) : Term Nat :=
  match index? scopes depth position with
  | some index => .var index
  | none => .void

mutual

/-- The λ-term of a node among the given scopes, its free names by their ids. -/
def term (scopes : List Nat) : Node → Term Nat
  | .abs params spine => .lams params.length (.ofSpine (terms (params.length :: scopes) spine))
  | .bound depth position => referenceTerm scopes depth position
  | .free name => .free name
  | .hole => .void

/-- The λ-terms of the elements of a spine. -/
def terms (scopes : List Nat) : List Node → List (Term Nat)
  | [] => []
  | node :: nodes => node.term scopes :: terms scopes nodes

end

theorem terms_eq_map (scopes : List Nat) (nodes : List Node) :
    terms scopes nodes = nodes.map (term scopes) := by
  induction nodes with
  | nil => rfl
  | cons node nodes ih => simp only [terms, ih, List.map_cons]

theorem term_abs (scopes : List Nat) (params : List Param) (spine : List Node) :
    (Node.abs params spine).term scopes
      = .lams params.length (.ofSpine (spine.map (term (params.length :: scopes)))) := by
  rw [term, terms_eq_map]

theorem term_bound {scopes : List Nat} {depth : Int} {position index : Nat}
    (h : index? scopes depth position = some index) :
    (Node.bound depth position).term scopes = .var index := by
  rw [term, referenceTerm, h]

/-! ## Well-scoped trees -/

mutual

/-- Every reference in a tree addresses a parameter, of the tree or of the given scopes, and no term
    is missing. -/
def WellScoped (scopes : List Nat) : Node → Prop
  | .abs params spine => AllWellScoped (params.length :: scopes) spine
  | .bound depth position => (index? scopes depth position).isSome
  | .free _ => True
  | .hole => False

/-- All elements of a spine are well-scoped. -/
def AllWellScoped (scopes : List Nat) : List Node → Prop
  | [] => True
  | node :: nodes => node.WellScoped scopes ∧ AllWellScoped scopes nodes

end

theorem allWellScoped_iff {scopes : List Nat} {nodes : List Node} :
    AllWellScoped scopes nodes ↔ ∀ node ∈ nodes, node.WellScoped scopes := by
  induction nodes with
  | nil => simp [AllWellScoped]
  | cons node nodes ih => simp [AllWellScoped, ih]

theorem wellScoped_abs {scopes : List Nat} {params : List Param} {spine : List Node} :
    (Node.abs params spine).WellScoped scopes
      ↔ ∀ node ∈ spine, node.WellScoped (params.length :: scopes) := by
  rw [WellScoped, allWellScoped_iff]

theorem wellScoped_bound {scopes : List Nat} {depth : Int} {position : Nat} :
    (Node.bound depth position).WellScoped scopes
      ↔ ∃ index, index? scopes depth position = some index := by
  rw [WellScoped, Option.isSome_iff_exists]

/-! ## Leaving an abstraction without parameters -/

/-- Taking an empty scope away from around a reference leaves its index as it is. -/
theorem index?_unshift {inner outer : List Nat} {depth : Int} {position index : Nat}
    (h : index? (inner ++ 0 :: outer) depth position = some index) :
    index? (inner ++ outer) (if (inner.length : Int) < depth then depth - 1 else depth) position
      = some index := by
  rw [index?_append] at h
  by_cases hinner : depth < inner.length
  · rw [if_pos hinner] at h
    have hstay : ¬ (inner.length : Int) < depth := by omega
    rw [if_neg hstay, index?_append, if_pos hinner, h]
  · rw [if_neg hinner, index?] at h
    by_cases hzero : depth - inner.length = 0
    · simp [hzero] at h
    · rw [if_neg hzero] at h
      have hleave : (inner.length : Int) < depth := by omega
      have hdepth : depth - 1 - (inner.length : Int) = depth - inner.length - 1 := by omega
      rw [if_pos hleave, index?_append, if_neg (by omega), hdepth, ← h, Option.map_map]
      rfl

/-- Unshifting takes an empty scope away: what was well-scoped stays so, with the same λ-term. -/
theorem unshift_spec (inner : List Nat) {outer : List Nat} {node : Node}
    (h : node.WellScoped (inner ++ 0 :: outer)) :
    (node.unshift inner.length).WellScoped (inner ++ outer)
      ∧ (node.unshift inner.length).term (inner ++ outer) = node.term (inner ++ 0 :: outer) := by
  induction node generalizing inner with
  | abs params spine ih =>
    rw [wellScoped_abs] at h
    have helement : ∀ element ∈ spine,
        (element.unshift (inner.length + 1)).WellScoped (params.length :: (inner ++ outer))
          ∧ (element.unshift (inner.length + 1)).term (params.length :: (inner ++ outer))
            = element.term (params.length :: (inner ++ 0 :: outer)) := by
      intro element hmem
      exact ih element hmem (params.length :: inner) (h element hmem)
    rw [unshift, unshiftList_eq_map, wellScoped_abs, term_abs, term_abs, List.map_map]
    constructor
    · exact List.forall_mem_map.mpr fun element hmem => (helement element hmem).1
    · congr 2
      exact List.map_congr_left fun element hmem => (helement element hmem).2
  | bound depth position =>
    obtain ⟨index, hindex⟩ := wellScoped_bound.mp h
    have houter := index?_unshift hindex
    rw [unshift, term_bound houter, term_bound hindex]
    exact ⟨wellScoped_bound.mpr ⟨index, houter⟩, rfl⟩
  | free name => exact ⟨trivial, rfl⟩
  | hole => exact absurd h id

/-- Unshifting an element of an abstraction without parameters. -/
theorem unshift_zero_spec {scopes : List Nat} {node : Node} (h : node.WellScoped (0 :: scopes)) :
    (node.unshift 0).WellScoped scopes ∧ (node.unshift 0).term scopes = node.term (0 :: scopes) :=
  unshift_spec [] h

/-- Unshifting the elements of an abstraction without parameters. -/
theorem unshiftList_zero_spec {scopes : List Nat} {nodes : List Node}
    (h : ∀ node ∈ nodes, node.WellScoped (0 :: scopes)) :
    (∀ node ∈ unshiftList 0 nodes, node.WellScoped scopes)
      ∧ (unshiftList 0 nodes).map (term scopes) = nodes.map (term (0 :: scopes)) := by
  rw [unshiftList_eq_map, List.map_map]
  constructor
  · exact List.forall_mem_map.mpr fun element hmem => (unshift_zero_spec (h element hmem)).1
  · exact List.map_congr_left fun element hmem => (unshift_zero_spec (h element hmem)).2

/-- A spliced head and the elements that it pushes are well-scoped, and the head applied to them is
    the λ-term of the node. -/
theorem splice_spec {scopes : List Nat} {node : Node} (h : node.WellScoped scopes) :
    node.splice.1.WellScoped scopes ∧ (∀ element ∈ node.splice.2, element.WellScoped scopes)
      ∧ (node.splice.1.term scopes).apply (node.splice.2.map (term scopes)) = node.term scopes := by
  induction node generalizing scopes with
  | abs params spine ih =>
    match params, spine with
    | [], first :: others =>
      rw [wellScoped_abs, List.length_nil, List.forall_mem_cons] at h
      obtain ⟨hhead, hpushed, hterm⟩ := ih first List.mem_cons_self h.1
      obtain ⟨hhead', hheadTerm⟩ := unshift_zero_spec hhead
      obtain ⟨hpushed', hpushedTerm⟩ := unshiftList_zero_spec hpushed
      obtain ⟨hothers', hothersTerm⟩ := unshiftList_zero_spec h.2
      rw [splice]
      refine ⟨hhead', List.forall_mem_append.mpr ⟨hpushed', hothers'⟩, ?_⟩
      rw [List.map_append, hheadTerm, hpushedTerm, hothersTerm, Term.apply_append, hterm, term_abs]
      rfl
    | [], [] => exact ⟨h, nofun, rfl⟩
    | _ :: _, _ => exact ⟨h, nofun, rfl⟩
  | bound _ _ | free _ | hole => exact ⟨h, nofun, rfl⟩

/-- An abstraction that dissolves into its only element keeps its λ-term. -/
theorem collapse_spec {scopes : List Nat} {node : Node} (h : node.WellScoped scopes) :
    node.collapse.WellScoped scopes ∧ node.collapse.term scopes = node.term scopes := by
  unfold collapse
  split
  · rw [wellScoped_abs, List.forall_mem_singleton] at h
    obtain ⟨helement, hterm⟩ := unshift_zero_spec h
    refine ⟨helement, ?_⟩
    rw [term_abs]
    exact hterm
  · exact ⟨h, rfl⟩

end LambdaCalc.Node
