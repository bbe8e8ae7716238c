import LambdaCalc.Node.Substitute
import LambdaCalc.Proofs.Node.Names
import LambdaCalc.Proofs.Node.Term
import LambdaCalc.Proofs.Term.Beta

set_option autoImplicit false

/-! # Consuming an argument

An abstraction that consumes an argument contracts the redex that the two make (`contract_spec`):
the references that leave the argument are shifted by the scopes between the argument and the place
of its copy (`copy_spec`), so none is captured, and the remaining parameters keep their references
(`substitute_spec`). -/

namespace LambdaCalc.Node

/-! ## Copies -/

/-- Fresh copy ids leave the number of parameters as it is. -/
theorem copyParams_length {params params' : List Param} {table table' : NameTable}
    (h : Param.copyList params table = .ok (params', table')) : params'.length = params.length := by
  have hnames := congrArg List.length (copyParams_ensures params h).1
  rwa [List.length_map, List.length_map] at hnames

section Inversion

variable {budget : Nat} {offset level : Int} {node' : Node} {table table' : NameTable}

/-- Copying an abstraction gives its parameters fresh copy ids and then copies its spine, one level
    further in. -/
theorem exists_of_copy_abs {params : List Param} {spine : List Node}
    (h : (Node.abs params spine).copy budget offset level table = .ok (node', table')) :
    ∃ params' between spine', Param.copyList params table = .ok (params', between)
      ∧ copyList budget offset (level + 1) spine between = .ok (spine', table')
      ∧ node' = .abs params' spine' := by
  rw [copy_abs] at h
  obtain ⟨_, _, hcheck, h⟩ := Copying.bind_eq_ok.mp h
  obtain ⟨_, _, ⟨⟩⟩ := Copying.lift_eq_ok.mp hcheck
  obtain ⟨params', between, hparams, h⟩ := Copying.bind_eq_ok.mp h
  obtain ⟨spine', _, hspine, h⟩ := Copying.bind_eq_ok.mp h
  obtain ⟨rfl, rfl⟩ := Copying.pure_inj h
  rw [copyList_eq_mapM]
  exact ⟨params', between, spine', hparams, hspine, rfl⟩

/-- Copying a reference shifts its depth if the reference leaves the tree. -/
theorem eq_of_copy_bound {depth : Int} {position : Nat}
    (h : (Node.bound depth position).copy budget offset level table = .ok (node', table')) :
    node' = .bound (if depth < level then depth else depth + offset + 1) position
      ∧ table' = table := by
  rw [copy_bound] at h
  obtain ⟨_, _, hcheck, h⟩ := Copying.bind_eq_ok.mp h
  obtain ⟨_, _, ⟨⟩⟩ := Copying.lift_eq_ok.mp hcheck
  exact Copying.pure_inj h

theorem eq_of_copy_free {name : Nat}
    (h : (Node.free name).copy budget offset level table = .ok (node', table')) :
    node' = .free name ∧ table' = table := by
  rw [copy_free] at h
  obtain ⟨_, _, hcheck, h⟩ := Copying.bind_eq_ok.mp h
  obtain ⟨_, _, ⟨⟩⟩ := Copying.lift_eq_ok.mp hcheck
  exact Copying.pure_inj h

end Inversion

/-- Scopes put between inner and outer ones shift the references to the outer ones, by their number
    in depth and by their parameters in index. -/
theorem index?_insert {inner outer : List Nat} (added : List Nat) {depth : Int}
    {position index : Nat} (h : index? (inner ++ outer) depth position = some index) :
    index? (inner ++ (added ++ outer))
        (if depth < inner.length then depth else depth + added.length) position
      = some ((Term.keep^[inner.sum] (· + added.sum)) index) := by
  rw [index?_append] at h
  rw [Term.iterate_keep]
  by_cases hinner : depth < inner.length
  · rw [if_pos hinner] at h
    rw [if_pos hinner, index?_append, if_pos hinner, h, if_pos (index?_lt_sum h)]
  · rw [if_neg hinner] at h
    obtain ⟨outerIndex, houter, rfl⟩ := Option.map_eq_some_iff.mp h
    have hdepth : depth + added.length - inner.length - added.length = depth - inner.length := by
      omega
    rw [if_neg hinner, index?_append, if_neg (by omega), index?_append, if_neg (by omega), hdepth,
      houter, if_neg (by omega)]
    simp only [Option.map_some, Option.some.injEq]
    omega

mutual

/-- A copy is well-scoped at its place, and its λ-term is the shifted one. -/
theorem copy_spec {budget : Nat} {outer : List Nat} (added inner : List Nat) :
    (node : Node) → {node' : Node} → {table table' : NameTable} →
    node.WellScoped (inner ++ outer) →
    node.copy budget ((added.length : Int) - 1) inner.length table = .ok (node', table') →
    node'.WellScoped (inner ++ (added ++ outer))
      ∧ node'.term (inner ++ (added ++ outer))
        = (node.term (inner ++ outer)).rename (Term.keep^[inner.sum] (· + added.sum))
  | .abs params spine, _, _, _, hscoped, h => by
    obtain ⟨params', _, spine', hparams, hspine, rfl⟩ := exists_of_copy_abs h
    have hlength := copyParams_length hparams
    obtain ⟨hscoped', hterms⟩ := copyList_spec added (params.length :: inner) spine
      (wellScoped_abs.mp hscoped) hspine
    rw [wellScoped_abs, term_abs, term_abs, hlength, Term.rename_lams, Term.rename_ofSpine,
      List.map_map, ← Function.iterate_add_apply]
    exact ⟨hscoped', congrArg (fun terms => Term.lams _ (Term.ofSpine terms)) hterms⟩
  | .bound depth position, _, _, _, hscoped, h => by
    obtain ⟨rfl, rfl⟩ := eq_of_copy_bound h
    obtain ⟨index, hindex⟩ := wellScoped_bound.mp hscoped
    have hplace := index?_insert added hindex
    have hdepth : depth + ((added.length : Int) - 1) + 1 = depth + added.length := by omega
    rw [hdepth, term_bound hindex, term_bound hplace]
    exact ⟨wellScoped_bound.mpr ⟨_, hplace⟩, rfl⟩
  | .free name, _, _, _, _, h => by
    obtain ⟨rfl, rfl⟩ := eq_of_copy_free h
    exact ⟨trivial, rfl⟩
  | .hole, _, _, _, hscoped, _ => absurd hscoped id

/-- Copies of the elements of a spine are well-scoped at their place, and their λ-terms are the
    shifted ones. -/
theorem copyList_spec {budget : Nat} {outer : List Nat} (added inner : List Nat) :
    (nodes : List Node) → {nodes' : List Node} → {table table' : NameTable} →
    (∀ node ∈ nodes, node.WellScoped (inner ++ outer)) →
    copyList budget ((added.length : Int) - 1) inner.length nodes table = .ok (nodes', table') →
    (∀ node ∈ nodes', node.WellScoped (inner ++ (added ++ outer)))
      ∧ nodes'.map (term (inner ++ (added ++ outer)))
        = nodes.map fun node =>
            (node.term (inner ++ outer)).rename (Term.keep^[inner.sum] (· + added.sum))
  | [], _, _, _, _, h => by
    obtain ⟨rfl, rfl⟩ := Copying.pure_inj h
    exact ⟨nofun, rfl⟩
  | node :: nodes, _, _, _, hscoped, h => by
    obtain ⟨node', _, hnode, h⟩ := Copying.bind_eq_ok.mp h
    obtain ⟨nodes', _, hnodes, h⟩ := Copying.bind_eq_ok.mp h
    obtain ⟨rfl, rfl⟩ := Copying.pure_inj h
    obtain ⟨hfirst, hrest⟩ := List.forall_mem_cons.mp hscoped
    obtain ⟨hscoped', hterm⟩ := copy_spec added inner node hfirst hnode
    obtain ⟨hscopeds', hterms⟩ := copyList_spec added inner nodes hrest hnodes
    exact ⟨List.forall_mem_cons.mpr ⟨hscoped', hscopeds'⟩, by
      rw [List.map_cons, List.map_cons, hterm, hterms]⟩

end

/-! ## Substitution -/

/-- A reference to the first parameter has the index that the substitution replaces. -/
theorem index?_consumed {inner outer : List Nat} {count index : Nat}
    (h : index? (inner ++ (count + 1) :: outer) inner.length 0 = some index) :
    index = inner.sum + count := by
  rw [index?_append, if_neg (by omega), index?] at h
  simp at h
  omega

/-- A reference to a later parameter moves up one position and keeps its index. -/
theorem index?_later {inner outer : List Nat} {count position index : Nat}
    (h : index? (inner ++ (count + 1) :: outer) inner.length (position + 1) = some index) :
    index? (inner ++ count :: outer) inner.length position = some index
      ∧ index < inner.sum + count := by
  rw [index?_append, if_neg (by omega), index?] at h ⊢
  simp only [Int.sub_self, if_true] at h ⊢
  split_ifs at h with hposition
  · cases h
    rw [if_pos (by omega)]
    simp only [Option.map_some, Option.some.injEq]
    omega
  · cases h

/-- Any other reference stays; one to an outer parameter has one parameter less to cross. -/
theorem index?_other {inner outer : List Nat} {count position index : Nat} {depth : Int}
    (hdepth : depth ≠ inner.length)
    (h : index? (inner ++ (count + 1) :: outer) depth position = some index) :
    ∃ index', index? (inner ++ count :: outer) depth position = some index'
      ∧ (index = index' ∧ index < inner.sum + count
        ∨ index = index' + 1 ∧ inner.sum + count < index) := by
  rw [index?_append] at h ⊢
  by_cases hinner : depth < inner.length
  · rw [if_pos hinner] at h ⊢
    refine ⟨index, h, Or.inl ⟨rfl, ?_⟩⟩
    have := index?_lt_sum h
    omega
  · have hne : depth - inner.length ≠ 0 := by omega
    rw [if_neg hinner, index?, if_neg hne, Option.map_map] at h ⊢
    obtain ⟨outerIndex, houter, rfl⟩ := Option.map_eq_some_iff.mp h
    refine ⟨outerIndex + count + inner.sum, by rw [houter]; rfl, Or.inr ⟨?_, ?_⟩⟩ <;>
    · simp only [Function.comp_apply]
      omega

/-- A reference in an abstraction whose first parameter is substituted for: one to that parameter
    gives way to a copy of the argument, and any other one keeps its parameter. -/
theorem substitute_bound_spec {budget count : Nat} {argument : Node} {outer : List Nat}
    (hargument : argument.WellScoped outer) (inner : List Nat) {depth : Int} {position : Nat}
    {node' : Node} {table table' : NameTable}
    (hscoped : (Node.bound depth position).WellScoped (inner ++ (count + 1) :: outer))
    (h : substitute budget argument inner.length (.bound depth position) table
      = .ok (node', table')) :
    node'.WellScoped (inner ++ count :: outer)
      ∧ node'.term (inner ++ count :: outer)
        = ((Node.bound depth position).term (inner ++ (count + 1) :: outer)).subst
            (Term.up^[inner.sum + count] (Term.single (argument.term outer))) := by
  obtain ⟨index, hindex⟩ := wellScoped_bound.mp hscoped
  rw [term_bound hindex, Term.subst, Term.iterate_up]
  by_cases hdepth : depth = inner.length
  · subst hdepth
    cases position with
    | zero =>
      rw [substitute_bound_zero] at h
      rw [index?_consumed hindex, if_neg (by omega), Nat.sub_self]
      have hcopy := copy_spec (inner ++ [count]) [] argument hargument (by simpa using h)
      simpa [Term.shift, Term.single] using hcopy
    | succ position =>
      rw [substitute_bound_succ] at h
      obtain ⟨rfl, rfl⟩ := Copying.pure_inj h
      obtain ⟨hlater, hlt⟩ := index?_later hindex
      rw [if_pos hlt, term_bound hlater]
      exact ⟨wellScoped_bound.mpr ⟨_, hlater⟩, rfl⟩
  · rw [substitute_bound_of_ne hdepth] at h
    obtain ⟨rfl, rfl⟩ := Copying.pure_inj h
    obtain ⟨index', hother, hindex'⟩ := index?_other hdepth hindex
    refine ⟨wellScoped_bound.mpr ⟨_, hother⟩, ?_⟩
    rw [term_bound hother]
    rcases hindex' with ⟨rfl, hlt⟩ | ⟨rfl, hlt⟩
    · rw [if_pos hlt]
    · -- A reference past the abstraction crosses its remaining parameters only.
      have hsucc : index' + 1 - (inner.sum + count) = index' - (inner.sum + count) + 1 := by omega
      rw [if_neg (by omega), hsucc]
      show Term.var index' = Term.var (index' - (inner.sum + count) + (inner.sum + count))
      rw [Nat.sub_add_cancel (by omega)]

mutual

/-- Substituting for the first parameter of an abstraction keeps a tree inside it well-scoped, and
    its λ-term is the one with the argument substituted for that parameter. -/
theorem substitute_spec {budget count : Nat} {argument : Node} {outer : List Nat}
    (hargument : argument.WellScoped outer) (inner : List Nat) : (node : Node) → {node' : Node} →
    {table table' : NameTable} → node.WellScoped (inner ++ (count + 1) :: outer) →
    substitute budget argument inner.length node table = .ok (node', table') →
    node'.WellScoped (inner ++ count :: outer)
      ∧ node'.term (inner ++ count :: outer)
        = (node.term (inner ++ (count + 1) :: outer)).subst
            (Term.up^[inner.sum + count] (Term.single (argument.term outer)))
  | .abs params spine, node', table, table', hscoped, h => by
    rw [substitute_abs, ← substituteList_eq_mapM] at h
    obtain ⟨spine', _, hspine, h⟩ := Copying.bind_eq_ok.mp h
    obtain ⟨rfl, rfl⟩ := Copying.pure_inj h
    obtain ⟨hscoped', hterms⟩ := substituteList_spec hargument (params.length :: inner) spine
      (wellScoped_abs.mp hscoped) hspine
    rw [wellScoped_abs, term_abs, term_abs, Term.subst_lams, Term.subst_ofSpine, List.map_map,
      ← Function.iterate_add_apply, ← Nat.add_assoc]
    exact ⟨hscoped', congrArg (fun terms => Term.lams _ (Term.ofSpine terms)) hterms⟩
  | .bound _ _, _, _, _, hscoped, h => substitute_bound_spec hargument inner hscoped h
  | .free name, node', table, table', _, h => by
    obtain ⟨rfl, rfl⟩ := Copying.pure_inj h
    exact ⟨trivial, rfl⟩
  | .hole, _, _, _, hscoped, _ => absurd hscoped id

/-- Substituting in the elements of a spine. -/
theorem substituteList_spec {budget count : Nat} {argument : Node} {outer : List Nat}
    (hargument : argument.WellScoped outer) (inner : List Nat) : (nodes : List Node) →
    {nodes' : List Node} → {table table' : NameTable} →
    (∀ node ∈ nodes, node.WellScoped (inner ++ (count + 1) :: outer)) →
    substituteList budget argument inner.length nodes table = .ok (nodes', table') →
    (∀ node ∈ nodes', node.WellScoped (inner ++ count :: outer))
      ∧ nodes'.map (term (inner ++ count :: outer))
        = nodes.map fun node => (node.term (inner ++ (count + 1) :: outer)).subst
            (Term.up^[inner.sum + count] (Term.single (argument.term outer)))
  | [], _, _, _, _, h => by
    obtain ⟨rfl, rfl⟩ := Copying.pure_inj h
    exact ⟨nofun, rfl⟩
  | node :: nodes, _, _, _, hscoped, h => by
    obtain ⟨node', _, hnode, h⟩ := Copying.bind_eq_ok.mp h
    obtain ⟨nodes', _, hnodes, h⟩ := Copying.bind_eq_ok.mp h
    obtain ⟨rfl, rfl⟩ := Copying.pure_inj h
    obtain ⟨hfirst, hrest⟩ := List.forall_mem_cons.mp hscoped
    obtain ⟨hscoped', hterm⟩ := substitute_spec hargument inner node hfirst hnode
    obtain ⟨hscopeds', hterms⟩ := substituteList_spec hargument inner nodes hrest hnodes
    exact ⟨List.forall_mem_cons.mpr ⟨hscoped', hscopeds'⟩, by
      rw [List.map_cons, List.map_cons, hterm, hterms]⟩

end

/-- An abstraction that consumes an argument contracts the redex of the two: what is left of it is
    well-scoped in the same scopes, and is one β-step away from the application. -/
theorem contract_spec {budget : Nat} {scopes : List Nat} {param : Param} {params : List Param}
    {body body' : List Node} {argument : Node} {table table' : NameTable}
    (hhead : (Node.abs (param :: params) body).WellScoped scopes)
    (hargument : argument.WellScoped scopes)
    (h : substituteList budget argument 0 body table = .ok (body', table')) :
    (Node.abs params body').WellScoped scopes
      ∧ ∃ inner, (Node.abs (param :: params) body).term scopes = .lam inner
        ∧ (Node.abs params body').term scopes = inner.instantiate (argument.term scopes) := by
  obtain ⟨hscoped, hterms⟩ := substituteList_spec hargument [] body (wellScoped_abs.mp hhead) h
  refine ⟨wellScoped_abs.mpr hscoped, _, by rw [term_abs]; rfl, ?_⟩
  rw [term_abs, Term.instantiate, Term.subst_lams, Term.subst_ofSpine, List.map_map]
  refine congrArg (fun terms => Term.lams _ (Term.ofSpine terms)) (hterms.trans ?_)
  rw [List.sum_nil, Nat.zero_add]
  rfl

end LambdaCalc.Node
