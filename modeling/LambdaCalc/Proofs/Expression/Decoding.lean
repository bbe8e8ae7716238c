import LambdaCalc.Expression.Binding
import LambdaCalc.Proofs.Layout.Basic
import LambdaCalc.Proofs.Node.Driving
import LambdaCalc.Proofs.Node.Term
import LambdaCalc.Proofs.Term.Numeral

set_option autoImplicit false

/-! # Reading numbers off results

In a canonical tree a λ-term has only so many layouts. Those of a Church numeral are all recognized,
and nothing else is (`Node.Canonical.number?_eq_some_iff`); so the number of a result is the one
that its λ-term is the numeral of (`Expression.number?_of_reduce`). -/

namespace LambdaCalc

namespace Node

variable {scopes : List Nat} {node : Node}

/-! ## Nodes by their λ-terms -/

/-- Only a reference stands for an index, apart from groups. -/
theorem exists_bound_of_term {index : Nat} (hgroup : node.isGroup = false)
    (h : node.term scopes = .var index) :
    ∃ depth position, node = .bound depth position
      ∧ index? scopes depth position = some index := by
  match node with
  | .bound depth position =>
    refine ⟨depth, position, rfl, ?_⟩
    rw [term, referenceTerm] at h
    split at h
    · next hindex =>
      cases h
      exact hindex
    · cases h
  | .abs [] (_ :: _) => cases hgroup
  | .abs [] [] | .abs (_ :: _) _ | .free _ | .hole => cases h

/-- Only a reference to the base stands for applications by itself, apart from groups. -/
theorem exists_bound_of_body {count : Nat} (hgroup : node.isGroup = false)
    (h : node.term scopes = Numeral.body count) :
    ∃ depth position, node = .bound depth position ∧ index? scopes depth position = some 0
      ∧ count = 0 := by
  match node with
  | .bound depth position =>
    rw [term, referenceTerm] at h
    split at h
    · next hindex =>
      obtain ⟨rfl, rfl⟩ := Numeral.var_eq_body_iff.mp h
      exact ⟨depth, position, rfl, hindex, rfl⟩
    · exact absurd h (Numeral.void_ne_body count)
  | .abs [] (_ :: _) => cases hgroup
  | .abs (_ :: _) _ =>
    have hlam := Numeral.isLam_body (ν := Nat) count
    rw [← h] at hlam
    cases hlam
  | .free name => exact absurd h (Numeral.free_ne_body name count)
  | .abs [] [] | .hole => exact absurd h (Numeral.void_ne_body count)

/-- A group is one more level to cross, and has no parameters. -/
theorem index?_group {depth : Int} {position index : Nat}
    (h : index? scopes depth position = some index) :
    index? (0 :: scopes) (depth + 1) position = some index := by
  have hdepth : ¬ depth < 0 := by
    intro hneg
    rw [index?_of_neg hneg] at h
    cases h
  have hsub : depth + 1 - 1 = depth := by omega
  rw [index?, if_neg (by omega), hsub, h]
  rfl

/-- A reference has the address of a parameter if it stands for its index. -/
theorem term_bound_eq_var_iff {depth depth' : Int} {position position' index : Nat}
    (h : index? scopes depth' position' = some index) :
    (Node.bound depth position).term scopes = .var index
      ↔ (depth, position) = (depth', position') := by
  constructor
  · intro hterm
    obtain ⟨_, _, ⟨⟩, hindex⟩ := exists_bound_of_term rfl hterm
    obtain ⟨rfl, rfl⟩ := index?_inj hindex h
    rfl
  · rintro ⟨⟩
    exact term_bound h

/-- A reference alone is the base without an application. -/
theorem term_bound_eq_body_iff {depth depth' : Int} {position position' count : Nat}
    (h : index? scopes depth' position' = some 0) :
    (Node.bound depth position).term scopes = Numeral.body count
      ↔ (depth, position) = (depth', position') ∧ count = 0 := by
  rw [← term_bound_eq_var_iff h]
  constructor
  · intro hterm
    obtain ⟨_, _, ⟨⟩, hindex, rfl⟩ := exists_bound_of_body rfl hterm
    exact ⟨hterm, rfl⟩
  · rintro ⟨hterm, rfl⟩
    exact hterm

/-- A reference in front of an argument is the function of an application. -/
theorem ofSpine_pair_eq_body_iff {depth depth' : Int} {position position' count : Nat}
    {argument : Node} (h : index? scopes depth' position' = some 1) :
    Term.ofSpine ([.bound depth position, argument].map (term scopes)) = Numeral.body count
      ↔ (depth, position) = (depth', position')
        ∧ ∃ rest, count = rest + 1 ∧ argument.term scopes = Numeral.body rest := by
  rw [← term_bound_eq_var_iff h]
  exact Numeral.app_eq_body_iff

end Node

namespace Numeral

open Node

/-- In a canonical tree a spine is counted exactly if it is the body of a numeral: by induction on
    the groups inside one another. -/
theorem applications?_eq_some_iff {function base : Int × Nat} {level : Nat} {spine : List Node}
    {scopes : List Nat} {count : Nat}
    (hfunction : index? scopes (function.1 + level) function.2 = some 1)
    (hbase : index? scopes (base.1 + level) base.2 = some 0)
    (hhead : HeadAtRest spine) (hcanonical : ∀ node ∈ spine, node.Canonical) :
    applications? function base level spine = some count
      ↔ Term.ofSpine (spine.map (Node.term scopes)) = body count := by
  fun_induction applications? function base level spine generalizing scopes count with
  | case1 level depth position haddress =>
    show _ ↔ (Node.bound depth position).term scopes = body count
    rw [term_bound_eq_body_iff hbase, Option.some.injEq, eq_comm]
    exact ⟨fun h => ⟨haddress, h⟩, fun h => h.2⟩
  | case2 level depth position haddress =>
    show _ ↔ (Node.bound depth position).term scopes = body count
    rw [term_bound_eq_body_iff hbase]
    exact ⟨nofun, fun h => absurd h.1 haddress⟩
  | case3 level depth position haddress depth' position' haddress' =>
    rw [ofSpine_pair_eq_body_iff hfunction]
    constructor
    · rintro ⟨⟩
      exact ⟨haddress, 0, rfl, (term_bound_eq_body_iff hbase).mpr
        ⟨haddress', rfl⟩⟩
    · rintro ⟨_, rest, rfl, hargument⟩
      rw [((term_bound_eq_body_iff hbase).mp hargument).2]
  | case4 level depth position haddress depth' position' haddress' =>
    rw [ofSpine_pair_eq_body_iff hfunction]
    refine ⟨nofun, ?_⟩
    rintro ⟨_, rest, _, hargument⟩
    exact absurd ((term_bound_eq_body_iff hbase).mp hargument).1 haddress'
  | case5 level depth position haddress inner ih =>
    obtain ⟨_, hothers⟩ := List.forall_mem_cons.mp hcanonical
    obtain ⟨hinner, _, helements⟩ := canonical_abs.mp (List.forall_mem_singleton.mp hothers)
    have hlevel (depth : Int) : depth + ((level + 1 : Nat) : Int) = depth + level + 1 := by omega
    -- Inside the group there is one more level to cross, for both addresses.
    have hcount {rest : Nat} := @ih (0 :: scopes) rest (hlevel _ ▸ index?_group hfunction)
      (hlevel _ ▸ index?_group hbase) hinner helements
    have hargument : (Node.abs [] inner).term scopes
        = Term.ofSpine (inner.map (Node.term (0 :: scopes))) := term_abs _ _ _
    rw [ofSpine_pair_eq_body_iff hfunction, Option.map_eq_some_iff, hargument]
    constructor
    · rintro ⟨rest, hrest, rfl⟩
      exact ⟨haddress, rest, rfl, hcount.mp hrest⟩
    · rintro ⟨_, rest, rfl, hrest⟩
      exact ⟨rest, hcount.mpr hrest, rfl⟩
  | case6 level depth position argument haddress hbound habs =>
    rw [ofSpine_pair_eq_body_iff hfunction]
    refine ⟨nofun, ?_⟩
    rintro ⟨_, rest, _, hargument⟩
    have hgroup : argument.isGroup = false := by
      unfold isGroup
      split
      · exact absurd rfl (habs _)
      · rfl
    obtain ⟨depth, position, rfl, _⟩ := exists_bound_of_body hgroup hargument
    exact absurd rfl (hbound depth position)
  | case7 level depth position argument haddress =>
    rw [ofSpine_pair_eq_body_iff hfunction]
    exact ⟨nofun, fun h => absurd h.1 haddress⟩
  | case8 level spine hone htwo =>
    refine ⟨nofun, fun h => ?_⟩
    match spine with
    | [] => exact absurd h (void_ne_body count)
    | [element] =>
      obtain ⟨depth, position, rfl, _⟩ := exists_bound_of_body hhead.1 h
      exact absurd rfl (hone depth position)
    | [head, argument] =>
      obtain ⟨depth, position, rfl, _⟩ := exists_bound_of_term hhead.1 (app_eq_body_iff.mp h).1
      exact absurd rfl (htwo depth position argument)
    | head :: first :: second :: others => exact absurd h (apply_ne_body _ _ _ _ _)

end Numeral

/-! ## Whole trees -/

namespace Node

/-- A binder is one that has a parameter, apart from groups. -/
theorem exists_abs_of_lam {scopes : List Nat} {node : Node} {body : Term Nat}
    (hgroup : node.isGroup = false) (h : node.term scopes = .lam body) :
    ∃ param params spine, node = .abs (param :: params) spine := by
  match node with
  | .abs (param :: params) spine => exact ⟨param, params, spine, rfl⟩
  | .abs [] (_ :: _) => cases hgroup
  | .abs [] [] | .free _ | .hole => cases h
  | .bound depth position =>
    rw [term, referenceTerm] at h
    split at h <;> cases h

/-- The body of a canonical abstraction with one parameter is a binder only if it is an abstraction
    by itself. -/
theorem exists_nested_of_ofSpine {scopes : List Nat} {spine : List Node} {body : Term Nat}
    (hhead : HeadAtRest spine) (h : Term.ofSpine (spine.map (term scopes)) = .lam body) :
    ∃ param params inner, spine = [.abs (param :: params) inner] := by
  match spine with
  | [] => cases h
  | [element] =>
    obtain ⟨param, params, inner, rfl⟩ := exists_abs_of_lam hhead.1 h
    exact ⟨param, params, inner, rfl⟩
  | head :: argument :: others => exact absurd h (Term.apply_ne_lam _ _ _ _)

/-- In whichever layout, the number of a canonical tree is the one that its λ-term is the numeral
    of. -/
theorem Canonical.number?_eq_some_iff {node : Node} (h : node.Canonical) {scopes : List Nat}
    {count : Nat} : node.number? = some count ↔ node.term scopes = Numeral.term count := by
  have htwo (body : Term Nat) : Term.lam (.lam body) = Numeral.term count
      ↔ body = Numeral.body count := by
    rw [Numeral.term_eq_lam, Term.lam.injEq, Term.lam.injEq]
  have hthree (body : Term Nat) : Term.lam (.lam (.lam body)) ≠ Numeral.term count := by
    intro heq
    have hlam := Numeral.isLam_body (ν := Nat) count
    rw [← (htwo _).mp heq] at hlam
    cases hlam
  unfold number?
  split
  · next param param' body =>
    obtain ⟨hhead, _, helements⟩ := canonical_abs.mp h
    have hcount := @Numeral.applications?_eq_some_iff (0, 0) (0, 1) 0 body (2 :: scopes) count
      rfl rfl hhead helements
    rw [hcount, ← htwo, term_abs]
    rfl
  · next param param' body =>
    obtain ⟨_, _, hinner⟩ := canonical_abs.mp h
    obtain ⟨hhead, _, helements⟩ := canonical_abs.mp (List.forall_mem_singleton.mp hinner)
    have hcount := @Numeral.applications?_eq_some_iff (1, 0) (0, 0) 0 body (1 :: 1 :: scopes) count
      rfl rfl hhead helements
    rw [hcount, ← htwo, term_abs, List.map_singleton, term_abs]
    rfl
  · next hflat hnested =>
    -- Neither layout: then nothing is counted, and no other tree has such a λ-term.
    refine ⟨nofun, fun heq => ?_⟩
    match node with
    | .abs [] (_ :: argument :: others) =>
      rw [term_abs] at heq
      exact absurd heq (Term.apply_ne_lam _ _ _ _)
    | .abs [] [_] => exact absurd ⟨rfl, rfl⟩ (canonical_abs.mp h).2.1
    | .abs [param] spine =>
      rw [term_abs] at heq
      obtain ⟨param', params, inner, rfl⟩ :=
        exists_nested_of_ofSpine (canonical_abs.mp h).1 (Term.lam.inj heq)
      cases params with
      | nil => exact absurd rfl (hnested _ _ _)
      | cons param'' params =>
        rw [List.map_singleton] at heq
        exact absurd heq (hthree _)
    | .abs [_, _] _ => exact absurd rfl (hflat _ _ _)
    | .abs (_ :: _ :: _ :: _) _ => exact absurd heq (hthree _)
    | .bound depth position =>
      rw [term, referenceTerm] at heq
      split at heq <;> cases heq
    | .abs [] [] | .free _ | .hole => cases heq

end Node

namespace Expression

/-- Whatever has been reduced, the result is read as a number exactly if its λ-term is the numeral
    of that number, and as none exactly if it is no numeral. -/
theorem number?_of_reduce {limits : Limits} {expression reduced : Expression}
    (hreduce : expression.reduce limits = .ok reduced) :
    (∀ count, reduced.number? = some count ↔ reduced.root.term [] = Numeral.term count)
      ∧ (reduced.number? = none ↔ ∀ count, reduced.root.term [] ≠ Numeral.term count) := by
  obtain ⟨root, names, hrun, rfl⟩ := reduce_eq_ok_iff.mp hreduce
  have hcanonical := (Node.reduceWithin_settles limits.copying limits.nesting).canonical hrun
  have hsome (count : Nat) := @Node.Canonical.number?_eq_some_iff _ hcanonical [] count
  refine ⟨hsome, ?_⟩
  simp only [Option.eq_none_iff_forall_ne_some, ← hsome, ne_eq]
  rfl

/-- In `λf.(λx.f ((λz.z) f x))` the binders stay apart, and the redex leaves a group. -/
theorem number?_of_reduce_nested :
    ofTokensWithin none [.func "f", .opening, .func "x", .var "f", .opening, .opening, .func "z",
        .var "z", .closing, .var "f", .var "x", .closing, .closing]
      = .ok {
          root := .abs [⟨0, 0⟩] [.abs [⟨1, 0⟩]
            [.bound 1 0, .abs [] [.abs [⟨2, 0⟩] [.bound 0 0], .bound 2 0, .bound 1 0]]]
          names := { entries := [⟨"f", 1⟩, ⟨"x", 1⟩, ⟨"z", 1⟩] } }
    ∧ reduce { nesting := 16, copying := 8 } {
          root := .abs [⟨0, 0⟩] [.abs [⟨1, 0⟩]
            [.bound 1 0, .abs [] [.abs [⟨2, 0⟩] [.bound 0 0], .bound 2 0, .bound 1 0]]]
          names := { entries := [⟨"f", 1⟩, ⟨"x", 1⟩, ⟨"z", 1⟩] } }
      = .ok {
          root := .abs [⟨0, 0⟩] [.abs [⟨1, 0⟩] [.bound 1 0, .abs [] [.bound 2 0, .bound 1 0]]]
          names := { entries := [⟨"f", 1⟩, ⟨"x", 1⟩, ⟨"z", 1⟩] } }
    ∧ number? {
          root := .abs [⟨0, 0⟩] [.abs [⟨1, 0⟩] [.bound 1 0, .abs [] [.bound 2 0, .bound 1 0]]]
          names := { entries := [⟨"f", 1⟩, ⟨"x", 1⟩, ⟨"z", 1⟩] } } = some 2 := by
  have hreduce :
      reduce { nesting := 16, copying := 8 } {
          root := .abs [⟨0, 0⟩] [.abs [⟨1, 0⟩]
            [.bound 1 0, .abs [] [.abs [⟨2, 0⟩] [.bound 0 0], .bound 2 0, .bound 1 0]]]
          names := { entries := [⟨"f", 1⟩, ⟨"x", 1⟩, ⟨"z", 1⟩] } }
      = .ok {
          root := .abs [⟨0, 0⟩] [.abs [⟨1, 0⟩] [.bound 1 0, .abs [] [.bound 2 0, .bound 1 0]]]
          names := { entries := [⟨"f", 1⟩, ⟨"x", 1⟩, ⟨"z", 1⟩] } } := by cbv
  exact ⟨by cbv, hreduce, ((number?_of_reduce hreduce).1 2).mpr rfl⟩

end Expression

end LambdaCalc
