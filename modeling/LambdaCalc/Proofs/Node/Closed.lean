import LambdaCalc.Proofs.Node.Calls
import LambdaCalc.Proofs.Node.Matching
import LambdaCalc.Proofs.Node.Soundness

set_option autoImplicit false

/-! # Closed arguments

No reference leaves a closed tree, so that it is the same tree wherever it is moved: leaving an
abstraction changes nothing in it (`Node.WellScoped.unshift_eq`), and a copy of it differs in
nothing but copy ids (`Node.matches_of_copy`).

So the identity applied to a closed argument is reduced to what the copy of the argument that is
made for it is reduced to (`Node.exists_of_reduceWithin_identity`): the result is dissolved into the
groups around it twice, and both times the same groups come out. -/

namespace LambdaCalc.Node

/-! ## Moving closed trees -/

theorem index?_of_zeros {scopes : List Nat} (h : ∀ count ∈ scopes, count = 0) (depth : Int)
    (position : Nat) : index? scopes depth position = none := by
  induction scopes generalizing depth with
  | nil => rfl
  | cons count scopes ih =>
    obtain ⟨rfl, hothers⟩ := List.forall_mem_cons.mp h
    rw [index?, ih hothers]
    split_ifs with _ hposition
    · exact absurd hposition (Nat.not_lt_zero position)
    · rfl
    · rfl

/-- With nothing bound around it, no reference leads further out than to the scopes inside. -/
theorem lt_of_wellScoped_bound {inner outer : List Nat} (houter : ∀ count ∈ outer, count = 0)
    {depth : Int} {position : Nat} (h : (Node.bound depth position).WellScoped (inner ++ outer)) :
    depth < inner.length := by
  obtain ⟨index, hindex⟩ := wellScoped_bound.mp h
  by_contra hnot
  rw [index?_append, if_neg hnot, index?_of_zeros houter] at hindex
  cases hindex

/-- A tree with nothing bound around it stays as it is when it leaves an abstraction: by induction
    on it, with the scopes inside. -/
theorem WellScoped.unshift_eq (inner : List Nat) {outer : List Nat}
    (houter : ∀ count ∈ outer, count = 0) {node : Node} (h : node.WellScoped (inner ++ outer))
    {level : Int} (hlevel : (inner.length : Int) ≤ level) : node.unshift level = node := by
  induction node generalizing inner level with
  | abs params spine ih =>
    rw [wellScoped_abs] at h
    rw [unshift, unshiftList_eq_map]
    refine congrArg (Node.abs params) ((List.map_congr_left fun element hmem => ?_).trans
      (List.map_id spine))
    refine ih element hmem (params.length :: inner) (h element hmem) ?_
    rw [List.length_cons]
    omega
  | bound depth position =>
    have hdepth := lt_of_wellScoped_bound houter h
    rw [unshift, if_neg (by omega)]
  | free name => rfl
  | hole => rfl

theorem named_of_copyList {params params' : List Param} {table table' : NameTable}
    (h : Param.copyList params table = .ok (params', table')) :
    List.Forall₂ (Param.Named Eq) params params' := by
  have hnames := (copyParams_ensures params h).1
  rw [← List.forall₂_eq_eq_eq, List.forall₂_map_left_iff, List.forall₂_map_right_iff] at hnames
  exact (hnames.imp fun _ _ => Eq.symm).flip

/-- A copy of a closed tree differs from it in nothing but copy ids: by induction on the tree, with
    the scopes inside. -/
theorem matches_of_copy (inner : List Nat) {budget : Nat} {offset : Int} {node copied : Node}
    {table table' : NameTable} (h : node.WellScoped inner)
    (hcopy : node.copy budget offset inner.length table = .ok (copied, table')) :
    node.Matches Eq (Param.Named Eq) copied := by
  induction node generalizing inner copied table table' with
  | abs params spine ih =>
    rw [wellScoped_abs] at h
    obtain ⟨params', _, spine', hparams, hspine, rfl⟩ := exists_of_copy_abs hcopy
    rw [copyList_eq_mapM] at hspine
    exact .abs (named_of_copyList hparams) (Copying.mapM_forall₂ (fun element hmem _ _ _ hcopy =>
      ih element hmem (params.length :: inner) (h element hmem) hcopy) hspine)
  | bound depth position =>
    have hdepth : depth < inner.length := lt_of_wellScoped_bound (List.forall_mem_nil _)
      ((List.append_nil inner).symm ▸ h)
    obtain ⟨rfl, rfl⟩ := eq_of_copy_bound hcopy
    rw [if_pos hdepth]
    exact .bound _ _
  | free name =>
    obtain ⟨rfl, rfl⟩ := eq_of_copy_free hcopy
    exact .free rfl
  | hole => exact absurd h id

/-- A copy of a closed tree matches what the tree itself matches. -/
theorem Matches.trans_copy {N : Nat → Nat → Prop} {node argument copied : Node}
    (h : node.Matches N (Param.Named N) argument) (hclosed : argument.WellScoped []) {budget : Nat}
    {table table' : NameTable} (hcopy : argument.copy budget 0 0 table = .ok (copied, table')) :
    node.Matches N (Param.Named N) copied := by
  refine (h.trans (matches_of_copy [] hclosed hcopy)).mono ?_ ?_
  · rintro _ _ ⟨_, hname, rfl⟩
    exact hname
  · rintro ⟨_, _⟩ ⟨_, _⟩ ⟨⟨_, _⟩, hname, rfl⟩
    exact hname

/-- Matching trees have the same references. -/
theorem Matches.wellScoped {N : Nat → Nat → Prop} {P : Param → Param → Prop} {node node' : Node}
    (h : node.Matches N P node') {scopes : List Nat} (hscoped : node.WellScoped scopes) :
    node'.WellScoped scopes := by
  induction node generalizing node' scopes with
  | abs params spine ih =>
    cases h with
    | abs hparams hspine =>
      rw [wellScoped_abs] at hscoped
      rw [wellScoped_abs, ← hparams.length_eq]
      have helements : List.Forall₂
          (fun _ element : Node => element.WellScoped (params.length :: scopes)) spine _ :=
        forall₂_imp_of_mem hspine fun element hmem _ h => ih element hmem h (hscoped element hmem)
      exact Copying.forall_mem_of_forall₂ helements
  | bound depth position =>
    cases h
    exact hscoped
  | free name =>
    cases h
    trivial
  | hole => exact absurd hscoped id

/-! ## Reducing in a group -/

/-- A closed result that is spliced into a group of its own comes out as it was. -/
theorem Canonical.collapse_splice {node : Node} (h : node.Canonical)
    (hclosed : node.WellScoped []) :
    (Node.abs [] (node.splice.1 :: node.splice.2)).collapse = node := by
  have hzero : ∀ count ∈ [0], count = 0 := List.forall_mem_singleton.mpr rfl
  match node with
  | .abs [] (first :: second :: others) =>
    obtain ⟨hhead, _, _⟩ := canonical_abs.mp h
    have helement : ∀ element ∈ first :: second :: others, element.unshift 0 = element :=
      fun element hmem => WellScoped.unshift_eq [] hzero (wellScoped_abs.mp hclosed element hmem)
        (Int.le_refl 0)
    have hspine := (List.map_congr_left helement).trans (List.map_id _)
    rw [Node.splice, splice_of_not_group hhead.1]
    exact congrArg (Node.abs []) ((unshiftList_eq_map 0 _).trans hspine)
  | .abs [] [element] => exact absurd ⟨rfl, rfl⟩ (canonical_abs.mp h).2.1
  | .abs [] [] | .abs (_ :: _) _ | .bound _ _ | .free _ | .hole =>
    exact WellScoped.unshift_eq [] (List.forall_mem_nil _) hclosed (Int.le_refl 0)

/-- A closed result that is spliced into a group is left as it is there. -/
theorem eq_of_mapM_splice {budget nesting : Nat} {result : Node} {spine : List Node}
    {table table' : NameTable} (hcanonical : result.Canonical) (hclosed : result.WellScoped [])
    (hcalls : result.calls ≤ nesting)
    (hspine : result.splice.2.mapM (reduceWithin budget nesting) table = .ok (spine, table')) :
    (Node.abs [] (result.splice.1 :: spine)).collapse = result ∧ table' = table := by
  have hleft : ∀ element ∈ result.splice.2,
      reduceWithin budget nesting element table = .ok (element, table) := fun element hmem =>
    reduceWithin_canonical (hcanonical.splice.2 element hmem)
      (((calls_splice_le result).2 element hmem).trans hcalls) table
  obtain ⟨rfl, rfl⟩ := Prod.mk.inj (Except.ok.inj (hspine.symm.trans (Copying.mapM_self hleft)))
  exact ⟨hcanonical.collapse_splice hclosed, rfl⟩

/-- A closed node in a group of its own is reduced to what it is reduced to by itself. -/
theorem reduceWithin_of_group {budget nesting : Nat} {node result : Node} {table table' : NameTable}
    (hclosed : node.WellScoped [])
    (h : reduceWithin budget (nesting + 1) (.abs [] [node]) table = .ok (result, table')) :
    reduceWithin budget nesting node table = .ok (result, table') := by
  obtain ⟨_, _, _, spine, hdrive, hspine, rfl⟩ := exists_of_reduceWithin_abs h
  cases hdrive with
  | @rest _ reduced _ _ _ hreduce _ _ =>
    rw [List.append_nil] at hspine
    obtain ⟨hresult, rfl⟩ := eq_of_mapM_splice
      ((reduceWithin_settles budget nesting).canonical hreduce)
      (reduceWithin_sound budget nesting hreduce hclosed).1
      (calls_le_of_reduceWithin hreduce) hspine
    rw [hresult]
    exact hreduce

/-- The identity is canonical. -/
theorem canonical_identity (param : Param) : (Node.abs [param] [.bound 0 0]).Canonical :=
  canonical_abs.mpr ⟨⟨rfl, fun hne => absurd rfl hne⟩, nofun, List.forall_mem_singleton.mpr trivial⟩

/-- The identity applied to a closed argument is reduced to what a copy of the argument is reduced
    to. -/
theorem exists_of_reduceWithin_identity {budget nesting : Nat} {param : Param}
    {argument result : Node} {table table' : NameTable} (hclosed : argument.WellScoped [])
    (h : reduceWithin budget nesting (.abs [] [.abs [param] [.bound 0 0], argument]) table
      = .ok (result, table')) :
    ∃ nesting' ≤ nesting, ∃ copied between, argument.copy budget 0 0 table = .ok (copied, between)
      ∧ reduceWithin budget nesting' copied between = .ok (result, table') := by
  match nesting with
  | 0 => exact absurd h Copying.throw_ne_ok
  | nesting + 1 =>
    have hsettles := reduceWithin_settles budget nesting
    obtain ⟨_, _, _, spine, hdrive, hspine, rfl⟩ := exists_of_reduceWithin_abs h
    cases hdrive with
    | rest hreduce _ hrest =>
      obtain ⟨rfl, rfl⟩ := eq_of_reduceWithin_canonical (canonical_identity param) hreduce
      rcases hrest with hrest | hrest <;> cases hrest
    | consume hreduce htake hdrive =>
      obtain ⟨heq, rfl⟩ := eq_of_reduceWithin_canonical (canonical_identity param) hreduce
      cases heq
      -- A copy takes the only place for the argument, in a group that is left of the identity.
      change substituteList budget argument 0 [.bound 0 0] _ = _ at htake
      rw [substituteList_eq_mapM, List.mapM_cons, substitute_bound_zero] at htake
      obtain ⟨copied, between, hcopy, htake⟩ := Copying.bind_eq_ok.mp htake
      obtain ⟨rfl, rfl⟩ := Copying.pure_inj htake
      have hcopied := (matches_of_copy [] hclosed hcopy).wellScoped hclosed
      cases hdrive with
      | @rest _ reduced _ _ between' hgroup _ _ =>
        match nesting with
        | 0 => exact absurd hgroup Copying.throw_ne_ok
        | nesting + 1 =>
          have hreduce := reduceWithin_of_group hcopied hgroup
          rw [List.append_nil] at hspine
          obtain ⟨hresult, rfl⟩ := eq_of_mapM_splice (hsettles.canonical hgroup)
            (reduceWithin_sound budget nesting hreduce hcopied).1
            (calls_le_of_reduceWithin hgroup) hspine
          rw [hresult]
          exact ⟨nesting, by omega, copied, _, hcopy, hreduce⟩

end LambdaCalc.Node
