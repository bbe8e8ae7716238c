import LambdaCalc.Proofs.Node.Budget
import LambdaCalc.Proofs.Node.Calls
import LambdaCalc.Proofs.Node.Soundness

set_option autoImplicit false

/-! # Reducing reaches the normal forms of its strategy

A tree whose λ-term the function-first strategy normalizes is reduced within large enough limits
(`returns_of_normalizes`). The number of steps that are left bounds how often heads can take
arguments, and between two such steps reduction only descends into the tree, so that the proof is by
induction on the steps and, for as many steps, on the tree. Elements that a spliced head leaves in a
spine are normal already, and are left as they are. The limits are found for driving in an unbounded
room; there is one that is large enough for all that it did (`exists_reduceWithin_abs`). -/

namespace LambdaCalc.Node

open Copying (Below Ensures Returns)
open Term (NormalizesWithin ReducesFunctionFirst)

/-! ## Enough room -/

/-- No term is missing in a canonical tree. -/
theorem Canonical.hasHole {node : Node} (h : node.Canonical) : node.hasHole = false := by
  induction node with
  | abs params spine ih =>
    obtain ⟨_, _, helements⟩ := canonical_abs.mp h
    exact hasHole_abs.mpr fun element hmem => ih element hmem (helements element hmem)
  | bound _ _ | free _ => rfl
  | hole => exact absurd h id

/-- A head that is driven in an unbounded room is driven in one that is large enough: by induction
    on how it is driven. -/
theorem Driven.exists_room {budget nesting : Nat} {head head' : Node} {spine spine' : List Node}
    {table table' : NameTable}
    (h : Driven (reduceWithin budget nesting) none budget head spine table head' spine' table') :
    ∃ room, ∀ nesting', room ≤ nesting' → nesting ≤ nesting' →
      Driven (reduceWithin budget nesting') (some nesting') budget head spine table head' spine'
        table' := by
  induction h with
  | @rest _ result _ _ _ hreduce hsplice hrest =>
    refine ⟨result.levels + 1, fun nesting' hroom hnesting => ?_⟩
    exact .rest (reduceWithin_mono (Nat.le_refl budget) hnesting _ hreduce)
      ((spliceWithin_of_levels_lt hroom).trans hsplice) hrest
  | @consume _ argument _ _ _ body _ _ _ _ _ _ _ hreduce htake _ ih =>
    obtain ⟨room, hroom⟩ := ih
    let enough := 2 * levelsList body + 2 * argument.levels + 2
    refine ⟨max room enough, fun nesting' hmax hnesting => ?_⟩
    obtain ⟨hleft, hright⟩ := Nat.max_le.mp hmax
    exact .consume (reduceWithin_mono (Nat.le_refl budget) hnesting _ hreduce)
      ((congrFun (takeWithin_of_levels_lt hright) _).trans htake) (hroom nesting' hleft hnesting)

/-- An abstraction is reduced within some limits if its head is driven and what is left behind it is
    reduced within some. -/
theorem exists_reduceWithin_abs {budget nesting : Nat} {params : List Param} {head head' : Node}
    {spine left spine' : List Node} {table between table' : NameTable}
    (hdrive : Driven (reduceWithin budget nesting) none budget head spine table head' left between)
    (hspine : left.mapM (reduceWithin budget nesting) between = .ok (spine', table')) :
    ∃ nesting', reduceWithin budget nesting' (.abs params (head :: spine)) table
      = .ok ((Node.abs params (head' :: spine')).collapse, table') := by
  have hsettles := reduceWithin_settles budget nesting
  obtain ⟨room, hroom⟩ := hdrive.exists_room
  have helements := Copying.forall_mem_of_forall₂ (Copying.mapM_forall₂
    (fun _ _ _ _ _ hresult => hsettles.canonical hresult) hspine)
  have hwhole : (Node.abs params (head' :: spine')).hasHole = false := hasHole_abs.mpr
    (List.forall_mem_cons.mpr ⟨(hdrive.atRest hsettles).1.hasHole,
      fun element hmem => (helements element hmem).hasHole⟩)
  let enough := max room (max nesting (Node.abs params (head' :: spine')).levels)
  have hnesting : nesting ≤ enough := (Nat.le_max_left _ _).trans (Nat.le_max_right _ _)
  have hlevels : (Node.abs params (head' :: spine')).levels ≤ enough + 1 :=
    ((Nat.le_max_right _ _).trans (Nat.le_max_right _ _)).trans (Nat.le_succ _)
  refine ⟨enough + 2, (reduceWithin_abs_eq_ok_iff (reduceWithin_settles budget enough)).mpr
    ⟨head', left, between, spine', hroom enough (Nat.le_max_left _ _) hnesting, ?_, ?_⟩⟩
  · exact Copying.Below.mapM (fun node _ =>
      reduceWithin_mono (Nat.le_refl budget) (hnesting.trans (Nat.le_succ _)) node) hspine
  · rw [collapseWithin_of_levels_le hlevels, collapseWithin_none hwhole]

/-! ## Limits for a head and its spine -/

/-- Reducing a node returns within some limits, a budget and a room. -/
def Reducible (size : Nat) (node : Node) : Prop :=
  Returns size fun limits : Nat × Nat => reduceWithin limits.1 limits.2 node

/-- Driving a head against a spine ends within some limits. -/
def Drivable (size : Nat) (head : Node) (spine : List Node) : Prop :=
  ∀ table, table.size = size → ∃ limits : Nat × Nat, ∃ head' spine' table',
    Driven (reduceWithin limits.1 limits.2) none limits.1 head spine table head' spine' table'

theorem Canonical.reducible {node : Node} (h : node.Canonical) (size : Nat) :
    Reducible size node :=
  fun table _ => ⟨(0, node.calls), (node, table), reduceWithin_canonical h (Nat.le_refl _) table⟩

/-- What is left of a spine: what the head at rest has pushed, and elements of the spine. -/
theorem Driven.left_cases {reduceHead : Node → Copying Node} (hsettles : Settles reduceHead)
    {room : Room} {budget : Nat} {head head' : Node} {spine spine' : List Node}
    {table table' : NameTable}
    (h : Driven reduceHead room budget head spine table head' spine' table') :
    ∀ element ∈ spine', element.Canonical ∨ element ∈ spine := by
  induction h with
  | rest hreduce _ _ =>
    intro element hmem
    rcases List.mem_append.mp hmem with hpushed | hspine
    · exact Or.inl ((hsettles.canonical hreduce).splice.2 element hpushed)
    · exact Or.inr hspine
  | consume _ _ _ ih =>
    exact fun element hmem => (ih element hmem).imp_right (List.mem_cons_of_mem _)

theorem driven_mono {limits limits' : Nat × Nat} (h : limits ≤ limits') {head head' : Node}
    {spine spine' : List Node} {table table' : NameTable}
    (hdrive : Driven (reduceWithin limits.1 limits.2) none limits.1 head spine table head' spine'
      table') :
    Driven (reduceWithin limits'.1 limits'.2) none limits'.1 head spine table head' spine' table' :=
  hdrive.mono (reduceWithin_mono h.1 h.2) (Room.within_none none) h.1

theorem reduceWithin_monotone (node : Node) :
    Copying.Monotone fun limits : Nat × Nat => reduceWithin limits.1 limits.2 node :=
  fun _ _ h => reduceWithin_mono h.1 h.2 node

/-! ## Enough limits for a tree that the strategy normalizes -/

/-- Driving ends for every head and spine whose λ-term is normalized within so many steps. -/
def DrivesWithin (steps : Nat) : Prop :=
  ∀ {scopes : List Nat} {size : Nat} {head : Node} {spine : List Node}, head.WellScoped scopes →
    (∀ element ∈ spine, element.WellScoped scopes) → head.NamesWithin size →
    (∀ element ∈ spine, element.NamesWithin size) →
    NormalizesWithin steps ((head.term scopes).apply (spine.map (term scopes))) →
    Drivable size head spine

/-- A head that can be reduced can be driven: it comes to rest, or takes an argument, after which
    one step less is left. -/
theorem drivable_of_reducible {steps size : Nat} {scopes : List Nat} {head : Node}
    {spine : List Node} (hreducible : Reducible size head)
    (hdrives : ∀ left < steps, DrivesWithin left)
    (hhead : head.WellScoped scopes) (hspine : ∀ element ∈ spine, element.WellScoped scopes)
    (hheadNames : head.NamesWithin size) (hspineNames : ∀ element ∈ spine, element.NamesWithin size)
    (h : NormalizesWithin steps ((head.term scopes).apply (spine.map (term scopes)))) :
    Drivable size head spine := by
  intro table hsize
  obtain ⟨limits, ⟨result, between⟩, hresult⟩ := hreducible table hsize
  have hcanonical := (reduceWithin_settles limits.1 limits.2).canonical hresult
  obtain ⟨hscoped, hreduces⟩ := reduceWithin_sound limits.1 limits.2 hresult hhead
  obtain ⟨hnames, hsame⟩ := reduceWithin_ensures hheadNames hresult
  by_cases hrest : spine = [] ∨ result.splice.1.binds = false
  · exact ⟨limits, _, _, _, .rest hresult (spliceWithin_none hscoped.hasHole) hrest⟩
  · obtain ⟨hne, hbinds⟩ := not_or.mp hrest
    rw [Bool.not_eq_false] at hbinds
    rw [hcanonical.splice_of_binds hbinds] at hbinds
    obtain ⟨param, params, body, rfl⟩ := exists_abs_of_binds hbinds
    obtain ⟨argument, rest, rfl⟩ := List.exists_cons_of_ne_nil hne
    obtain ⟨hargument, hrestScoped⟩ := List.forall_mem_cons.mp hspine
    obtain ⟨hargumentNames, hrestNames⟩ := List.forall_mem_cons.mp hspineNames
    obtain ⟨hparams, hbody⟩ := namesWithin_abs.mp hnames
    have hbetween := hsame.size_eq.trans hsize
    obtain ⟨budget, ⟨body', between'⟩, hsubstitute⟩ := substituteList_returns 0 hargument
      hargumentNames (wellScoped_abs.mp hscoped) hbody between hbetween
    obtain ⟨hcontracted, inner, hlam, hterm⟩ := contract_spec hscoped hargument hsubstitute
    obtain ⟨hbody', hsame'⟩ := substituteList_ensures hargumentNames hbody hsubstitute
    -- Contracting the redex of the reduced head and its argument takes one of the steps.
    have hnormal := hcanonical.normal scopes
    rw [hlam, Term.normal_lam_iff] at hnormal
    rw [hlam] at hreduces
    have hreached := h.of_reduces ((hreduces.function _).apply _)
    obtain ⟨left, rfl, hleft⟩ := hreached.of_step
      (Term.FunctionFirst.apply _ (.contract (argument.term scopes) hnormal))
    rw [← hterm] at hleft
    obtain ⟨limits', head', spine', table', hdrive⟩ := hdrives left (Nat.lt_succ_self left)
      hcontracted hrestScoped
      (namesWithin_abs.mpr ⟨fun param hmem => hparams param (List.mem_cons_of_mem _ hmem), hbody'⟩)
      hrestNames hleft between' (hsame'.size_eq.trans hbetween)
    -- The turn taken here and those behind it have limits of their own, and fit in the larger ones.
    have hle : limits ⊔ (budget, 0) ≤ limits ⊔ (budget, 0) ⊔ limits' := le_sup_left
    have hresult' := reduceWithin_monotone head (le_sup_left.trans hle) hresult
    have hsubstitute' := substituteList_mono (le_sup_right.trans hle).1 argument 0 body hsubstitute
    have hdrive' := driven_mono (le_sup_right : limits' ≤ limits ⊔ (budget, 0) ⊔ limits') hdrive
    exact ⟨_, head', spine', table', .consume hresult' hsubstitute' hdrive'⟩

/-- A tree can be reduced if driving ends for as many steps and fewer: by induction on the tree. -/
theorem reducible_of_drivesWithin {steps size : Nat} {scopes : List Nat} {node : Node}
    (hdrives : ∀ left < steps, DrivesWithin left) (hscoped : node.WellScoped scopes)
    (hnames : node.NamesWithin size) (h : NormalizesWithin steps (node.term scopes)) :
    Reducible size node := by
  induction node generalizing scopes with
  | abs params spine ih =>
    match spine with
    | [] => exact fun table _ => ⟨(0, 1), (.abs params [], table), rfl⟩
    | head :: spine =>
      rw [term_abs] at h
      have h := h.of_lams
      obtain ⟨hhead, hspine⟩ := List.forall_mem_cons.mp (wellScoped_abs.mp hscoped)
      obtain ⟨hheadNames, hspineNames⟩ := List.forall_mem_cons.mp (namesWithin_abs.mp hnames).2
      have hreducible := ih head List.mem_cons_self hhead hheadNames h.of_apply
      have hdrivable :=
        drivable_of_reducible hreducible hdrives hhead hspine hheadNames hspineNames h
      intro table hsize
      obtain ⟨limits, head', left, between, hdrive⟩ := hdrivable table hsize
      have hsettles := reduceWithin_settles limits.1 limits.2
      obtain ⟨hcanonical, hgroup, hbinds⟩ := hdrive.atRest hsettles
      obtain ⟨_, hleft, hreduces⟩ := hdrive.sound hsettles (reduceWithin_sound _ _) hhead hspine
      obtain ⟨⟨_, hleftNames⟩, hsame⟩ := hdrive.ensures reduceWithin_ensures hheadNames hspineNames
      -- What is left behind the head at rest is normalized next, element by element.
      have harguments := (h.of_reduces hreduces).of_arguments (hcanonical.normal _) fun hne =>
        isLam_term _ hgroup (hbinds (by simpa using hne))
      have hreducibles : ∀ element ∈ left, Reducible size element := by
        intro element hmem
        rcases hdrive.left_cases hsettles element hmem with hself | hmem'
        · exact hself.reducible size
        · exact ih element (List.mem_cons_of_mem _ hmem') (hspine element hmem')
            (hspineNames element hmem') (harguments _ (List.mem_map.mpr ⟨element, hmem, rfl⟩))
      obtain ⟨limits', ⟨spine', table'⟩, hmapM⟩ := Returns.mapM hreducibles reduceWithin_monotone
        (fun limits element hmem => reduceWithin_ensures (hleftNames element hmem)) between
        (hsame.size_eq.trans hsize)
      have hmapM' := Copying.Monotone.mapM reduceWithin_monotone left
        (le_sup_right : limits' ≤ limits ⊔ limits') hmapM
      obtain ⟨nesting, hreduce⟩ := exists_reduceWithin_abs (driven_mono le_sup_left hdrive) hmapM'
      exact ⟨((limits ⊔ limits').1, nesting), _, hreduce⟩
  | bound depth position => exact fun table _ => ⟨(0, 1), (.bound depth position, table), rfl⟩
  | free name => exact fun table _ => ⟨(0, 1), (.free name, table), rfl⟩
  | hole => exact absurd hscoped id

theorem drivesWithin (steps : Nat) : DrivesWithin steps := by
  induction steps using Nat.strong_induction_on with
  | _ steps ih =>
    intro scopes size head spine hhead hspine hheadNames hspineNames h
    have hreducible := reducible_of_drivesWithin ih hhead hheadNames h.of_apply
    exact drivable_of_reducible hreducible ih hhead hspine hheadNames hspineNames h

/-- A well-scoped tree whose λ-term the strategy normalizes is reduced within some limits. -/
theorem returns_of_normalizes {size : Nat} {scopes : List Nat} {node : Node}
    (hscoped : node.WellScoped scopes) (hnames : node.NamesWithin size)
    (h : Term.NormalizesFunctionFirst (node.term scopes)) : Reducible size node := by
  obtain ⟨steps, hsteps⟩ := Term.normalizesFunctionFirst_iff.mp h
  exact reducible_of_drivesWithin (fun left _ => drivesWithin left) hscoped hnames hsteps

end LambdaCalc.Node
