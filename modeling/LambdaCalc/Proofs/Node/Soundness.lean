import LambdaCalc.Proofs.Node.Driving
import LambdaCalc.Proofs.Node.Substitute
import LambdaCalc.Proofs.Term.FunctionFirst

set_option autoImplicit false

/-! # Reducing a tree reduces its λ-term

Reducing a well-scoped tree takes its λ-term along the function-first strategy
(`reduceWithin_sound`): driving reduces the head before it takes an argument, each argument taken is
one contraction, and what is left of the spine is reduced behind a head that is at rest. Since a
canonical tree has a normal λ-term (`Canonical.normal`), the strategy has then reached a normal
form. -/

namespace LambdaCalc.Node

open Term (ReducesFunctionFirst Normal)

/-! ## λ-terms of canonical trees -/

theorem isLam_term (scopes : List Nat) {node : Node} (hgroup : node.isGroup = false)
    (hbinds : node.binds = false) : (node.term scopes).isLam = false := by
  match node with
  | .abs [] [] | .free _ | .hole => rfl
  | .bound depth position =>
    rw [term, referenceTerm]
    split <;> rfl
  | .abs [] (_ :: _) => cases hgroup
  | .abs (_ :: _) _ => cases hbinds

/-- A canonical tree has a normal λ-term. -/
theorem Canonical.normal {node : Node} (h : node.Canonical) (scopes : List Nat) :
    Normal (node.term scopes) := by
  induction node generalizing scopes with
  | abs params spine ih =>
    obtain ⟨hhead, _, helements⟩ := canonical_abs.mp h
    rw [term_abs, Term.normal_lams_iff]
    match spine with
    | [] => exact Term.normal_void
    | head :: arguments =>
      obtain ⟨hfirst, hrest⟩ := List.forall_mem_cons.mp helements
      refine Term.normal_apply (ih head List.mem_cons_self hfirst _) (fun hne => ?_)
        (List.forall_mem_map.mpr fun argument hmem =>
          ih argument (List.mem_cons_of_mem _ hmem) (hrest argument hmem) _)
      exact isLam_term _ hhead.1 (hhead.2 fun hnil => hne (by rw [hnil]; rfl))
  | bound depth position =>
    rw [term, referenceTerm]
    split
    · exact Term.normal_var _
    · exact Term.normal_void
  | free name => exact Term.normal_free name
  | hole => exact absurd h id

/-! ## Driving and reducing -/

/-- What a way to reduce the head at hand has to guarantee: it takes the λ-term of a well-scoped
    node along the strategy. -/
def Sound (reduceHead : Node → Copying Node) : Prop :=
  ∀ {node result : Node} {table table' : NameTable} {scopes : List Nat},
    reduceHead node table = .ok (result, table') → node.WellScoped scopes →
      result.WellScoped scopes ∧ ReducesFunctionFirst (node.term scopes) (result.term scopes)

theorem Driven.sound {reduceHead : Node → Copying Node} (hsettles : Settles reduceHead)
    (hsound : Sound reduceHead) {budget : Nat} {head head' : Node} {spine spine' : List Node}
    {table table' : NameTable} {scopes : List Nat}
    (h : Driven reduceHead none budget head spine table head' spine' table')
    (hhead : head.WellScoped scopes) (hspine : ∀ element ∈ spine, element.WellScoped scopes) :
    head'.WellScoped scopes ∧ (∀ element ∈ spine', element.WellScoped scopes)
      ∧ ReducesFunctionFirst ((head.term scopes).apply (spine.map (term scopes)))
          ((head'.term scopes).apply (spine'.map (term scopes))) := by
  induction h with
  | rest hreduce _ _ =>
    obtain ⟨hresult, hreduces⟩ := hsound hreduce hhead
    obtain ⟨hfirst, hpushed, hterm⟩ := splice_spec hresult
    refine ⟨hfirst, List.forall_mem_append.mpr ⟨hpushed, hspine⟩, ?_⟩
    rw [List.map_append, Term.apply_append, hterm]
    exact hreduces.apply _
  | consume hreduce htake _ ih =>
    obtain ⟨hresult, hreduces⟩ := hsound hreduce hhead
    obtain ⟨hargument, hrest⟩ := List.forall_mem_cons.mp hspine
    obtain ⟨hcontracted, inner, hlam, hterm⟩ := contract_spec hresult hargument htake
    obtain ⟨hhead', hspine', hdriven⟩ := ih hcontracted hrest
    refine ⟨hhead', hspine', ((hreduces.function _).apply _).trans (.trans ?_ hdriven)⟩
    -- The reduced head is canonical, so that its body is normal when the redex is contracted.
    have hnormal := (hsettles.canonical hreduce).normal scopes
    rw [hlam, Term.normal_lam_iff] at hnormal
    rw [hlam, hterm]
    exact ReducesFunctionFirst.apply _ (.single (.contract _ hnormal))

/-- Reducing a well-scoped node takes its λ-term along the strategy. -/
theorem reduceWithin_sound (budget nesting : Nat) : Sound (reduceWithin budget nesting) := by
  induction nesting with
  | zero => exact fun h => absurd h Copying.throw_ne_ok
  | succ nesting ih =>
    intro node result table table' scopes h hscoped
    have hsettles := reduceWithin_settles budget nesting
    match node with
    | .abs params (head :: spine) =>
      obtain ⟨head', left, between, spine', hdrive, hspine, rfl⟩ := exists_of_reduceWithin_abs h
      obtain ⟨hhead, hrest⟩ := List.forall_mem_cons.mp (wellScoped_abs.mp hscoped)
      obtain ⟨hhead', hleft, hdriven⟩ := hdrive.sound hsettles ih hhead hrest
      obtain ⟨hcanonical, hgroup, hbinds⟩ := hdrive.atRest hsettles
      have hresult : ∀ element ∈ left, ∀ table result table',
          reduceWithin budget nesting element table = .ok (result, table') →
            result.WellScoped (params.length :: scopes)
              ∧ ReducesFunctionFirst (element.term (params.length :: scopes))
                  (result.term (params.length :: scopes)) :=
        fun element hmem _ _ _ hrun => ih hrun (hleft element hmem)
      have hscopeds := Copying.forall_mem_of_forall₂
        (Copying.mapM_forall₂ (fun element hmem _ _ _ hrun => (hresult element hmem _ _ _ hrun).1)
          hspine)
      -- The head at rest is a normal function that is no binder, so that its arguments come next.
      have hreduced := hdriven.trans (ReducesFunctionFirst.apply_arguments
        (hcanonical.normal _) (fun hne => isLam_term _ hgroup (hbinds (by simpa using hne)))
        (List.forall₂_map_left_iff.mpr (List.forall₂_map_right_iff.mpr
          (Copying.mapM_forall₂ (fun element hmem _ _ _ hrun =>
            ⟨(hresult element hmem _ _ _ hrun).2, (hsettles.canonical hrun).normal _⟩) hspine))))
      have hwhole : (Node.abs params (head' :: spine')).WellScoped scopes :=
        wellScoped_abs.mpr (List.forall_mem_cons.mpr ⟨hhead', hscopeds⟩)
      obtain ⟨hscoped', hterm⟩ := collapse_spec hwhole
      rw [hterm, term_abs, term_abs]
      exact ⟨hscoped', hreduced.lams _⟩
    | .abs params [] | .bound _ _ | .free _ =>
      obtain ⟨rfl, rfl⟩ := Copying.pure_inj h
      exact ⟨hscoped, .refl _⟩
    | .hole => exact absurd hscoped id

end LambdaCalc.Node
