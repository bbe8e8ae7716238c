import LambdaCalc.Proofs.Term.Beta

set_option autoImplicit false

/-! # Normal forms are unique

A parallel step contracts any of the redexes that a term has, all at once. The complete development
of a term contracts all of them, and every parallel step can be continued to it
(`Parallel.develop`), so that two parallel steps always meet again; since sequences of β-steps and
sequences of parallel steps reach the same terms, so do β-reductions (`Reduces.confluent`). Hence a
term has at most one normal form (`Reduces.normal_unique`). -/

namespace LambdaCalc.Term

variable {ν : Type}

/-! ## Parallel steps -/

/-- Contract any number of the redexes of a term at once. -/
inductive Parallel : Term ν → Term ν → Prop where
  | var (index : Nat) : Parallel (var index) (var index)
  | free (name : ν) : Parallel (free name) (free name)
  | void : Parallel void void
  | app {f f' a a' : Term ν} (hf : Parallel f f') (ha : Parallel a a') :
      Parallel (app f a) (app f' a')
  | lam {body body' : Term ν} (h : Parallel body body') : Parallel (lam body) (lam body')
  | contract {body body' a a' : Term ν} (hbody : Parallel body body') (ha : Parallel a a') :
      Parallel (app (lam body) a) (body'.instantiate a')

namespace Parallel

theorem refl (term : Term ν) : Parallel term term := by
  induction term with
  | var index => exact .var index
  | free name => exact .free name
  | void => exact .void
  | app _ _ ihf iha => exact .app ihf iha
  | lam _ ih => exact .lam ih

theorem of_beta {term term' : Term ν} (h : Beta term term') : Parallel term term' := by
  induction h with
  | contract body argument => exact .contract (refl body) (refl argument)
  | function argument _ ih => exact .app ih (refl argument)
  | argument function _ ih => exact .app (refl function) ih
  | body _ ih => exact .lam ih

theorem reduces {term term' : Term ν} (h : Parallel term term') : Reduces term term' := by
  induction h with
  | var _ | free _ | void => exact .refl _
  | app _ _ ihf iha => exact ihf.app iha
  | lam _ ih => exact ih.lam
  | contract _ _ ihbody iha => exact (ihbody.lam.app iha).trans (.single (.contract _ _))

theorem rename {term term' : Term ν} (h : Parallel term term') (ρ : Nat → Nat) :
    Parallel (term.rename ρ) (term'.rename ρ) := by
  induction h generalizing ρ with
  | var _ | free _ | void => exact refl _
  | app _ _ ihf iha => exact .app (ihf ρ) (iha ρ)
  | lam _ ih => exact .lam (ih _)
  | contract _ _ ihbody iha =>
    rw [instantiate_rename]
    exact .contract (ihbody _) (iha ρ)

theorem up {σ τ : Nat → Term ν} (h : ∀ index, Parallel (σ index) (τ index)) (index : Nat) :
    Parallel (Term.up σ index) (Term.up τ index) := by
  cases index with
  | zero => exact .var 0
  | succ index => exact (h index).rename _

theorem subst {term term' : Term ν} (h : Parallel term term') {σ τ : Nat → Term ν}
    (hσ : ∀ index, Parallel (σ index) (τ index)) : Parallel (term.subst σ) (term'.subst τ) := by
  induction h generalizing σ τ with
  | var index => exact hσ index
  | free name => exact .free name
  | void => exact .void
  | app _ _ ihf iha => exact .app (ihf hσ) (iha hσ)
  | lam _ ih => exact .lam (ih (up hσ))
  | contract _ _ ihbody iha =>
    rw [instantiate_subst]
    exact .contract (ihbody (up hσ)) (iha hσ)

theorem instantiate {body body' a a' : Term ν} (hbody : Parallel body body')
    (ha : Parallel a a') : Parallel (body.instantiate a) (body'.instantiate a') := by
  refine hbody.subst ?_
  intro index
  cases index with
  | zero => exact ha
  | succ index => exact .var index

end Parallel

/-! ## Complete developments -/

/-- Contract all the redexes of a term at once. -/
def develop : Term ν → Term ν
  | app (lam body) argument => body.develop.instantiate argument.develop
  | app function argument => app function.develop argument.develop
  | lam body => lam body.develop
  | term => term

/-- Every parallel step can be continued to the complete development. -/
theorem Parallel.develop {term term' : Term ν} (h : Parallel term term') :
    Parallel term' term.develop := by
  induction h with
  | var _ | free _ | void => exact refl _
  | lam _ ih => exact .lam ih
  | contract _ _ ihbody iha => exact ihbody.instantiate iha
  | app hf _ ihf iha =>
    cases hf with
    | lam _ =>
      -- The function is a binder on both sides, and its development is the one of its body.
      cases ihf with
      | lam hbody => exact .contract hbody iha
    | var _ | free _ | void | app _ _ | contract _ _ => exact .app ihf iha

/-! ## Confluence -/

theorem reduces_iff_parallel {term term' : Term ν} :
    Reduces term term' ↔ Relation.ReflTransGen Parallel term term' := by
  constructor
  · intro h
    exact Relation.ReflTransGen.mono (fun _ _ => Parallel.of_beta) _ _ h
  · intro h
    induction h with
    | refl => exact .refl _
    | tail _ hstep ih => exact ih.trans hstep.reduces

/-- Two reductions of a term can be continued to a common term. -/
theorem Reduces.confluent {term first second : Term ν} (h₁ : Reduces term first)
    (h₂ : Reduces term second) : ∃ meet, Reduces first meet ∧ Reduces second meet := by
  rw [reduces_iff_parallel] at h₁ h₂
  obtain ⟨meet, hfirst, hsecond⟩ := Relation.church_rosser
    (fun _ _ _ hb hc => ⟨_, .single hb.develop, .single hc.develop⟩) h₁ h₂
  exact ⟨meet, reduces_iff_parallel.mpr hfirst, reduces_iff_parallel.mpr hsecond⟩

/-- A term has at most one normal form. -/
theorem Reduces.normal_unique {term first second : Term ν} (h₁ : Reduces term first)
    (hfirst : Normal first) (h₂ : Reduces term second) (hsecond : Normal second) :
    first = second := by
  obtain ⟨meet, hmeet₁, hmeet₂⟩ := h₁.confluent h₂
  rw [← hfirst.eq_of_reduces hmeet₁, ← hsecond.eq_of_reduces hmeet₂]

end LambdaCalc.Term
