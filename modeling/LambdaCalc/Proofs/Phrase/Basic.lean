import LambdaCalc.Proofs.Term.Basic
import LambdaCalc.Token

set_option autoImplicit false

/-! # Phrases: what a token stream spells

The content of a group is a sequence of names, groups and bound names, in which a bound name takes
everything up to the end of the group into its scope (`Phrase`). `Phrase.read` brackets a token
stream from right to left, and `Phrase.term` reads a phrase by lexical scoping: a name is the
innermost parameter of its spelling whose scope it stands in, or free if there is none. -/

namespace LambdaCalc

/-- The content of a group, or what is left of it. -/
inductive Phrase (ν : Type) where
  | done
  | name (x : ν) (rest : Phrase ν)
  | group (inner rest : Phrase ν)
  /-- A name bound up to the end of the group. -/
  | lam (x : ν) (body : Phrase ν)
deriving DecidableEq, Repr

namespace Phrase

variable {ν μ : Type}

/-! ## Bracketing -/

/-- What a token in front of a stream makes of its innermost phrase and of the phrases that go on
    behind the closing tokens that nothing in it has opened. -/
def readToken (spell : Option String → ν) (token : Token) :
    Phrase ν × List (Phrase ν) → Phrase ν × List (Phrase ν)
  | (phrase, behind) =>
      match token.kind with
      | .var => (name (spell token.name) phrase, behind)
      | .func => (lam (spell token.name) phrase, behind)
      | .opening => (group phrase (behind.headD done), behind.tail)
      | .closing => (done, phrase :: behind)
      | .stray _ => (phrase, behind)

/-- The innermost phrase of a token stream, and the phrases that go on behind the closing tokens
    that nothing in the stream has opened. Groups left open end with the stream. -/
def read (spell : Option String → ν) (tokens : List Token) : Phrase ν × List (Phrase ν) :=
  tokens.foldr (readToken spell) (done, [])

/-- The phrase of a whole token stream. -/
def ofTokens (tokens : List Token) : Phrase (Option String) := (read id tokens).1

/-! ## Changing names -/

/-- The same phrase with its names changed. -/
def map (f : ν → μ) : Phrase ν → Phrase μ
  | done => done
  | name x rest => name (f x) (rest.map f)
  | group inner rest => group (inner.map f) (rest.map f)
  | lam x body => lam (f x) (body.map f)

theorem readToken_map (spell : Option String → ν) (f : ν → μ) (token : Token) (phrase : Phrase ν)
    (behind : List (Phrase ν)) :
    readToken (f ∘ spell) token (phrase.map f, behind.map (map f))
      = ((readToken spell token (phrase, behind)).1.map f,
          (readToken spell token (phrase, behind)).2.map (map f)) := by
  unfold readToken
  cases token.kind with
  | opening => cases behind <;> rfl
  | closing | func | var | stray _ => rfl

/-- Other spellings give the same phrases with other names. -/
theorem read_map (spell : Option String → ν) (f : ν → μ) (tokens : List Token) :
    read (f ∘ spell) tokens
      = ((read spell tokens).1.map f, (read spell tokens).2.map (map f)) := by
  induction tokens with
  | nil => rfl
  | cons token tokens ih =>
    show readToken (f ∘ spell) token (read (f ∘ spell) tokens) = _
    rw [ih]
    exact readToken_map spell f token _ _

/-! ## Lexical scoping -/

variable [DecidableEq ν]

/-- The λ-term of a name, given the names bound around it from the inside out. -/
def resolve (scope : List ν) (x : ν) : Term ν :=
  if x ∈ scope then .var (scope.idxOf x) else .free x

theorem resolve_of_not_mem {scope : List ν} {x : ν} (h : x ∉ scope) : resolve scope x = .free x :=
  if_neg h

theorem resolve_cons_self (scope : List ν) (x : ν) : resolve (x :: scope) x = .var 0 := by
  rw [resolve, if_pos List.mem_cons_self, List.idxOf_cons_self]

/-- A name that is bound further out is found behind the inner ones. -/
theorem resolve_append_of_not_mem {inner : List ν} (outer : List ν) {x : ν} (h : x ∉ inner) :
    resolve (inner ++ outer) x = (resolve outer x).shift inner.length := by
  unfold resolve
  by_cases hx : x ∈ outer
  · rw [if_pos hx, if_pos (List.mem_append_right _ hx), List.idxOf_append_of_notMem h, Nat.add_comm]
    rfl
  · have hnot : x ∉ inner ++ outer := fun hmem => (List.mem_append.mp hmem).elim h hx
    rw [if_neg hx, if_neg hnot]
    rfl

theorem resolve_cons_of_ne (scope : List ν) {x y : ν} (h : x ≠ y) :
    resolve (y :: scope) x = (resolve scope x).shift 1 :=
  resolve_append_of_not_mem scope fun hmem => h (List.mem_singleton.mp hmem)

theorem resolve_append_of_mem {inner : List ν} (outer : List ν) {x : ν} (h : x ∈ inner) :
    resolve (inner ++ outer) x = .var (inner.idxOf x) := by
  rw [resolve, if_pos (List.mem_append_left _ h), List.idxOf_append_of_mem h]

theorem mem_of_resolve_eq_var {scope : List ν} {x : ν} {index : Nat}
    (h : resolve scope x = .var index) : x ∈ scope := by
  by_contra hx
  rw [resolve_of_not_mem hx] at h
  cases h

/-- The λ-terms of the elements of a phrase. -/
def terms (scope : List ν) : Phrase ν → List (Term ν)
  | done => []
  | name x rest => resolve scope x :: rest.terms scope
  | group inner rest => .ofSpine (inner.terms scope) :: rest.terms scope
  | lam x body => [.lam (.ofSpine (body.terms (x :: scope)))]

/-- The λ-term of a phrase: its first element applied to the others. -/
def term (scope : List ν) (phrase : Phrase ν) : Term ν := .ofSpine (phrase.terms scope)

end Phrase

end LambdaCalc
