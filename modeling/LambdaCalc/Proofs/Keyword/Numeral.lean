import LambdaCalc.Proofs.Keyword.Text

set_option autoImplicit false

/-! # The phrase of a numeral

The tokens of a number spell `Numeral.phrase` (`Numeral.spells_tokens`), which binds the two
parameters and leaves no name free, and the λ-term of which is the Church numeral
(`Numeral.term_phrase`). The groups of its applications are opened one after the other and closed
all at the end; to go by induction on the number, they are seen as groups inside one another
(`Numeral.written`). -/

namespace LambdaCalc.Numeral

open Phrase (readToken)

variable {ν μ κ : Type}

/-- A function applied to a base so many times; every argument but the innermost one is a group. -/
def applications (function base : ν) : (count : Nat) → Phrase ν
  | 0 => .name base .done
  | 1 => .name function (.name base .done)
  | count + 2 => .name function (.group (applications function base (count + 1)) .done)

/-- The phrase of a number. -/
def phrase (function base : ν) (count : Nat) : Phrase ν :=
  .lam function (.lam base (applications function base count))

/-- The Church numeral of a number. -/
def term (count : Nat) : Term ν := .lam (.lam ((Term.app (.var 1))^[count] (.var 0)))

/-! ## The λ-term -/

theorem term_applications [DecidableEq ν] {function base : ν} (h : function ≠ base) (count : Nat) :
    (applications function base count).term [base, function]
      = (Term.app (.var 1))^[count] (.var 0) := by
  have hbase : Phrase.resolve [base, function] base = .var 0 := Phrase.resolve_cons_self _ _
  have hfunction : Phrase.resolve [base, function] function = .var 1 := by
    simp [Phrase.resolve, h.symm]
  induction count using applications.induct with
  | case1 => simp [applications, Phrase.term, Phrase.terms, hbase, Term.ofSpine]
  | case2 => simp [applications, Phrase.term, Phrase.terms, hbase, hfunction, Term.ofSpine]
  | case3 count ih =>
    rw [Function.iterate_succ_apply', ← ih]
    simp [applications, Phrase.term, Phrase.terms, hfunction, Term.ofSpine]

theorem term_phrase [DecidableEq ν] {function base : ν} (h : function ≠ base) (count : Nat) :
    (phrase function base count).term [] = term count := by
  have happlications := term_applications h count
  rw [Phrase.term] at happlications
  simp [phrase, term, Phrase.term, Phrase.terms, Term.ofSpine, ← happlications]

theorem map_term (f : ν → μ) (count : Nat) : (term count : Term ν).map f = term count := by
  simp only [term, Term.map]
  congr 2
  induction count with
  | zero => rfl
  | succ count ih =>
    rw [Function.iterate_succ_apply', Function.iterate_succ_apply', Term.map, ih]
    rfl

/-! ## The names -/

theorem map_applications (f : ν → μ) (function base : ν) (count : Nat) :
    (applications function base count).map f = applications (f function) (f base) count := by
  induction count using applications.induct with
  | case1 | case2 => rfl
  | case3 count ih => simp only [applications, Phrase.map, ih]

theorem map_phrase (f : ν → μ) (function base : ν) (count : Nat) :
    (phrase function base count).map f = phrase (f function) (f base) count := by
  simp only [phrase, Phrase.map, map_applications]

theorem binders_phrase (function base : ν) (count : Nat) :
    (phrase function base count).binders = [function, base] := by
  have happlications : (applications function base count).binders = [] := by
    induction count using applications.induct with
    | case1 | case2 => rfl
    | case3 count ih => simp only [applications, Phrase.binders, ih, List.append_nil]
  simp only [phrase, Phrase.binders, happlications]

theorem nestings_phrase (function base : ν) (count : Nat) :
    (phrase function base count).nestings [] = [(function, base)] := by
  have happlications (scope : List ν) : (applications function base count).nestings scope = [] := by
    induction count using applications.induct with
    | case1 | case2 => rfl
    | case3 count ih => simp only [applications, Phrase.nestings, ih, List.append_nil]
  simp only [phrase, Phrase.nestings, happlications, List.map_nil, List.map_cons, List.nil_append,
    List.append_nil]

theorem free_phrase [DecidableEq ν] (function base : ν) (count : Nat) :
    (phrase function base count).free [] = [] := by
  have happlications : (applications function base count).free [base, function] = [] := by
    induction count using applications.induct with
    | case1 => simp [applications, Phrase.free]
    | case2 => simp [applications, Phrase.free]
    | case3 count ih => simp [applications, Phrase.free, ih]
  simp only [phrase, Phrase.free, happlications]

/-! ## The tokens -/

/-- The tokens of a function applied to a base so many times; every argument but the innermost one
    is a group. -/
def applied : (count : Nat) → List Token
  | 0 => [.var base]
  | 1 => [.var function, .var base]
  | count + 2 => .var function :: .opening :: (applied (count + 1) ++ [.closing])

/-- Groups that are opened first and closed last are groups inside one another: by induction on
    their number. -/
theorem applied_succ (groups : Nat) :
    applied (groups + 1) = (List.replicate groups [Token.var function, .opening]).flatten
      ++ [.var function] ++ [.var base] ++ List.replicate groups .closing := by
  induction groups with
  | zero => rfl
  | succ groups ih =>
    rw [applied, ih, List.replicate_succ, List.flatten_cons, List.replicate_succ']
    simp only [List.append_assoc, List.cons_append, List.nil_append]

/-- The tokens of a number. -/
def written (count : Nat) : List Token :=
  .opening :: .func function :: .func base :: (applied count ++ [.closing])

theorem tokens_eq (count : Nat) (limit : Int) :
    tokens count limit
      = if limit < count then
          .error (.fault { kind := .numberTooLarge, subject := some (.number count) })
        else .ok (written count) := by
  unfold tokens
  split
  · rfl
  · cases count with
    | zero => rfl
    | succ groups =>
      have hgroups : (((groups + 1 : Nat) : Int) - 1).toNat = groups := by omega
      rw [hgroups, if_neg (by omega), written, applied_succ]
      simp only [List.append_assoc, List.cons_append, List.nil_append]

theorem eq_written_of_tokens {count : Nat} {limit : Int} {tokens : List Token}
    (h : Numeral.tokens count limit = .ok tokens) : tokens = written count := by
  rw [tokens_eq] at h
  split at h
  · cases h
  · exact (Except.ok.inj h).symm

/-- The applications and the token that ends their group: by induction on their number. -/
theorem foldr_applied (count : Nat) (rest : Phrase (Option String))
    (behind : List (Phrase (Option String))) :
    (applied count ++ [Token.closing]).foldr (readToken id) (rest, behind)
      = (applications (some function) (some base) count, rest :: behind) := by
  induction count using applied.induct generalizing rest behind with
  | case1 | case2 => rfl
  | case3 count ih =>
    have hclosing : [Token.closing].foldr (readToken id) (rest, behind) = (.done, rest :: behind) :=
      rfl
    rw [List.foldr_append, hclosing, applied, List.foldr_cons, List.foldr_cons, ih]
    rfl

theorem spells_tokens {count : Nat} {limit : Int} {tokens : List Token}
    (h : Numeral.tokens count limit = .ok tokens) :
    Phrase.Spells tokens (phrase (some function) (some base) count) := by
  intro rest behind
  rw [eq_written_of_tokens h, written, List.foldr_cons, List.foldr_cons, List.foldr_cons,
    foldr_applied]
  rfl

theorem named_tokens {Good : String → Prop} (hfunction : Good function) (hbase : Good base)
    {count : Nat} {limit : Int} {tokens : List Token}
    (h : Numeral.tokens count limit = .ok tokens) : ∀ token ∈ tokens, token.Named Good := by
  have hfunction' : (Token.var function).Named Good := ⟨_, rfl, hfunction⟩
  have hbase' : (Token.var base).Named Good := ⟨_, rfl, hbase⟩
  have happlied (count : Nat) : ∀ token ∈ applied count, token.Named Good := by
    induction count using applied.induct with
    | case1 => exact List.forall_mem_singleton.mpr hbase'
    | case2 => exact List.forall_mem_cons.mpr ⟨hfunction', List.forall_mem_singleton.mpr hbase'⟩
    | case3 count ih =>
      exact List.forall_mem_cons.mpr ⟨hfunction', List.forall_mem_cons.mpr ⟨trivial,
        List.forall_mem_append.mpr ⟨ih, List.forall_mem_singleton.mpr trivial⟩⟩⟩
  rw [eq_written_of_tokens h]
  exact List.forall_mem_cons.mpr ⟨trivial, List.forall_mem_cons.mpr ⟨hfunction',
    List.forall_mem_cons.mpr ⟨hbase', List.forall_mem_append.mpr ⟨happlied count,
      List.forall_mem_singleton.mpr trivial⟩⟩⟩⟩

end LambdaCalc.Numeral
