import LambdaCalc.Text.Blank

set_option autoImplicit false

/-! # Qualified names

A name written in the body of the keyword `k` is spelled `$k$name`, so that it can neither capture
nor be captured by the names around a use of the keyword. `Qualifier.strip?` takes the qualifier off
again. -/

namespace LambdaCalc.Qualifier

/-- The spelling of a name in a keyword's body, or outside of all keywords. -/
def qualify (keyword : Option String) (name : String) : String :=
  match keyword with
  | some keyword => s!"${keyword}${name}"
  | none => name

/-- What follows the first `$`, if no blank comes before it. -/
def afterMark : List Char → Option (List Char)
  | [] => none
  | c :: cs => if c = '$' then some cs else if Text.isBlank c then none else afterMark cs

/-- A spelling without its qualifier: two `$` with at least one character, and no blank, in between.
    The first character in between may itself be a `$`. -/
def stripList : List Char → Option (List Char)
  | mark :: first :: cs => if mark = '$' && !Text.isBlank first then afterMark cs else none
  | _ => none

/-- A spelling without its qualifier, if it has one. -/
def strip? (spelling : String) : Option String :=
  (stripList spelling.toList).map String.ofList

/-! ## Stripping undoes qualifying -/

private theorem afterMark_append {keyword : List Char} (rest : List Char)
    (hmark : '$' ∉ keyword) (hblank : ∀ c ∈ keyword, Text.isBlank c = false) :
    afterMark (keyword ++ '$' :: rest) = some rest := by
  induction keyword with
  | nil => simp [afterMark]
  | cons c cs ih =>
    have hc : c ≠ '$' := fun h => hmark (h ▸ List.mem_cons_self)
    have hb : Text.isBlank c = false := hblank c List.mem_cons_self
    simp only [List.cons_append, afterMark, if_neg hc, hb, Bool.false_eq_true, if_false]
    exact ih (fun h => hmark (List.mem_cons_of_mem _ h))
      (fun d hd => hblank d (List.mem_cons_of_mem _ hd))

/-- The qualifier that comes off is the whole of the one put on, if the keyword has neither a `$`
    nor a blank in it, as no keyword has. -/
theorem stripList_qualified {keyword : List Char} (name : List Char) (hne : keyword ≠ [])
    (hmark : '$' ∉ keyword) (hblank : ∀ c ∈ keyword, Text.isBlank c = false) :
    stripList ('$' :: keyword ++ '$' :: name) = some name := by
  cases keyword with
  | nil => exact absurd rfl hne
  | cons c cs =>
    have hb : Text.isBlank c = false := hblank c List.mem_cons_self
    simp only [List.cons_append, stripList, hb, Bool.not_false, Bool.and_true, decide_true, if_true]
    exact afterMark_append name (fun h => hmark (List.mem_cons_of_mem _ h))
      (fun d hd => hblank d (List.mem_cons_of_mem _ hd))

end LambdaCalc.Qualifier
