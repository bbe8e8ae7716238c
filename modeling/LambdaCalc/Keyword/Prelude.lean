import LambdaCalc.Keyword.Table

set_option autoImplicit false

/-! # The prelude

The keywords that are defined from the start: truth values, arithmetic on Church numerals, and
comparisons. Each of them uses only those before it. -/

namespace LambdaCalc

/-- The definitions of the prelude. -/
def prelude : List (String × String) := [
  ("true", "λx.λy.x"),
  ("false", "λx.λy.y"),
  ("not", "λp.p false true"),
  ("and", "λp.λq.p q p"),
  ("or", "λp.λq.p p q"),

  ("null", "λf.λx.x"),
  ("succ", "λn.λf.λx.f (n f x)"),
  ("pred", "λn.λf.λx.n (λg.λh.h (g f)) (λu.x) (λu.u)"),

  ("add", "λm.λn.m succ n"),
  ("sub", "λm.λn.n pred m"),
  ("mul", "λm.λn.m (add n) null"),
  ("pow", "λb.λe.e b"),

  ("is_null", "λn.n (λx.false) true"),
  ("is_ge", "λm.λn.is_null (sub n m)"),
  ("is_le", "λm.λn.is_null (sub m n)"),
  ("is_eq", "λm.λn.and (is_ge m n) (is_le m n)"),

  ("++", "succ"),
  ("--", "pred")]

/-- The keyword table at the start, with or without the prelude. -/
def KeywordTable.initial (withPrelude : Bool) : Outcome KeywordTable :=
  if withPrelude then KeywordTable.defineAll {} prelude else .ok {}

end LambdaCalc
