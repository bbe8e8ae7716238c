import LambdaCalc.Expression.Binding
import LambdaCalc.Expression.Printer
import LambdaCalc.Keyword.Table

set_option autoImplicit false

/-! # Calculating a text

A text is read into tokens, the tokens are bound to an expression, and the expression is reduced and
printed. `KeywordTable.calculate` stops at the first thing that goes wrong, and
`KeywordTable.calculateOrExplain` answers with its description instead. -/

namespace LambdaCalc

namespace KeywordTable

/-- The reduced expression of a text. -/
def reduceText (table : KeywordTable) (text : String) : Outcome Expression := do
  let tokens ← table.tokenize text
  let expression ← Expression.ofTokensWithin (some callLimit) tokens
  expression.normalize

/-- The text of the reduced expression of a text. -/
def calculate (table : KeywordTable) (text : String) : Outcome String := do
  (← table.reduceText text).renderWithin (some callLimit)

/-- The text of the reduced expression of a text, or the description of what is wrong with it. An
    empty text is left as it is. -/
def calculateOrExplain (table : KeywordTable) (text : String) : Outcome String :=
  if text.isEmpty then .ok text
  else
    match table.calculate text with
    | .ok result => .ok result
    | .error (.fault fault) => .ok fault.description
    | .error .nestedTooDeeply => .ok (Fault.description { kind := .expressionSizeLimit })
    | .error stop => .error stop

end KeywordTable

end LambdaCalc
