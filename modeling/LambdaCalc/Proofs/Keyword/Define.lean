import LambdaCalc.Keyword.Table
import LambdaCalc.Proofs.Effects

set_option autoImplicit false

/-! # Defining keywords

The tokens and the source of a keyword are entered one after the other, once nothing can fail any
more (`KeywordTable.define_eq`). So a definition that is refused has changed neither
(`KeywordTable.run_add`). -/

namespace LambdaCalc.KeywordTable

variable (table : KeywordTable) (name source : String)

/-- The table with one more keyword, whose name, tokens and source are right. -/
def entered (tokens : List Token) : KeywordTable where
  keywords := table.keywords.put (Text.trim name) tokens
  sources := table.sources.put (Text.trim name) (Text.trim source)

/-- A definition is accepted or refused, and if it is refused, then the tokens and the sources are
    what they were. -/
theorem run_add_eq :
    (add name source).run table
      = if !(Word.isOperator (Text.trim name) || Word.isName (Text.trim name)) then
          (.error (.about .invalidKeyword (Text.trim name)), table)
        else
          match table.tokenize (Text.trim source) (some (Text.trim name)) with
          | .error stop => (.error stop, table)
          | .ok tokens =>
            if tokens.isEmpty then (.error (.about .invalidKeyword (Text.trim name)), table)
            else (.ok (), table.entered name source tokens) := by
  unfold add
  dsimp only
  split
  · rfl
  · rw [run_bind_of_ok (run_get table), run_bind, ExceptT.run_mk]
    cases table.tokenize (Text.trim source) (some (Text.trim name)) with
    | error stop => rfl
    | ok tokens =>
      show (ite _ _ _ : KeywordM Unit).run table = ite _ _ _
      split <;> rfl

/-- What a definition comes to: nothing is entered before the last thing that can be wrong. -/
theorem define_eq :
    table.define name source
      = if !(Word.isOperator (Text.trim name) || Word.isName (Text.trim name)) then
          .error (.about .invalidKeyword (Text.trim name))
        else
          table.tokenize (Text.trim source) (some (Text.trim name)) >>= fun tokens =>
            if tokens.isEmpty then .error (.about .invalidKeyword (Text.trim name))
            else .ok (table.entered name source tokens) := by
  unfold define
  rw [run_add_eq]
  cases Word.isOperator (Text.trim name) || Word.isName (Text.trim name) with
  | false => rfl
  | true =>
    cases table.tokenize (Text.trim source) (some (Text.trim name)) with
    | error stop => rfl
    | ok tokens =>
      simp only [bind, Except.bind]
      cases tokens.isEmpty <;> rfl

/-- A definition that is refused leaves the tokens and the sources as they are. -/
theorem run_add :
    (add name source).run table
      = match table.define name source with
        | .ok defined => (.ok (), defined)
        | .error stop => (.error stop, table) := by
  rw [run_add_eq, define_eq]
  cases Word.isOperator (Text.trim name) || Word.isName (Text.trim name) with
  | false => rfl
  | true =>
    cases table.tokenize (Text.trim source) (some (Text.trim name)) with
    | error stop => rfl
    | ok tokens =>
      simp only [bind, Except.bind]
      cases tokens.isEmpty <;> rfl

/-- So does one that is given up for a fault, which is answered by an empty text. -/
theorem run_create :
    (create name source).run table
      = match table.define name source with
        | .ok defined => (.ok (Text.trim source), defined)
        | .error (.fault _) => (.ok "", table)
        | .error stop => (.error stop, table) := by
  unfold create
  rw [run_tryCatch, run_bind_pure, run_add]
  cases table.define name source with
  | ok defined => rfl
  | error stop => cases stop <;> rfl

theorem erase_eq :
    table.erase name
      = { keywords := table.keywords.erase (Text.trim name)
          sources := table.sources.erase (Text.trim name) } := rfl

end LambdaCalc.KeywordTable
