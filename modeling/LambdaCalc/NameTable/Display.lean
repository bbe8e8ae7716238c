import LambdaCalc.NameTable
import LambdaCalc.Text.Quoted

set_option autoImplicit false

/-! # Showing a name table

A name table on one line, for diagnosis: the quoted spellings, the counters, and the aliases in the
order in which they were made. -/

namespace LambdaCalc.NameTable

/-- Show a name table. -/
def display (table : NameTable) : String :=
  let list (items : List String) : String := ", ".intercalate items
  let link (pair : Nat × Nat) : String := s!"{pair.1}: {pair.2}"
  "NameSpace(names=[" ++ list (table.spellings.map Text.quote) ++
    "], copies=[" ++ list (table.copies.map toString) ++
    "], renames=\x7b" ++ list (table.aliases.entries.map link) ++ "\x7d)"

end LambdaCalc.NameTable
