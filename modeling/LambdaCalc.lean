import LambdaCalc.Fault
import LambdaCalc.Text.Blank
import LambdaCalc.Text.Visible
import LambdaCalc.Text.Quoted
import LambdaCalc.Text.UpperCase
import LambdaCalc.Text.Digit
import LambdaCalc.OrderedTable
import LambdaCalc.NameTable.Display
import LambdaCalc.Scopes
import LambdaCalc.Node.Reduce
import LambdaCalc.Expression.Binding
import LambdaCalc.Expression.Printer
import LambdaCalc.Numeral
import LambdaCalc.Keyword.Prelude
import LambdaCalc.Calculation
import LambdaCalc.CommandLine
import LambdaCalc.Main
import LambdaCalc.Proofs.Term.Basic
import LambdaCalc.Proofs.Term.Beta
import LambdaCalc.Proofs.Term.Confluence
import LambdaCalc.Proofs.Node.Substitute
import LambdaCalc.Proofs.Node.Budget
import LambdaCalc.Proofs.Node.Canonical
import LambdaCalc.Proofs.Node.Driving
import LambdaCalc.Proofs.Node.Turns
import LambdaCalc.Proofs.Node.Soundness
import LambdaCalc.Proofs.Phrase.Basic
import LambdaCalc.Proofs.Phrase.Clash
import LambdaCalc.Proofs.Expression.Scope
import LambdaCalc.Proofs.Expression.Reading
import LambdaCalc.Proofs.Expression.Soundness
import LambdaCalc.Proofs.Node.Limits
import LambdaCalc.Proofs.Node.Completeness
import LambdaCalc.Proofs.Expression.Normalization
import LambdaCalc.Proofs.Expression.Roles
import LambdaCalc.Proofs.Expression.Unqualify
import LambdaCalc.Proofs.Phrase.Expand
import LambdaCalc.Proofs.Keyword.Text
import LambdaCalc.Proofs.Keyword.Numeral
import LambdaCalc.Proofs.Keyword.Qualified
import LambdaCalc.Proofs.Keyword.History
import LambdaCalc.Proofs.Keyword.Hygiene
import LambdaCalc.Proofs.Stops
import LambdaCalc.Proofs.Node.Stops
import LambdaCalc.Proofs.Expression.LexicalScope
import LambdaCalc.Proofs.Keyword.Reachable
import LambdaCalc.Proofs.Expression.Names
import LambdaCalc.Proofs.Layout.Basic
import LambdaCalc.Proofs.Layout.Outline
import LambdaCalc.Proofs.Layout.Spelling
import LambdaCalc.Proofs.Layout.Phrase
import LambdaCalc.Proofs.Layout.Lexemes
import LambdaCalc.Proofs.Layout.Reading
import LambdaCalc.Proofs.Expression.Safety
import LambdaCalc.Proofs.Expression.Ambiguity
import LambdaCalc.Proofs.Expression.ReadBack
import LambdaCalc.Proofs.Keyword.Grammar
import LambdaCalc.Proofs.Term.Numeral
import LambdaCalc.Proofs.Expression.Decoding
import LambdaCalc.Proofs.Term.Arithmetic
import LambdaCalc.Proofs.Keyword.Arithmetic
import LambdaCalc.Proofs.Keyword.Calculation
import LambdaCalc.Proofs.Node.Copies
import LambdaCalc.Proofs.Node.Depths
import LambdaCalc.Proofs.Node.FreshIds
import LambdaCalc.Proofs.Expression.Copies
import LambdaCalc.Proofs.Expression.Limits
import LambdaCalc.Proofs.Node.Calls
import LambdaCalc.Proofs.Expression.Groups
import LambdaCalc.Proofs.Keyword.Groups
import LambdaCalc.Proofs.Statement.Spacing
import LambdaCalc.Proofs.Keyword.Spacing
import LambdaCalc.Proofs.Statement.Lines
import LambdaCalc.Proofs.Statement.Performing
import LambdaCalc.Proofs.Session
import LambdaCalc.Proofs.Shell
import LambdaCalc.Proofs.Statement.Sessions
import LambdaCalc.Proofs.Statement.Loading
import LambdaCalc.Proofs.Statement.Typing
import LambdaCalc.Proofs.CommandLine
import LambdaCalc.Proofs.Expression.Aliases
import LambdaCalc.Proofs.Expression.Offences
import LambdaCalc.Proofs.BetweenLines
import LambdaCalc.Proofs.Agreement
import LambdaCalc.Proofs.Node.Matching
import LambdaCalc.Proofs.Node.Counters
import LambdaCalc.Proofs.Node.Closed
import LambdaCalc.Proofs.Expression.Behind
import LambdaCalc.Proofs.Expression.ShownAlike
import LambdaCalc.Proofs.Expression.CopyIds
import LambdaCalc.Proofs.Expression.Identity
import LambdaCalc.Proofs.Expression.Renaming
import LambdaCalc.Proofs.Keyword.Replacement
import LambdaCalc.Proofs.Keyword.Exchange
import LambdaCalc.Proofs.Keyword.Mirror
import LambdaCalc.Proofs.Keyword.Body
import LambdaCalc.Proofs.Keyword.Identity
import LambdaCalc.Proofs.Layout.InFull
import LambdaCalc.Proofs.Layout.Suffixes
import LambdaCalc.Proofs.Expression.Uses
import LambdaCalc.Proofs.Keyword.SelfReference
import LambdaCalc.Proofs.Expression.Numeral
import LambdaCalc.Proofs.Statement.Runs
import LambdaCalc.Proofs.Statement.Pending
import LambdaCalc.Proofs.Statement.Warnings
import LambdaCalc.Proofs.FailingFiles
