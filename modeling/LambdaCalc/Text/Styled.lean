set_option autoImplicit false

/-! # Styled text

Parts of what is printed stand out: by their weight, and some of them by a colour. How a terminal is
made to show this is not said here. A way to do it (`Text.Style`) is given to whatever prints, and
all that is relied on is that a styled text is the text itself between marks (`Style.Wraps`). -/

namespace LambdaCalc.Text

/-- How strongly a text is shown. -/
inductive Weight where
  | bold
  | dark
deriving DecidableEq, Repr

/-- The colours in use. -/
inductive Colour where
  | red
  | magenta
deriving DecidableEq, Repr

/-- A way to write a text so that it is shown with a weight, and in a colour if there is one. -/
abbrev Style := Weight → Option Colour → String → String

/-- A styled text is the text between marks, which depend on nothing but the style. -/
def Style.Wraps (style : Style) : Prop :=
  ∀ weight colour, ∃ before behind, ∀ text, style weight colour text = before ++ text ++ behind

end LambdaCalc.Text
