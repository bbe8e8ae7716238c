import LambdaCalc.Text.Styled

set_option autoImplicit false

/-! # Terminals

The style of a terminal that is told by control sequences to switch a weight and a colour on and off
again. Without colour a text is left as it is. -/

namespace LambdaCalc.Text

/-- The parameter that switches a weight on. -/
def Weight.code : Weight → Nat
  | .bold => 1
  | .dark => 2

/-- The parameter that switches a colour on. -/
def Colour.code : Colour → Nat
  | .red => 31
  | .magenta => 35

/-- The control sequence with one parameter. -/
def control (code : Nat) : String := s!"\x1b[{code}m"

/-- The style that leaves every text as it is. -/
def plain : Style := fun _ _ text => text

/-- Style a text, the empty text included, if colour is wanted at all. -/
def terminal (coloured : Bool) : Style :=
  if coloured then
    fun weight colour text =>
      control weight.code ++ (colour.map (control ·.code)).getD "" ++ text ++ control 0
  else
    plain

theorem wraps_plain : Style.Wraps plain := fun _ _ => ⟨"", "", fun text => by
  rw [String.empty_append, String.append_empty, plain]⟩

/-- A terminal shows the text itself, whatever it is told around it. -/
theorem wraps_terminal (coloured : Bool) : (terminal coloured).Wraps := by
  cases coloured with
  | true => exact fun _ _ => ⟨_, control 0, fun _ => rfl⟩
  | false => exact wraps_plain

end LambdaCalc.Text
