import Fieldbus.Binary32.Basic
import Fieldbus.Decimal

/-! # Binary32 numbers as text

    A finite number is written as the decimal with two places nearest to
    its exact value; of two equally near ones, the one with an even last
    digit.  The sign bit is always shown, so a negative number that rounds
    to nothing is still written with its sign. -/

namespace Fieldbus

namespace Binary32

/-- The hundredths nearest to a magnitude. -/
def Magnitude.hundredths (magnitude : Magnitude) : Nat :=
  roundDiv (100 * magnitude.units) oneUnits

/-- The text of a number. -/
def text : Binary32 → String
  | .nan => "NaN"
  | .infinity negative => if negative then "-inf" else "inf"
  | .finite negative magnitude =>
      Decimal.text ⟨negative, magnitude.hundredths⟩

end Binary32

end Fieldbus
