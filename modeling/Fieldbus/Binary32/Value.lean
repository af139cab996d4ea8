import Fieldbus.Binary32.Basic

/-! # The exact value of a binary32 number

    Bounds on rounding errors are about rational numbers.  This is the one
    passage from least steps to rationals; nothing is rounded on the way. -/

namespace Fieldbus

namespace Binary32

/-- The rational number a finite number stands for. -/
def toRat? : Binary32 → Option Rat
  | .nan => none
  | .infinity _ => none
  | .finite negative magnitude =>
      some (mkRat (signed negative magnitude.units) oneUnits)

end Binary32

end Fieldbus
