import Fieldbus.BitField

/-! # Placement — where the parts of a value sit in their byte

    Two bytes on the bus are shared.  The byte of a step control holds its
    direction above its step code, and the upper byte of a float holds the
    sign, the exponent and the top of the mantissa, in this order:

        7   6   5   4   3   2   1   0
                        dir  step code
        sgn  exponent ----  mantissa -

    A lone flag is the lowest bit of its byte. -/

namespace Fieldbus

namespace Placement

/-- A lone flag. -/
def flag : BitField where
  offset := 0
  width := 1

/-- The direction of a step control. -/
def direction : BitField where
  offset := 3
  width := 1

/-- The step code of a step control. -/
def stepCode : BitField where
  offset := 0
  width := 3

/-- The sign of a float. -/
def sign : BitField where
  offset := 7
  width := 1

/-- The exponent of a float. -/
def exponent : BitField where
  offset := 3
  width := 4

/-- The upper three bits of a float's mantissa. -/
def mantissaTop : BitField where
  offset := 0
  width := 3

end Placement

end Fieldbus
