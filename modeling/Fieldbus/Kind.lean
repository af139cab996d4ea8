import Fieldbus.Binary32.Arithmetic

/-! # Kinds of value

    What a datapoint presents to the application is one of six kinds of
    value.  Data can be passed from one codec to another exactly when both
    have the same kind. -/

namespace Fieldbus

/-- A direction together with how far to go. -/
structure StepControl where
  increase : Bool
  step : UInt8
deriving DecidableEq

/-- The kinds of value a frame can stand for. -/
inductive Kind where
  | flag
  | control
  | byte
  | word
  | integer
  | real
deriving DecidableEq

namespace Kind

/-- The values of a kind. -/
abbrev Value : Kind → Type
  | flag => Bool
  | control => StepControl
  | byte => UInt8
  | word => UInt32
  | integer => Int32
  | real => Binary32

/-- The value a datapoint has before it is given one. -/
def initial : (kind : Kind) → kind.Value
  | flag => false
  | control => ⟨false, 0⟩
  | byte => 0
  | word => 0
  | integer => 0
  | real => Binary32.zero

/-- How two values of a kind stand to each other: some kinds have no order
    at all, and among reals there are some without a place in it. -/
inductive Comparison where
  | unranked
  | unordered
  | ranked (order : Ordering)
deriving DecidableEq

/-- Equality of values; for reals it is the numerical one. -/
def equal : (kind : Kind) → kind.Value → kind.Value → Bool
  | flag, a, b => a == b
  | control, a, b => decide (a = b)
  | byte, a, b => a == b
  | word, a, b => a == b
  | integer, a, b => a == b
  | real, a, b => a.numEq b

/-- The order of values, where the kind has one. -/
def compare : (kind : Kind) → kind.Value → kind.Value → Comparison
  | flag, _, _ => .unranked
  | control, _, _ => .unranked
  | byte, a, b => .ranked (Ord.compare a.toNat b.toNat)
  | word, a, b => .ranked (Ord.compare a.toNat b.toNat)
  | integer, a, b => .ranked (Ord.compare a.toInt b.toInt)
  | real, a, b =>
      match a.compare? b with
      | some order => .ranked order
      | none => .unordered

end Kind

end Fieldbus
