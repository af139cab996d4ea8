import Fieldbus.Binary32.Text
import Fieldbus.Datapoint.Catalogue

/-! # Datapoints as text

    Flags show the name of their state, step controls the direction and
    the step code, and everything else a number and its unit.  The value
    is shown as it is, also where it could not be sent. -/

namespace Fieldbus

/-- A number and its unit. -/
def withUnit (number unit : String) : String := number ++ " " ++ unit

/-- The name of a flag's state. -/
def StateNames.text (names : StateNames) (on : Bool) : String :=
  if on then names.on else names.off

/-- The direction and the step code; code zero stops the movement. -/
def StepControl.text (control : StepControl) : String :=
  if control.step = 0 then "Break"
  else
    (if control.increase then "Increase " else "Decrease ")
      ++ toString control.step.toNat

/-- The text of a value under a datapoint. -/
def Datapoint.text {kind : Kind} (datapoint : Datapoint kind) :
    kind.Value → String :=
  match datapoint with
  | .switching family => family.states.text
  | .dimming => StepControl.text
  | .pulseByte => fun count => withUnit (toString count.toNat) datapoint.unit
  | .pulseTotal => fun count => withUnit (toString count.toNat) datapoint.unit
  | .counter family => fun count => withUnit (toString count.toInt) family.unit
  | .scaled family => fun value => withUnit value.text family.unit
  | .measured family => fun value => withUnit value.text family.unit

end Fieldbus
