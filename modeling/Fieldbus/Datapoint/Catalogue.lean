import Fieldbus.Kind

/-! # The catalogue of datapoints

    A datapoint gives a value its meaning: an identifier, a unit, names
    for its states or a range for its quantity.  Datapoints come in
    families that are alike but for these, and each family presents one
    kind of value. -/

namespace Fieldbus

/-- The names of the two states of a flag. -/
structure StateNames where
  off : String
  on : String

/-- A closed interval of quantities. -/
structure Range where
  min : Binary32
  max : Binary32

/-- The nearest quantity inside the range; not-a-number stays. -/
def Range.clamp (range : Range) (value : Binary32) : Binary32 :=
  value.clamp range.min range.max

/-- Flags with two named states. -/
inductive Switching where
  | switch
  | bool
  | enable
  | upDown
  | openClose
  | start
deriving DecidableEq

/-- Quantities spread over a byte. -/
inductive Scaled where
  | scaling
  | angle
deriving DecidableEq

/-- Quantities measured by sensors. -/
inductive Measured where
  | temperature
  | illuminance
  | windSpeed
  | humidity
deriving DecidableEq

/-- Counters that run both ways. -/
inductive Counter where
  | pulses
  | flowRate
  | activeEnergy
  | apparentEnergy
  | reactiveEnergy
  | activeEnergyKwh
  | apparentEnergyKvah
  | reactiveEnergyKvarh
deriving DecidableEq

/-- The datapoints, each under the kind of value it presents. -/
inductive Datapoint : Kind → Type where
  | switching (family : Switching) : Datapoint .flag
  | dimming : Datapoint .control
  | pulseByte : Datapoint .byte
  | pulseTotal : Datapoint .word
  | counter (family : Counter) : Datapoint .integer
  | scaled (family : Scaled) : Datapoint .real
  | measured (family : Measured) : Datapoint .real

namespace Switching

/-- The identifier of a flag. -/
def id : Switching → String
  | switch => "1.001"
  | bool => "1.002"
  | enable => "1.003"
  | upDown => "1.008"
  | openClose => "1.009"
  | start => "1.010"

/-- What the states of a flag are called. -/
def states : Switching → StateNames
  | switch => ⟨"Off", "On"⟩
  | bool => ⟨"False", "True"⟩
  | enable => ⟨"Disable", "Enable"⟩
  | upDown => ⟨"Up", "Down"⟩
  | openClose => ⟨"Open", "Close"⟩
  | start => ⟨"Stop", "Start"⟩

end Switching

namespace Scaled

/-- The identifier of a scaled quantity. -/
def id : Scaled → String
  | scaling => "5.001"
  | angle => "5.003"

/-- The unit of a scaled quantity. -/
def unit : Scaled → String
  | scaling => "%"
  | angle => "°"

/-- The greatest value, sent as the greatest byte; the least is zero. -/
def max : Scaled → Binary32
  | scaling => 100
  | angle => 360

/-- The range of a scaled quantity. -/
def range (family : Scaled) : Range := ⟨0, family.max⟩

/-- How far apart neighbouring bytes are. -/
def step (family : Scaled) : Binary32 := family.max / 255

end Scaled

namespace Measured

/-- The identifier of a measured quantity. -/
def id : Measured → String
  | temperature => "9.001"
  | illuminance => "9.004"
  | windSpeed => "9.005"
  | humidity => "9.007"

/-- The unit of a measured quantity. -/
def unit : Measured → String
  | temperature => "°C"
  | illuminance => "lux"
  | windSpeed => "m/s"
  | humidity => "%"

/-- The range of a measured quantity; no temperature lies below absolute
    zero, the others are not negative. -/
def range : Measured → Range
  | temperature => ⟨-273, 670760⟩
  | illuminance => ⟨0, 670760⟩
  | windSpeed => ⟨0, 670760⟩
  | humidity => ⟨0, 670760⟩

end Measured

namespace Counter

/-- The identifier of a counter. -/
def id : Counter → String
  | pulses => "13.001"
  | flowRate => "13.002"
  | activeEnergy => "13.010"
  | apparentEnergy => "13.011"
  | reactiveEnergy => "13.012"
  | activeEnergyKwh => "13.013"
  | apparentEnergyKvah => "13.014"
  | reactiveEnergyKvarh => "13.015"

/-- The unit of a counter. -/
def unit : Counter → String
  | pulses => "pulses"
  | flowRate => "m³/h"
  | activeEnergy => "Wh"
  | apparentEnergy => "VAh"
  | reactiveEnergy => "VARh"
  | activeEnergyKwh => "kWh"
  | apparentEnergyKvah => "kVAh"
  | reactiveEnergyKvarh => "kVARh"

end Counter

namespace StepControl

/-- The greatest step code a frame can hold. -/
def maxStep : UInt8 := 7

/-- The same direction, with a step code that fits a frame. -/
def saturate (control : StepControl) : StepControl :=
  { control with step := min control.step maxStep }

end StepControl

namespace Datapoint

variable {kind : Kind}

/-- The identifier, main number and sub number. -/
def id : Datapoint kind → String
  | .switching family => family.id
  | .dimming => "3.007"
  | .pulseByte => "5.010"
  | .pulseTotal => "12.001"
  | .counter family => family.id
  | .scaled family => family.id
  | .measured family => family.id

/-- The unit, empty where a value has none. -/
def unit : Datapoint kind → String
  | .switching _ => ""
  | .dimming => ""
  | .pulseByte => "pulses"
  | .pulseTotal => "pulses"
  | .counter family => family.unit
  | .scaled family => family.unit
  | .measured family => family.unit

/-- The quantities a real datapoint sends; others saturate. -/
def range : Datapoint .real → Range
  | .scaled family => family.range
  | .measured family => family.range

end Datapoint

end Fieldbus
