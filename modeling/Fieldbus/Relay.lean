import Fieldbus.Codec

/-! # Relays — one register, any number of steps

    A relay holds the last data it saw and works on it step by step: it
    takes new data, writes a value, reads the register, or passes a value
    on from one codec to another.  A step that fails leaves the register
    alone, and the run goes on. -/

namespace Fieldbus

namespace Relay

/-- What a relay can be told to do. -/
inductive Step where
  | load (data : Bytes)
  | encode {kind : Kind} (codec : Codec kind) (value : kind.Value)
  | decode {kind : Kind} (codec : Codec kind)
  | convert {kind : Kind} (source target : Codec kind)
  | view (shape : Shape)

/-- What a step has to tell. -/
inductive Reply where
  | nothing
  | decoded {kind : Kind} (codec : Codec kind) (value : kind.Value)
  | converted {kind : Kind} (source : Codec kind) (value : kind.Value)
  | viewed {shape : Shape} (frame : Frame shape)

/-- The next register and the reply of a step. -/
def Step.perform (register : Bytes) : Step → Decoding (Bytes × Reply)
  | .load data => pure (data, .nothing)
  | .encode codec value => pure (codec.send value, .nothing)
  | .decode codec => do
      let value ← codec.decode register
      pure (register, .decoded codec value)
  | .convert source target => do
      let value ← source.decode register
      pure (target.send value, .converted source value)
  | .view shape => do
      let frame ← Frame.view shape register
      pure (register, .viewed frame)

/-- What is known of a step after it was done. -/
structure Record where
  register : Bytes
  outcome : Except LengthError Reply
  events : List Event

/-- The record of a step; a failure keeps the register. -/
def Step.record (register : Bytes) (step : Step) : Record :=
  let performed := step.perform register
  match performed.outcome with
  | .ok (next, reply) => ⟨next, .ok reply, performed.log⟩
  | .error cause => ⟨register, .error cause, performed.log⟩

/-- The records of a run, each step on the register the last one left. -/
def run (register : Bytes) : List Step → List Record
  | [] => []
  | step :: rest =>
      let record := step.record register
      record :: run record.register rest

end Relay

end Fieldbus
