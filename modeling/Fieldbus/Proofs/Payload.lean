import Fieldbus.Relay
import Fieldbus.Proofs.Layout
import Fieldbus.Proofs.Transmission

/-! # Payload — what frames of flags, step controls and integers carry

    The codecs of these kinds round nothing.  Each is the layout of its
    kind, up to a step code that is too great for a frame, so two laws of
    that layout settle them all: reading gives back what was written, and
    writing what was read clears the bits outside the payload.

    That a frame is read by its payload alone follows from the two laws.
    Passing data on is then the clearing of bits, which is idempotent, and
    the induction over a run of such steps needs nothing else. -/

namespace Fieldbus

variable {kind : Kind}

/-- The layout of a kind. -/
def Kind.layout : (kind : Kind) → Layout kind
  | flag => .b1
  | control => .b1u3
  | byte => .u8
  | word => .u32
  | integer => .v32
  | real => .f16

/-- The bits of some data that a mask leaves. -/
def masked (mask data : Bytes) : Bytes := List.zipWith (· &&& ·) data mask

/-- Masking again changes nothing. -/
theorem masked_masked (mask data : Bytes) :
    masked mask (masked mask data) = masked mask data := by
  induction data generalizing mask with
  | nil => rfl
  | cons byte data ih =>
      cases mask with
      | nil => rfl
      | cons bits mask =>
          show ((byte &&& bits) &&& bits) :: masked mask (masked mask data)
            = (byte &&& bits) :: masked mask data
          rw [ih, UInt8.and_assoc, UInt8.and_self]

/-- Data as long as the mask keeps its length. -/
theorem length_masked {mask data : Bytes}
    (right : data.length = mask.length) :
    (masked mask data).length = mask.length := by
  rw [masked, List.length_zipWith, right, Nat.min_self]

namespace Layout

/-- The bits of a frame that carry the value. -/
def payload : Layout kind → Bytes
  | .b1 => [0x01]
  | .b1u3 => [0x0F]
  | .u8 => [0x00, 0xFF]
  | .u32 => [0x00, 0xFF, 0xFF, 0xFF, 0xFF]
  | .v32 => [0x00, 0xFF, 0xFF, 0xFF, 0xFF]
  | .f16 => [0x00, 0xFF, 0xFF]

/-- The payload is as long as the frames are. -/
theorem length_payload (layout : Layout kind) :
    layout.payload.length = layout.shape.length := by
  cases layout <;> rfl

/-- A normalized frame is what the payload leaves of a frame. -/
theorem toBytes_normalize (layout : Layout kind)
    (frame : Frame layout.shape) :
    (layout.normalize frame).toBytes
      = masked layout.payload frame.toBytes := by
  have whole : ∀ byte : UInt8, byte &&& 0xFF = byte :=
    fun _ => UInt8.and_neg_one
  cases layout with
  | b1 =>
      obtain ⟨content⟩ := frame
      rfl
  | b1u3 =>
      obtain ⟨content⟩ := frame
      rfl
  | _ =>
      cases frame
      simp [normalize, Frame.toBytes, Word.toBytes, masked, payload, whole]

end Layout

namespace StepControl

variable {control : StepControl}

/-- A step code that fits a frame is kept. -/
theorem saturate_of_lt (small : control.step.toNat < 8) :
    control.saturate = control := by
  have least : min control.step maxStep = control.step :=
    if_pos (UInt8.le_iff_toNat_le.mpr (Nat.le_of_lt_succ small))
  rw [saturate, least]

/-- A saturated step code fits a frame. -/
theorem step_saturate_lt (control : StepControl) :
    control.saturate.step.toNat < 8 := by
  show (if control.step ≤ maxStep then control.step else maxStep).toNat < 8
  split
  case isTrue fits => exact Nat.lt_succ_of_le (UInt8.le_iff_toNat_le.mp fits)
  case isFalse => decide

/-- A step code that fits a frame is its own remainder. -/
theorem mod_eight_of_lt (small : control.step.toNat < 8) :
    { control with step := control.step % 8 } = control := by
  have rest : control.step % 8 = control.step := by
    apply UInt8.toNat_inj.mp
    rw [UInt8.toNat_mod]
    exact Nat.mod_eq_of_lt small
  rw [rest]

end StepControl

namespace Codec

/-- What a codec carries of a value.  Only a step code can be too great for
    its frame. -/
def carried : {kind : Kind} → Codec kind → kind.Value → kind.Value
  | _, .raw .b1u3, control => { control with step := control.step % 8 }
  | _, .typed .dimming, control =>
      { control with step := min control.step 7 }
  | _, _, value => value

/-- All codecs of a discrete kind have frames of one shape, and read them
    alike. -/
theorem reads_as_layout (discrete : kind ≠ .real) (codec : Codec kind) :
    codec.shape = kind.layout.shape
      ∧ codec.decode = (raw kind.layout).decode := by
  cases codec with
  | raw layout => cases layout <;> exact ⟨rfl, rfl⟩
  | typed datapoint =>
      cases datapoint with
      | scaled _ => exact absurd rfl discrete
      | measured _ => exact absurd rfl discrete
      | _ => exact ⟨rfl, rfl⟩

/-- What is read from a frame is carried whole. -/
theorem carried_read (codec : Codec kind) (frame : Frame kind.layout.shape) :
    codec.carried (kind.layout.read frame) = kind.layout.read frame := by
  cases codec with
  | raw layout =>
      cases layout with
      | b1u3 =>
          exact StepControl.mod_eight_of_lt (Layout.step_read_lt frame)
      | _ => rfl
  | typed datapoint =>
      cases datapoint with
      | dimming =>
          exact StepControl.saturate_of_lt (Layout.step_read_lt frame)
      | _ => rfl

/-- What arrives of a discrete value is what its codec carries of it. -/
theorem received_discrete (discrete : kind ≠ .real) (codec : Codec kind)
    (value : kind.Value) : codec.received value = codec.carried value := by
  cases codec with
  | raw layout =>
      cases layout with
      | b1 => exact Layout.read_encode_b1 value
      | b1u3 => exact Layout.read_encode_b1u3 value
      | u8 => rfl
      | u32 => exact Layout.read_encode_u32 value
      | v32 => exact Layout.read_encode_v32 value
      | f16 => exact absurd rfl discrete
  | typed datapoint =>
      cases datapoint with
      | switching _ => exact Layout.read_encode_b1 value
      | dimming =>
          calc Layout.b1u3.read (Layout.b1u3.encode value.saturate)
              = { value.saturate with step := value.saturate.step % 8 } :=
                Layout.read_encode_b1u3 value.saturate
            _ = value.saturate :=
                StepControl.mod_eight_of_lt value.step_saturate_lt
      | pulseByte => rfl
      | pulseTotal => exact Layout.read_encode_u32 value
      | counter _ => exact Layout.read_encode_v32 value
      | scaled _ => exact absurd rfl discrete
      | measured _ => exact absurd rfl discrete

/-- What is read from a frame is sent as the payload of the frame. -/
theorem send_read (discrete : kind ≠ .real) (codec : Codec kind)
    (frame : Frame kind.layout.shape) :
    codec.send (kind.layout.read frame)
      = masked kind.layout.payload frame.toBytes := by
  rw [← Layout.toBytes_normalize, ← Layout.encode_read discrete]
  cases codec with
  | raw layout => cases layout <;> rfl
  | typed datapoint =>
      cases datapoint with
      | dimming =>
          -- a step code that was read is not saturated
          show (Layout.b1u3.encode (Layout.b1u3.read frame).saturate).toBytes
            = (Layout.b1u3.encode (Layout.b1u3.read frame)).toBytes
          rw [StepControl.saturate_of_lt (Layout.step_read_lt frame)]
      | scaled _ => exact absurd rfl discrete
      | measured _ => exact absurd rfl discrete
      | _ => rfl

variable {data : Bytes}

/-- Data of the right length is decoded to a value, and the value is sent
    as the payload of the data. -/
theorem exists_decode_send (discrete : kind ≠ .real) (codec : Codec kind)
    (right : data.length = kind.layout.shape.length) :
    ∃ value, codec.decode data = pure value
      ∧ ∀ target : Codec kind, target.carried value = value
        ∧ target.send value = masked kind.layout.payload data := by
  obtain ⟨frame, rfl⟩ := Frame.exists_of_length right
  refine ⟨kind.layout.read frame, ?_, fun target => ⟨?_, ?_⟩⟩
  · rw [(reads_as_layout discrete codec).2]
    exact (raw kind.layout).decode_toBytes frame
  · exact target.carried_read frame
  · exact send_read discrete target frame

/-- Decoding sees nothing but the payload. -/
theorem decode_masked (discrete : kind ≠ .real) (codec : Codec kind)
    (right : data.length = kind.layout.shape.length) :
    codec.decode (masked kind.layout.payload data) = codec.decode data := by
  obtain ⟨value, decoded, sent⟩ := exists_decode_send discrete codec right
  obtain ⟨whole, payload⟩ := sent codec
  calc codec.decode (masked kind.layout.payload data)
      = codec.transmit value := by rw [transmit, payload]
    _ = pure (codec.carried value) := by
        rw [codec.transmit_eq, received_discrete discrete]
    _ = codec.decode data := by rw [whole, decoded]

/-- Data is decoded alike exactly when its payload is the same. -/
theorem decode_eq_decode_iff (discrete : kind ≠ .real) (codec : Codec kind)
    {a b : Bytes} (right_a : a.length = kind.layout.shape.length)
    (right_b : b.length = kind.layout.shape.length) :
    codec.decode a = codec.decode b
      ↔ masked kind.layout.payload a = masked kind.layout.payload b := by
  constructor
  · intro alike
    obtain ⟨value, decoded_a, sent_a⟩ :=
      exists_decode_send discrete codec right_a
    obtain ⟨other, decoded_b, sent_b⟩ :=
      exists_decode_send discrete codec right_b
    rw [decoded_a, decoded_b] at alike
    have same : value = other :=
      Except.ok.inj (congrArg Decoding.outcome alike)
    rw [← (sent_a codec).2, ← (sent_b codec).2, same]
  · intro same
    rw [← decode_masked discrete codec right_a, same,
      decode_masked discrete codec right_b]

end Codec

namespace Relay

open Codec

/-- The steps that pass a discrete value on, in frames of a payload. -/
inductive Step.Conveys (payload : Bytes) : Step → Prop where
  | convert {kind : Kind} (discrete : kind ≠ .real)
      (same : kind.layout.payload = payload) (source target : Codec kind) :
      Conveys payload (.convert source target)

variable {payload register : Bytes} {step : Step} {chain : List Step}

/-- Passing a value on clears the bits outside the payload. -/
theorem record_of_conveys (conveys : step.Conveys payload)
    (right : register.length = payload.length) :
    ∃ reply, step.record register
      = ⟨masked payload register, .ok reply, []⟩ := by
  obtain ⟨discrete, rfl, source, target⟩ := conveys
  rw [Layout.length_payload] at right
  obtain ⟨value, decoded, sent⟩ :=
    exists_decode_send discrete source right
  refine ⟨.converted source value, ?_⟩
  rw [Step.record, Step.perform, decoded, ← (sent target).2]
  rfl

/-- Passing a value on any number of times clears them once. -/
theorem run_of_conveys (conveys : ∀ step ∈ chain, step.Conveys payload)
    (right : register.length = payload.length) :
    (run register chain).length = chain.length
      ∧ ∀ record ∈ run register chain,
        ∃ reply, record = ⟨masked payload register, .ok reply, []⟩ := by
  induction chain generalizing register with
  | nil =>
      exact ⟨rfl, fun record member => nomatch member⟩
  | cons step rest ih =>
      obtain ⟨first, others⟩ := List.forall_mem_cons.mp conveys
      obtain ⟨reply, done⟩ := record_of_conveys first right
      obtain ⟨length, records⟩ := ih others (length_masked right)
      rw [run, done]
      refine ⟨congrArg (· + 1) length, List.forall_mem_cons.mpr ⟨?_, ?_⟩⟩
      · exact ⟨reply, rfl⟩
      · -- the rest starts from the payload alone, which it keeps
        intro record member
        rw [← masked_masked payload register]
        exact records record member

end Relay

namespace Codec

/-- Nothing but a step code that is too great is lost on the way, and
    nothing but the payload matters.  A discrete value arrives as what its
    codec carries of it.  Data of the right length is always decoded, what
    was decoded is sent as the payload of the data, and the payload alone
    decides how data is decoded.  So passing values on, through however
    many codecs, leaves the payload from the first step to the last. -/
theorem discrete_lossless :
    (∀ {kind : Kind} (codec : Codec kind), kind ≠ .real →
      (∀ value, codec.transmit value = pure (codec.carried value))
        ∧ (∀ data, data.length = codec.shape.length →
          ∃ value, codec.decode data = pure value
            ∧ codec.send value = masked kind.layout.payload data)
        ∧ ∀ a b, a.length = codec.shape.length →
          b.length = codec.shape.length →
            (codec.decode a = codec.decode b
              ↔ masked kind.layout.payload a
                = masked kind.layout.payload b))
      ∧ ∀ (payload data : Bytes) (chain : List Relay.Step),
        data.length = payload.length →
          (∀ step ∈ chain, step.Conveys payload) →
            (Relay.run data chain).length = chain.length
              ∧ ∀ record ∈ Relay.run data chain,
                ∃ reply, record = ⟨masked payload data, .ok reply, []⟩ := by
  constructor
  · intro kind codec discrete
    rw [(reads_as_layout discrete codec).1]
    refine ⟨?_, ?_, ?_⟩
    · intro value
      rw [codec.transmit_eq, received_discrete discrete]
    · intro data right
      obtain ⟨value, decoded, sent⟩ :=
        exists_decode_send discrete codec right
      exact ⟨value, decoded, (sent codec).2⟩
    · intro a b right_a right_b
      exact decode_eq_decode_iff discrete codec right_a right_b
  · intro payload data chain right conveys
    exact Relay.run_of_conveys conveys right

/-- Step codes that are too great, a nibble that is ignored, and a word
    passed on unsigned and then signed. -/
theorem discrete_lossless_beyond_payload :
    (Kind.control ≠ .real
        ∧ (raw .b1u3).transmit ⟨true, 12⟩ = pure ⟨true, 4⟩
        ∧ (typed .dimming).transmit ⟨true, 12⟩ = pure ⟨true, 7⟩
        ∧ (∃ value, (typed .dimming).decode [0xF3] = pure value
          ∧ (typed .dimming).send value = [0x03])
        ∧ (typed .dimming).decode [0xF3] = (typed .dimming).decode [0x13])
      ∧ ∀ record ∈ Relay.run [0x7F, 0xFF, 0x00, 0x00, 0x01]
          [.convert (raw .u32) (typed .pulseTotal),
            .convert (typed (.counter .pulses)) (raw .v32)],
        ∃ reply, record
          = ⟨[0x00, 0xFF, 0x00, 0x00, 0x01], .ok reply, []⟩ := by
  have discrete : Kind.control ≠ .real := by decide
  have word : Kind.word ≠ .real := by decide
  have integer : Kind.integer ≠ .real := by decide
  obtain ⟨raw_carried, -, -⟩ := discrete_lossless.1 (raw .b1u3) discrete
  obtain ⟨carried, sent, alike⟩ :=
    discrete_lossless.1 (typed .dimming) discrete
  refine ⟨⟨discrete, raw_carried _, carried _, sent [0xF3] rfl,
    (alike [0xF3] [0x13] rfl rfl).mpr rfl⟩, ?_⟩
  refine (discrete_lossless.2 Layout.u32.payload
    [0x7F, 0xFF, 0x00, 0x00, 0x01] _ rfl ?_).2
  refine List.forall_mem_cons.mpr ⟨?_, List.forall_mem_cons.mpr ⟨?_,
    List.forall_mem_nil _⟩⟩
  · exact .convert word rfl _ _
  · exact .convert integer rfl _ _

end Codec

end Fieldbus
