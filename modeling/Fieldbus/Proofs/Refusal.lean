import Fieldbus.Relay

/-! # Refusal — a run logs what it refused, and nothing else

    An application makes calls, as many as it likes and on whatever data: it
    views frames, decodes values and floats, and sends values.  Only the
    length of the data decides whether a call is refused, and the log of the
    whole run has one entry for each refused call, in the order of the calls.

    All readers are one reader with a function behind it, so they are judged
    together: viewing is judged by the length of the data (`judged_view`),
    and transforming what was viewed changes neither the refusal nor the log
    (`Judged.map`).  That one call keeps a session exact is then a short
    step (`Exact.next`), and the induction over the calls needs nothing
    else. -/

namespace Fieldbus

variable {α β : Type}

/-! ## One refusal, one entry -/

/-- The refusal an outcome is, if it is one. -/
def LengthError.ofOutcome? : Except LengthError α → Option LengthError
  | .ok _ => none
  | .error cause => some cause

/-- The refusal that is due where frames of a length are read from data. -/
def LengthError.due? (length : Nat) (data : Bytes) : Option LengthError :=
  if data.length = length then none else some ⟨length, data.length⟩

namespace Decoding

/-- A decoding that ends as a verdict demands, and logs the refusal once if
    there is one, and nothing else. -/
structure Judged (decoding : Decoding α) (verdict : Option LengthError) :
    Prop where
  outcome : LengthError.ofOutcome? decoding.outcome = verdict
  log : decoding.log = (verdict.map Event.rejected).toList

variable {decoding : Decoding α} {verdict : Option LengthError}

/-- Success is never refused. -/
theorem judged_pure (value : α) : (pure value : Decoding α).Judged none :=
  ⟨rfl, rfl⟩

/-- A refusal is logged once. -/
theorem judged_reject (cause : LengthError) :
    (reject cause : Decoding α).Judged (some cause) :=
  ⟨rfl, rfl⟩

/-- Transforming the value changes neither the refusal nor the log. -/
theorem Judged.map (judged : decoding.Judged verdict) (f : α → β) :
    (f <$> decoding).Judged verdict := by
  refine ⟨?_, ?_⟩
  · rw [outcome_map, ← judged.outcome]
    cases decoding.outcome with
    | ok value => rfl
    | error cause => rfl
  · rw [log_map]
    exact judged.log

end Decoding

/-- Viewing is judged by the length of the data. -/
theorem Frame.judged_view (shape : Shape) (data : Bytes) :
    (view shape data).Judged (LengthError.due? shape.length data) := by
  by_cases right : data.length = shape.length
  · obtain ⟨frame, rfl⟩ := exists_of_length right
    rw [LengthError.due?, if_pos right, view_toBytes]
    exact Decoding.judged_pure frame
  · rw [LengthError.due?, if_neg right, view_of_length_ne right]
    exact Decoding.judged_reject _

/-! ## Calls -/

/-- The number of bytes in the frames of a codec. -/
def Codec.frameLength : {kind : Kind} → Codec kind → Nat
  | .flag, _ => 1
  | .control, _ => 1
  | .byte, _ => 2
  | .word, _ => 5
  | .integer, _ => 5
  | .real, .typed (.scaled _) => 2
  | .real, _ => 3

/-- The shape of a codec has that length. -/
theorem Codec.length_shape {kind : Kind} (codec : Codec kind) :
    codec.shape.length = codec.frameLength := by
  cases codec with
  | raw layout => cases layout <;> rfl
  | typed datapoint => cases datapoint <;> rfl

/-- Decoding a value is judged by the length of the data. -/
theorem Codec.judged_decode {kind : Kind} (codec : Codec kind)
    (data : Bytes) :
    (codec.decode data).Judged
      (LengthError.due? codec.frameLength data) := by
  rw [← codec.length_shape]
  exact (Frame.judged_view codec.shape data).map codec.read

/-- What an application can ask for. -/
inductive Call where
  | view (shape : Shape) (data : Bytes)
  | decode {kind : Kind} (codec : Codec kind) (data : Bytes)
  | decodeFloat (data : Bytes)
  | send {kind : Kind} (codec : Codec kind) (value : kind.Value)
  | encodeFloat (value : Binary32)

namespace Call

/-- What a call returns unless it is refused. -/
def Result : Call → Type
  | view shape _ => Frame shape
  | @decode kind _ _ => kind.Value
  | decodeFloat _ => Float16
  | send _ _ => Bytes
  | encodeFloat _ => Float16

/-- Do what a call asks for. -/
def perform : (call : Call) → Decoding call.Result
  | view shape data => Frame.view shape data
  | decode codec data => codec.decode data
  | decodeFloat data => Float16.decode data
  | send codec value => pure (codec.send value)
  | encodeFloat value => pure (Float16.encode value)

/-- The length of the frames a call reads, and the data it is given.  Some
    calls read nothing. -/
def reads? : Call → Option (Nat × Bytes)
  | view shape data => some (shape.length, data)
  | decode codec data => some (codec.frameLength, data)
  | decodeFloat data => some (3, data)
  | send _ _ => none
  | encodeFloat _ => none

/-- The refusal that is due to a call: data was given that does not have the
    length of the frames. -/
def verdict? (call : Call) : Option LengthError :=
  call.reads?.bind fun (length, data) => LengthError.due? length data

/-- Every call ends as it should, and logs its refusal. -/
theorem judged_perform (call : Call) : call.perform.Judged call.verdict? := by
  cases call with
  | view shape data => exact Frame.judged_view shape data
  | decode codec data => exact codec.judged_decode data
  | decodeFloat data =>
      exact (Frame.judged_view .float16 data).map Float16.ofFrame
  | send codec value => exact Decoding.judged_pure _
  | encodeFloat value => exact Decoding.judged_pure _

end Call

/-! ## Sessions -/

/-- A call that was made, and how it ended. -/
structure Made where
  call : Call
  outcome : Except LengthError call.Result

/-- The refusal of a call that was made. -/
def Made.refusal? (made : Made) : Option LengthError :=
  LengthError.ofOutcome? made.outcome

/-- The calls made so far, and the log they have written. -/
structure Session where
  made : List Made
  log : List Event

namespace Session

/-- The session after one more call. -/
def next (session : Session) (call : Call) : Session where
  made := session.made ++ [⟨call, call.perform.outcome⟩]
  log := session.log ++ call.perform.log

/-- The session in which some calls were made, one after the other. -/
def run (calls : List Call) : Session := calls.foldl next ⟨[], []⟩

/-- What a session has to show for the calls made in it: all are there, each
    ended as it should, and the log is that of the refused ones. -/
structure Exact (calls : List Call) (session : Session) : Prop where
  made : session.made.map Made.call = calls
  judged : session.made.map Made.refusal? = calls.map Call.verdict?
  logged : session.log = (calls.filterMap Call.verdict?).map Event.rejected

variable {calls : List Call} {session : Session}

/-- One more call keeps a session exact. -/
theorem Exact.next (before : Exact calls session) (call : Call) :
    Exact (calls ++ [call]) (session.next call) := by
  obtain ⟨made, judged, logged⟩ := before
  obtain ⟨outcome, log⟩ := call.judged_perform
  refine ⟨?_, ?_, ?_⟩
  · show (session.made ++ [_]).map Made.call = _
    rw [List.map_append, made]
    rfl
  · show (session.made ++ [_]).map Made.refusal? = _
    rw [List.map_append, List.map_append, judged]
    exact congrArg (calls.map Call.verdict? ++ [·]) outcome
  · show session.log ++ call.perform.log = _
    rw [logged, log, List.filterMap_append, List.map_append,
      List.filterMap_cons]
    cases call.verdict? with
    | none => rfl
    | some cause => rfl

/-- Calls made one after the other keep a session exact. -/
theorem Exact.foldl (before : Exact calls session) (further : List Call) :
    Exact (calls ++ further) (further.foldl Session.next session) := by
  induction further generalizing calls session with
  | nil =>
      rw [List.append_nil]
      exact before
  | cons call rest ih =>
      -- the call made last goes over to those made before
      rw [List.append_cons]
      exact ih (before.next call)

/-- The refusals of a session in the order of the calls. -/
theorem Exact.filterMap_refusal? (session_exact : Exact calls session) :
    session.made.filterMap Made.refusal? = calls.filterMap Call.verdict? := by
  have refusals := congrArg (List.filterMap id) session_exact.judged
  rw [List.filterMap_map, List.filterMap_map] at refusals
  exact refusals

/-- The log of a run is exact.  All calls are made, in order.  A call is
    refused if and only if it was given data of another length than the
    frames it reads, and the refusal tells both lengths.  The log has one
    entry for each refused call, in the order of the calls and with the same
    two lengths, and no other entry. -/
theorem log_run_exact (calls : List Call) :
    (run calls).made.map Made.call = calls
      ∧ (run calls).made.map Made.refusal? = calls.map Call.verdict?
      ∧ (run calls).log
        = ((run calls).made.filterMap Made.refusal?).map Event.rejected
      ∧ (run calls).log.map (fun entry =>
          (entry.level, entry.message, entry.cause))
        = (calls.filterMap Call.verdict?).map fun cause =>
          ("TRACE", "rejected frame with invalid length", cause) := by
  have start : Exact [] ⟨[], []⟩ := ⟨rfl, rfl, rfl⟩
  have ended : Exact calls (run calls) := start.foldl calls
  refine ⟨ended.made, ended.judged, ?_, ?_⟩
  · rw [ended.filterMap_refusal?]
    exact ended.logged
  · rw [ended.logged, List.map_map]
    rfl

/-- The second call and the last one are refused. -/
example :
    (run [.decode (.raw .b1) [1], .decodeFloat [0x0C, 0x1A],
      .send (.typed .dimming) ⟨true, 9⟩, .view .word []]).log
      = [.rejected ⟨3, 2⟩, .rejected ⟨5, 0⟩] := rfl

end Session

/-! ## Relays -/

namespace Relay

/-- The refusal that is due to a step on the data in the register. -/
def Step.verdict? (register : Bytes) : Step → Option LengthError
  | .load _ => none
  | .encode _ _ => none
  | .decode codec => LengthError.due? codec.frameLength register
  | .convert source _ => LengthError.due? source.frameLength register
  | .view shape => LengthError.due? shape.length register

/-- A step ends as it should, and logs its refusal; what it does with a
    decoded value cannot be refused any more. -/
theorem Step.judged_perform (register : Bytes) (step : Step) :
    (step.perform register).Judged (step.verdict? register) := by
  cases step with
  | load data => exact Decoding.judged_pure _
  | encode codec value => exact Decoding.judged_pure _
  | decode codec => exact (codec.judged_decode register).map _
  | convert source target => exact (source.judged_decode register).map _
  | view shape => exact (Frame.judged_view shape register).map _

/-- The record of a step has its refusal for an outcome, and logs it. -/
theorem Step.record_exact (register : Bytes) (step : Step) :
    LengthError.ofOutcome? (step.record register).outcome
        = step.verdict? register
      ∧ (step.record register).events
        = ((step.verdict? register).map Event.rejected).toList := by
  obtain ⟨outcome, log⟩ := step.judged_perform register
  rw [← log, ← outcome, record]
  cases (step.perform register).outcome with
  | ok done => exact ⟨rfl, rfl⟩
  | error cause => exact ⟨rfl, rfl⟩

/-- The log of a relay has one entry for each step that failed, in order,
    although what a step reads is what the steps before it left. -/
theorem events_run (register : Bytes) (steps : List Step) :
    (run register steps).flatMap Record.events
      = ((run register steps).filterMap fun record =>
          LengthError.ofOutcome? record.outcome).map Event.rejected := by
  induction steps generalizing register with
  | nil => rfl
  | cons step rest ih =>
      obtain ⟨outcome, events⟩ := step.record_exact register
      rw [run, List.flatMap_cons, List.filterMap_cons, ih, outcome, events]
      cases step.verdict? register with
      | none => rfl
      | some cause => rfl

end Relay

end Fieldbus
