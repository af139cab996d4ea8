/-! # Decoding — an outcome and what was logged on the way

    Reading data off the bus can fail for one reason only, a wrong length,
    and every refusal leaves one entry in the log.  A decoding carries
    both, so that what is logged is part of what is computed and can be
    spoken about. -/

namespace Fieldbus

/-- Why data was refused: its length is not the one its layout has. -/
structure LengthError where
  expected : Nat
  actual : Nat
deriving DecidableEq

/-- The text of a refusal.  The unit is plural for every number. -/
def LengthError.message (error : LengthError) : String :=
  "invalid length: expected " ++ toString error.expected
    ++ " bytes, got " ++ toString error.actual

/-- An entry of the log. -/
inductive Event where
  | rejected (cause : LengthError)
deriving DecidableEq

namespace Event

/-- The verbosity at which an entry is shown. -/
def level : Event → String
  | .rejected _ => "TRACE"

/-- The text of an entry; the two lengths are recorded beside it. -/
def message : Event → String
  | .rejected _ => "rejected frame with invalid length"

/-- The refusal an entry is about. -/
def cause : Event → LengthError
  | .rejected error => error

end Event

/-- The outcome of reading data, with the log entries it caused. -/
structure Decoding (α : Type) where
  outcome : Except LengthError α
  log : List Event

namespace Decoding

variable {α β : Type}

/-- Success, without a word. -/
protected def pure (value : α) : Decoding α := ⟨.ok value, []⟩

/-- Go on with the value, if there is one; logs are kept in order. -/
protected def bind (first : Decoding α) (next : α → Decoding β) :
    Decoding β :=
  match first.outcome with
  | .ok value => ⟨(next value).outcome, first.log ++ (next value).log⟩
  | .error cause => ⟨.error cause, first.log⟩

instance : Monad Decoding where
  pure := Decoding.pure
  bind := Decoding.bind

/-- Refuse the data, and log it. -/
def reject (cause : LengthError) : Decoding α :=
  ⟨.error cause, [.rejected cause]⟩

/-- Transforming the value does not touch the log. -/
theorem log_map (f : α → β) (first : Decoding α) :
    (f <$> first).log = first.log := by
  obtain ⟨outcome, log⟩ := first
  cases outcome with
  | ok value => exact List.append_nil log
  | error cause => rfl

/-- Transforming the value does not turn refusal into success or back. -/
theorem outcome_map (f : α → β) (first : Decoding α) :
    (f <$> first).outcome = first.outcome.map f := by
  obtain ⟨outcome, log⟩ := first
  cases outcome with
  | ok value => rfl
  | error cause => rfl

end Decoding

end Fieldbus
