import Mathlib.Tactic.Basic

/-!
# Errors

`include/conduit/core/error.hpp`. An error carries its code and its message; the source location,
the time stamp and the context string it is decorated with are not modelled.
-/

namespace Conduit

/-- `error.hpp:19-67`. -/
inductive ErrorCode where
  | bufferUnderrun | invalidFieldValue | constraintViolation | unknownEnumValue
  | unknownDiscriminator | exactConsumptionFailed | negativeLength | decodingFailed
  | unknownTypeId | maxLengthExceeded | stringEncodingError | constraintViolationDeferred
  | encodeConstraintViolation | missingRequiredField | encodingFailed | bufferOverrun
  | stringTooLong | directionViolation
  | connectionRefused | connectionTimeout | connectionReset | connectionClosed | hostNotFound
  | networkUnreachable | socketError
  | notRunning | alreadyRunning | peerNotFound | queueFull | invalidConfig | multiplePeers
  | unsupportedMessageType | batchNotSupported
  | internalError | notImplemented | invalidArgument | invalidState | timeout
deriving DecidableEq

/-- `error.hpp:86-143`, reduced to what the modelled functions set. -/
structure Error where
  code : ErrorCode
  message : String
deriving DecidableEq

/-- Why an operation on a buffer gives no value: it reports an error, or the C++ expression would
touch memory outside the buffer. -/
inductive Fault where
  | error (e : Error)
  | outOfBounds
deriving DecidableEq

end Conduit
