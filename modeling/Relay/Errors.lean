import Mathlib.Control.Monad.Basic

/-!
# The error family

Every refusal of the broker is one of five errors with a message. A call that may refuse answers
with `Except RelayError`, and a stateful call returns its next state beside that answer, so that
a refusal which had already changed something would show.
-/

namespace Relay

/-- Everything the broker refuses to do, with the message it refuses with. -/
inductive RelayError where
  /-- The request contradicts itself or the configuration. -/
  | invalid (message : String)
  /-- The thing addressed does not exist. -/
  | missing (message : String)
  /-- The target is closed to further writes. -/
  | sealed (message : String)
  /-- A stale writer tried to act after losing its claim. -/
  | fenced (message : String)
  /-- The reader has fallen off the retained window. -/
  | lagging (message : String)
  deriving DecidableEq, Repr

end Relay
