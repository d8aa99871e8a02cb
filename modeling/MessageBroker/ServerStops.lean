import MessageBroker.RegexSyntax

/-!
# How the server stops and what it does to the outside
-/
namespace MessageBroker.ServerStops
open ByteStrings RegexSyntax

/-- Why a handler does not return. Besides a `DIE` exit and the exception of a malformed
regular expression these are the accesses the C++ standard leaves undefined, and a
`send_tcp_packet` whose `send` always fails. -/
inductive Stop
  | die (msg : String)
  | regexError (e : RegexError)
  | outsideBuff
  | unterminatedString
  | outsideId
  | outsidePollBlock
  | unassignedLength
  | sendNeverSucceeds
  deriving DecidableEq

inductive Effect
  | send (fd : ℕ) (frame : Bytes)
  | shutdown (fd : ℕ)
  | close (fd : ℕ)
  | print (line : Bytes)
  deriving DecidableEq

/-- A `DIE` exit. -/
def Stop.isDie : Stop → Bool
  | .die _ => true
  | _ => false

/-- The descriptors a packet is sent on, in order. -/
def sends (effects : List Effect) : List (ℕ × Bytes) :=
  effects.filterMap (fun e => match e with
    | .send fd frame => some (fd, frame)
    | _ => none)

end MessageBroker.ServerStops
