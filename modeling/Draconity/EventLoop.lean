import Draconity.Server
import Draconity.Lib.Runs

/-!
The event loop: what can happen on its thread, and the runs it has.

A connection is known by the id of its client.  The handlers of `UvServer::listenTCP` and
`UvServer::listenPipe` are the same, so there is one `connect` and one `close`.
-/

namespace Draconity

open Lib

/-- What the thread of the event loop handles. -/
inductive Event
  /-- A `ListenEvent`. -/
  | connect
  /-- The `CloseEvent` of a client; `stack` is as in `clearClientState`. -/
  | close (clientId : ClientId) (stack : CString → UInt32)
  /-- A call of `handle_message` for a client. -/
  | message (clientId : ClientId) (tid : UInt32) (msg : Option Elements) (found : Found)
  /-- What `handle_pause` put on the queue of `UvServer::invoke`. -/
  | paused (token : UInt64)
  /-- The pause timer expires. -/
  | timer
  /-- `draconity_ready`, when the engine asks for it. -/
  | ready
  /-- `draconity_mimic_done`; `stale` is as in `draconityMimicDone`. -/
  | mimicDone (stale : Option (ClientId × UInt32))

def handleListen (s : State) : State :=
  { s with clients := s.clients ++ [s.clientNonce], clientNonce := s.clientNonce + 1 }

/-- The handler of a `CloseEvent`: the client is taken off the list before it is cleaned up. -/
def handleClose (E : Env) (clientId : ClientId) (stack : CString → UInt32) (s : State) : State :=
  handleDisconnect E clientId stack { s with clients := s.clients.filter (· ≠ clientId) }

/-- The handler of the pause timer.  The loop disarms a timer that does not repeat before it calls
the handler. -/
def handleTimer (E : Env) (s : State) : State := doUnpause E { s with pauseTimer := false }

/-- `draconity_mimic_done`.  It reads the front of the queue through a reference, after it has popped
it and has left the lock; `stale` is what was written there until then, if anything was. -/
def draconityMimicDone (stale : Option (ClientId × UInt32)) (s : State) : State :=
  match s.mimicQueue with
  | [] => s
  | front :: q =>
    let s := { s with mimicQueue := q }
    let mimicInfo := stale.getD front
    s.issue (.send .mimic mimicInfo.2 mimicInfo.1)

def step (E : Env) (s : State) : Event → State
  | .connect => handleListen s
  | .close c stack => handleClose E c stack s
  | .message c tid msg found => (handleMessage E c tid msg found s).2
  | .paused token => handlePause E token s
  | .timer => handleTimer E s
  | .ready => draconityReady E s
  | .mimicDone stale => draconityMimicDone stale s

/-- When an event can occur.  A client closes once, and sends nothing when it is not connected;
Dragon never supplies a token of `0`; and incrementing the `int64_t` `client_nonce` is defined. -/
def Enabled (s : State) : Event → Prop
  | .connect => s.clientNonce + 1 < 2 ^ 63
  | .close c _ | .message c _ _ _ => c ∈ s.clients
  | .paused token => token ≠ 0
  | .timer => s.pauseTimer = true
  | .ready | .mimicDone _ => True

instance (s : State) : DecidablePred (Enabled s)
  | .connect => inferInstanceAs (Decidable (_ < _))
  | .close c _ | .message c _ _ _ => inferInstanceAs (Decidable (c ∈ s.clients))
  | .paused token => inferInstanceAs (Decidable (token ≠ 0))
  | .timer => inferInstanceAs (Decidable (s.pauseTimer = true))
  | .ready | .mimicDone _ => .isTrue trivial

/-- The event names the client: it is a request of the client, or a mimic-done callback that reads
the client where the entry was that it has popped. -/
def Event.Names (c : ClientId) : Event → Prop
  | .message d _ _ _ => d = c
  | .mimicDone stale => ∃ tid, stale = some (c, tid)
  | .connect | .close _ _ | .paused _ | .timer | .ready => False

/-- The event loop, started with no token. -/
def eventLoop (E : Env) : Machine State Event where
  start := State.init 0
  enabled := Enabled
  step := step E

instance (E : Env) (s : State) : DecidablePred ((eventLoop E).enabled s) :=
  inferInstanceAs (DecidablePred (Enabled s))

end Draconity
