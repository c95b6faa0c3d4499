import Draconity.Delivery

/-!
The streams of the clients: `uvw` over libuv, and the listeners that `UvServer` gives to them.

Here the events are the callbacks of libuv, which keeps to what it documents: it reads from a stream as
long as it is not closing, and calls back once for a stream that is closing.  The listeners make the
rest of it; those for the end of a stream run once.  What the server assumes of its clients follows
(`handed_over`): each is closed once, and sends nothing before it is connected or after it is closed.
-/

namespace Draconity

open Lib

/-! ### Emitters -/

/-- `uvw::Emitter::Handler`: the listeners of one kind of event.  Nobody erases a listener here. -/
structure Handler (α : Type*) where
  onceL : List α
  onL : List α

namespace Handler

variable {α : Type*}

def empty : Handler α := ⟨[], []⟩

def once (f : α) (h : Handler α) : Handler α := { h with onceL := h.onceL ++ [f] }

def on (f : α) (h : Handler α) : Handler α := { h with onL := h.onL ++ [f] }

/-- `Handler::publish`, for a handler that is kept in a state: a listener may change the state, the
handler included. -/
def publish {σ : Type*} (get : σ → Handler α) (set : Handler α → σ → σ) (run : α → σ → σ) (s : σ) : σ :=
  let currentL := (get s).onceL
  let s := set { get s with onceL := [] } s
  let s := (get s).onL.reverse.foldl (fun s f => run f s) s
  currentL.reverse.foldl (fun s f => run f s) s

end Handler

/-! ### The model -/

/-- Where a handle of libuv is. -/
inductive Phase
  | unused
  | reading
  | closing
  | closed
  deriving DecidableEq

/-- The stream of a client: its handle, and its listeners, each of which keeps the client it is for. -/
structure Stream where
  phase : Phase
  closeEvent : Handler ClientId
  errorEvent : Handler ClientId
  endEvent : Handler ClientId
  dataEvent : Handler ClientId

namespace Stream

def unused : Stream := ⟨.unused, .empty, .empty, .empty, .empty⟩

/-- `Handle::closing`: the handle is closing or closed. -/
def closing (s : Stream) : Bool := s.phase = .closing ∨ s.phase = .closed

def close (s : Stream) : Stream := if s.closing then s else { s with phase := .closing }

/-- The stream that the handler of a `ListenEvent` makes for a client. -/
def new (c : ClientId) : Stream where
  phase := .reading
  closeEvent := Handler.empty.once c
  errorEvent := Handler.empty.once c
  endEvent := Handler.empty.once c
  dataEvent := Handler.empty.on c

end Stream

/-- The server, with the streams of its clients. -/
structure Sockets where
  system : System
  streams : ClientId → Stream

/-- What `readCallback` is called with. -/
inductive Read
  /-- `UV_EOF`. -/
  | eof
  | error
  /-- Nothing was read, which is no error. -/
  | again
  /-- Some bytes; so many of the writes that their listener makes fail at once. -/
  | data (bytes : List UInt8) (failed : ℕ)

/-- A table of the array `socket` of the configuration. -/
structure SocketTable where
  host : Option String
  port : Option Int

/-- The configuration, as far as the constructor of `UvServer` reads it, less the secret. -/
structure Config where
  socket : Option (List SocketTable)
  /-- The `path` of each table of the array. -/
  pipe : Option (List (Option String))

/-- What a handle listens at. -/
inductive Endpoint
  | tcp (host : String) (port : Int)
  | pipe (path : String)

def expanduser (homedir path : String) : String :=
  match path.toList with
  | '~' :: '/' :: rest => homedir ++ "/" ++ String.ofList rest
  | _ => path

/-- What the constructor of `UvServer` listens at: on macOS with the home directory, elsewhere with
none. -/
def listenEndpoints (homedir : Option String) (secret : List UInt8) (config : Config) : List Endpoint :=
  let sockets := match config.socket with
    | some tables => if secret ≠ [] then tables.filterMap fun t =>
        let host := t.host.getD ""
        let port := t.port.getD 0
        if host ≠ "" ∧ port > 0 then some (.tcp host port) else none else []
    | none => []
  let pipes := match config.pipe with
    | some paths => if secret ≠ [] then paths.filterMap fun p =>
        let path := p.getD ""
        if path ≠ "" then
          some (.pipe (match homedir with | some home => expanduser home path | none => path))
        else none else []
    | none => []
  sockets ++ pipes

namespace Sockets

variable (N : Net)

def modify (c : ClientId) (f : Stream → Stream) (s : Sockets) : Sockets :=
  { s with streams := Function.update s.streams c (f (s.streams c)) }

def handle (e : System.Event) (s : Sockets) : Sockets := { s with system := s.system.step N e }

/-- An `ErrorEvent` of the stream: its listener is `UvClient::onDisconnect`. -/
def publishError (c : ClientId) : Sockets → Sockets :=
  Handler.publish (fun s => (s.streams c).errorEvent)
    (fun h => modify c fun st => { st with errorEvent := h }) fun _ => modify c Stream.close

/-- An `EndEvent` of the stream: its listener is `UvClient::onDisconnect`. -/
def publishEnd (c : ClientId) : Sockets → Sockets :=
  Handler.publish (fun s => (s.streams c).endEvent)
    (fun h => modify c fun st => { st with endEvent := h }) fun _ => modify c Stream.close

/-- A `DataEvent` of the stream: its listener is `UvClient::onData`. -/
def publishData (c : ClientId) (bytes : List UInt8) : Sockets → Sockets :=
  Handler.publish (fun s => (s.streams c).dataEvent)
    (fun h => modify c fun st => { st with dataEvent := h }) fun d => handle N (.data d bytes)

/-- A `CloseEvent` of the stream. -/
def publishClose (c : ClientId) (stack : CString → UInt32) : Sockets → Sockets :=
  Handler.publish (fun s => (s.streams c).closeEvent)
    (fun h => modify c fun st => { st with closeEvent := h }) fun d => handle N (.close d stack)

/-- The callbacks of libuv, and what happens otherwise. -/
inductive Event
  /-- A connection at the endpoint of that number; `started` is whether `stream->read()` succeeds. -/
  | listen (k : ℕ) (started : Bool)
  | read (c : ClientId) (r : Read)
  /-- A write request ends. -/
  | written (c : ClientId) (ok : Bool)
  /-- The handle is closed; `stack` is as in `clearClientState`. -/
  | closed (c : ClientId) (stack : CString → UInt32)
  /-- What else happens to the server, where writes to the given clients fail at once. -/
  | other (e : System.Event) (failed : List ClientId)

def listen (started : Bool) (s : Sockets) : Sockets :=
  let c := s.system.hub.state.clientNonce
  let s := (s.modify c fun _ => .new c).handle N .connect
  if started then s else s.publishError c

/-- Writes to the clients fail at once. -/
def fail (failed : List ClientId) (s : Sockets) : Sockets :=
  failed.foldl (fun s c => s.publishError c) s

/-- What an event does.  A write that fails at once publishes an `ErrorEvent` of its stream, which does
nothing to the server, so that it comes after the listener here. -/
def step (s : Sockets) : Event → Sockets
  | .listen _ started => s.listen N started
  | .read c .eof => s.publishEnd c
  | .read c .error => s.publishError c
  | .read _ .again => s
  | .read c (.data bytes failed) => (s.publishData N c bytes).fail (List.replicate failed c)
  | .written c ok => if ok then s else s.publishError c
  | .closed c stack => (s.modify c fun st => { st with phase := .closed }).publishClose N c stack
  | .other e failed => (s.handle N e).fail failed

def Other : System.Event → Prop
  | .connect | .close _ _ | .data _ _ => False
  | _ => True

instance : DecidablePred Other
  | .connect | .close _ _ | .data _ _ => .isFalse id
  | .timer | .ready _ | .mimicDone _ _ | .paused _ _ | .publish _ _ | .phrase _ _ _ | .push _ | .send _
  | .wake | .take | .exec | .finish => .isTrue trivial

variable (endpoints : List Endpoint)

def Enabled (s : Sockets) : Event → Prop
  | .listen k _ => k < endpoints.length ∧ s.system.Enabled .connect
  | .read c _ => s.system.Idle ∧ (s.streams c).phase = .reading
  | .written c _ => s.system.Idle ∧ ((s.streams c).phase = .reading ∨ (s.streams c).phase = .closing)
  | .closed c _ => s.system.Idle ∧ (s.streams c).phase = .closing
  | .other e failed => Other e ∧ s.system.Enabled e ∧ ∀ c ∈ failed, c ∈ s.system.hub.state.clients

instance (s : Sockets) : DecidablePred (s.Enabled endpoints)
  | .listen k _ => inferInstanceAs (Decidable (k < endpoints.length ∧ s.system.Enabled .connect))
  | .read _ _ | .closed _ _ => inferInstanceAs (Decidable (s.system.Idle ∧ _ = _))
  | .written _ _ => inferInstanceAs (Decidable (s.system.Idle ∧ (_ = _ ∨ _ = _)))
  | .other e failed => inferInstanceAs (Decidable (Other e ∧ s.system.Enabled e ∧ ∀ c ∈ failed, _ ∈ _))

/-- The server that listens at the endpoints, from its start on. -/
def machine : Machine Sockets Event where
  start := ⟨(System.machine N).start, fun _ => .unused⟩
  enabled := Enabled endpoints
  step := step N

instance (s : Sockets) : DecidablePred ((machine N endpoints).enabled s) :=
  inferInstanceAs (DecidablePred (s.Enabled endpoints))

end Sockets

/-! ### Who is connected -/

namespace System

variable {N : Net} {s : System} {e : Event}

/-- The event connects nobody and closes nobody. -/
def Inner : Draconity.Event → Prop
  | .connect | .close _ _ => False
  | _ => True

theorem clients_of_inner {E : Env} {m : State} {es : List Draconity.Event}
    (hr : (eventLoop E).Run m es) (hes : ∀ ev ∈ es, Inner ev) :
    ((eventLoop E).exec m es).clients = m.clients ∧
      ((eventLoop E).exec m es).clientNonce = m.clientNonce := by
  induction es generalizing m with
  | nil => exact ⟨rfl, rfl⟩
  | cons ev es ih =>
    obtain ⟨hev, hes⟩ := List.forall_mem_cons.1 hes
    obtain ⟨ih₁, ih₂⟩ := ih hr.2 hes
    have hsignal : ev.signal E m ≠ .join ∧ ∀ c, ev.signal E m ≠ .leave c := by
      cases ev with
      | connect | close => exact hev.elim
      | message c tid msg found =>
        unfold Event.signal
        dsimp only
        split_ifs <;> exact ⟨nofun, nofun⟩
      | paused | timer | ready | mimicDone => exact ⟨nofun, nofun⟩
    have hbar : ((eventLoop E).step m ev).barrier = m.barrier.step (ev.signal E m) :=
      (barrier_simulates E).step m ev hr.1
    obtain ⟨hmembers, hnext⟩ := Barrier.members_step (b := m.barrier) hsignal.1 hsignal.2
    rw [← hbar] at hmembers hnext
    exact ⟨ih₁.trans hmembers, ih₂.trans hnext⟩

/-- Clients are connected and closed by the events for it only. -/
theorem Steady.clients_step (h : Steady N s) (he : s.Enabled e) (ho : Sockets.Other e) :
    (step N s e).hub.state.clients = s.hub.state.clients ∧
      (step N s e).hub.state.clientNonce = s.hub.state.clientNonce := by
  have hone : ∀ ev : Draconity.Event, Draconity.Enabled s.hub.state ev → Inner ev →
      (step N s e).hub.state = Draconity.step N.env s.hub.state ev →
      (step N s e).hub.state.clients = s.hub.state.clients ∧
        (step N s e).hub.state.clientNonce = s.hub.state.clientNonce := by
    intro ev hev hinner hstep
    have hrun : (eventLoop N.env).Run s.hub.state [ev] := ⟨hev, trivial⟩
    rw [hstep]
    exact clients_of_inner hrun (List.forall_mem_singleton.2 hinner)
  have hnone : (step N s e).hub.state = s.hub.state →
      (step N s e).hub.state.clients = s.hub.state.clients ∧
        (step N s e).hub.state.clientNonce = s.hub.state.clientNonce := by
    intro hsame
    rw [hsame]
    exact ⟨rfl, rfl⟩
  cases e with
  | connect | close | data => exact ho.elim
  | timer => exact hone .timer he.2 trivial rfl
  | ready k => exact hone .ready trivial trivial rfl
  | mimicDone k stale => exact hone (.mimicDone stale) trivial trivial rfl
  | exec =>
    obtain ⟨p, b, hbatch⟩ := List.exists_cons_of_ne_nil he.2.2
    have hstep := congrArg (fun s => s.hub.state) (step_exec (N := N) hbatch)
    obtain ⟨u, msg | ⟨msg, tid, c⟩ | token⟩ := p
    · exact hnone (hstep.trans (Hub.publish_spec (N := N) msg h.consistent.nodup).1)
    · exact hnone (hstep.trans (Hub.send_spec (N := N) msg tid c).1)
    · have htoken : token ≠ 0 := h.tokens.batch (u, .pause token) (hbatch ▸ List.mem_cons_self ..)
      exact hone (.paused token) htoken trivial hstep
  | push u =>
    obtain ⟨j, js, htodo⟩ := List.exists_cons_of_ne_nil he.1
    exact hnone (congrArg (fun s => s.hub.state) (step_push (N := N) htodo))
  | paused | publish | phrase | send | wake | take | finish => exact hnone rfl

theorem Steady.clients_data (h : Steady N s) {c : ClientId} (hc : c ∈ s.hub.state.clients)
    (bytes : List UInt8) :
    (step N s (.data c bytes)).hub.state.clients = s.hub.state.clients ∧
      (step N s (.data c bytes)).hub.state.clientNonce = s.hub.state.clientNonce := by
  obtain ⟨es, hrun, hexec, hmem⟩ := Hub.data_run h.wired hc bytes
  have hinner := clients_of_inner hrun fun ev hev => by
    obtain ⟨tid, msg, found, rfl⟩ := hmem ev hev
    trivial
  rw [hexec] at hinner
  exact hinner

theorem clients_close (s : System) (c : ClientId) (stack : CString → UInt32) :
    (step N s (.close c stack)).hub.state.clients = s.hub.state.clients.filter (· ≠ c) ∧
      (step N s (.close c stack)).hub.state.clientNonce = s.hub.state.clientNonce := by
  have hbar : (handleClose N.env c stack s.hub.state).barrier = _ := handleClose_barrier ..
  have hmembers := Barrier.leave_members s.hub.state.barrier c
  have hnext := Barrier.leave_next s.hub.state.barrier c
  rw [← hbar] at hmembers hnext
  exact ⟨hmembers, hnext⟩

end System

/-! ### Publishing -/

namespace Handler

variable {α σ : Type*} {get : σ → Handler α} {set : Handler α → σ → σ} {run : α → σ → σ} {s : σ}
  {f : α}

/-- A listener that runs once is taken off the list before it runs. -/
theorem publish_once (h : get s = ⟨[f], []⟩) (hset : get (set empty s) = empty) :
    publish get set run s = run f (set empty s) := by
  have hempty : (⟨[], []⟩ : Handler α) = empty := rfl
  unfold publish
  simp only [h, hempty, hset]
  rfl

theorem publish_empty (h : get s = empty) (hset : get (set empty s) = empty) :
    publish get set run s = set empty s := by
  have hempty : (⟨[], []⟩ : Handler α) = empty := rfl
  unfold publish
  simp only [h]
  rw [show (⟨[], empty.onL⟩ : Handler α) = empty from rfl, hset]
  rfl

theorem publish_on (h : get s = ⟨[], [f]⟩) (hset : set ⟨[], [f]⟩ s = s) :
    publish get set run s = run f s := by
  unfold publish
  simp only [h, hset]
  rfl

end Handler

theorem Phase.connected_iff (p : Phase) : p = .reading ∨ p = .closing ↔ p ≠ .unused ∧ p ≠ .closed := by
  cases p <;> simp

namespace Stream

variable {c : ClientId} {st : Stream}

/-- The listeners of a stream in use: the one for the close is there until the stream is closed, and the
other two that run once are there at least until it is closing. -/
structure Wired (c : ClientId) (st : Stream) : Prop where
  used : st.phase ≠ .unused
  data : st.dataEvent = ⟨[], [c]⟩
  close : st.closeEvent = if st.phase = .closed then .empty else ⟨[c], []⟩
  error : st.errorEvent = ⟨[c], []⟩ ∨ st.errorEvent = .empty ∧ st.closing = true
  ends : st.endEvent = ⟨[c], []⟩ ∨ st.endEvent = .empty ∧ st.closing = true

theorem wired_new (c : ClientId) : (new c).Wired c := ⟨nofun, rfl, rfl, .inl rfl, .inl rfl⟩

theorem close_set {set : Stream → Stream} (hphase : ∀ st, (set st).phase = st.phase)
    (hset : ∀ st, { set st with phase := .closing } = set { st with phase := .closing }) (st : Stream) :
    (set st).close = set st.close := by
  have hclosing : (set st).closing = st.closing := by
    unfold closing
    rw [hphase]
  unfold close
  rw [hclosing]
  split_ifs
  · rfl
  · exact hset st

def errored (st : Stream) : Stream := { st.close with errorEvent := .empty }

def ended (st : Stream) : Stream := { st.close with endEvent := .empty }

theorem close_of_closing (h : st.closing = true) : st.close = st := if_pos h

theorem phase_close (st : Stream) :
    st.close.phase = if st.closing = true then st.phase else .closing := by
  unfold close
  split_ifs <;> rfl

@[simp] theorem closing_close (st : Stream) : st.close.closing = true := by
  unfold close
  split_ifs with h
  · exact h
  · rfl

theorem phase_close_eq_closed : st.close.phase = .closed ↔ st.phase = .closed := by
  rw [phase_close]
  split_ifs with h
  · rfl
  · have hne : st.phase ≠ .closed := fun heq => h (by simp [closing, heq])
    simp [hne]

theorem Wired.closed_stream (h : st.Wired c) : st.close.Wired c := by
  by_cases hclosing : st.closing = true
  · rwa [close_of_closing hclosing]
  · have hclose : st.close = { st with phase := .closing } := if_neg hclosing
    have hne : st.phase ≠ .closed := fun heq => hclosing (by simp [closing, heq])
    rw [hclose]
    exact ⟨nofun, h.data, h.close.trans (if_neg hne), h.error.imp_right fun h => ⟨h.1, rfl⟩,
      h.ends.imp_right fun h => ⟨h.1, rfl⟩⟩

theorem Wired.errored (h : st.Wired c) : st.errored.Wired c :=
  ⟨h.closed_stream.used, h.closed_stream.data, h.closed_stream.close,
    .inr ⟨rfl, closing_close st⟩, h.closed_stream.ends⟩

theorem Wired.ended (h : st.Wired c) : st.ended.Wired c :=
  ⟨h.closed_stream.used, h.closed_stream.data, h.closed_stream.close, h.closed_stream.error,
    .inr ⟨rfl, closing_close st⟩⟩

theorem Wired.closed (h : st.Wired c) :
    Wired c { st with phase := .closed, closeEvent := .empty } :=
  ⟨nofun, h.data, rfl, h.error.imp_right fun h => ⟨h.1, rfl⟩, h.ends.imp_right fun h => ⟨h.1, rfl⟩⟩

theorem connected_close (h : st.phase ≠ .unused) :
    st.close.phase = .reading ∨ st.close.phase = .closing ↔
      st.phase = .reading ∨ st.phase = .closing := by
  have hclose : st.close.phase ≠ .unused := by
    rw [phase_close]
    split_ifs
    · exact h
    · nofun
  rw [Phase.connected_iff, Phase.connected_iff]
  exact and_congr (iff_of_true hclose h) phase_close_eq_closed.not

theorem errored_errored (st : Stream) : st.errored.errored = st.errored := by
  have h : st.errored.close = st.errored := close_of_closing (closing_close st)
  show { st.errored.close with errorEvent := .empty } = _
  rw [h]
  rfl

end Stream

namespace Sockets

variable {N : Net} {endpoints : List Endpoint} {s : Sockets} {e : Event} {c d : ClientId}

/-! ### The streams after an event -/

theorem modify_eq_self {f : Stream → Stream} (h : f (s.streams c) = s.streams c) : s.modify c f = s := by
  unfold modify
  rw [h, Function.update_eq_self]

theorem modify_modify (f g : Stream → Stream) :
    (s.modify c f).modify c g = s.modify c fun st => g (f st) := by
  unfold modify
  simp only [Function.update_self, Function.update_idem]

theorem modify_streams (f : Stream → Stream) :
    (s.modify c f).streams d = if d = c then f (s.streams d) else s.streams d := by
  show Function.update s.streams c (f (s.streams c)) d = _
  split_ifs with h
  · subst h
    exact Function.update_self ..
  · exact Function.update_of_ne h ..

theorem modify_get {α : Type*} (f : Stream → Stream) (get : Stream → α) (c : ClientId) (s : Sockets) :
    get ((s.modify c f).streams c) = get (f (s.streams c)) :=
  congrArg get (Function.update_self ..)

theorem modify_congr {f g : Stream → Stream} (h : f (s.streams c) = g (s.streams c)) :
    s.modify c f = s.modify c g := by
  unfold modify
  rw [h]

/-- The listener `UvClient::onDisconnect` of an event closes the stream.  Where it has been taken off the
list before, the stream is closing already. -/
theorem publish_onDisconnect (get : Stream → Handler ClientId)
    {set : Handler ClientId → Stream → Stream} (hget : ∀ h st, get (set h st) = h)
    (hclose : ∀ h st, (set h st).close = set h st.close)
    (h : get (s.streams c) = ⟨[c], []⟩ ∨ get (s.streams c) = .empty ∧ (s.streams c).closing = true) :
    Handler.publish (fun s => get (s.streams c)) (fun h => modify c (set h))
      (fun _ => modify c Stream.close) s = s.modify c fun st => set .empty st.close := by
  have hempty : get ((s.modify c (set .empty)).streams c) = .empty :=
    (modify_get _ get c s).trans (hget ..)
  rcases h with h | ⟨h, hclosing⟩
  · rw [Handler.publish_once (s := s) h hempty, modify_modify]
    exact modify_congr (hclose ..)
  · rw [Handler.publish_empty (s := s) h hempty]
    refine modify_congr ?_
    rw [Stream.close_of_closing hclosing]

theorem publishError_eq (h : (s.streams c).Wired c) :
    s.publishError c = s.modify c Stream.errored :=
  publish_onDisconnect Stream.errorEvent (fun _ _ => rfl)
    (fun _ => Stream.close_set (fun _ => rfl) fun _ => rfl) h.error

theorem publishEnd_eq (h : (s.streams c).Wired c) : s.publishEnd c = s.modify c Stream.ended :=
  publish_onDisconnect Stream.endEvent (fun _ _ => rfl)
    (fun _ => Stream.close_set (fun _ => rfl) fun _ => rfl) h.ends

theorem publishData_eq (h : (s.streams c).Wired c) (bytes : List UInt8) :
    s.publishData N c bytes = s.handle N (.data c bytes) := by
  unfold publishData
  refine Handler.publish_on h.data (modify_eq_self ?_)
  rw [← h.data]

theorem publishClose_eq (hclose : (s.streams c).closeEvent = ⟨[c], []⟩) (stack : CString → UInt32) :
    s.publishClose N c stack =
      (s.modify c fun st => { st with closeEvent := .empty }).handle N (.close c stack) := by
  unfold publishClose
  exact Handler.publish_once (s := s) hclose (modify_get _ Stream.closeEvent c s)

theorem fail_spec (failed : List ClientId) (h : ∀ c ∈ failed, (s.streams c).Wired c) :
    (s.fail failed).system = s.system ∧ ∀ c, (s.fail failed).streams c =
      if c ∈ failed then (s.streams c).errored else s.streams c := by
  unfold fail
  induction failed generalizing s with
  | nil => exact ⟨rfl, fun c => rfl⟩
  | cons d failed ih =>
    obtain ⟨hd, hfailed⟩ := List.forall_mem_cons.1 h
    have hstreams := fun c => modify_streams (s := s) (c := d) (d := c) Stream.errored
    obtain ⟨ih₁, ih₂⟩ := ih (s := s.modify d Stream.errored) fun c hc => by
      rw [hstreams]
      split_ifs
      · exact (hfailed c hc).errored
      · exact hfailed c hc
    rw [List.foldl_cons, publishError_eq hd]
    refine ⟨ih₁, fun c => ?_⟩
    rw [ih₂, hstreams]
    by_cases hcd : c = d
    · simp [hcd, Stream.errored_errored]
    · simp [hcd]

/-! ### One event -/

/-- What an event is to the server. -/
def Event.served : Event → List System.Event
  | .listen _ _ => [.connect]
  | .read c (.data bytes _) => [.data c bytes]
  | .closed c stack => [.close c stack]
  | .other e _ => [e]
  | .read _ .eof | .read _ .error | .read _ .again | .written _ _ => []

def Event.Ends (c : ClientId) (s : Sockets) : Event → Prop
  | .listen _ started => started = false ∧ s.system.hub.state.clientNonce = c
  | .read d .eof | .read d .error => d = c
  | .read _ .again => False
  | .read d (.data _ failed) => failed ≠ 0 ∧ d = c
  | .written d ok => ok = false ∧ d = c
  | .closed _ _ => False
  | .other _ failed => c ∈ failed

/-- What holds of the streams in every state that is reached: a client that was given out has its
listeners, and is connected until its stream is closed. -/
structure Inv (N : Net) (s : Sockets) : Prop where
  steady : System.Steady N s.system
  unused : ∀ c, s.system.hub.state.clientNonce ≤ c → (s.streams c).phase = .unused
  wired : ∀ c < s.system.hub.state.clientNonce, (s.streams c).Wired c
  clients : ∀ c, c ∈ s.system.hub.state.clients ↔
    (s.streams c).phase = .reading ∨ (s.streams c).phase = .closing

theorem Inv.used_iff (h : Inv N s) :
    (s.streams c).phase ≠ .unused ↔ c < s.system.hub.state.clientNonce :=
  ⟨fun hc => lt_of_not_ge fun hle => hc (h.unused c hle), fun hc => (h.wired c hc).used⟩

theorem Inv.wired_of_mem (h : Inv N s) (hc : c ∈ s.system.hub.state.clients) :
    (s.streams c).Wired c := by
  obtain ⟨hused, -⟩ := (Phase.connected_iff _).1 ((h.clients c).1 hc)
  exact h.wired c (h.used_iff.1 hused)

/-- What becomes of the stream of a client. -/
inductive Moves (s : Sockets) (e : Event) (c : ClientId) : Stream → Prop
  | stays (hends : ¬ e.Ends c s) (hclosed : ∀ stack, e ≠ .closed c stack)
    (hlisten : ∀ k started, e = .listen k started → c ≠ s.system.hub.state.clientNonce) :
    Moves s e c (s.streams c)
  | made (k : ℕ) (he : e = .listen k true) (hc : c = s.system.hub.state.clientNonce) :
    Moves s e c (.new c)
  | refused (k : ℕ) (he : e = .listen k false) (hc : c = s.system.hub.state.clientNonce) :
    Moves s e c (Stream.new c).errored
  | errored (hends : e.Ends c s) (hlisten : ∀ k started, e ≠ .listen k started) :
    Moves s e c (s.streams c).errored
  | ended (hends : e.Ends c s) (hlisten : ∀ k started, e ≠ .listen k started) :
    Moves s e c (s.streams c).ended
  | closed (stack : CString → UInt32) (he : e = .closed c stack) :
    Moves s e c { s.streams c with phase := .closed, closeEvent := .empty }

/-- What an event does: to the server, and to the stream of each client. -/
structure Spec (N : Net) (s : Sockets) (e : Event) : Prop where
  run : (System.machine N).Run s.system e.served
  exec : (System.machine N).exec s.system e.served = (step N s e).system
  moves : ∀ c, Moves s e c ((step N s e).streams c)

theorem spec_of_modify {f : Stream → Stream} (hserved : e.served = [])
    (hstep : step N s e = s.modify d f) (hd : Moves s e d (f (s.streams d)))
    (hothers : ∀ c ≠ d, Moves s e c (s.streams c)) : Spec N s e := by
  refine ⟨by rw [hserved]; trivial, by rw [hserved, hstep]; rfl, fun c => ?_⟩
  rw [hstep, modify_streams]
  split_ifs with hcd
  · exact hcd ▸ hd
  · exact hothers c hcd

theorem listen_spec {k : ℕ} {started : Bool} (he : s.Enabled endpoints (.listen k started)) :
    Spec N s (.listen k started) := by
  let d := s.system.hub.state.clientNonce
  let s₁ := (s.modify d fun _ => .new d).handle N .connect
  have hs₁ : s₁.streams d = .new d := modify_get (fun _ => .new d) id d s
  have hsame : ∀ c ≠ d, s₁.streams c = s.streams c := fun c hc => by
    show (s.modify d fun _ => .new d).streams c = _
    rw [modify_streams, if_neg hc]
  cases started with
  | true =>
    refine ⟨⟨he.2, trivial⟩, rfl, fun c => ?_⟩
    show Moves s _ c (s₁.streams c)
    by_cases hcd : c = d
    · rw [hcd, hs₁]
      exact .made k rfl rfl
    · rw [hsame c hcd]
      exact .stays (fun h => nomatch h.1) nofun fun _ _ _ => hcd
  | false =>
    -- the stream is made with its listeners, and then closed by one of them
    have hwired : (s₁.streams d).Wired d := by
      rw [hs₁]
      exact Stream.wired_new d
    have hstep : step N s (.listen k false) = s₁.modify d Stream.errored := publishError_eq hwired
    refine ⟨⟨he.2, trivial⟩, by rw [hstep]; rfl, fun c => ?_⟩
    rw [hstep, modify_streams]
    split_ifs with hcd
    · rw [hcd, hs₁]
      exact .refused k rfl rfl
    · rw [hsame c hcd]
      exact .stays (fun h => hcd h.2.symm) nofun fun _ _ _ => hcd

section

variable (h : Inv N s)

include h

theorem data_spec {bytes : List UInt8} {failed : ℕ}
    (he : s.Enabled endpoints (.read d (.data bytes failed))) :
    Spec N s (.read d (.data bytes failed)) := by
  obtain ⟨hidle, hphase⟩ := he
  have hd : d ∈ s.system.hub.state.clients := (h.clients d).2 (.inl hphase)
  have hwired := h.wired_of_mem hd
  have hdata := publishData_eq (N := N) hwired bytes
  obtain ⟨hsystem, hstreams⟩ := fail_spec (s := s.handle N (.data d bytes))
    (List.replicate failed d) fun c hc => by
      rw [List.eq_of_mem_replicate hc]
      exact hwired
  refine ⟨⟨⟨hidle, hd⟩, trivial⟩, ?_, fun c => ?_⟩
  · show _ = ((s.publishData N d bytes).fail _).system
    rw [hdata, hsystem]
    rfl
  · show Moves s _ c (((s.publishData N d bytes).fail _).streams c)
    rw [hdata, hstreams]
    simp only [List.mem_replicate]
    split_ifs with hcd
    · exact .errored ⟨hcd.1, hcd.2.symm⟩ nofun
    · exact .stays (fun h => hcd ⟨h.1, h.2.symm⟩) nofun nofun

theorem read_spec {r : Read} (he : s.Enabled endpoints (.read d r)) : Spec N s (.read d r) := by
  have hwired := h.wired_of_mem ((h.clients d).2 (.inl he.2))
  cases r with
  | eof =>
    refine spec_of_modify (d := d) rfl (publishEnd_eq hwired) (.ended rfl nofun) fun c hcd => ?_
    exact .stays (fun h => hcd h.symm) nofun nofun
  | error =>
    refine spec_of_modify (d := d) rfl (publishError_eq hwired) (.errored rfl nofun) fun c hcd => ?_
    exact .stays (fun h => hcd h.symm) nofun nofun
  | again => exact ⟨trivial, rfl, fun c => .stays id nofun nofun⟩
  | data bytes failed => exact data_spec h he

theorem written_spec {ok : Bool} (he : s.Enabled endpoints (.written d ok)) :
    Spec N s (.written d ok) := by
  have hwired := h.wired_of_mem ((h.clients d).2 he.2)
  cases ok with
  | true => exact ⟨trivial, rfl, fun c => .stays (fun h => nomatch h.1) nofun nofun⟩
  | false =>
    refine spec_of_modify (d := d) rfl (publishError_eq hwired) (.errored ⟨rfl, rfl⟩ nofun)
      fun c hcd => ?_
    exact .stays (fun h => hcd h.2.symm) nofun nofun

theorem closed_spec {stack : CString → UInt32} (he : s.Enabled endpoints (.closed d stack)) :
    Spec N s (.closed d stack) := by
  obtain ⟨hidle, hphase⟩ := he
  have hd : d ∈ s.system.hub.state.clients := (h.clients d).2 (.inr hphase)
  have hclose : (s.streams d).closeEvent = ⟨[d], []⟩ := by
    rw [(h.wired_of_mem hd).close, hphase]
    rfl
  have hstep : step N s (.closed d stack) = (s.modify d fun st =>
      { st with phase := .closed, closeEvent := .empty }).handle N (.close d stack) := by
    refine (publishClose_eq (by rw [modify_streams, if_pos rfl]; exact hclose) stack).trans ?_
    rw [modify_modify]
  refine ⟨⟨⟨hidle, hd⟩, trivial⟩, by rw [hstep]; rfl, fun c => ?_⟩
  rw [hstep]
  show Moves s _ c ((s.modify d fun st =>
    { st with phase := .closed, closeEvent := .empty }).streams c)
  rw [modify_streams]
  split_ifs with hcd
  · subst hcd
    exact .closed stack rfl
  · exact .stays id (fun stack' heq => hcd (by cases heq; rfl)) nofun

theorem other_spec {ev : System.Event} {failed : List ClientId}
    (he : s.Enabled endpoints (.other ev failed)) : Spec N s (.other ev failed) := by
  obtain ⟨hother, hev, hfailed⟩ := he
  obtain ⟨hsystem, hstreams⟩ := fail_spec (s := s.handle N ev) failed fun c hc =>
    h.wired_of_mem (hfailed c hc)
  refine ⟨⟨hev, trivial⟩, hsystem.symm, fun c => ?_⟩
  show Moves s _ c (((s.handle N ev).fail failed).streams c)
  rw [hstreams]
  split_ifs with hc
  · exact .errored hc nofun
  · exact .stays hc nofun nofun

/-- **What an event does**, whichever it is. -/
theorem step_spec (he : s.Enabled endpoints e) : Spec N s e := by
  cases e with
  | listen k started => exact listen_spec he
  | read d r => exact read_spec h he
  | written d ok => exact written_spec h he
  | closed d stack => exact closed_spec h he
  | other ev failed => exact other_spec h he

end

def Event.Gives (c : ClientId) (s : Sockets) (e : Event) : Prop :=
  c = s.system.hub.state.clientNonce ∧ ∃ k started, e = .listen k started

/-- Who is connected after an event, and which ids have been given out. -/
theorem Inv.clients_step (h : Inv N s) (he : s.Enabled endpoints e) (c : ClientId) :
    (c ∈ (step N s e).system.hub.state.clients ↔
      (c ∈ s.system.hub.state.clients ∧ ∀ stack, e ≠ .closed c stack) ∨ e.Gives c s) ∧
    (c < (step N s e).system.hub.state.clientNonce ↔
      c < s.system.hub.state.clientNonce ∨ e.Gives c s) := by
  obtain ⟨-, hexec, -⟩ := step_spec h he
  rw [← hexec]
  have hsame : ∀ {m : System}, m.hub.state.clients = s.system.hub.state.clients ∧
      m.hub.state.clientNonce = s.system.hub.state.clientNonce →
      (∀ stack, e ≠ .closed c stack) → (∀ k started, e ≠ .listen k started) →
      (c ∈ m.hub.state.clients ↔
        (c ∈ s.system.hub.state.clients ∧ ∀ stack, e ≠ .closed c stack) ∨ e.Gives c s) ∧
      (c < m.hub.state.clientNonce ↔ c < s.system.hub.state.clientNonce ∨ e.Gives c s) := by
    intro m hm hclosed hlisten
    have hno : ¬ e.Gives c s := fun ⟨_, k, started, heq⟩ => hlisten k started heq
    simp [hm.1, hm.2, hno, hclosed]
  cases e with
  | listen k started =>
    have hgives : Event.Gives c s (.listen k started) ↔ c = s.system.hub.state.clientNonce :=
      ⟨And.left, fun h => ⟨h, k, started, rfl⟩⟩
    rw [hgives]
    refine ⟨?_, Nat.lt_succ_iff_lt_or_eq⟩
    show c ∈ s.system.hub.state.clients ++ [s.system.hub.state.clientNonce] ↔ _
    simp
  | closed d stack =>
    obtain ⟨hclients, hnonce⟩ := System.clients_close (N := N) s.system d stack
    have hstep : (System.machine N).exec s.system (Event.served (.closed d stack)) =
        s.system.step N (.close d stack) := rfl
    have hno : ¬ Event.Gives c s (.closed d stack) := fun ⟨_, _, _, heq⟩ => nomatch heq
    have hclosed : (∀ stack', Event.closed d stack ≠ .closed c stack') ↔ c ≠ d := by
      refine ⟨fun h heq => h stack (heq ▸ rfl), fun hne stack' heq => ?_⟩
      cases heq
      exact hne rfl
    rw [hstep, hclients, hnonce, hclosed, List.mem_filter, or_iff_left hno, or_iff_left hno]
    exact ⟨and_congr_right fun _ => decide_eq_true_iff, Iff.rfl⟩
  | read d r =>
    cases r with
    | eof | error | again => exact hsame ⟨rfl, rfl⟩ nofun nofun
    | data bytes failed =>
      exact hsame (h.steady.clients_data ((h.clients d).2 (.inl he.2)) bytes) nofun nofun
  | written d ok => exact hsame ⟨rfl, rfl⟩ nofun nofun
  | other ev failed => exact hsame (h.steady.clients_step he.2.1 he.1) nofun nofun

/-- Only the stream of a client that is connected ends or fails. -/
theorem Inv.mem_of_ends (h : Inv N s) (he : s.Enabled endpoints e) (hends : e.Ends c s)
    (hlisten : ∀ k started, e ≠ .listen k started) : c ∈ s.system.hub.state.clients := by
  cases e with
  | listen k started => exact absurd rfl (hlisten k started)
  | read d r =>
    have hd : d ∈ s.system.hub.state.clients := (h.clients d).2 (.inl he.2)
    cases r with
    | eof | error => exact hends ▸ hd
    | again => exact hends.elim
    | data bytes failed => exact hends.2 ▸ hd
  | written d ok => exact hends.2 ▸ (h.clients d).2 he.2
  | closed d stack => exact hends.elim
  | other ev failed => exact he.2.2 c hends

theorem Inv.step (h : Inv N s) (he : s.Enabled endpoints e) : Inv N (step N s e) := by
  obtain ⟨hrun, hexec, hmoves⟩ := step_spec h he
  have hsteady : System.Steady N (Sockets.step N s e).system := by
    rw [← hexec]
    exact hrun.keeps (fun _ _ hs he => System.steady_step hs he) h.steady
  have hbelow : ∀ {c}, c ∈ s.system.hub.state.clients → c < s.system.hub.state.clientNonce :=
    fun hc => h.steady.consistent.below _ hc
  have hgone : ∀ {c stack}, e = .closed c stack → c ∈ s.system.hub.state.clients := by
    rintro c stack rfl
    exact (h.clients c).2 (.inr he.2)
  refine ⟨hsteady, fun c hc => ?_, fun c hc => ?_, fun c => ?_⟩
  · -- an id that is not given out yet has no stream
    obtain ⟨hold, hnew⟩ := not_or.1 ((h.clients_step he c).2.not.1 (Nat.not_lt.2 hc))
    have hmove := hmoves c
    generalize (Sockets.step N s e).streams c = st at hmove ⊢
    cases hmove with
    | stays => exact h.unused c (Nat.le_of_not_lt hold)
    | made k heq hc | refused k heq hc => exact absurd ⟨hc, k, _, heq⟩ hnew
    | errored hends hlisten | ended hends hlisten =>
      exact absurd (hbelow (h.mem_of_ends he hends hlisten)) hold
    | closed stack heq => exact absurd (hbelow (hgone heq)) hold
  · -- every stream that was made has its listeners, but for those that have run
    have hmove := hmoves c
    generalize (Sockets.step N s e).streams c = st at hmove ⊢
    cases hmove with
    | stays hends hclosed hlisten =>
      rcases (h.clients_step he c).2.1 hc with hc | ⟨hnew, k, started, heq⟩
      · exact h.wired c hc
      · exact absurd hnew (hlisten k started heq)
    | made => exact Stream.wired_new c
    | refused => exact (Stream.wired_new c).errored
    | errored hends hlisten => exact (h.wired_of_mem (h.mem_of_ends he hends hlisten)).errored
    | ended hends hlisten => exact (h.wired_of_mem (h.mem_of_ends he hends hlisten)).ended
    | closed stack heq => exact (h.wired_of_mem (hgone heq)).closed
  · -- a client is on the list as long as its stream is not closed
    rw [(h.clients_step he c).1]
    have hmove := hmoves c
    generalize (Sockets.step N s e).streams c = st at hmove ⊢
    cases hmove with
    | stays hends hclosed hlisten =>
      rw [← h.clients c, or_iff_left fun ⟨hnew, k, started, heq⟩ => hlisten k started heq hnew]
      exact and_iff_left hclosed
    | made k heq hc | refused k heq hc =>
      exact iff_of_true (.inr ⟨hc, k, _, heq⟩)
        (by simp [Stream.new, Stream.errored, Stream.close, Stream.closing])
    | errored hends hlisten | ended hends hlisten =>
      have hc := h.mem_of_ends he hends hlisten
      refine iff_of_true (.inl ⟨hc, fun stack heq => ?_⟩)
        ((Stream.connected_close (h.wired_of_mem hc).used).2 ((h.clients c).1 hc))
      subst heq
      exact hends
    | closed stack heq =>
      refine iff_of_false ?_ (by simp)
      rintro (⟨-, hne⟩ | ⟨-, k, started, hlisten⟩)
      · exact hne stack heq
      · exact nomatch heq.symm.trans hlisten

theorem inv_of_run {es : List Event} (hr : (machine N endpoints).Run (machine N endpoints).start es) :
    Inv N ((machine N endpoints).exec (machine N endpoints).start es) := by
  refine hr.keeps (I := Inv N) (fun s e hs he => hs.step he) ?_
  exact ⟨System.steady_start N, fun _ _ => rfl, fun c hc => absurd hc (Nat.not_lt_zero c),
    fun c => iff_of_false List.not_mem_nil (by rintro (h | h) <;> cases h)⟩

/-! ### Runs -/

/-- The event is the call of `handle_disconnect` for the client. -/
def closes (c : ClientId) : System.Event → Bool
  | .close d _ => d = c
  | _ => false

theorem closed_step (h : Inv N s) (he : s.Enabled endpoints e) (c : ClientId) :
    ((step N s e).streams c).phase = .closed ↔
      (s.streams c).phase = .closed ∨ ∃ stack, e = .closed c stack := by
  have hmove := (step_spec h he).moves c
  have hnone : (∀ stack, e ≠ .closed c stack) → ¬ ∃ stack, e = .closed c stack :=
    fun hne ⟨stack, heq⟩ => hne stack heq
  generalize (step N s e).streams c = st at hmove ⊢
  cases hmove with
  | stays hends hclosed hlisten => rw [or_iff_left (hnone hclosed)]
  | made k heq hc | refused k heq hc =>
    have hunused := h.unused c hc.ge
    refine iff_of_false nofun ?_
    rintro (hphase | ⟨stack, hclosed⟩)
    · exact nomatch hunused.symm.trans hphase
    · exact nomatch heq.symm.trans hclosed
  | errored hends hlisten | ended hends hlisten =>
    rw [or_iff_left (hnone fun stack heq => by subst heq; exact hends)]
    exact Stream.phase_close_eq_closed
  | closed stack heq => exact iff_of_true rfl (.inr ⟨stack, heq⟩)

theorem closing_step (h : Inv N s) (he : s.Enabled endpoints e) (c : ClientId) :
    ((step N s e).streams c).closing = true ↔ (s.streams c).closing = true ∨ e.Ends c s := by
  have hmove := (step_spec h he).moves c
  generalize (step N s e).streams c = st at hmove ⊢
  cases hmove with
  | stays hends hclosed hlisten => rw [or_iff_left hends]
  | made k heq hc =>
    subst heq
    have hunused := h.unused c hc.ge
    refine iff_of_false nofun ?_
    rintro (hclosing | hends)
    · simp [Stream.closing, hunused] at hclosing
    · exact nomatch hends.1
  | refused k heq hc =>
    subst heq
    exact iff_of_true rfl (.inr ⟨rfl, hc.symm⟩)
  | errored hends hlisten | ended hends hlisten =>
    exact iff_of_true (Stream.closing_close _) (.inr hends)
  | closed stack heq =>
    subst heq
    exact iff_of_true rfl (.inl (by simp [Stream.closing, he.2]))

theorem served_closes (he : s.Enabled endpoints e) (c : ClientId) :
    (∃ stack, e = .closed c stack ∧ e.served.filter (closes c) = [.close c stack]) ∨
      (∀ stack, e ≠ .closed c stack) ∧ e.served.filter (closes c) = [] := by
  cases e with
  | closed d stack =>
    by_cases hcd : d = c
    · subst hcd
      exact .inl ⟨stack, rfl, by simp [Event.served, closes]⟩
    · refine .inr ⟨fun stack' heq => ?_, by simp [Event.served, closes, hcd]⟩
      cases heq
      exact hcd rfl
  | listen => exact .inr ⟨nofun, rfl⟩
  | read d r => cases r <;> exact .inr ⟨nofun, rfl⟩
  | written => exact .inr ⟨nofun, rfl⟩
  | other ev failed =>
    refine .inr ⟨nofun, ?_⟩
    have hother : Other ev := he.1
    cases ev with
    | connect | close | data => exact hother.elim
    | _ => rfl

theorem system_of_run {es : List Event}
    (hr : (machine N endpoints).Run (machine N endpoints).start es) :
    let is := (machine N endpoints).history (fun _ e => e.served) (machine N endpoints).start es
    (System.machine N).Run (System.machine N).start is ∧ (System.machine N).exec
      (System.machine N).start is =
        ((machine N endpoints).exec (machine N endpoints).start es).system := by
  induction es using List.reverseRecOn with
  | nil => exact ⟨trivial, rfl⟩
  | append_singleton es e ih =>
    obtain ⟨hr, he⟩ := Machine.run_snoc.1 hr
    obtain ⟨hrun, hexec⟩ := ih hr
    obtain ⟨hrun', hexec', -⟩ := step_spec (inv_of_run hr) he
    rw [← hexec] at hrun' hexec'
    rw [Machine.history_snoc, Machine.exec_snoc]
    exact ⟨Machine.run_append.2 ⟨hrun, hrun'⟩, Machine.exec_append.trans hexec'⟩

theorem closed_of_run {es : List Event}
    (hr : (machine N endpoints).Run (machine N endpoints).start es) (c : ClientId) :
    (((machine N endpoints).exec (machine N endpoints).start es).streams c).phase = .closed ↔
      ∃ stack, .closed c stack ∈ es := by
  induction es using List.reverseRecOn with
  | nil => exact iff_of_false nofun fun ⟨_, h⟩ => nomatch h
  | append_singleton es e ih =>
    obtain ⟨hr, he⟩ := Machine.run_snoc.1 hr
    rw [Machine.exec_snoc]
    refine (closed_step (inv_of_run hr) he c).trans ((or_congr_left (ih hr)).trans ?_)
    simp only [List.mem_append, List.mem_singleton, exists_or, eq_comm]

theorem closing_of_run {es : List Event}
    (hr : (machine N endpoints).Run (machine N endpoints).start es) (c : ClientId) :
    (((machine N endpoints).exec (machine N endpoints).start es).streams c).closing = true ↔
      (machine N endpoints).Occurs (fun s e => e.Ends c s) (machine N endpoints).start es := by
  induction es using List.reverseRecOn with
  | nil => exact iff_of_false nofun False.elim
  | append_singleton es e ih =>
    obtain ⟨hr, he⟩ := Machine.run_snoc.1 hr
    rw [Machine.exec_snoc, Machine.occurs_snoc, ← ih hr]
    exact closing_step (inv_of_run hr) he c

/-- A client is closed by the server once its stream is. -/
theorem length_closes {es : List Event}
    (hr : (machine N endpoints).Run (machine N endpoints).start es) (c : ClientId) :
    (((machine N endpoints).history (fun _ e => e.served)
        (machine N endpoints).start es).filter (closes c)).length =
      if (((machine N endpoints).exec (machine N endpoints).start es).streams c).phase = .closed
      then 1 else 0 := by
  induction es using List.reverseRecOn with
  | nil => rfl
  | append_singleton es e ih =>
    obtain ⟨hr, he⟩ := Machine.run_snoc.1 hr
    have hstep := closed_step (inv_of_run hr) he c
    rw [Machine.history_snoc, Machine.exec_snoc, List.filter_append, List.length_append, ih hr]
    rcases served_closes he c with ⟨stack, heq, hserved⟩ | ⟨hne, hserved⟩
    · have hopen : (((machine N endpoints).exec (machine N endpoints).start es).streams c).phase
          ≠ .closed := by
        subst heq
        rw [he.2]
        nofun
      rw [hserved, if_neg hopen]
      exact (if_pos (hstep.2 (.inr ⟨stack, heq⟩))).symm
    · rw [hserved, List.length_nil, Nat.add_zero]
      exact if_congr (hstep.trans (or_iff_left fun ⟨stack, heq⟩ => hne stack heq)).symm rfl rfl

theorem listenEndpoints_nil (homedir : Option String) (config : Config) :
    listenEndpoints homedir [] config = [] := by
  unfold listenEndpoints
  cases config.socket <;> cases config.pipe <;> rfl

theorem clientNonce_of_no_endpoints {es : List Event} (hnone : endpoints = [])
    (hr : (machine N endpoints).Run (machine N endpoints).start es) :
    ((machine N endpoints).exec (machine N endpoints).start es).system.hub.state.clientNonce = 0 := by
  subst hnone
  induction es using List.reverseRecOn with
  | nil => rfl
  | append_singleton es e ih =>
    obtain ⟨hr, he⟩ := Machine.run_snoc.1 hr
    rw [Machine.exec_snoc]
    by_contra hne
    rcases (((inv_of_run hr).clients_step he 0).2.1 (Nat.pos_of_ne_zero hne)) with h | ⟨-, k, started, rfl⟩
    · rw [ih hr] at h
      exact Nat.lt_irrefl 0 h
    · exact Nat.not_lt_zero k he.1

/-- **Each connection is handed to the server once and taken back once.**  For every run of the callbacks
of libuv:
* what the listeners make of it is a run of the server;
* a stream is closing or closed just when it has ended or failed;
* a client is connected from its `ListenEvent` on until its handle was closed, and `handle_disconnect` has
  then been called for it, once;
* without a secret nobody is ever connected. -/
theorem handed_over {homedir : Option String} {config : Config} {es : List Event}
    (hr : (machine N (listenEndpoints homedir N.secret config)).Run
      (machine N (listenEndpoints homedir N.secret config)).start es) :
    let M := machine N (listenEndpoints homedir N.secret config)
    let s := M.exec M.start es
    let is := M.history (fun _ e => e.served) M.start es
    ((System.machine N).Run (System.machine N).start is ∧
      (System.machine N).exec (System.machine N).start is = s.system) ∧
    (∀ c, (s.streams c).closing = true ↔ M.Occurs (fun s e => e.Ends c s) M.start es) ∧
    (∀ c, c ∈ s.system.hub.state.clients ↔
      c < s.system.hub.state.clientNonce ∧ ∀ stack, .closed c stack ∉ es) ∧
    (∀ c, ((∃ stack, .closed c stack ∈ es) → (is.filter (closes c)).length = 1) ∧
      ((∀ stack, .closed c stack ∉ es) → is.filter (closes c) = [])) ∧
    (N.secret = [] → s.system.hub.state.clients = []) := by
  intro M s is
  have hinv : Inv N s := inv_of_run hr
  refine ⟨system_of_run hr, closing_of_run hr, fun c => ?_, fun c => ?_, fun hsecret => ?_⟩
  · have hphase : (∀ stack, .closed c stack ∉ es) ↔ (s.streams c).phase ≠ .closed := by
      rw [Ne, closed_of_run hr c, not_exists]
    rw [hinv.clients c, Phase.connected_iff, hinv.used_iff, hphase]
  · have hlength := length_closes hr c
    have hphase := closed_of_run hr c
    refine ⟨fun h => hlength.trans (if_pos (hphase.2 h)), fun h => ?_⟩
    refine List.eq_nil_of_length_eq_zero (hlength.trans (if_neg fun hp => ?_))
    obtain ⟨stack, hmem⟩ := hphase.1 hp
    exact h stack hmem
  · -- without a secret the server listens nowhere
    have hnone : listenEndpoints homedir N.secret config = [] := by
      rw [hsecret]
      exact listenEndpoints_nil homedir config
    refine List.eq_nil_iff_forall_not_mem.2 fun c hc => ?_
    have hlt : c < s.system.hub.state.clientNonce := hinv.steady.consistent.below c hc
    have hzero : s.system.hub.state.clientNonce = 0 := clientNonce_of_no_endpoints hnone hr
    rw [hzero] at hlt
    exact Nat.not_lt_zero c hlt

/-- A server with a secret, and the configuration of a socket. -/
def secured : Net := { System.numbering with secret := [115] }

def oneSocket : Config := ⟨some [⟨some "localhost", some 9000⟩, ⟨none, some 9001⟩], none⟩

/-- Two clients connect.  A write to the first one fails, then its stream ends, and is closed. -/
def twoConnections : List Event :=
  [.listen 0 true, .read 0 (.data [0, 0] 0), .listen 0 true, .written 0 false, .read 1 (.data [0] 0),
    .other (.ready 0) [], .closed 0 fun _ => 0]

theorem handed_over_two :
    let M := machine secured (listenEndpoints none secured.secret oneSocket)
    let is := M.history (fun _ e => e.served) M.start twoConnections
    (M.exec M.start twoConnections).system.hub.state.clients = [1] ∧
      (is.filter (closes 0)).length = 1 ∧ is.filter (closes 1) = [] ∧
      (System.machine secured).Run (System.machine secured).start is := by
  intro M is
  have hr : M.Run M.start twoConnections := by decide +kernel
  obtain ⟨hserved, -, -, hcloses, -⟩ := handed_over hr
  have hzero : (∃ stack, .closed 0 stack ∈ twoConnections) := ⟨fun _ => 0, by simp [twoConnections]⟩
  have hone : ∀ stack, .closed 1 stack ∉ twoConnections := fun stack => by simp [twoConnections]
  exact ⟨by decide +kernel, (hcloses 0).1 hzero, (hcloses 1).2 hone, hserved.1⟩

end Sockets

end Draconity
