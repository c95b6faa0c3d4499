import Draconity.Auth

/-!
The server: the state of Draconity together with the ends of its connections.

`Net` bundles what the server runs on.  A `Hub` has the client of each id, and the handlers of
`UvServer` work on it; those that read nothing of a connection are the events of the event loop.
-/

namespace Draconity

open Lib

/-- What the server runs on: the engine, the transport, and the making of messages. -/
structure Net where
  env : Env
  transport : Transport State
  /-- The bytes of a reply of `handle_message`. -/
  reply : Reply → List UInt8
  serves : transport.Serves env reply
  /-- The `secret` of the configuration. -/
  secret : List UInt8
  /-- `prep_response`, for the message of this number: its bytes depend on when it is made. -/
  prep : ℕ → Payload → List UInt8

/-- The state of the server.  The clients in `server->clients` are those of the ids in
`state.clients`. -/
structure Hub where
  state : State
  conns : ClientId → UvClient

namespace Hub

/-- Nobody has connected yet, and there is no token.  The clients are as they are made. -/
def init (N : Net) : Hub := ⟨State.init 0, .new N.secret⟩

/-- A handler that reads nothing of the connections. -/
def onState (f : State → State) (h : Hub) : Hub := { h with state := f h.state }

def modify (c : ClientId) (f : UvClient → UvClient) (h : Hub) : Hub :=
  { h with conns := Function.update h.conns c (f (h.conns c)) }

variable (N : Net)

def listen (h : Hub) : Hub where
  state := handleListen h.state
  conns := Function.update h.conns h.state.clientNonce (.new N.secret h.state.clientNonce)

def close (c : ClientId) (stack : CString → UInt32) : Hub → Hub :=
  onState (handleClose N.env c stack)

def connection (h : Hub) (c : ClientId) : Connection State := ⟨h.conns c, h.state, []⟩

def data (c : ClientId) (bytes : List UInt8) (h : Hub) : Hub where
  state := (N.transport.onData bytes (h.connection c)).state
  conns := Function.update h.conns c (N.transport.onData bytes (h.connection c)).client

def publishTid : UInt32 := 0

/-- What `UvServer::publish` runs on the event loop. -/
def publish (msg : List UInt8) (h : Hub) : Hub :=
  h.state.clients.foldl
    (fun h c => h.modify c (UvClient.writeMessage N.transport.byteOrder publishTid msg)) h

/-- What `UvServer::send` runs on the event loop. -/
def send (msg : List UInt8) (tid : UInt32) (clientId : ClientId) (h : Hub) : Hub :=
  match h.state.clients.find? (· = clientId) with
  | some c => h.modify c (UvClient.writeMessage N.transport.byteOrder tid msg)
  | none => h

/-! ### The clients of a hub -/

/-- Each client has its id and the secret, and stands somewhere in its stream. -/
structure Wired (h : Hub) : Prop where
  id : ∀ c, (h.conns c).id = c
  secret : ∀ c, (h.conns c).secret = N.secret
  standsAt : ∀ c, ∃ bytes, Transport.StandsAt (h.conns c) bytes

theorem wired_init : (init N).Wired N := ⟨fun _ => rfl, fun _ => rfl, fun _ => ⟨[], rfl⟩⟩

/-! ### What a chunk does -/

/-- The reply of `handleAuth` to a frame of a client that is not authenticated. -/
def authReply (f : Frame UInt8 MessageHeader) : List UInt8 :=
  frameBytes N.transport.byteOrder f.header.tid
    (N.transport.bson.write ((UvClient.new N.secret 0).handleAuth N.transport.bson f.body).1)

/-- The reply goes by the secret of the client only. -/
theorem handleAuth_reply (bson : Bson) (msg : List UInt8) (c c' : UvClient)
    (h : c.secret = c'.secret) : (c.handleAuth bson msg).1 = (c'.handleAuth bson msg).1 := by
  unfold UvClient.handleAuth
  rw [h]
  cases bson.read msg with
  | none => rfl
  | some es =>
    dsimp only
    split_ifs <;> rfl

/-- Frames of a client that does not authenticate are answered one by one. -/
theorem foldl_handleFrame_written {N : Net} (fs : List (Frame UInt8 MessageHeader))
    {c : Connection State} (hsecret : c.client.secret = N.secret)
    (hauthed : (fs.foldl N.transport.handleFrame c).client.authed = false) :
    (fs.foldl N.transport.handleFrame c).client.written =
        c.client.written ++ fs.map (authReply N) ∧
      (fs.foldl N.transport.handleFrame c).state = c.state := by
  induction fs generalizing c with
  | nil => exact ⟨(List.append_nil _).symm, rfl⟩
  | cons f fs ih =>
    have hc : c.client.authed = false := by
      by_contra hne
      have hkeep := (N.transport.foldl_handleFrame_client (f :: fs) c).2.2.2
        (.inl (by simpa using hne))
      rw [hauthed] at hkeep
      cases hkeep
    obtain ⟨-, hstate, -⟩ := N.transport.handleFrame_of_not_authed hc f
    obtain ⟨hsecret', -, -⟩ := N.transport.handleFrame_client c f
    have hwritten : (N.transport.handleFrame c f).client.written =
        c.client.written ++ [authReply N f] := by
      obtain ⟨authed, hclient⟩ := c.client.handleAuth_client N.transport.bson f.body
      unfold Transport.handleFrame Transport.handleMessage authReply
      rw [if_pos hc]
      dsimp only [UvClient.respond, UvClient.writeMessage]
      rw [hclient, handleAuth_reply N.transport.bson f.body c.client
        (UvClient.new N.secret 0) hsecret]
    obtain ⟨ih₁, ih₂⟩ := ih (hsecret'.trans hsecret) hauthed
    rw [List.foldl_cons, ih₁, ih₂, hwritten, hstate, List.append_assoc]
    exact ⟨rfl, rfl⟩

variable {N} {h : Hub} {c d : ClientId} {left : List UInt8}

/-- A chunk is handled frame by frame, and what is left over is kept. -/
theorem data_frames (hleft : Transport.StandsAt (h.conns c) left) (bytes : List UInt8) :
    Transport.StandsAt ((h.data N c bytes).conns c) (messageFormat.split (left ++ bytes)).2 ∧
      Transport.settled ((h.data N c bytes).connection c) =
        { (frames (left ++ bytes)).foldl N.transport.handleFrame
            (Transport.settled (h.connection c)) with calls := [] } := by
  have hloop := N.transport.loop_eq (c := { h.connection c with client := { h.conns c with
    recvBuffer := (h.conns c).recvBuffer ++ bytes } }) (hleft.append bytes)
  have hconn : (h.data N c bytes).conns c =
      (N.transport.onData bytes (h.connection c)).client := Function.update_self ..
  rw [hconn]
  refine ⟨hloop.1, ?_⟩
  have hsettled := hloop.2
  unfold connection
  rw [hconn]
  show _ = { (frames (left ++ bytes)).foldl N.transport.handleFrame (Transport.settled
    { h.connection c with client := { h.conns c with
      recvBuffer := (h.conns c).recvBuffer ++ bytes } }) with calls := [] }
  rw [← hsettled]
  rfl

theorem data_conns_of_ne (hd : d ≠ c) (bytes : List UInt8) :
    (h.data N c bytes).conns d = h.conns d := Function.update_of_ne hd ..

theorem data_client (hw : h.Wired N) (c : ClientId) (bytes : List UInt8) :
    ∃ fs : List (Frame UInt8 MessageHeader),
      Transport.settledClient ((h.data N c bytes).conns c) =
      (fs.foldl N.transport.handleFrame (Transport.settled (h.connection c))).client := by
  obtain ⟨left, hleft⟩ := hw.standsAt c
  obtain ⟨-, hsettled⟩ := data_frames (N := N) hleft bytes
  exact ⟨_, congrArg Connection.client hsettled⟩

/-- What is written is written after what was written before. -/
theorem handleFrame_grows {σ : Type*} (T : Transport σ) (c : Connection σ)
    (f : Frame UInt8 MessageHeader) :
    ∃ new, (T.handleFrame c f).client.written = c.client.written ++ new := by
  unfold Transport.handleFrame Transport.handleMessage
  split_ifs
  · obtain ⟨authed, hclient⟩ := c.client.handleAuth_client T.bson f.body
    dsimp only [UvClient.respond, UvClient.writeMessage]
    rw [hclient]
    exact ⟨_, rfl⟩
  · dsimp only
    cases (T.callback c.client.id f.header.tid f.body c.state).1 with
    | none => exact ⟨[], (List.append_nil _).symm⟩
    | some msg => exact ⟨_, rfl⟩

theorem data_grows (hw : h.Wired N) (c : ClientId) (bytes : List UInt8) :
    ∃ new, ((h.data N c bytes).conns c).written = (h.conns c).written ++ new := by
  obtain ⟨fs, hclient⟩ := data_client hw c bytes
  have hgrows : ∀ (fs : List (Frame UInt8 MessageHeader)) (k : Connection State),
      ∃ new, (fs.foldl N.transport.handleFrame k).client.written = k.client.written ++ new := by
    intro fs
    induction fs with
    | nil => exact fun k => ⟨[], (List.append_nil _).symm⟩
    | cons f fs ih =>
      intro k
      obtain ⟨new, hnew⟩ := ih (N.transport.handleFrame k f)
      obtain ⟨first, hfirst⟩ := handleFrame_grows N.transport k f
      exact ⟨first ++ new, by rw [List.foldl_cons, hnew, hfirst, List.append_assoc]⟩
  obtain ⟨new, hnew⟩ := hgrows fs (Transport.settled (h.connection c))
  rw [← hclient] at hnew
  exact ⟨new, hnew⟩

theorem Wired.of_forall (h' : ∀ c, (h.conns c).id = c ∧ (h.conns c).secret = N.secret ∧
    ∃ bytes, Transport.StandsAt (h.conns c) bytes) : h.Wired N :=
  ⟨fun c => (h' c).1, fun c => (h' c).2.1, fun c => (h' c).2.2⟩

theorem Wired.data (hw : h.Wired N) (c : ClientId) (bytes : List UInt8) :
    (h.data N c bytes).Wired N := by
  obtain ⟨fs, hclient⟩ := data_client hw c bytes
  obtain ⟨hsecret, hid, -⟩ := N.transport.foldl_handleFrame_client fs
    (Transport.settled (h.connection c))
  rw [← hclient] at hsecret hid
  refine .of_forall fun d => ?_
  by_cases hd : d = c
  · subst hd
    obtain ⟨left, hleft⟩ := hw.standsAt d
    exact ⟨hid.trans (hw.id d), hsecret.trans (hw.secret d), _,
      (data_frames (N := N) hleft bytes).1⟩
  · rw [data_conns_of_ne hd]
    exact ⟨hw.id d, hw.secret d, hw.standsAt d⟩

theorem Wired.listen (hw : h.Wired N) : (h.listen N).Wired N := by
  refine .of_forall fun d => ?_
  by_cases hd : d = h.state.clientNonce
  · have hnew : (h.listen N).conns d = .new N.secret d := by
      subst hd
      exact Function.update_self ..
    rw [hnew]
    exact ⟨rfl, rfl, [], rfl⟩
  · have hold : (h.listen N).conns d = h.conns d := Function.update_of_ne hd ..
    rw [hold]
    exact ⟨hw.id d, hw.secret d, hw.standsAt d⟩

theorem Wired.onState (hw : h.Wired N) (f : State → State) : (h.onState f).Wired N :=
  ⟨hw.id, hw.secret, hw.standsAt⟩

theorem isCall_of_mem {bson : Bson} {called : List (UInt32 × List UInt8)} {es : List Event}
    (hcalls : List.Forall₂ (Transport.IsCall bson c) called es) :
    ∀ e ∈ es, ∃ tid msg found, e = .message c tid msg found := by
  induction hcalls with
  | nil => exact fun e he => nomatch he
  | @cons call e _ _ hcall _ ih =>
    obtain ⟨found, rfl⟩ := hcall
    exact List.forall_mem_cons.2 ⟨⟨call.1, bson.read call.2, found, rfl⟩, ih⟩

/-- A chunk of a client is a run of messages of that client. -/
theorem data_run (hw : h.Wired N) (hc : c ∈ h.state.clients) (bytes : List UInt8) :
    ∃ es, (eventLoop N.env).Run h.state es ∧
      (eventLoop N.env).exec h.state es = (h.data N c bytes).state ∧
      ∀ e ∈ es, ∃ tid msg found, e = .message c tid msg found := by
  have hid := hw.id c
  obtain ⟨left, hleft⟩ := hw.standsAt c
  obtain ⟨-, hsettled⟩ := data_frames (N := N) hleft bytes
  obtain ⟨called, es, -, hrun, hexec, hcalls⟩ := Transport.foldl_handleFrame_run N.serves
    (frames (left ++ bytes)) (c := Transport.settled (h.connection c)) (hid.symm ▸ hc)
  have hid' : (Transport.settled (h.connection c)).client.id = c := hid
  rw [hid'] at hcalls
  exact ⟨es, hrun, hexec.trans (congrArg Connection.state hsettled).symm, isCall_of_mem hcalls⟩

/-- A chunk of a client that is not authenticated after it: its frames are answered by `handleAuth`,
and the state stays. -/
theorem data_of_not_authed (hleft : Transport.StandsAt (h.conns c) left)
    (hsecret : (h.conns c).secret = N.secret) {bytes : List UInt8}
    (hauthed : ((h.data N c bytes).conns c).authed = false) :
    (h.conns c).authed = false ∧ (h.data N c bytes).state = h.state ∧
      ((h.data N c bytes).conns c).written =
        (h.conns c).written ++ (frames (left ++ bytes)).map (authReply N) := by
  obtain ⟨-, hsettled⟩ := data_frames (N := N) hleft bytes
  have hauth : ((frames (left ++ bytes)).foldl N.transport.handleFrame
      (Transport.settled (h.connection c))).client.authed = false :=
    (congrArg (fun c : Connection State => c.client.authed) hsettled).symm.trans hauthed
  obtain ⟨hwritten, hstate⟩ := foldl_handleFrame_written (N := N) (frames (left ++ bytes))
    (c := Transport.settled (h.connection c)) hsecret hauth
  refine ⟨?_, ?_, ?_⟩
  · by_contra hne
    have hkeep := (N.transport.foldl_handleFrame_client (frames (left ++ bytes))
      (Transport.settled (h.connection c))).2.2.2
      (.inl (show (h.conns c).authed = true by simpa using hne))
    rw [hauth] at hkeep
    cases hkeep
  · exact (congrArg Connection.state hsettled).trans hstate
  · exact (congrArg (fun c : Connection State => c.client.written) hsettled).trans hwritten

/-! ### What the queue writes -/

theorem foldl_modify (f : UvClient → UvClient) (cs : List ClientId) (h : Hub) (hn : cs.Nodup) :
    (cs.foldl (fun h c => h.modify c f) h).state = h.state ∧
      ∀ d, (cs.foldl (fun h c => h.modify c f) h).conns d =
        if d ∈ cs then f (h.conns d) else h.conns d := by
  induction cs generalizing h with
  | nil => exact ⟨rfl, fun d => by simp⟩
  | cons c cs ih =>
    obtain ⟨hc, hcs⟩ := List.nodup_cons.1 hn
    obtain ⟨ih₁, ih₂⟩ := ih (h.modify c f) hcs
    refine ⟨ih₁, fun d => ?_⟩
    rw [List.foldl_cons, ih₂]
    by_cases hd : d = c
    · subst hd
      simp [Hub.modify, hc]
    · simp [Hub.modify, hd]

theorem publish_spec (msg : List UInt8) (hn : h.state.clients.Nodup) :
    (h.publish N msg).state = h.state ∧
      ∀ d, (h.publish N msg).conns d = if d ∈ h.state.clients then
        (h.conns d).writeMessage N.transport.byteOrder publishTid msg else h.conns d :=
  foldl_modify _ _ h hn

theorem send_spec (msg : List UInt8) (tid : UInt32) (c : ClientId) :
    (h.send N msg tid c).state = h.state ∧
      ∀ d, (h.send N msg tid c).conns d = if d = c ∧ d ∈ h.state.clients then
        (h.conns d).writeMessage N.transport.byteOrder tid msg else h.conns d := by
  unfold send
  cases hfind : h.state.clients.find? (· = c) with
  | none =>
    refine ⟨rfl, fun d => (if_neg ?_).symm⟩
    rintro ⟨rfl, hd⟩
    exact absurd (List.find?_eq_none.1 hfind d hd) (by simp)
  | some b =>
    obtain rfl : b = c := by simpa using List.find?_some hfind
    have hb := List.mem_of_find?_eq_some hfind
    refine ⟨rfl, fun d => ?_⟩
    by_cases hd : d = b
    · subst hd
      simp [Hub.modify, hb]
    · simp [Hub.modify, hd]

theorem listen_conns_of_fresh (hc : h.conns h.state.clientNonce =
    .new N.secret h.state.clientNonce) : (h.listen N).conns = h.conns := by
  unfold listen
  dsimp only
  rw [← hc]
  exact Function.update_eq_self ..

end Hub

end Draconity
