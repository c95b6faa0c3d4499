import Draconity.Lib.Bystander
import Draconity.Delivery

/-!
What a connection that never authenticates does to the pauses.

`handle_pause` waits for every client on the list of connections, and a client is on the list as
soon as it connects.  To leave a connection out of a run, the connections are called by their peers
here: the id of a client depends on the connections before it.  What the queue writes to the
connections is left out, since no handler reads it.
-/

namespace Draconity

open Lib

/-! ### Which messages unpause -/

/-- The message is an `unpause` with the token that is outstanding. -/
def Unpauses (msg : Option Elements) (raised : Option UInt64) : Prop :=
  ∃ root, msg = some root ∧ (Fields.ofRoot root).cmd = some (.lit "unpause") ∧
    (Fields.ofRoot root).token ≠ 0 ∧ raised = some (Fields.ofRoot root).token

theorem dispatch_unpause {E : Env} {c : ClientId} {tid : UInt32} {f : Fields} {found : Found}
    {s : State} (hcmd : f.cmd = some (.lit "unpause")) :
    dispatch E c tid f found s = unpause E c f s := by
  unfold dispatch
  rw [hcmd]
  exact if_neg (by decide)

/-- A message settles its client in the barrier if it unpauses, and else leaves the barrier alone. -/
theorem handleMessage_unpauses (E : Env) (c : ClientId) (tid : UInt32) (msg : Option Elements)
    (found : Found) (s : State) :
    (Unpauses msg s.barrier.raised → (handleMessage E c tid msg found s).2.barrier =
      s.barrier.strike c) ∧
    (¬ Unpauses msg s.barrier.raised → (handleMessage E c tid msg found s).2.barrier =
      s.barrier) := by
  rcases handleMessage_barrier E c tid msg found s with ⟨t, hun, h0, htoken, hbar⟩ | ⟨hno, hbar⟩
  · refine ⟨fun _ => hbar, fun hnot => absurd ?_ hnot⟩
    cases msg with
    | none => cases hun
    | some root =>
      unfold Event.unpauses at hun
      dsimp only at hun
      split_ifs at hun with hif
      obtain rfl := Option.some.inj hun
      exact ⟨root, rfl, hif.1, h0, (barrier_raised_eq h0).2 htoken⟩
  · refine ⟨?_, fun _ => hbar⟩
    rintro ⟨root, rfl, hcmd, h0, hraised⟩
    have htoken := (barrier_raised_eq h0).1 hraised
    have hreply : (handleMessage E c tid (some root) found s).1 = some .success := by
      show (dispatch E c tid (.ofRoot root) found s).1.toReply = _
      rw [dispatch_unpause hcmd]
      unfold unpause
      rw [if_neg (by simp [h0, htoken])]
      rfl
    unfold Event.unpauses at hno
    dsimp only at hno
    rw [if_pos ⟨hcmd, hreply⟩] at hno
    cases hno

/-! ### The connections by their peers -/

/-- The server, and the id of the client of each peer that has connected. -/
structure Peers (κ : Type) where
  hub : Hub
  ids : κ → Option ClientId

namespace Peers

variable {κ : Type}

/-- What the thread of the event loop handles, as in `Draconity.Event`.  A connection brings chunks
of bytes. -/
inductive Event (κ : Type)
  | connect (peer : κ)
  | close (peer : κ) (stack : CString → UInt32)
  | data (peer : κ) (bytes : List UInt8)
  | paused (token : UInt64)
  | timer
  | ready
  | mimicDone (stale : Option (ClientId × UInt32))

def Event.peer : Event κ → Option κ
  | .connect j | .close j _ | .data j _ => some j
  | .paused _ | .timer | .ready | .mimicDone _ => none

def Event.isPause : Event κ → Prop
  | .paused _ => True
  | .connect _ | .close _ _ | .data _ _ | .timer | .ready | .mimicDone _ => False

instance : DecidablePred fun e : Event κ => e.isPause
  | .paused _ => .isTrue trivial
  | .connect _ | .close _ _ | .data _ _ | .timer | .ready | .mimicDone _ => .isFalse id

def Present (k : κ) (s : Peers κ) : Prop := ∃ c ∈ s.ids k, c ∈ s.hub.state.clients

def Awaited (k : κ) (s : Peers κ) : Prop := ∃ c ∈ s.ids k, c ∈ s.hub.state.pauseClients

def Authed (k : κ) (s : Peers κ) : Prop := ∃ c ∈ s.ids k, (s.hub.conns c).authed = true

instance (k : κ) (s : Peers κ) : Decidable (Present k s) :=
  inferInstanceAs (Decidable (∃ c ∈ s.ids k, c ∈ s.hub.state.clients))

instance (k : κ) (s : Peers κ) : Decidable (Awaited k s) :=
  inferInstanceAs (Decidable (∃ c ∈ s.ids k, c ∈ s.hub.state.pauseClients))

instance (k : κ) (s : Peers κ) : Decidable (Authed k s) :=
  inferInstanceAs (Decidable (∃ c ∈ s.ids k, (s.hub.conns c).authed = true))

def onClient (j : κ) (f : ClientId → Hub → Hub) (s : Peers κ) : Peers κ :=
  match s.ids j with
  | some c => { s with hub := f c s.hub }
  | none => s

section Machine

variable [DecidableEq κ]

def step (N : Net) (s : Peers κ) : Event κ → Peers κ
  | .connect j =>
    { hub := s.hub.listen N, ids := Function.update s.ids j (some s.hub.state.clientNonce) }
  | .close j stack => s.onClient j fun c => Hub.close N c stack
  | .data j bytes => s.onClient j fun c => Hub.data N c bytes
  | .paused token => { s with hub := s.hub.onState (handlePause N.env token) }
  | .timer => { s with hub := s.hub.onState (handleTimer N.env) }
  | .ready => { s with hub := s.hub.onState (draconityReady N.env) }
  | .mimicDone stale => { s with hub := s.hub.onState (draconityMimicDone stale) }

/-- When an event can occur, as in `Draconity.Enabled`.  A peer connects once. -/
def Enabled (s : Peers κ) : Event κ → Prop
  | .connect j => s.ids j = none ∧ s.hub.state.clientNonce + 1 < 2 ^ 63
  | .close j _ | .data j _ => s.Present j
  | .paused token => token ≠ 0
  | .timer => s.hub.state.pauseTimer = true
  | .ready | .mimicDone _ => True

instance (s : Peers κ) : DecidablePred (Enabled s)
  | .connect _ => inferInstanceAs (Decidable (_ ∧ _ < _))
  | .close j _ | .data j _ => inferInstanceAs (Decidable (s.Present j))
  | .paused token => inferInstanceAs (Decidable (token ≠ 0))
  | .timer => inferInstanceAs (Decidable (s.hub.state.pauseTimer = true))
  | .ready | .mimicDone _ => .isTrue trivial

def machine (N : Net) (κ : Type) [DecidableEq κ] : Machine (Peers κ) (Event κ) where
  start := ⟨Hub.init N, fun _ => none⟩
  enabled := Enabled
  step := step N

instance (N : Net) (s : Peers κ) : DecidablePred ((machine N κ).enabled s) :=
  inferInstanceAs (DecidablePred (Enabled s))

/-- The tokens `_DSXEngine_Resume` is called with at an event that is not one of the peer's. -/
def resumed (N : Net) (k : κ) (s : Peers κ) (e : Event κ) : List (List UInt64) :=
  if e.peer = some k then []
  else [(resumes (step N s e).hub.state).drop (resumes s.hub.state).length]

end Machine

/-! ### Frames of one client in two runs -/

variable {N : Net} {k j : κ} {ids ids' : κ → Option ClientId}

/-- A connection of one peer in two runs, of which the second leaves out the peer `k`: the clients
are authenticated or not together. -/
structure Abreast (k j : κ) (ids ids' : κ → Option ClientId) (x x' : Connection State) : Prop where
  ne : j ≠ k
  authed : x'.client.authed = x.client.authed
  secret : x'.client.secret = x.client.secret
  left : ids j = some x.client.id
  right : ids' j = some x'.client.id
  mem : x.client.id ∈ x.state.clients
  bystander : Barrier.Bystander k ids ids' x.state.barrier x'.state.barrier

/-- A message for `handle_message`, in both runs. -/
theorem handleMessage_bystander {s s' : State} {c c' : ClientId} (hj : j ≠ k) (hc : ids j = some c)
    (hc' : ids' j = some c') (hmem : c ∈ s.clients)
    (h : Barrier.Bystander k ids ids' s.barrier s'.barrier) (E : Env) (tid tid' : UInt32)
    (msg : Option Elements) (found found' : Found) :
    Barrier.Bystander k ids ids' (handleMessage E c tid msg found s).2.barrier
      (handleMessage E c' tid' msg found' s').2.barrier := by
  obtain ⟨hpos, hneg⟩ := handleMessage_unpauses E c tid msg found s
  obtain ⟨hpos', hneg'⟩ := handleMessage_unpauses E c' tid' msg found' s'
  rw [h.raised] at hpos' hneg'
  by_cases hun : Unpauses msg s.barrier.raised
  · rw [hpos hun, hpos' hun]
    obtain ⟨root, -, -, -, hraised⟩ := hun
    exact h.answer hj hc hc' ⟨hmem, hraised ▸ rfl⟩
  · rw [hneg hun, hneg' hun]
    exact h

theorem Abreast.handleFrame {x x' : Connection State} (h : Abreast k j ids ids' x x')
    (f : Frame UInt8 MessageHeader) :
    Abreast k j ids ids' (N.transport.handleFrame x f) (N.transport.handleFrame x' f) := by
  obtain ⟨hsecret, hid, hauthed⟩ := N.transport.handleFrame_client x f
  obtain ⟨hsecret', hid', hauthed'⟩ := N.transport.handleFrame_client x' f
  rw [h.authed, h.secret] at hauthed'
  have hstate : x.client.id ∈ (N.transport.handleFrame x f).state.clients ∧
      Barrier.Bystander k ids ids' (N.transport.handleFrame x f).state.barrier
        (N.transport.handleFrame x' f).state.barrier := by
    -- neither is authenticated, or both call `handle_message` with the same body
    cases hauth : x.client.authed with
    | false =>
      obtain ⟨-, hs, -⟩ := N.transport.handleFrame_of_not_authed hauth f
      obtain ⟨-, hs', -⟩ := N.transport.handleFrame_of_not_authed (h.authed.trans hauth) f
      rw [hs, hs']
      exact ⟨h.mem, h.bystander⟩
    | true =>
      obtain ⟨-, hs⟩ := N.transport.handleFrame_of_authed hauth f
      obtain ⟨-, hs'⟩ := N.transport.handleFrame_of_authed (h.authed.trans hauth) f
      obtain ⟨found, hcall⟩ := N.serves x.client.id f.header.tid f.body x.state
      obtain ⟨found', hcall'⟩ := N.serves x'.client.id f.header.tid f.body x'.state
      rw [hs, hs', hcall, hcall']
      refine ⟨?_, handleMessage_bystander h.ne h.left h.right h.mem h.bystander N.env _ _ _ _ _⟩
      exact (Transport.message_clients N.env x.client.id f.header.tid _ found x.state).symm ▸ h.mem
  constructor
  · exact h.ne
  · exact Bool.eq_iff_iff.2 (hauthed'.trans hauthed.symm)
  · rw [hsecret, hsecret', h.secret]
  · rw [hid]
    exact h.left
  · rw [hid']
    exact h.right
  · rw [hid]
    exact hstate.1
  · exact hstate.2

theorem Abreast.frames {x x' : Connection State} (h : Abreast k j ids ids' x x')
    (fs : List (Frame UInt8 MessageHeader)) :
    Abreast k j ids ids' (fs.foldl N.transport.handleFrame x)
      (fs.foldl N.transport.handleFrame x') := by
  induction fs generalizing x x' with
  | nil => exact h
  | cons f fs ih => exact ih (h.handleFrame f)

/-! ### Events of two runs -/

section Steps

variable {s s' : Peers κ} {e : Event κ} {c : ClientId}

/-- The clients stand in their streams, and the state is one the event loop reaches. -/
structure Regular (N : Net) (s : Peers κ) : Prop where
  wired : s.hub.Wired N
  state : (eventLoop N.env).Reachable s.hub.state

/-- A client in two runs: it is authenticated or not in both, and stands at the same point of its
stream. -/
structure Alike (c c' : UvClient) : Prop where
  authed : c'.authed = c.authed
  standsAt : ∃ bytes, Transport.StandsAt c bytes ∧ Transport.StandsAt c' bytes

/-- Two runs, of which the second leaves out the connection of the peer `k`: the barriers agree but
for the client of `k`, and so do the clients. -/
structure Apart (N : Net) (k : κ) (s s' : Peers κ) : Prop where
  left : Regular N s
  right : Regular N s'
  bystander : Barrier.Bystander k s.ids s'.ids s.hub.state.barrier s'.hub.state.barrier
  alike : ∀ {j c c'}, j ≠ k → s.ids j = some c → s'.ids j = some c' →
    Alike (s.hub.conns c) (s'.hub.conns c')

theorem onClient_of_some (hc : s.ids j = some c) (f : ClientId → Hub → Hub) :
    s.onClient j f = { s with hub := f c s.hub } := by
  unfold onClient
  rw [hc]

theorem Apart.onState (h : Apart N k s s') {f f' : State → State}
    (hleft : Regular N { s with hub := s.hub.onState f })
    (hright : Regular N { s' with hub := s'.hub.onState f' })
    (hb : Barrier.Bystander k s.ids s'.ids (f s.hub.state).barrier (f' s'.hub.state).barrier) :
    Apart N k { s with hub := s.hub.onState f } { s' with hub := s'.hub.onState f' } :=
  ⟨hleft, hright, hb, h.alike⟩

theorem Apart.data (h : Apart N k s s') (hj : j ≠ k) {c' : ClientId} (hc : s.ids j = some c)
    (hc' : s'.ids j = some c') (hmem : c ∈ s.hub.state.clients) (bytes : List UInt8)
    (hleft : Regular N { s with hub := s.hub.data N c bytes })
    (hright : Regular N { s' with hub := s'.hub.data N c' bytes }) :
    Apart N k { s with hub := s.hub.data N c bytes } { s' with hub := s'.hub.data N c' bytes } := by
  obtain ⟨left, hstand, hstand'⟩ := (h.alike hj hc hc').standsAt
  obtain ⟨hafter, hsettled⟩ := Hub.data_frames (N := N) hstand bytes
  obtain ⟨hafter', hsettled'⟩ := Hub.data_frames (N := N) hstand' bytes
  have hstart : Abreast k j s.ids s'.ids (Transport.settled (s.hub.connection c))
      (Transport.settled (s'.hub.connection c')) := by
    constructor
    · exact hj
    · exact (h.alike hj hc hc').authed
    · exact (h.right.wired.secret c').trans (h.left.wired.secret c).symm
    · exact hc.trans (congrArg some (h.left.wired.id c).symm)
    · exact hc'.trans (congrArg some (h.right.wired.id c').symm)
    · show (s.hub.conns c).id ∈ s.hub.state.clients
      rw [h.left.wired.id c]
      exact hmem
    · exact h.bystander
  -- both connections stand at the same bytes, so they handle the same frames
  have hend := hstart.frames (N := N) (frames (left ++ bytes))
  have hb : Barrier.Bystander k s.ids s'.ids (s.hub.data N c bytes).state.barrier
      (s'.hub.data N c' bytes).state.barrier := by
    have hstate := congrArg (fun x : Connection State => x.state.barrier) hsettled
    have hstate' := congrArg (fun x : Connection State => x.state.barrier) hsettled'
    show Barrier.Bystander k s.ids s'.ids
      (Transport.settled ((s.hub.data N c bytes).connection c)).state.barrier
      (Transport.settled ((s'.hub.data N c' bytes).connection c')).state.barrier
    dsimp only at hstate hstate'
    rw [hstate, hstate']
    exact hend.bystander
  have hauthed : ((s'.hub.data N c' bytes).conns c').authed =
      ((s.hub.data N c bytes).conns c).authed := by
    have hclient := congrArg (fun x : Connection State => x.client.authed) hsettled
    have hclient' := congrArg (fun x : Connection State => x.client.authed) hsettled'
    exact hclient'.trans (hend.authed.trans hclient.symm)
  refine ⟨hleft, hright, hb, fun {i d d'} hi hd hd' => ?_⟩
  by_cases hdc : d = c
  · subst hdc
    obtain rfl := (h.bystander.same_iff hc hc' hd hd').2 rfl
    exact ⟨hauthed, _, hafter, hafter'⟩
  · have hdc' : d' ≠ c' := fun heq => hdc ((h.bystander.same_iff hc hc' hd hd').1 heq)
    show Alike ((s.hub.data N c bytes).conns d) ((s'.hub.data N c' bytes).conns d')
    rw [Hub.data_conns_of_ne hdc, Hub.data_conns_of_ne hdc']
    exact h.alike hi hd hd'

theorem Apart.present (h : Apart N k s s') (hj : j ≠ k) (hp : Present j s) :
    ∃ c c', s.ids j = some c ∧ s'.ids j = some c' ∧ c ∈ s.hub.state.clients ∧ Present j s' := by
  obtain ⟨c, hc, hmem⟩ := hp
  obtain ⟨c', hc'⟩ := h.bystander.other_some hj hc
  exact ⟨c, c', hc, hc', hmem, c', hc', (h.bystander.members hj hc hc').2 hmem⟩

variable [DecidableEq κ]

theorem step_close (hc : s.ids j = some c) (stack : CString → UInt32) :
    Peers.step N s (.close j stack) = { s with hub := s.hub.close N c stack } :=
  onClient_of_some hc _

theorem step_data (hc : s.ids j = some c) (bytes : List UInt8) :
    Peers.step N s (.data j bytes) = { s with hub := s.hub.data N c bytes } :=
  onClient_of_some hc _

theorem Regular.step (h : Regular N s) (he : s.Enabled e) : Regular N (step N s e) := by
  have one : ∀ ev : Draconity.Event, Draconity.Enabled s.hub.state ev →
      (eventLoop N.env).Reachable (Draconity.step N.env s.hub.state ev) :=
    fun ev hev => h.state.step hev
  cases e with
  | connect j => exact ⟨h.wired.listen, one .connect he.2⟩
  | close j stack =>
    obtain ⟨c, hc, hmem⟩ := he
    rw [step_close hc]
    exact ⟨h.wired.onState _, one (.close c stack) hmem⟩
  | data j bytes =>
    obtain ⟨c, hc, hmem⟩ := he
    obtain ⟨evs, hrun, hexec, -⟩ := Hub.data_run h.wired hmem bytes
    rw [step_data hc]
    exact ⟨h.wired.data c bytes, hexec ▸ h.state.exec hrun⟩
  | paused token => exact ⟨h.wired.onState _, one (.paused token) he⟩
  | timer => exact ⟨h.wired.onState _, one .timer he⟩
  | ready => exact ⟨h.wired.onState _, one .ready trivial⟩
  | mimicDone stale => exact ⟨h.wired.onState _, one (.mimicDone stale) trivial⟩

theorem regular_start (N : Net) : Regular N (machine N κ).start := by
  refine ⟨?_, [], trivial, rfl⟩
  exact Hub.wired_init N

theorem apart_start (N : Net) (k : κ) : Apart N k (machine N κ).start (machine N κ).start := by
  constructor
  · exact regular_start N
  · exact regular_start N
  · have hnamed : Barrier.Named (fun _ : κ => none) (Hub.init N).state.barrier :=
      ⟨Barrier.consistent_init, nofun, nofun, nofun⟩
    exact ⟨hnamed, hnamed, rfl, rfl, fun _ _ => Iff.rfl, nofun, nofun, rfl, le_rfl, nofun⟩
  · exact nofun

theorem Apart.connect (h : Apart N k s s') (hj : j ≠ k) (hn : s.ids j = none)
    (hleft : Regular N (Peers.step N s (.connect j)))
    (hright : Regular N (Peers.step N s' (.connect j))) :
    Apart N k (Peers.step N s (.connect j)) (Peers.step N s' (.connect j)) := by
  refine ⟨hleft, hright, h.bystander.join hj hn, fun {i d d'} hi hd hd' => ?_⟩
  have hnew : ∀ h : Hub, (h.listen N).conns h.state.clientNonce =
      .new N.secret h.state.clientNonce := fun _ => Function.update_self ..
  have hold : ∀ {h : Hub} {d : ClientId}, d < h.state.clientNonce →
      (h.listen N).conns d = h.conns d := fun hlt => Function.update_of_ne (ne_of_lt hlt) ..
  show Alike ((s.hub.listen N).conns d) ((s'.hub.listen N).conns d')
  replace hd : Function.update s.ids j (some s.hub.state.clientNonce) i = some d := hd
  replace hd' : Function.update s'.ids j (some s'.hub.state.clientNonce) i = some d' := hd'
  by_cases hij : i = j
  · subst hij
    rw [Function.update_self] at hd hd'
    obtain rfl := Option.some.inj hd
    obtain rfl := Option.some.inj hd'
    rw [hnew, hnew]
    exact ⟨rfl, [], rfl, rfl⟩
  · rw [Function.update_of_ne hij] at hd hd'
    rw [hold (h.bystander.left.below hd), hold (h.bystander.right.below hd')]
    exact h.alike hi hd hd'

/-- **An event of another peer, or of none**, can occur in the second run too. -/
theorem Apart.keeps (h : Apart N k s s') (he : s.Enabled e) (hout : e.isPause → ¬ Present k s)
    (hk : e.peer ≠ some k) :
    s'.Enabled e ∧ Apart N k (Peers.step N s e) (Peers.step N s' e) := by
  have hsim := barrier_simulates N.env
  have other : ∀ {j}, e.peer = some j → j ≠ k := by
    rintro j hj rfl
    exact hk hj
  cases e with
  | connect j =>
    have hj : j ≠ k := other rfl
    have hn' : s'.ids j = none := by
      rw [← Option.not_isSome_iff_eq_none, h.bystander.joined j hj,
        Option.not_isSome_iff_eq_none]
      exact he.1
    -- the second run has given out no more ids than the first
    have he' : s'.Enabled (.connect j) :=
      ⟨hn', lt_of_le_of_lt (Nat.succ_le_succ h.bystander.next_le) he.2⟩
    exact ⟨he', h.connect hj he.1 (h.left.step he) (h.right.step he')⟩
  | close j stack =>
    have hj : j ≠ k := other rfl
    obtain ⟨c, c', hc, hc', hmem, hpresent⟩ := h.present hj he
    have he' : s'.Enabled (.close j stack) := hpresent
    refine ⟨he', ?_⟩
    have hleft := h.left.step he
    have hright := h.right.step he'
    rw [step_close hc] at hleft ⊢
    rw [step_close hc'] at hright ⊢
    refine h.onState hleft hright ?_
    rw [handleClose_barrier, handleClose_barrier]
    exact h.bystander.leave hj hc hc' hmem
  | data j bytes =>
    have hj : j ≠ k := other rfl
    obtain ⟨c, c', hc, hc', hmem, hpresent⟩ := h.present hj he
    have he' : s'.Enabled (.data j bytes) := hpresent
    refine ⟨he', ?_⟩
    have hleft := h.left.step he
    have hright := h.right.step he'
    rw [step_data hc] at hleft ⊢
    rw [step_data hc'] at hright ⊢
    exact h.data hj hc hc' hmem bytes hleft hright
  | paused token =>
    have hright := h.right.step (e := .paused token) he
    refine ⟨he, h.onState (h.left.step he) hright ?_⟩
    rw [handlePause_barrier N.env he, handlePause_barrier N.env he]
    exact h.bystander.raise token fun c hc hmem => hout trivial ⟨c, hc, hmem⟩
  | timer =>
    have harmed : s'.hub.state.pauseTimer = true := h.bystander.armed_iff.2 he
    have hright := h.right.step (e := .timer) harmed
    refine ⟨harmed, h.onState (h.left.step he) hright ?_⟩
    have hb := hsim.step s.hub.state .timer he
    have hb' := hsim.step s'.hub.state .timer harmed
    exact hb.symm ▸ hb'.symm ▸ h.bystander.expire he
  | ready =>
    have hright := h.right.step (e := .ready) trivial
    refine ⟨trivial, h.onState (h.left.step he) hright ?_⟩
    rw [(draconityReady_same _).2.barrier, (draconityReady_same _).2.barrier]
    exact h.bystander
  | mimicDone stale =>
    have hright := h.right.step (e := .mimicDone stale) trivial
    refine ⟨trivial, h.onState (h.left.step he) hright ?_⟩
    rw [(draconityMimicDone_samePause ..).barrier, (draconityMimicDone_samePause ..).barrier]
    exact h.bystander

/-- **An event of the connection that is left out.** -/
theorem Apart.skips (h : Apart N k s s') (he : s.Enabled e) (hk : e.peer = some k)
    (hauth : ¬ Authed k (Peers.step N s e)) : Apart N k (Peers.step N s e) s' := by
  have hleft := h.left.step he
  cases e with
  | connect j =>
    obtain rfl := Option.some.inj hk
    refine ⟨hleft, h.right, h.bystander.join_bystander he.1, fun {i d d'} hi hd hd' => ?_⟩
    replace hd : Function.update s.ids j (some s.hub.state.clientNonce) i = some d := hd
    rw [Function.update_of_ne hi] at hd
    have hold : (s.hub.listen N).conns d = s.hub.conns d :=
      Function.update_of_ne (ne_of_lt (h.bystander.left.below hd)) ..
    show Alike ((s.hub.listen N).conns d) (s'.hub.conns d')
    rw [hold]
    exact h.alike hi hd hd'
  | close j stack =>
    obtain rfl := Option.some.inj hk
    obtain ⟨c, hc, hmem⟩ := he
    rw [step_close hc] at hleft ⊢
    refine ⟨hleft, h.right, ?_, h.alike⟩
    show Barrier.Bystander j s.ids s'.ids (handleClose N.env c stack s.hub.state).barrier _
    rw [handleClose_barrier]
    exact h.bystander.leave_bystander hc hmem
  | data j bytes =>
    obtain rfl := Option.some.inj hk
    obtain ⟨c, hc, hmem⟩ := he
    rw [step_data hc] at hleft hauth ⊢
    obtain ⟨left, hstand⟩ := h.left.wired.standsAt c
    -- it does not authenticate in this step, so no command of it is handled
    have hflag : ((s.hub.data N c bytes).conns c).authed = false := by
      by_contra hne
      exact hauth ⟨c, hc, by simpa using hne⟩
    obtain ⟨-, hstate, -⟩ := Hub.data_of_not_authed hstand (h.left.wired.secret c) hflag
    refine ⟨hleft, h.right, ?_, fun {i d d'} hi hd hd' => ?_⟩
    · show Barrier.Bystander j s.ids s'.ids (s.hub.data N c bytes).state.barrier _
      rw [hstate]
      exact h.bystander
    · have hdc : d ≠ c := by
        rintro rfl
        exact hi (h.bystander.left.distinct hd hc)
      show Alike ((s.hub.data N c bytes).conns d) (s'.hub.conns d')
      rw [Hub.data_conns_of_ne hdc]
      exact h.alike hi hd hd'
  | paused | timer | ready | mimicDone => cases hk

/-- `handle_pause` waits for the client of a peer just when that is on the list. -/
theorem Regular.awaited_iff (h : Regular N s) (he : s.Enabled e) (hpause : e.isPause) :
    Awaited k (Peers.step N s e) ↔ Present k s := by
  have hcons := Barrier.consistent_of_reachable ((barrier_simulates N.env).reachable h.state)
  cases e with
  | paused token =>
    have hbar := congrArg Barrier.awaited (handlePause_barrier N.env he s.hub.state)
    refine exists_congr fun c => and_congr_right fun _ => ?_
    show c ∈ (handlePause N.env token s.hub.state).barrier.awaited ↔ c ∈ s.hub.state.barrier.members
    rw [hbar, Barrier.mem_awaited_raise hcons]
  | connect | close | data | timer | ready | mimicDone => cases hpause

/-! ### Leaving a connection out -/

/-- The events that are not those of the peer's connection. -/
def without (k : κ) (es : List (Event κ)) : List (Event κ) := es.filter (¬ ·.peer = some k)

/-- A pause is handled while the client of the peer is on the list of connections. -/
def PausedWith (k : κ) (s : Peers κ) (e : Event κ) : Prop := e.isPause ∧ Present k s

/-- After `handle_pause` the client of the peer is awaited. -/
def PauseAwaits (N : Net) (k : κ) (s : Peers κ) (e : Event κ) : Prop :=
  e.isPause ∧ Awaited k (Peers.step N s e)

/-- After the event the client of the peer is authenticated. -/
def Authenticates (N : Net) (k : κ) (s : Peers κ) (e : Event κ) : Prop :=
  Authed k (Peers.step N s e)

instance (k : κ) (s : Peers κ) (e : Event κ) : Decidable (PausedWith k s e) :=
  inferInstanceAs (Decidable (_ ∧ _))

instance (N : Net) (k : κ) (s : Peers κ) (e : Event κ) : Decidable (Authenticates N k s e) :=
  inferInstanceAs (Decidable (Authed k _))

variable {es : List (Event κ)}

/-- A run in which no pause is handled while the connection is on the list, without it. -/
theorem run_without (hr : (machine N κ).Run (machine N κ).start es)
    (hnever : ¬ (machine N κ).Occurs (Authenticates N k) (machine N κ).start es)
    (hout : ¬ (machine N κ).Occurs (PausedWith k) (machine N κ).start es) :
    (machine N κ).Run (machine N κ).start (without k es) ∧
      (machine N κ).history (resumed N k) (machine N κ).start (without k es) =
        (machine N κ).history (resumed N k) (machine N κ).start es := by
  have hneither : ¬ (machine N κ).Occurs (fun s e => PausedWith k s e ∨ Authenticates N k s e)
      (machine N κ).start es := by
    rw [Machine.occurs_or]
    exact not_or.2 ⟨hout, hnever⟩
  refine Machine.Run.without (R := Apart N k) ?_ ?_ hr hneither (apart_start N k)
  · intro s s' e h he hQ hk
    exact ⟨h.skips he hk (not_or.1 hQ).2, if_pos hk⟩
  · intro s s' e h he hQ hk
    obtain ⟨he', hstep⟩ := h.keeps he (fun hpause hpres => (not_or.1 hQ).1 ⟨hpause, hpres⟩) hk
    refine ⟨he', hstep, ?_⟩
    have hbefore : resumes s'.hub.state = resumes s.hub.state := h.bystander.released
    have hafter : resumes (Peers.step N s' e).hub.state = resumes (Peers.step N s e).hub.state :=
      hstep.bystander.released
    unfold resumed
    rw [if_neg hk, if_neg hk, hbefore, hafter]

/-- **What an unauthenticated connection delays.**  For every run and every connection that never
authenticates: without the events of the connection the rest is a run in which
`_DSXEngine_Resume` is called with the same tokens at the same steps, and no `handle_pause` waits for
the connection, if and only if no pause is handled while the connection is on the list. -/
theorem resumed_without_iff (N : Net) (k : κ)
    (hr : (machine N κ).Run (machine N κ).start es)
    (hnever : ¬ (machine N κ).Occurs (Authenticates N k) (machine N κ).start es) :
    ((machine N κ).Run (machine N κ).start (without k es) ∧
      (machine N κ).history (resumed N k) (machine N κ).start (without k es) =
        (machine N κ).history (resumed N k) (machine N κ).start es ∧
      ¬ (machine N κ).Occurs (PauseAwaits N k) (machine N κ).start es) ↔
    ¬ (machine N κ).Occurs (PausedWith k) (machine N κ).start es := by
  have hawaits : (machine N κ).Occurs (PauseAwaits N k) (machine N κ).start es ↔
      (machine N κ).Occurs (PausedWith k) (machine N κ).start es :=
    hr.occurs_congr (I := Regular N) (fun _ _ h he => h.step he)
      (fun _ _ h he => and_congr_right fun hpause => h.awaited_iff he hpause) (regular_start N)
  rw [hawaits]
  constructor
  · exact fun h => h.2.2
  · intro hout
    obtain ⟨hrun, hhist⟩ := run_without hr hnever hout
    exact ⟨hrun, hhist, hout⟩

end Steps

/-- A peer connects while Dragon waits for another one, and closes again. -/
def passing : List (Event ℕ) :=
  [.connect 0, .paused 7, .connect 1, .close 1 fun _ => 0, .timer]

theorem resumed_without_passing :
    (machine System.numbering ℕ).Run (machine System.numbering ℕ).start (without 1 passing) ∧
      (machine System.numbering ℕ).history (resumed System.numbering 1)
        (machine System.numbering ℕ).start (without 1 passing) = [[], [], [7]] := by
  have hrun : (machine System.numbering ℕ).Run (machine System.numbering ℕ).start passing := by
    decide
  have hall := (resumed_without_iff System.numbering 1 hrun (by decide)).2 (by decide)
  exact ⟨hall.1, hall.2.1.trans (by decide)⟩

/-- A peer connects and keeps silent, and closes after a pause. -/
def silent : List (Event ℕ) := [.connect 0, .paused 7, .close 0 fun _ => 0]

/-- Dragon would be resumed at once if the silent peer had not connected. -/
theorem resumed_without_fails : ¬ ∀ (N : Net) (es : List (Event ℕ)) (k : ℕ),
    (machine N ℕ).Run (machine N ℕ).start es →
    ¬ (machine N ℕ).Occurs (Authenticates N k) (machine N ℕ).start es →
    (machine N ℕ).history (resumed N k) (machine N ℕ).start (without k es) =
      (machine N ℕ).history (resumed N k) (machine N ℕ).start es := by
  intro h
  exact absurd (h System.numbering silent 0 (by decide) (by decide)) (by decide)

end Peers

end Draconity
