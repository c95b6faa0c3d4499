import Draconity.Steady
import Draconity.Issues

/-!
What is written to a client, and in what order.

A client is written the replies to its own frames, and the messages of the queue that are addressed
to it.  Of these, a client that stays connected gets each that was issued once, in the order in which
they were pushed on the queue, and so those of one thread in the order in which it issued them.
-/

namespace Draconity

open Lib

/-- The function writes to the client, if that is on the list. -/
def Job.addressed (c : ClientId) : Job → Bool
  | .publish _ => true
  | .send _ _ d => d = c
  | .pause _ => false

/-- The frame the function writes. -/
def Job.frame (o : ByteOrder) : Job → List UInt8
  | .publish msg => frameBytes o Hub.publishTid msg
  | .send msg tid _ => frameBytes o tid msg
  | .pause _ => []

namespace System

variable {N : Net} {m s : System} {e : Event} {es : List Event} {c : ClientId}

/-- A write to a client. -/
inductive Write
  /-- A reply to a frame of the client. -/
  | reply (bytes : List UInt8)
  /-- A message of the queue, with the thread that issued it. -/
  | queued (t : Thread) (j : Job)

def Write.bytes (o : ByteOrder) : Write → List UInt8
  | .reply bytes => bytes
  | .queued _ j => j.frame o

def Write.entry : Write → Option (Thread × Job)
  | .reply _ => none
  | .queued t j => some (t, j)

def toClient (c : ClientId) (l : List (Thread × Job)) : List (Thread × Job) :=
  l.filter fun p => p.2.addressed c

/-- The writes of an event to a client, in order. -/
def writes (N : Net) (c : ClientId) (s : System) : Event → List Write
  | .data d bytes =>
    if d = c then
      (((s.hub.data N c bytes).conns c).written.drop (s.hub.conns c).written.length).map .reply
    else []
  | .exec =>
    if c ∈ s.hub.state.clients then
      (toClient c s.courier.batch.head?.toList).map fun p => .queued p.1 p.2
    else []
  | _ => []

theorem writes_data (N : Net) (c d : ClientId) (bytes : List UInt8) (s : System) :
    writes N c s (.data d bytes) = if d = c then
      (((s.hub.data N c bytes).conns c).written.drop (s.hub.conns c).written.length).map .reply
    else [] := rfl

theorem writes_exec (N : Net) (c : ClientId) (s : System) :
    writes N c s .exec = if c ∈ s.hub.state.clients then
      (toClient c s.courier.batch.head?.toList).map fun p => .queued p.1 p.2
    else [] := rfl

/-! ### Nothing else is written -/

theorem run_written (h : Steady N s) (p : Thread × Job) (c : ClientId) :
    ((s.run N p.2).hub.conns c).written = (s.hub.conns c).written ++
      if c ∈ s.hub.state.clients then
        (toClient c [p]).map fun p => p.2.frame N.transport.byteOrder
      else [] := by
  obtain ⟨t, msg | ⟨msg, tid, d⟩ | token⟩ := p
  · refine (congrArg UvClient.written
      ((Hub.publish_spec (N := N) msg h.consistent.nodup).2 c)).trans ?_
    split_ifs
    · rfl
    · exact (List.append_nil _).symm
  · refine (congrArg UvClient.written ((Hub.send_spec (N := N) msg tid d).2 c)).trans ?_
    by_cases hc : c ∈ s.hub.state.clients
    · by_cases hd : d = c
      · subst hd
        rw [if_pos ⟨rfl, hc⟩, if_pos hc]
        simp [toClient, Job.addressed, UvClient.writeMessage, Job.frame]
      · rw [if_neg fun h => hd h.1.symm, if_pos hc]
        simp [toClient, Job.addressed, hd]
    · rw [if_neg fun h => hc h.2, if_neg hc, List.append_nil]
  · show (s.hub.conns c).written = _
    split_ifs <;> simp [toClient, Job.addressed]

theorem written_step (h : Steady N s) (he : s.Enabled e) (c : ClientId) :
    ((step N s e).hub.conns c).written =
      (s.hub.conns c).written ++ (writes N c s e).map (Write.bytes N.transport.byteOrder) := by
  have hsame : (step N s e).hub.conns = s.hub.conns →
      ((step N s e).hub.conns c).written = (s.hub.conns c).written ++ [] := by
    intro hconns
    rw [hconns, List.append_nil]
  cases e with
  | connect => exact hsame (Hub.listen_conns_of_fresh (h.fresh _ (Nat.le_refl _)))
  | data d bytes =>
    rw [writes_data]
    split_ifs with hd
    · subst hd
      obtain ⟨new, hnew⟩ := Hub.data_grows h.wired d bytes
      show ((s.hub.data N d bytes).conns d).written = _
      rw [hnew, List.drop_left, List.map_map]
      exact congrArg _ (List.map_id new).symm
    · exact (congrArg UvClient.written (Hub.data_conns_of_ne (Ne.symm hd) bytes)).trans
        (List.append_nil _).symm
  | exec =>
    obtain ⟨p, b, hbatch⟩ := List.exists_cons_of_ne_nil he.2.2
    -- the function is off the batch when it runs
    have hsteady : Steady N { s with courier := s.courier.step .exec } :=
      ⟨h.wired, h.fresh, ⟨h.tokens.todo, h.tokens.queue,
        fun q hq => h.tokens.batch q (List.mem_of_mem_tail hq)⟩, h.state⟩
    have hrun := run_written hsteady p c
    rw [← step_exec hbatch] at hrun
    rw [hrun]
    rw [writes_exec, hbatch]
    split_ifs
    · rw [List.map_map]
      rfl
    · rfl
  | push u =>
    obtain ⟨j, js, htodo⟩ := List.exists_cons_of_ne_nil he.1
    exact hsame (congrArg (fun s => s.hub.conns) (step_push (N := N) htodo))
  | close | timer | ready | mimicDone | paused | publish | phrase | send | wake | take | finish =>
    exact hsame rfl

theorem written_exec (hm : (machine N).Reachable m) (hr : (machine N).Run m es) (c : ClientId) :
    (((machine N).exec m es).hub.conns c).written = (m.hub.conns c).written ++
      ((machine N).history (writes N c) m es).map (Write.bytes N.transport.byteOrder) := by
  induction es generalizing m with
  | nil => exact (List.append_nil _).symm
  | cons e es ih =>
    have hstep := written_step (steady_of_reachable hm) hr.1 c
    have hnext : (machine N).Reachable (step N m e) := hm.step hr.1
    rw [Machine.exec_cons]
    show (((machine N).exec (step N m e) es).hub.conns c).written = _
    rw [ih hnext hr.2, hstep, List.append_assoc, ← List.map_append]
    rfl

/-! ### The order of the writes -/

def pushes (s : System) (e : Event) : List (Thread × Job) := Courier.pushes (e.courier s)

/-- A client that is on the list in the end was on it all the time. -/
theorem connected_of_exec (hm : (machine N).Reachable m) (hr : (machine N).Run m (e :: es))
    (hc : c ∈ m.hub.state.clients)
    (hend : c ∈ ((machine N).exec m (e :: es)).hub.state.clients) :
    c ∈ (step N m e).hub.state.clients := by
  by_contra hgone
  have hsteady := steady_of_reachable hm
  have hlt := hsteady.consistent.below c hc
  have hnext : (machine N).Reachable (step N m e) := hm.step hr.1
  have hkeep := hr.2.keeps
    (I := fun s => (machine N).Reachable s ∧ c < s.hub.state.clientNonce ∧
      c ∉ s.hub.state.clients)
    (fun s e hs he => ⟨hs.1.step he,
      Nat.lt_of_lt_of_le hs.2.1 ((steady_of_reachable hs.1).clientNonce_le he),
      (steady_of_reachable hs.1).gone he hs.2.1 hs.2.2⟩)
    ⟨hnext, Nat.lt_of_lt_of_le hlt (hsteady.clientNonce_le hr.1), hgone⟩
  exact hkeep.2.2 hend

/-- The messages of the queue that are written to a client are those that run and are addressed to
it. -/
theorem writes_entries (hc : c ∈ s.hub.state.clients) (e : Event) :
    (writes N c s e).filterMap Write.entry =
      toClient c (Courier.runs s.courier (e.courier s)) := by
  cases e with
  | data d bytes =>
    rw [writes_data]
    split_ifs
    · rw [List.filterMap_map]
      exact List.filterMap_eq_nil_iff.2 fun _ _ => rfl
    · rfl
  | exec =>
    rw [writes_exec, if_pos hc, List.filterMap_map]
    exact List.filterMap_some
  | push t =>
    unfold Event.courier
    dsimp only
    split <;> rfl
  | connect | close | timer | ready | mimicDone | paused | publish | phrase | send | wake | take
  | finish => rfl

theorem history_entries (hm : (machine N).Reachable m) (hr : (machine N).Run m es)
    (hc : c ∈ m.hub.state.clients) (hend : c ∈ ((machine N).exec m es).hub.state.clients) :
    ((machine N).history (writes N c) m es).filterMap Write.entry =
      toClient c ((machine N).history (fun s e => Courier.runs s.courier (e.courier s)) m es) := by
  induction es generalizing m with
  | nil => rfl
  | cons e es ih =>
    have hnext : (machine N).Reachable (step N m e) := hm.step hr.1
    have hstay := connected_of_exec hm hr hc hend
    show (writes N c m e ++ _).filterMap _ = toClient c (_ ++ _)
    unfold toClient
    rw [List.filterMap_append, List.filter_append, writes_entries hc e]
    exact congrArg _ (ih hnext hr.2 hstay hend)

/-- **The messages of the queue are written to a client that stays connected in the order in which
they were pushed**, each of them once. -/
theorem written_in_order (hm : (machine N).Reachable m) (hr : (machine N).Run m es)
    (hc : c ∈ m.hub.state.clients) (hend : c ∈ ((machine N).exec m es).hub.state.clients) :
    ((machine N).history (writes N c) m es).filterMap Write.entry ++
        toClient c (((machine N).exec m es).courier.batch ++
          ((machine N).exec m es).courier.queue) =
      toClient c (m.courier.batch ++ m.courier.queue ++ (machine N).history pushes m es) := by
  have hsim := courier_simulates N
  obtain ⟨hrun, hexec⟩ := hsim.run hr
  have horder := Courier.runs_eq (hsim.reachable hm) hrun
  rw [hexec, ← hsim.history (f := fun s e => Courier.runs s.courier (e.courier s))
    (fun _ _ _ => rfl) hr, ← hsim.history (f := pushes) (fun _ _ _ => rfl) hr] at horder
  rw [history_entries hm hr hc hend]
  unfold toClient
  rw [← List.filter_append, horder]

/-! ### The order in which a thread issued them -/

def byThread (t : Thread) (l : List (Thread × Job)) : List Job :=
  (l.filter fun p => p.1 = t).map Prod.snd

/-- The calls of a thread that have not run: those on the queue, and those it has still to make. -/
def waiting (t : Thread) (s : System) : List Job :=
  byThread t (s.courier.batch ++ s.courier.queue) ++ s.todo t

theorem byThread_append (t : Thread) (l l' : List (Thread × Job)) :
    byThread t (l ++ l') = byThread t l ++ byThread t l' := by
  unfold byThread
  rw [List.filter_append, List.map_append]

theorem byThread_toClient (t : Thread) (c : ClientId) (l : List (Thread × Job)) :
    byThread t (toClient c l) = (byThread t l).filter (·.addressed c) := by
  unfold byThread toClient
  rw [List.filter_comm, List.filter_map]
  rfl

theorem byThread_pushes (t : Thread) (s : System) (e : Event) :
    byThread t (pushes s e) = called t s e := by
  cases e with
  | push u =>
    cases htodo : s.todo u with
    | nil =>
      have hother : Event.courier s (.push u) = .other := by simp only [Event.courier, htodo]
      show byThread t (Courier.pushes _) = called t s (.push u)
      rw [hother, called_of_nil htodo]
      rfl
    | cons j js =>
      show byThread t (Courier.pushes _) = if u = t then (s.todo t).head?.toList else []
      rw [courier_push htodo]
      split_ifs with hu
      · subst hu
        simp [byThread, Courier.pushes, htodo]
      · simp [byThread, Courier.pushes, hu]
  | connect | close | data | timer | ready | mimicDone | paused | publish | phrase | send | wake | take
  | exec | finish => rfl

theorem byThread_history (t : Thread) (m : System) (es : List Event) :
    byThread t ((machine N).history pushes m es) = (machine N).history (called t) m es := by
  induction es generalizing m with
  | nil => rfl
  | cons e es ih =>
    show byThread t (pushes m e ++ _) = called t m e ++ _
    rw [byThread_append, byThread_pushes, ih]

/-- A thread makes the calls it owes in the order in which it came to owe them. -/
theorem called_history (t : Thread) (m : System) (es : List Event) :
    (machine N).history (called t) m es ++ ((machine N).exec m es).todo t =
      m.todo t ++ (machine N).history (begun N t) m es := by
  induction es generalizing m with
  | nil => simp [Machine.history]
  | cons e es ih =>
    have hfirst := called_todo N t m e
    have hrest := ih (step N m e)
    rw [Machine.exec_cons]
    show (called t m e ++ _) ++ ((machine N).exec (step N m e) es).todo t =
      m.todo t ++ (begun N t m e ++ _)
    rw [List.append_assoc, ← List.append_assoc (m.todo t), ← hfirst, List.append_assoc]
    exact congrArg _ hrest

/-- **The messages a thread issues are written to a client that stays connected in the order in which
it issued them**, each of them once. -/
theorem written_as_issued (hm : (machine N).Reachable m) (hr : (machine N).Run m es)
    (hc : c ∈ m.hub.state.clients) (hend : c ∈ ((machine N).exec m es).hub.state.clients)
    (t : Thread) :
    byThread t (((machine N).history (writes N c) m es).filterMap Write.entry) ++
        (waiting t ((machine N).exec m es)).filter (·.addressed c) =
      (waiting t m ++ (machine N).history (begun N t) m es).filter (·.addressed c) := by
  have horder := congrArg (byThread t) (written_in_order hm hr hc hend)
  rw [byThread_append, byThread_toClient, byThread_toClient, byThread_append _ (_ ++ _),
    byThread_history] at horder
  unfold waiting
  rw [List.filter_append, ← List.append_assoc, horder, ← List.filter_append, List.append_assoc,
    called_history, List.append_assoc]

/-! ### A pause -/

theorem jobs_append (N : Net) (n : ℕ) (l l' : List Issued) :
    N.jobs n (l ++ l') = N.jobs n l ++ N.jobs (n + l.length) l' := by
  induction l generalizing n with
  | nil => rfl
  | cons i l ih =>
    show i.jobs _ ++ N.jobs (n + 1) (l ++ l') = (i.jobs _ ++ N.jobs (n + 1) l) ++ _
    rw [ih, List.append_assoc, List.length_cons, Nat.add_right_comm, Nat.add_assoc]

/-- The state when `handle_pause` has synced. -/
def syncedForPause (N : Net) (token : UInt64) (s : State) : State :=
  syncState N.env { s with pauseToken := token }

/-- The message that tells the clients of a pause. -/
def pausedJobs (N : Net) (token : UInt64) (s : State) : List Job :=
  (Issued.publish (.paused token)).jobs
    (N.prep (syncedForPause N token s).issued.length (.paused token))

/-- A pause owes the responses of its sync, and then its `paused` message. -/
theorem owed_handlePause (N : Net) (token : UInt64) {s : State} (hne : s.clients ≠ []) :
    N.owed s (handlePause N.env token s) =
      N.owed s (syncedForPause N token s) ++ pausedJobs N token s := by
  obtain ⟨l, hl, -⟩ := syncState_grows (E := N.env) { s with pauseToken := token }
  have hsynced : (syncedForPause N token s).issued = s.issued ++ l := hl
  have hissued : (handlePause N.env token s).issued =
      (syncedForPause N token s).issued ++ [.publish (.paused token)] := handlePause_issued hne
  unfold Net.owed pausedJobs
  rw [hissued, hsynced, List.append_assoc, List.drop_left, List.drop_left, jobs_append,
    List.length_append]
  show _ ++ (_ ++ []) = _
  rw [List.append_nil]
  rfl

theorem begun_pause {t : Thread} {token : UInt64} {b : List (Thread × Job)}
    (hbatch : s.courier.batch = (t, .pause token) :: b) (hne : s.hub.state.clients ≠ []) :
    begun N .loop s .exec =
      N.owed s.hub.state (syncedForPause N token s.hub.state) ++ pausedJobs N token s.hub.state := by
  have hbegun := begun_owe { s with courier := s.courier.step .exec } .loop .loop
    (N.owed s.hub.state (handlePause N.env token s.hub.state))
  rw [if_pos rfl] at hbegun
  unfold begun
  rw [step_exec hbatch, ← owed_handlePause N token hne]
  exact hbegun

/-! ### The invoke queue -/

/-- **The invoke queue loses, doubles and reorders nothing.**  In every state of every run:
* what was executed, what was drained and the queue make up what was pushed, in this order;
* when the queue is not empty, a wake-up is pending, or some thread is between its push and its
  send, so that everything was executed once all have sent and the event loop sleeps;
and for a client that is connected at some point of the run and at its end, from that point on:
* what was written to it is the replies to its frames and messages of the queue, and the latter are
  those addressed to it that were queued or are pushed, in order, less what still waits;
* those of one thread are those the thread had issued or issues, in order, less what still waits;
* when a pause runs at that point, those of the event loop are what waited there, the responses of
  the sync of `handle_pause`, its `paused` message, and what the event loop issues later. -/
theorem invoke_queue (N : Net) {es fs : List Event}
    (hr : (machine N).Run (machine N).start (es ++ fs)) :
    let m := (machine N).exec (machine N).start es
    let s := (machine N).exec (machine N).start (es ++ fs)
    s.courier.executed ++ s.courier.batch ++ s.courier.queue = s.courier.pushed ∧
      (s.courier.queue ≠ [] → s.courier.Awaking ∨ ∃ t, s.courier.unsent t = true) ∧
      ((∀ t, s.courier.unsent t = false) → s.courier.phase = .idle →
        s.courier.signalled = false → s.courier.executed = s.courier.pushed) ∧
      ∀ c ∈ m.hub.state.clients, c ∈ s.hub.state.clients →
        (s.hub.conns c).written = (m.hub.conns c).written ++
            ((machine N).history (writes N c) m fs).map (Write.bytes N.transport.byteOrder) ∧
          ((machine N).history (writes N c) m fs).filterMap Write.entry ++
              toClient c (s.courier.batch ++ s.courier.queue) =
            toClient c (m.courier.batch ++ m.courier.queue ++ (machine N).history pushes m fs) ∧
          (∀ t, byThread t (((machine N).history (writes N c) m fs).filterMap Write.entry) ++
              (waiting t s).filter (·.addressed c) =
            (waiting t m ++ (machine N).history (begun N t) m fs).filter (·.addressed c)) ∧
          ∀ t token b gs, fs = .exec :: gs → m.courier.batch = (t, .pause token) :: b →
            byThread .loop (((machine N).history (writes N c) m fs).filterMap Write.entry) ++
                (waiting .loop s).filter (·.addressed c) =
              (waiting .loop m ++ N.owed m.hub.state (syncedForPause N token m.hub.state) ++
                pausedJobs N token m.hub.state ++
                (machine N).history (begun N .loop) (step N m .exec) gs).filter
                  (·.addressed c) := by
  intro m s
  obtain ⟨hes, hfs⟩ := Machine.run_append.1 hr
  have hm : (machine N).Reachable m := hes.reachable
  have hs : s = (machine N).exec m fs := Machine.exec_append
  have hcourier := (courier_simulates N).reachable (hr.reachable : (machine N).Reachable s)
  refine ⟨(Courier.ordered_of_reachable hcourier).order, Courier.alert_of_reachable hcourier,
    Courier.all_executed hcourier, fun c hc hend => ?_⟩
  rw [hs] at hend ⊢
  have hissued := written_as_issued hm hfs hc hend
  refine ⟨written_exec hm hfs c, written_in_order hm hfs hc hend, hissued, ?_⟩
  rintro t token b gs rfl hbatch
  have hne : m.hub.state.clients ≠ [] := List.ne_nil_of_mem hc
  rw [hissued .loop]
  show (_ ++ (begun N .loop m .exec ++ _)).filter _ = _
  rw [begun_pause hbatch hne]
  simp only [List.append_assoc]
  rfl

/-- A server that understands no frame, and whose messages are their numbers. -/
def numbering : Net where
  env := .obliging
  transport :=
    { byteOrder := .little
      bson := ⟨fun _ => none, fun _ => []⟩
      callback := fun c tid _ s =>
        let r := handleMessage .obliging c tid none .usual s
        (r.1.map fun _ => [], r.2) }
  reply _ := []
  serves _ _ _ _ := ⟨.usual, rfl⟩
  secret := []
  prep n _ := [.ofNat n]

/-- A pause is handled while the engine publishes a message of its own. -/
def pausePublished : List Event :=
  [.ready 0, .push (.engine 0), .paused 1 7, .send (.engine 0), .push (.engine 1), .wake, .take,
    .send (.engine 1), .exec, .publish 0 [9], .exec, .push .loop, .push (.engine 0), .send .loop,
    .send (.engine 0), .finish, .wake, .take, .exec, .exec]

/-- The client gets the `ready` message, the `paused` message and the other one, in the order in
which they were pushed. -/
theorem invoke_queue_pause :
    (((machine numbering).exec (machine numbering).start ([.connect] ++ pausePublished)).hub.conns
      0).written = [[0], [1], [9]].map (frameBytes .little Hub.publishTid) := by
  have hrun : (machine numbering).Run (machine numbering).start ([.connect] ++ pausePublished) := by
    decide
  have hwritten := ((invoke_queue numbering hrun).2.2.2 0 (by decide) (by decide)).1
  exact hwritten.trans (by decide)

end System

end Draconity
