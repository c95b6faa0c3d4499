import Draconity.Unknown
import Draconity.Delivery

/-!
What a connection sees that has not authenticated.

It is written the replies of `handleAuth` to its own frames, and the messages that are published
while it is on the list of clients, since `UvServer::publish` does not ask who has authenticated.
Nothing else reaches it, so that its own bytes and the published messages determine what it sees.
-/

namespace Draconity

open Lib

/-- The function sends nothing to this client alone. -/
def Job.NotFor (c : ClientId) : Job → Prop
  | .send _ _ d => d ≠ c
  | .publish _ | .pause _ => True

namespace System

variable {N : Net} {s : System} {e : Event} {es : List Event} {c : ClientId}

/-! ### What bears on a connection -/

/-- What a connection that has not authenticated can tell. -/
inductive Seen
  /-- It sends a chunk. -/
  | chunk (bytes : List UInt8)
  /-- A message is published. -/
  | published (msg : List UInt8)

def seen (c : ClientId) (s : System) : Event → List Seen
  | .data d bytes => if d = c then [.chunk bytes] else []
  | .exec =>
    match s.courier.batch with
    | (_, .publish msg) :: _ => if c ∈ s.hub.state.clients then [.published msg] else []
    | _ => []
  | _ => []

/-- A connection as its own bytes and the published messages determine it: what is left over of what
it sent, and what was written to it. -/
structure View where
  left : List UInt8
  written : List (List UInt8)

/-- What a connection sees of what bears on it. -/
def View.see (N : Net) (v : View) : Seen → View
  | .chunk bytes =>
    { left := (messageFormat.split (v.left ++ bytes)).2
      written := v.written ++ (frames (v.left ++ bytes)).map (Hub.authReply N) }
  | .published msg =>
    { v with written := v.written ++ [frameBytes N.transport.byteOrder Hub.publishTid msg] }

/-- What a connection sees from its beginning. -/
def viewOf (N : Net) (l : List Seen) : View := l.foldl (View.see N) ⟨[], []⟩

def received (c : ClientId) (_ : System) : Event → List (List UInt8)
  | .data d bytes => if d = c then [bytes] else []
  | _ => []

/-- The reply to a frame, if the write is one. -/
def Write.replied : Write → Option (List UInt8)
  | .reply bytes => some bytes
  | .queued _ _ => none

/-! ### The invariant -/

/-- A connection after a run in which it has not authenticated: nobody knows of it, no message is on
its way to it alone, and it has seen what its bytes and the published messages determine. -/
structure Outside (N : Net) (c : ClientId) (es : List Event) : Prop where
  unknown : Unknown c ((machine N).exec (machine N).start es).hub.state
  jobs : ((machine N).exec (machine N).start es).Holds (Job.NotFor c)
  left : (viewOf N ((machine N).history (seen c) (machine N).start es)).left =
    (messageFormat.split ((machine N).history (received c) (machine N).start es).flatten).2
  standsAt : Transport.StandsAt (((machine N).exec (machine N).start es).hub.conns c)
    (viewOf N ((machine N).history (seen c) (machine N).start es)).left
  written : (((machine N).exec (machine N).start es).hub.conns c).written =
    (viewOf N ((machine N).history (seen c) (machine N).start es)).written
  replies : ((machine N).history (writes N c) (machine N).start es).filterMap Write.replied =
    (frames ((machine N).history (received c) (machine N).start es).flatten).map (Hub.authReply N)
  queued : ∀ w ∈ (machine N).history (writes N c) (machine N).start es,
    w.replied = none → ∃ t msg, w = .queued t (.publish msg)

theorem outside_nil (N : Net) (c : ClientId) : Outside N c [] where
  unknown := unknown_init c 0
  jobs := ⟨nofun, nofun, nofun⟩
  left := by
    rw [show ((machine N).history (received c) (machine N).start []).flatten = [] from rfl,
      messageFormat.split_of_none rfl]
    rfl
  standsAt := rfl
  written := rfl
  replies := by
    rw [show ((machine N).history (received c) (machine N).start []).flatten = [] from rfl]
    unfold frames
    rw [messageFormat.split_of_none rfl]
    rfl
  queued := nofun

/-- The flag of a connection is never taken back. -/
theorem Steady.authed (h : Steady N s) (he : s.Enabled e)
    (hauth : ((step N s e).hub.conns c).authed = false) : (s.hub.conns c).authed = false := by
  by_cases hdata : ∃ bytes, e = .data c bytes
  · obtain ⟨bytes, rfl⟩ := hdata
    obtain ⟨left, hleft⟩ := h.wired.standsAt c
    exact (Hub.data_of_not_authed hleft (h.wired.secret c) hauth).1
  · rcases h.conns_step he (not_exists.1 hdata) with hc | ⟨-, tid, msg, hc⟩
    · rwa [hc] at hauth
    · rw [hc] at hauth
      exact hauth

/-- What does not name the client cannot make it known. -/
theorem Steady.ignores (h : Steady N s) (he : s.Enabled e) (hno : ¬ e.Names c) :
    Ignores c s.hub.state (step N s e).hub.state := by
  obtain ⟨evs, -, hexec, hnames⟩ := h.run he
  rw [← hexec]
  exact exec_ignores (fun ev hev hc => hno (hnames ev hev c hc)) _

theorem notFor_begun (hunknown : Unknown c s.hub.state)
    (hissues : Issues (fun i => i.client ≠ some c) s.hub.state (step N s e).hub.state)
    {t : Thread} {j : Job} (hj : j ∈ begun N t s e) : j.NotFor c := by
  cases begun_origin hj with
  | issued i msg hi hmem =>
    have hclient := hissues.of_mem_drop hi
    rcases mem_issued_jobs hmem with ⟨p, -, rfl⟩ | ⟨p, tid, d, rfl, rfl⟩
    · trivial
    · exact fun hd => hclient (congrArg some hd)
  | paused k token hevent hpause =>
    subst hpause
    trivial
  | publish k msg hevent hpublish =>
    subst hpublish
    trivial
  | phrase k name msg hevent hmem =>
    obtain ⟨g, hg, rfl⟩ := mem_phraseJobs hmem
    exact hunknown.grammars name g hg

/-- What is not a chunk of the connection bears on it only if it publishes a message. -/
theorem writes_of_not_data (hjobs : s.Holds (Job.NotFor c)) (hno : ∀ bytes, e ≠ .data c bytes) :
    received c s e = [] ∧ ((writes N c s e = [] ∧ seen c s e = []) ∨
      ∃ t msg, writes N c s e = [.queued t (.publish msg)] ∧ seen c s e = [.published msg]) := by
  cases e with
  | data d bytes =>
    have hd : d ≠ c := by
      rintro rfl
      exact hno bytes rfl
    exact ⟨if_neg hd, .inl ⟨if_neg hd, if_neg hd⟩⟩
  | exec =>
    refine ⟨rfl, ?_⟩
    rw [writes_exec]
    unfold seen
    cases hbatch : s.courier.batch with
    | nil =>
      left
      split_ifs <;> exact ⟨rfl, rfl⟩
    | cons p b =>
      obtain ⟨u, msg | ⟨msg, tid, d⟩ | token⟩ := p
      · dsimp only
        split_ifs
        · exact .inr ⟨u, msg, rfl, rfl⟩
        · exact .inl ⟨rfl, rfl⟩
      · have hd : d ≠ c := hjobs.batch (u, .send msg tid d) (hbatch ▸ List.mem_cons_self ..)
        left
        split_ifs
        · exact ⟨by simp [toClient, Job.addressed, hd], rfl⟩
        · exact ⟨rfl, rfl⟩
      · left
        split_ifs <;> exact ⟨rfl, rfl⟩
  | connect | close | timer | ready | mimicDone | paused | publish | phrase | push | send | wake | take
  | finish => exact ⟨rfl, .inl ⟨rfl, rfl⟩⟩

/-- What is not a chunk of the connection writes it what is published, and nothing else. -/
theorem published_of_not_data (hjobs : s.Holds (Job.NotFor c))
    (hno : ∀ bytes, e ≠ .data c bytes) :
    (∀ w ∈ writes N c s e, ∃ t msg, w = .queued t (.publish msg)) ∧
      ∀ v : View, (seen c s e).foldl (View.see N) v = { v with
        written := v.written ++ (writes N c s e).map (Write.bytes N.transport.byteOrder) } := by
  rcases (writes_of_not_data (N := N) hjobs hno).2 with ⟨hw, hs⟩ | ⟨t, msg, hw, hs⟩
  · rw [hw, hs]
    refine ⟨fun w hmem => absurd hmem List.not_mem_nil, fun v => ?_⟩
    rw [List.map_nil, List.append_nil]
    rfl
  · rw [hw, hs]
    exact ⟨fun w hmem => ⟨t, msg, List.mem_singleton.1 hmem⟩, fun v => rfl⟩

/-- What is not a chunk of the connection leaves it where it stands in its stream. -/
theorem Steady.standsAt (h : Steady N s) (he : s.Enabled e) (hno : ∀ bytes, e ≠ .data c bytes)
    {left : List UInt8} (hleft : Transport.StandsAt (s.hub.conns c) left) :
    Transport.StandsAt ((step N s e).hub.conns c) left := by
  rcases h.conns_step he hno with hc | ⟨-, tid, msg, hc⟩
  · rwa [hc]
  · rw [hc]
    exact hleft

theorem viewOf_append (N : Net) (l l' : List Seen) :
    viewOf N (l ++ l') = l'.foldl (View.see N) (viewOf N l) := List.foldl_append

theorem outside_other (hout : Outside N c es) (hr : (machine N).Run (machine N).start es)
    (he : ((machine N).exec (machine N).start es).Enabled e) (hnames : ¬ e.Names c) :
    Outside N c (es ++ [e]) := by
  have hsteady := steady_of_reachable hr.reachable
  have hignores := hsteady.ignores he hnames hout.unknown
  have hno : ∀ bytes, e ≠ .data c bytes := by
    rintro bytes rfl
    exact hnames rfl
  have hwritten := written_step hsteady he c
  obtain ⟨hreceived, -⟩ := writes_of_not_data (N := N) hout.jobs hno
  obtain ⟨hpublished, hsee⟩ := published_of_not_data (N := N) hout.jobs hno
  -- what is written to the client are messages for all clients
  have hnone : (writes N c ((machine N).exec (machine N).start es) e).filterMap
      Write.replied = [] := by
    rw [List.filterMap_eq_nil_iff]
    intro w hw
    obtain ⟨t, msg, rfl⟩ := hpublished w hw
    rfl
  have hstep : (machine N).exec (machine N).start (es ++ [e]) =
      step N ((machine N).exec (machine N).start es) e := Machine.exec_snoc
  have hbytes : ((machine N).history (received c) (machine N).start (es ++ [e])).flatten =
      ((machine N).history (received c) (machine N).start es).flatten := by
    rw [Machine.history_snoc, hreceived, List.append_nil]
  have hseen : viewOf N ((machine N).history (seen c) (machine N).start (es ++ [e])) =
      { viewOf N ((machine N).history (seen c) (machine N).start es) with
        written := (viewOf N ((machine N).history (seen c) (machine N).start es)).written ++
          (writes N c ((machine N).exec (machine N).start es) e).map
            (Write.bytes N.transport.byteOrder) } := by
    rw [Machine.history_snoc, viewOf_append, hsee]
  constructor
  · rw [hstep]
    exact hignores.1
  · rw [hstep]
    exact hout.jobs.step he fun t j hj => notFor_begun hout.unknown hignores.2 hj
  · rw [hseen, hbytes]
    exact hout.left
  · rw [hstep, hseen]
    exact hsteady.standsAt he hno hout.standsAt
  · rw [hstep, hseen, hwritten, hout.written]
  · rw [Machine.history_snoc, List.filterMap_append, hnone, List.append_nil, hbytes]
    exact hout.replies
  · rw [Machine.history_snoc]
    intro w hmem hreply
    rcases List.mem_append.1 hmem with hmem | hmem
    · exact hout.queued w hmem hreply
    · exact hpublished w hmem

theorem outside_data (hout : Outside N c es) (hr : (machine N).Run (machine N).start es)
    {bytes : List UInt8} (he : ((machine N).exec (machine N).start es).Enabled (.data c bytes))
    (hauth : (((machine N).exec (machine N).start (es ++ [.data c bytes])).hub.conns c).authed =
      false) : Outside N c (es ++ [.data c bytes]) := by
  have hsteady := steady_of_reachable hr.reachable
  have hstep : (machine N).exec (machine N).start (es ++ [.data c bytes]) =
      step N ((machine N).exec (machine N).start es) (.data c bytes) := Machine.exec_snoc
  rw [hstep] at hauth
  obtain ⟨-, hstate, hwritten⟩ :=
    Hub.data_of_not_authed hout.standsAt (hsteady.wired.secret c) hauth
  have hstand := (Hub.data_frames (N := N) hout.standsAt bytes).1
  -- no command is handled, so no message was issued
  have hissues : Issues (fun i => i.client ≠ some c)
      ((machine N).exec (machine N).start es).hub.state
      (step N ((machine N).exec (machine N).start es) (.data c bytes)).hub.state :=
    .of_eq (congrArg State.issued hstate)
  have hseen : viewOf N ((machine N).history (seen c) (machine N).start (es ++ [.data c bytes])) =
      (viewOf N ((machine N).history (seen c) (machine N).start es)).see N (.chunk bytes) := by
    rw [Machine.history_snoc, viewOf_append, show seen c _ (.data c bytes) = [.chunk bytes] from
      if_pos rfl]
    rfl
  have hbytes : ((machine N).history (received c) (machine N).start
      (es ++ [.data c bytes])).flatten =
      ((machine N).history (received c) (machine N).start es).flatten ++ bytes := by
    rw [Machine.history_snoc, show received c _ (.data c bytes) = [bytes] from if_pos rfl,
      List.flatten_append, List.flatten_singleton]
  have hsplit := messageFormat.split_append
    ((machine N).history (received c) (machine N).start es).flatten bytes
  have hwrites : writes N c ((machine N).exec (machine N).start es) (.data c bytes) =
      ((frames ((viewOf N ((machine N).history (seen c) (machine N).start es)).left ++ bytes)).map
        (Hub.authReply N)).map .reply := by
    rw [writes_data, if_pos rfl, hwritten, List.drop_left]
  constructor
  · rw [hstep]
    show Unknown c (Hub.data N c bytes ((machine N).exec (machine N).start es).hub).state
    rw [hstate]
    exact hout.unknown
  · rw [hstep]
    exact hout.jobs.step he fun t j hj => notFor_begun hout.unknown hissues hj
  · rw [hseen, hbytes, hsplit]
    show (messageFormat.split (_ ++ bytes)).2 = _
    rw [hout.left]
  · rw [hstep, hseen]
    exact hstand
  · rw [hstep, hseen]
    show ((Hub.data N c bytes ((machine N).exec (machine N).start es).hub).conns c).written = _
    rw [hwritten, hout.written]
    rfl
  · rw [Machine.history_snoc, List.filterMap_append, hout.replies, hwrites, hbytes]
    unfold frames
    rw [hsplit, List.map_append, hout.left, List.filterMap_map]
    exact congrArg _ List.filterMap_some
  · rw [Machine.history_snoc, hwrites]
    intro w hmem hnone
    rcases List.mem_append.1 hmem with hmem | hmem
    · exact hout.queued w hmem hnone
    · obtain ⟨b, -, rfl⟩ := List.mem_map.1 hmem
      cases hnone

theorem outside_of_run (hr : (machine N).Run (machine N).start es)
    (hread : ∀ k tid, Event.mimicDone k (some (c, tid)) ∉ es)
    (hauth : (((machine N).exec (machine N).start es).hub.conns c).authed = false) :
    Outside N c es := by
  induction es using List.reverseRecOn with
  | nil => exact outside_nil N c
  | append_singleton es e ih =>
    obtain ⟨hes, he⟩ := Machine.run_snoc.1 hr
    have hsteady := steady_of_reachable hes.reachable
    have hstep : (machine N).exec (machine N).start (es ++ [e]) =
        step N ((machine N).exec (machine N).start es) e := Machine.exec_snoc
    have hout := ih hes (fun k tid hmem => hread k tid (List.mem_append_left _ hmem))
      (hsteady.authed he (hstep ▸ hauth))
    by_cases hdata : ∃ bytes, e = .data c bytes
    · obtain ⟨bytes, rfl⟩ := hdata
      exact outside_data hout hes he hauth
    · refine outside_other hout hes he fun hnames => ?_
      cases e with
      | data d bytes => exact hdata ⟨bytes, congrArg (Event.data · bytes) hnames⟩
      | mimicDone k stale =>
        obtain ⟨tid, rfl⟩ := hnames
        exact hread k tid (List.mem_append_right _ (List.mem_singleton_self _))
      | connect | close | timer | ready | paused | publish | phrase | push | send | wake | take | exec
      | finish => exact hnames

/-- **What an unauthenticated connection learns.**  In every run in which no mimic-done callback reads
the connection's id where the entry was that it has popped, for a connection whose flag is false in the
end:
* it was written the replies to its frames and messages of the queue;
* the replies are those of `handleAuth` to its own complete frames, one each, in order;
* the messages are published ones, and no deferred response is among them;
* what was written to it is determined by the bytes it sent and by the messages that were published
  while it was on the list. -/
theorem unauthenticated_sees (N : Net) (hr : (machine N).Run (machine N).start es)
    (hread : ∀ k tid, Event.mimicDone k (some (c, tid)) ∉ es)
    (hauth : (((machine N).exec (machine N).start es).hub.conns c).authed = false) :
    let ws := (machine N).history (writes N c) (machine N).start es
    let written := (((machine N).exec (machine N).start es).hub.conns c).written
    written = ws.map (Write.bytes N.transport.byteOrder) ∧
      ws.filterMap Write.replied =
        (frames ((machine N).history (received c) (machine N).start es).flatten).map
          (Hub.authReply N) ∧
      (∀ w ∈ ws, w.replied = none → ∃ t msg, w = .queued t (.publish msg)) ∧
      written = (viewOf N ((machine N).history (seen c) (machine N).start es)).written := by
  have hout := outside_of_run hr hread hauth
  exact ⟨written_exec ⟨[], trivial, rfl⟩ hr c, hout.replies, hout.queued, hout.written⟩

/-- The engine publishes a message while a client is connected. -/
def overheard : List Event :=
  [.connect, .publish 0 [9], .push (.engine 0), .send (.engine 0), .wake, .take, .exec]

/-- A connection that has not authenticated, and sent nothing, is written the message. -/
theorem unauthenticated_sees_published :
    (((machine numbering).exec (machine numbering).start overheard).hub.conns 0).written =
      [frameBytes .little Hub.publishTid [9]] := by
  have hrun : (machine numbering).Run (machine numbering).start overheard := by decide
  have hread : ∀ k tid, Event.mimicDone k (some (0, tid)) ∉ overheard := by simp [overheard]
  exact (unauthenticated_sees numbering hrun hread (by decide)).2.2.2.trans (by decide)

/-- A connection that has not authenticated is not only written replies to its own frames. -/
theorem unauthenticated_learns : ¬ ∀ (N : Net) (es : List Event) (c : ClientId),
    (machine N).Run (machine N).start es →
    (((machine N).exec (machine N).start es).hub.conns c).authed = false →
    ∀ bytes ∈ (((machine N).exec (machine N).start es).hub.conns c).written,
      ∃ f ∈ frames ((machine N).history (received c) (machine N).start es).flatten,
        bytes = Hub.authReply N f := by
  intro h
  have hrun : (machine numbering).Run (machine numbering).start overheard := by decide
  have hmem : frameBytes .little Hub.publishTid [9] ∈
      (((machine numbering).exec (machine numbering).start overheard).hub.conns 0).written := by
    decide
  obtain ⟨f, hf, -⟩ := h numbering overheard 0 hrun (by decide) _ hmem
  have hnone : frames ((machine numbering).history (received 0) (machine numbering).start
      overheard).flatten = [] := congrArg Prod.fst (messageFormat.split_of_none rfl)
  rw [hnone] at hf
  exact nomatch hf

end System

end Draconity
