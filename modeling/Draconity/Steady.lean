import Draconity.System

/-!
Every run of the server is a run of the event loop.

`Steady` is what holds in every state the server reaches, and `Steady.run` says what an event of the
server is to the event loop, so that what holds of all runs of the event loop holds here as well.
-/

namespace Draconity

open Lib

namespace System

variable {N : Net} {s : System} {e : Event}

/-! ### What is owed -/

theorem begun_owe (s : System) (t u : Thread) (js : List Job) :
    ((s.owe u js).todo t).drop (s.todo t).length = if t = u then js else [] := by
  show (Function.update s.todo u (s.todo u ++ js) t).drop _ = _
  by_cases hu : t = u
  · subst hu
    rw [Function.update_self, List.drop_left, if_pos rfl]
  · rw [Function.update_of_ne hu, if_neg hu]
    exact List.drop_length

theorem mem_jobs {n : ℕ} {is : List Issued} {j : Job} (h : j ∈ N.jobs n is) :
    ∃ i ∈ is, ∃ msg, j ∈ i.jobs msg := by
  induction is generalizing n with
  | nil => exact nomatch h
  | cons i is ih =>
    rcases List.mem_append.1 h with h | h
    · exact ⟨i, List.mem_cons_self .., _, h⟩
    · obtain ⟨i', hi', hj⟩ := ih h
      exact ⟨i', List.mem_cons_of_mem _ hi', hj⟩

theorem mem_issued_jobs {i : Issued} {msg : List UInt8} {j : Job} (h : j ∈ i.jobs msg) :
    (∃ p, i = .publish p ∧ j = .publish msg) ∨
      ∃ p tid c, i = .send p tid c ∧ j = .send msg tid c := by
  unfold Issued.jobs at h
  cases i with
  | publish p =>
    dsimp only at h
    split_ifs at h
    · exact nomatch h
    · exact .inl ⟨p, rfl, List.mem_singleton.1 h⟩
  | send p tid c =>
    dsimp only at h
    split_ifs at h
    · exact nomatch h
    · exact .inr ⟨p, tid, c, rfl, List.mem_singleton.1 h⟩

theorem mem_phraseJobs {name : CString} {msg : List UInt8} {m : State} {j : Job}
    (h : j ∈ phraseJobs name msg m) :
    ∃ g, m.grammars.lookup name = some g ∧ j = .send msg Hub.publishTid g.state.clientId := by
  unfold phraseJobs at h
  split at h
  · rename_i g hg
    split_ifs at h
    · exact nomatch h
    · exact ⟨g, hg, List.mem_singleton.1 h⟩
  · exact nomatch h

/-- Where a call of `invoke` comes from: a message that was issued, or a callback of the engine. -/
inductive Origin (N : Net) (s : System) (e : Event) (j : Job) : Prop
  | issued (i : Issued) (msg : List UInt8)
    (hi : i ∈ (step N s e).hub.state.issued.drop s.hub.state.issued.length) (hj : j ∈ i.jobs msg)
  | paused (k : ℕ) (token : UInt64) (he : e = .paused k token) (hj : j = .pause token)
  | publish (k : ℕ) (msg : List UInt8) (he : e = .publish k msg) (hj : j = .publish msg)
  | phrase (k : ℕ) (name : CString) (msg : List UInt8) (he : e = .phrase k name msg)
    (hj : j ∈ phraseJobs name msg s.hub.state)

theorem begun_origin {t : Thread} {j : Job} (hj : j ∈ begun N t s e) : Origin N s e j := by
  have handled : ∀ {u : Thread} {f : Hub → Hub}, (step N s e).hub = f s.hub →
      j ∈ (if t = u then N.owed s.hub.state (f s.hub).state else []) → Origin N s e j := by
    intro u f hstep hj
    split_ifs at hj
    · obtain ⟨i, hi, msg, hmsg⟩ := mem_jobs hj
      exact .issued i msg (hstep ▸ hi) hmsg
    · exact nomatch hj
  have howe : ∀ {m : System} {u : Thread} {js : List Job}, step N s e = m.owe u js →
      m.todo = s.todo → j ∈ if t = u then js else [] := by
    intro m u js hstep htodo
    rw [← begun_owe m t u js, ← hstep, htodo]
    exact hj
  have nothing : (step N s e).todo t = s.todo t → Origin N s e j := by
    intro hsame
    rw [begun_of_todo hsame] at hj
    exact nomatch hj
  cases e with
  | connect => exact handled (f := Hub.listen N) rfl (howe rfl rfl)
  | close c stack => exact handled (f := Hub.close N c stack) rfl (howe rfl rfl)
  | data c bytes => exact handled (f := Hub.data N c bytes) rfl (howe rfl rfl)
  | timer => exact handled (f := Hub.onState (handleTimer N.env)) rfl (howe rfl rfl)
  | ready k => exact handled (f := Hub.onState (draconityReady N.env)) rfl (howe rfl rfl)
  | mimicDone k stale =>
    exact handled (f := Hub.onState (draconityMimicDone stale)) rfl (howe rfl rfl)
  | paused k token =>
    have hmem := howe (m := s) rfl rfl
    split_ifs at hmem
    · exact .paused k token rfl (List.mem_singleton.1 hmem)
    · exact nomatch hmem
  | publish k msg =>
    have hmem := howe (m := s) rfl rfl
    split_ifs at hmem
    · exact nomatch hmem
    · exact .publish k msg rfl (List.mem_singleton.1 hmem)
    · exact nomatch hmem
  | phrase k name msg =>
    have hmem := howe (m := s) rfl rfl
    split_ifs at hmem
    · exact .phrase k name msg rfl hmem
    · exact nomatch hmem
  | exec =>
    cases hbatch : s.courier.batch with
    | nil => exact nothing (congrArg (fun m => m.todo t) (step_exec_nil hbatch))
    | cons p b =>
      have hstep := step_exec (N := N) hbatch
      -- of the functions of the queue, only that of `handle_pause` issues messages
      obtain ⟨u, _ | _ | token⟩ := p
      · exact nothing (congrArg (fun m => m.todo t) hstep)
      · exact nothing (congrArg (fun m => m.todo t) hstep)
      · exact handled (f := Hub.onState (handlePause N.env token)) (congrArg System.hub hstep)
          (howe hstep rfl)
  | push u =>
    rw [(called_push N t u s).2] at hj
    exact nomatch hj
  | send u | wake | take | finish => exact nothing rfl

/-! ### The server is the event loop -/

/-- Dragon supplies no token of `0`. -/
def Proper : Job → Prop
  | .pause token => token ≠ 0
  | .publish _ | .send _ _ _ => True

theorem proper_begun {t : Thread} (he : s.Enabled e) : ∀ j ∈ begun N t s e, Proper j := by
  intro j hj
  cases begun_origin hj with
  | issued i msg hi hmem =>
    rcases mem_issued_jobs hmem with ⟨p, -, rfl⟩ | ⟨p, tid, c, -, rfl⟩ <;> trivial
  | paused k token hevent hpause =>
    subst hevent hpause
    exact he.2
  | publish k msg hevent hpublish =>
    subst hpublish
    trivial
  | phrase k name msg hevent hmem =>
    obtain ⟨g, -, rfl⟩ := mem_phraseJobs hmem
    trivial

/-- What holds in every state the server reaches: its clients are wired, an id that was not given out
has a new client, the queued tokens are proper, and the state is one the event loop reaches. -/
structure Steady (N : Net) (s : System) : Prop where
  wired : s.hub.Wired N
  fresh : ∀ c, s.hub.state.clientNonce ≤ c → s.hub.conns c = .new N.secret c
  tokens : s.Holds Proper
  state : (eventLoop N.env).Reachable s.hub.state

theorem Steady.consistent (h : Steady N s) : s.hub.state.barrier.Consistent :=
  Barrier.consistent_of_reachable ((barrier_simulates N.env).reachable h.state)

/-- What the event names, as for the events of the event loop. -/
def Event.Names (c : ClientId) : Event → Prop
  | .data d _ => d = c
  | .mimicDone _ stale => ∃ tid, stale = some (c, tid)
  | _ => False

/-- **What an event does to the state is a run of the event loop**, whose events name nobody but whom
the event names. -/
theorem Steady.run (h : Steady N s) (he : s.Enabled e) :
    ∃ es, (eventLoop N.env).Run s.hub.state es ∧
      (eventLoop N.env).exec s.hub.state es = (step N s e).hub.state ∧
      ∀ ev ∈ es, ∀ c, ev.Names c → e.Names c := by
  have one : ∀ ev : Draconity.Event, Draconity.Enabled s.hub.state ev →
      Draconity.step N.env s.hub.state ev = (step N s e).hub.state →
      (∀ c, ev.Names c → e.Names c) →
      ∃ es, (eventLoop N.env).Run s.hub.state es ∧
        (eventLoop N.env).exec s.hub.state es = (step N s e).hub.state ∧
        ∀ ev ∈ es, ∀ c, ev.Names c → e.Names c := by
    intro ev hev hstep hnames
    refine ⟨[ev], ⟨hev, trivial⟩, hstep, fun ev' hmem c hc => ?_⟩
    rw [List.mem_singleton.1 hmem] at hc
    exact hnames c hc
  have none : (step N s e).hub.state = s.hub.state →
      ∃ es, (eventLoop N.env).Run s.hub.state es ∧
        (eventLoop N.env).exec s.hub.state es = (step N s e).hub.state ∧
        ∀ ev ∈ es, ∀ c, ev.Names c → e.Names c :=
    fun hsame => ⟨[], trivial, hsame.symm, fun ev hmem => nomatch hmem⟩
  cases e with
  | connect => exact one .connect he.2 rfl nofun
  | close c stack => exact one (.close c stack) he.2 rfl nofun
  | data c bytes =>
    obtain ⟨es, hrun, hexec, hmem⟩ := Hub.data_run h.wired he.2 bytes
    refine ⟨es, hrun, hexec, fun ev hev d hd => ?_⟩
    obtain ⟨tid, msg, found, rfl⟩ := hmem ev hev
    exact hd
  | timer => exact one .timer he.2 rfl nofun
  | ready k => exact one .ready trivial rfl nofun
  | mimicDone k stale => exact one (.mimicDone stale) trivial rfl fun _ hc => hc
  | exec =>
    obtain ⟨p, b, hbatch⟩ := List.exists_cons_of_ne_nil he.2.2
    have hstep := congrArg (fun s => s.hub.state) (step_exec (N := N) hbatch)
    -- a message that is written does not touch the state; a pause is an event
    obtain ⟨u, msg | ⟨msg, tid, c⟩ | token⟩ := p
    · exact none (hstep.trans (Hub.publish_spec (N := N) msg h.consistent.nodup).1)
    · exact none (hstep.trans (Hub.send_spec (N := N) msg tid c).1)
    · have htoken : token ≠ 0 := h.tokens.batch (u, .pause token) (hbatch ▸ List.mem_cons_self ..)
      exact one (.paused token) htoken hstep.symm nofun
  | push u =>
    obtain ⟨j, js, htodo⟩ := List.exists_cons_of_ne_nil he.1
    exact none (congrArg (fun s => s.hub.state) (step_push (N := N) htodo))
  | paused | publish | phrase | send | wake | take | finish => exact none rfl

theorem clientNonce_le {E : Env} {s : State} {es : List Draconity.Event}
    (hr : (eventLoop E).Run s es) : s.clientNonce ≤ ((eventLoop E).exec s es).clientNonce := by
  refine hr.keeps (I := fun m => s.clientNonce ≤ m.clientNonce) (fun m ev hm hev => ?_)
    (Nat.le_refl _)
  have hstep := congrArg Barrier.next ((barrier_simulates E).step m ev hev)
  exact Nat.le_trans hm ((Barrier.next_le_step m.barrier _).trans hstep.ge)

theorem Steady.clientNonce_le (h : Steady N s) (he : s.Enabled e) :
    s.hub.state.clientNonce ≤ (step N s e).hub.state.clientNonce := by
  obtain ⟨es, hrun, hexec, -⟩ := h.run he
  rw [← hexec]
  exact System.clientNonce_le hrun

/-- What is not a chunk of a client may write it a message, if it is on the list, and does nothing
else to it. -/
theorem Steady.conns_step (h : Steady N s) (he : s.Enabled e) {c : ClientId}
    (hno : ∀ bytes, e ≠ .data c bytes) :
    (step N s e).hub.conns c = s.hub.conns c ∨ c ∈ s.hub.state.clients ∧ ∃ tid msg,
      (step N s e).hub.conns c = (s.hub.conns c).writeMessage N.transport.byteOrder tid msg := by
  cases e with
  | connect => exact .inl (congrFun (Hub.listen_conns_of_fresh (h.fresh _ (Nat.le_refl _))) c)
  | data d bytes =>
    have hd : c ≠ d := by
      rintro rfl
      exact hno bytes rfl
    exact .inl (Hub.data_conns_of_ne hd bytes)
  | exec =>
    obtain ⟨p, b, hbatch⟩ := List.exists_cons_of_ne_nil he.2.2
    rw [step_exec hbatch]
    obtain ⟨u, msg | ⟨msg, tid, d⟩ | token⟩ := p
    · have hconns := (Hub.publish_spec (N := N) msg h.consistent.nodup).2 c
      split_ifs at hconns with hc
      · exact .inr ⟨hc, _, _, hconns⟩
      · exact .inl hconns
    · have hconns := (Hub.send_spec (N := N) (h := s.hub) msg tid d).2 c
      split_ifs at hconns with hc
      · exact .inr ⟨hc.2, _, _, hconns⟩
      · exact .inl hconns
    · exact .inl rfl
  | push u =>
    obtain ⟨j, js, htodo⟩ := List.exists_cons_of_ne_nil he.1
    exact .inl (congrArg (fun s => s.hub.conns c) (step_push (N := N) htodo))
  | close | timer | ready | mimicDone | paused | publish | phrase | send | wake | take | finish =>
    exact .inl rfl

/-- An event changes no client that is not on the list. -/
theorem Steady.conns_of_not_mem (h : Steady N s) (he : s.Enabled e) {c : ClientId}
    (hc : c ∉ s.hub.state.clients) : (step N s e).hub.conns c = s.hub.conns c := by
  have hno : ∀ bytes, e ≠ .data c bytes := by
    rintro bytes rfl
    exact hc he.2
  rcases h.conns_step he hno with hsame | ⟨hmem, -⟩
  · exact hsame
  · exact absurd hmem hc

theorem Steady.wired_step (h : Steady N s) (he : s.Enabled e) : (step N s e).hub.Wired N := by
  by_cases hdata : ∃ d bytes, e = .data d bytes
  · obtain ⟨d, bytes, rfl⟩ := hdata
    exact h.wired.data d bytes
  · have hconns : ∀ c, (step N s e).hub.conns c = s.hub.conns c ∨ ∃ tid msg,
        (step N s e).hub.conns c =
          (s.hub.conns c).writeMessage N.transport.byteOrder tid msg := fun c =>
      (h.conns_step he fun bytes heq => hdata ⟨c, bytes, heq⟩).imp_right And.right
    constructor
    · intro c
      rcases hconns c with hc | ⟨tid, msg, hc⟩ <;> rw [hc] <;> exact h.wired.id c
    · intro c
      rcases hconns c with hc | ⟨tid, msg, hc⟩ <;> rw [hc] <;> exact h.wired.secret c
    · intro c
      rcases hconns c with hc | ⟨tid, msg, hc⟩ <;> rw [hc] <;> exact h.wired.standsAt c

theorem steady_start (N : Net) : Steady N (machine N).start where
  wired := Hub.wired_init N
  fresh _ _ := rfl
  tokens := {
    todo := fun _ _ hj => nomatch hj
    queue := fun _ hp => nomatch hp
    batch := fun _ hp => nomatch hp }
  state := ⟨[], trivial, rfl⟩

theorem steady_step (h : Steady N s) (he : s.Enabled e) : Steady N (step N s e) where
  wired := h.wired_step he
  fresh c hc := by
    have hle := Nat.le_trans (h.clientNonce_le he) hc
    have hnot : c ∉ s.hub.state.clients := fun hmem =>
      absurd (h.consistent.below c hmem) (Nat.not_lt.2 hle)
    rw [h.conns_of_not_mem he hnot]
    exact h.fresh c hle
  tokens := h.tokens.step he fun _ => proper_begun he
  state := by
    obtain ⟨es, hrun, hexec, -⟩ := h.run he
    rw [← hexec]
    exact h.state.exec hrun

theorem steady_of_reachable (h : (machine N).Reachable s) : Steady N s :=
  Machine.invariant (M := machine N) (steady_start N) (fun _ _ hs he => steady_step hs he) h

/-- A client that was given out and is off the list does not come back. -/
theorem Steady.gone (h : Steady N s) (he : s.Enabled e) {c : ClientId}
    (hn : c < s.hub.state.clientNonce) (hc : c ∉ s.hub.state.clients) :
    c ∉ (step N s e).hub.state.clients := by
  obtain ⟨es, hrun, hexec, -⟩ := h.run he
  obtain ⟨hrun', hexec'⟩ := (barrier_simulates N.env).run hrun
  have hgone := Barrier.gone_exec hrun' hn hc
  rw [hexec', hexec] at hgone
  exact hgone

end System

end Draconity
