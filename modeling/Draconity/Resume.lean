import Draconity.Pause

/-!
When Dragon is resumed, over all runs of the event loop: the results on the barrier, read back as
facts about tokens, clients and the timer.
-/

namespace Draconity

open Lib

variable {E : Env} {s s' : State} {c : ClientId} {t : UInt64} {es : List Event}

/-! ### The barrier of a state -/

theorem consistent_of_run (hr : (eventLoop E).Run (eventLoop E).start es) :
    ((eventLoop E).exec (eventLoop E).start es).barrier.Consistent :=
  Barrier.consistent_of_reachable ((barrier_simulates E).reachable hr.reachable)

theorem barrier_raised_none : s.barrier.raised = none ↔ s.pauseToken = 0 := by
  rw [← not_iff_not]
  exact Option.isSome_iff_ne_none.symm.trans barrier_raised_isSome

/-- **Pause-state consistency.**  After any run: there is a token just when somebody is awaited and
just when the timer is armed, only connected clients are awaited, the ids of the connected clients
are distinct, and an id that is gone does not come back. -/
theorem pause_consistent (hr : (eventLoop E).Run (eventLoop E).start es) :
    let s := (eventLoop E).exec (eventLoop E).start es
    (s.pauseToken = 0 ↔ s.pauseClients = ∅) ∧
      (∀ c ∈ s.pauseClients, c ∈ s.clients) ∧
      (s.pauseTimer = true ↔ s.pauseToken ≠ 0) ∧
      s.clients.Nodup ∧
      (∀ pre mid post, es = pre ++ mid ++ post →
        ∀ c ∈ ((eventLoop E).exec (eventLoop E).start pre).clients,
          c ∉ ((eventLoop E).exec (eventLoop E).start (pre ++ mid)).clients → c ∉ s.clients) ∧
      (s.pauseToken ≠ 0 → ∃ c ∈ s.pauseClients, c ∈ s.clients) := by
  have hc := consistent_of_run hr
  dsimp only
  generalize hs : (eventLoop E).exec (eventLoop E).start es = s at hc
  have htoken : s.pauseToken = 0 ↔ s.pauseClients = ∅ := barrier_raised_none.symm.trans hc.awaited
  refine ⟨htoken, hc.members, hc.armed.trans barrier_raised_none.not, hc.nodup, ?_, fun h => ?_⟩
  · rintro pre mid post rfl c hpre hmid
    -- `c` was given out before it went away, and ids are given out in increasing order
    obtain ⟨hr₁, hr₂⟩ := Machine.run_append.1 hr
    obtain ⟨hr₀, hr₁⟩ := Machine.run_append.1 hr₁
    have hbelow := (consistent_of_run hr₀).below c hpre
    have hsim := barrier_simulates E
    have hnext : c < ((eventLoop E).exec (eventLoop E).start (pre ++ mid)).barrier.next := by
      obtain ⟨hrun, hexec⟩ := hsim.run hr₁
      have hmono := hrun.keeps (I := fun b => c < b.next)
        (fun b e h _ => lt_of_lt_of_le h (Barrier.next_le_step b e)) hbelow
      rw [hexec, ← Machine.exec_append] at hmono
      exact hmono
    obtain ⟨hrun, hexec⟩ := hsim.run hr₂
    have hgone := Barrier.gone_exec hrun hnext hmid
    rw [hexec, ← Machine.exec_append, hs] at hgone
    exact hgone
  · obtain ⟨c, hc'⟩ : ∃ c, c ∈ s.pauseClients := by
      by_contra hno
      exact h (htoken.2 (OrdSet.eq_empty_iff.2 (not_exists.1 hno)))
    exact ⟨c, hc', hc.members c hc'⟩

/-- A client that pauses and never answers is waited for, with the timer armed. -/
theorem pause_consistent_waiting :
    ∃ c ∈ ((eventLoop .obliging).exec (eventLoop .obliging).start
        [.connect, .paused 7]).pauseClients,
      c ∈ ((eventLoop .obliging).exec (eventLoop .obliging).start [.connect, .paused 7]).clients := by
  have hr : (eventLoop .obliging).Run (eventLoop .obliging).start [.connect, .paused 7] := by decide
  exact (pause_consistent hr).2.2.2.2.2 (by decide)

/-! ### When Dragon is resumed -/

def Event.token : Event → Option UInt64
  | .paused t => some t
  | _ => none

/-- The client has its `unpause` with the token `t` accepted, or closes. -/
def SettledBy (E : Env) (t : UInt64) (c : ClientId) (s : State) (e : Event) : Prop :=
  (∃ stack, e = .close c stack) ∨
    ∃ tid msg found, e = .message c tid msg found ∧ e.unpauses E s = some t

/-- After `handle_pause(t)` ran in the state `s` and the events that followed: no client was
connected, or the timer fired, or every client that was connected is settled. -/
def PauseDone (E : Env) (t : UInt64) (s : State) (es : List Event) : Prop :=
  s.clients = [] ∨
    (eventLoop E).Occurs (fun _ e => e = .timer) (step E s (.paused t)) es ∨
      ∀ c ∈ s.clients, (eventLoop E).Occurs (SettledBy E t c) (step E s (.paused t)) es

theorem unpauses_eq {e : Event} (h : e.unpauses E s = some t) : t ≠ 0 ∧ s.pauseToken = t := by
  cases e with
  | message c tid msg found =>
    rcases handleMessage_barrier E c tid msg found s with ⟨t', h', h0, ht, -⟩ | ⟨h', -⟩
    · rw [h', Option.some.injEq] at h
      exact h ▸ ⟨h0, ht⟩
    · rw [h'] at h; cases h
  | connect | close c stack | paused t | timer | ready | mimicDone => cases h

theorem settledBy_iff (ht : t ≠ 0) (s : State) (e : Event) :
    SettledBy E t c s e ↔ Barrier.Settles t c s.barrier (e.signal E s) := by
  unfold SettledBy Barrier.Settles
  rw [barrier_raised_eq ht]
  cases e with
  | close d stack =>
    constructor
    · rintro (⟨_, h⟩ | ⟨_, _, _, h, -⟩)
      · cases h; exact .inl rfl
      · cases h
    · rintro (h | ⟨h, -⟩)
      · cases h; exact .inl ⟨stack, rfl⟩
      · cases h
  | message d tid msg found =>
    unfold Event.signal
    dsimp only
    -- only an accepted `unpause` answers the barrier
    cases hu : (Event.message d tid msg found).unpauses E s with
    | none =>
      constructor
      · rintro (⟨_, h⟩ | ⟨_, _, _, h, h'⟩)
        · cases h
        · cases h
          cases h'
      · rintro (h | ⟨h, -⟩) <;> cases h
    | some t' =>
      obtain ⟨-, htoken⟩ := unpauses_eq hu
      constructor
      · rintro (⟨_, h⟩ | ⟨_, _, _, h, h'⟩)
        · cases h
        · cases h
          cases h'
          exact .inr ⟨rfl, htoken⟩
      · rintro (h | ⟨h, h'⟩)
        · cases h
        · cases h
          exact .inr ⟨tid, msg, found, rfl, congrArg some (htoken.symm.trans h')⟩
  | connect | paused t' | timer | ready | mimicDone =>
    constructor
    · rintro (⟨_, h⟩ | ⟨_, _, _, h, -⟩) <;> cases h
    · rintro (h | ⟨h, -⟩) <;> cases h

theorem timer_iff (s : State) (e : Event) : e = .timer ↔ e.signal E s = .expire := by
  cases e with
  | message c tid msg found =>
    unfold Event.signal
    dsimp only
    split_ifs <;> simp
  | connect | close c stack | paused t | timer | ready | mimicDone => simp [Event.signal]

/-- The tokens an event loop raises the barrier with are those of its pauses. -/
theorem signal_token (s : State) (e : Event) : (e.signal E s).token = e.token := by
  cases e with
  | message c tid msg found =>
    unfold Event.signal
    dsimp only
    split_ifs <;> rfl
  | connect | close c stack | paused t | timer | ready | mimicDone => rfl

theorem events_token (s : State) (es : List Event) :
    ((eventLoop E).events (fun s e => e.signal E s) s es).filterMap Barrier.Signal.token =
      es.filterMap Event.token := by
  induction es generalizing s with
  | nil => rfl
  | cons e es ih =>
    rw [Machine.events_cons, List.filterMap_cons, List.filterMap_cons, ih, signal_token]

theorem events_raise {s : State} {es : List Event} (h : ∀ e ∈ es, ∀ t', e ≠ .paused t') :
    ∀ g ∈ (eventLoop E).events (fun s e => e.signal E s) s es, ∀ t', g ≠ .raise t' := by
  induction es generalizing s with
  | nil => exact fun _ hg => absurd hg List.not_mem_nil
  | cons e es ih =>
    intro g hg t' hg'
    rw [Machine.events_cons, List.mem_cons] at hg
    rcases hg with hg | hg
    · have htok := signal_token (E := E) s e
      rw [← hg, hg'] at htok
      cases e with
      | paused t => exact h _ (List.mem_cons_self ..) t rfl
      | connect | close c stack | message c tid msg found | timer | ready | mimicDone => cases htok
    · exact ih (fun e' he' => h e' (List.mem_cons_of_mem _ he')) g hg t' hg'

/-- An event resumes Dragon at most once, and with the token that is current or just became so. -/
theorem resumes_step {e : Event} (he : Enabled s e) : resumes (step E s e) = resumes s ∨
    ∃ t, t ≠ 0 ∧ (s.pauseToken = t ∨ e = .paused t) ∧ resumes (step E s e) = resumes s ++ [t] ∧
      (step E s e).pauseToken = 0 := by
  have hstep := (barrier_simulates E).step s e he
  rcases Barrier.released_step s.barrier (e.signal E s) with ⟨hrel, -⟩ | ⟨t, ht, hrel, hraised⟩
  · exact .inl ((congrArg Barrier.released hstep).trans hrel)
  · refine .inr ⟨t, ?_, ?_, (congrArg Barrier.released hstep).trans hrel,
      barrier_raised_none.1 ((congrArg Barrier.raised hstep).trans hraised)⟩
    all_goals
      rw [signal_token] at ht
      cases e with
      | paused t' => cases ht; first | exact he | exact .inr rfl
      | connect | close c stack | message c tid msg found | timer | ready | mimicDone =>
        have h0 : s.pauseToken ≠ 0 := barrier_raised_isSome.1 (Option.isSome_of_mem ht)
        have heq : s.pauseToken = t := Option.some.inj ((if_neg h0).symm.trans ht)
        first | exact heq ▸ h0 | exact .inl heq

/-- As long as no later pause took its place, a token is resumed exactly when the wait of its pause
is done. -/
theorem resumes_after_pause {pre post : List Event}
    (hr : (eventLoop E).Run (eventLoop E).start (pre ++ .paused t :: post))
    (hpost : ∀ e ∈ post, ∀ t', e ≠ .paused t') :
    let s := (eventLoop E).exec (eventLoop E).start (pre ++ .paused t :: post)
    let p := (eventLoop E).exec (eventLoop E).start pre
    (PauseDone E t p post → s.pauseToken = 0 ∧ resumes s = resumes p ++ [t]) ∧
      (¬ PauseDone E t p post → s.pauseToken = t ∧ resumes s = resumes p) := by
  have hsim := barrier_simulates E
  obtain ⟨hpre, ht, hrun⟩ := Machine.run_append.1 hr
  have ht : t ≠ 0 := ht
  have hcons := consistent_of_run hpre
  rw [Machine.exec_append, Machine.exec_cons]
  generalize (eventLoop E).exec (eventLoop E).start pre = p at hcons hrun
  have hstep : (step E p (.paused t)).barrier = p.barrier.step (.raise t) :=
    hsim.step p (.paused t) ht
  obtain ⟨hbrun, hbexec⟩ := hsim.run hrun
  rw [show (eventLoop E).step p (.paused t) = step E p (.paused t) from rfl] at *
  rw [hstep] at hbrun hbexec
  have hwaits := Barrier.waits_exec t hcons hbrun (events_raise hpost)
  rw [hbexec] at hwaits
  -- what ends the pause is what ends the wait of the barrier
  have hdone : PauseDone E t p post ↔ Barrier.Done t p.barrier
      ((eventLoop E).events (fun s e => e.signal E s) (step E p (.paused t)) post) := by
    unfold PauseDone Barrier.Done
    rw [hsim.occurs (R := fun _ g => g = .expire) timer_iff hrun, hstep]
    refine or_congr Iff.rfl (or_congr Iff.rfl (forall₂_congr fun c _ => ?_))
    rw [hsim.occurs (settledBy_iff ht) hrun, hstep]
  dsimp only
  rw [hdone]
  refine ⟨fun h => ?_, fun h => ?_⟩
  · obtain ⟨h₁, h₂⟩ := hwaits.done h
    exact ⟨barrier_raised_none.1 h₁, h₂⟩
  · obtain ⟨h₁, h₂, -⟩ := hwaits.waiting h
    exact ⟨(barrier_raised_eq ht).1 h₁, h₂⟩

/-- An `unpause` with a token that is not the current one is refused and changes nothing. -/
theorem handleMessage_stale (c : ClientId) (tid : UInt32) {root : Elements} (found : Found)
    (hcmd : (Fields.ofRoot root).cmd = some (.lit "unpause"))
    (htok : (Fields.ofRoot root).token ≠ s.pauseToken) :
    handleMessage E c tid (some root) found s =
      (some (.error .brokenToken), s.issue (.publish (.cmd false root))) := by
  have hdispatch : dispatch E c tid (.ofRoot root) found s = (.refuse .brokenToken, s) := by
    unfold dispatch
    rw [hcmd]
    dsimp only
    rw [if_neg (by decide), if_neg (by decide), if_neg (by decide), if_neg (by decide), if_pos rfl]
    exact if_pos (.inr htok)
  exact congrArg (fun r : Outcome × State =>
    (r.1.toReply, r.2.issue (.publish (.cmd r.1.ok root)))) hdispatch

/-- **Resume discipline.**  In a run whose pauses have distinct tokens:
* no token is resumed twice;
* a resume is for the token that is current, or that the event makes current;
* as long as no later pause took its place, a token is resumed exactly when the wait of its pause is
  done;
* an `unpause` with another token is refused and changes nothing. -/
theorem resume_discipline (hr : (eventLoop E).Run (eventLoop E).start es)
    (hd : (es.filterMap Event.token).Nodup) :
    let s := (eventLoop E).exec (eventLoop E).start es
    (resumes s).Nodup ∧
      (∀ e, Enabled s e → resumes (step E s e) = resumes s ∨
        ∃ t, t ≠ 0 ∧ (s.pauseToken = t ∨ e = .paused t) ∧
          resumes (step E s e) = resumes s ++ [t] ∧ (step E s e).pauseToken = 0) ∧
      (∀ pre t post, es = pre ++ .paused t :: post → (∀ e ∈ post, ∀ t', e ≠ .paused t') →
        let p := (eventLoop E).exec (eventLoop E).start pre
        (PauseDone E t p post → s.pauseToken = 0 ∧ resumes s = resumes p ++ [t]) ∧
          (¬ PauseDone E t p post → s.pauseToken = t ∧ resumes s = resumes p)) ∧
      (∀ c tid root found, (Fields.ofRoot root).cmd = some (.lit "unpause") →
        (Fields.ofRoot root).token ≠ s.pauseToken →
        handleMessage E c tid (some root) found s =
          (some (.error .brokenToken), s.issue (.publish (.cmd false root)))) := by
  refine ⟨?_, fun e he => resumes_step he, ?_, fun c tid root found hcmd htok =>
    handleMessage_stale c tid found hcmd htok⟩
  · have hsim := barrier_simulates E
    have hdist := Barrier.distinct_exec ((events_token (E := E) (eventLoop E).start es).symm ▸ hd)
    have hbar := (hsim.run hr).2
    rw [hsim.start] at hbar
    rw [show Barrier.init = (Barrier.machine UInt64).start from rfl, hbar] at hdist
    exact hdist.nodup
  · rintro pre t post rfl hpost
    exact resumes_after_pause hr hpost

/-- Two overlapping pauses and a timeout: only the second token is resumed. -/
theorem resume_discipline_timeout :
    resumes ((eventLoop .obliging).exec (eventLoop .obliging).start
      [.connect, .paused 7, .paused 8, .timer]) = [8] := by
  have hr : (eventLoop .obliging).Run (eventLoop .obliging).start
      [.connect, .paused 7, .paused 8, .timer] := by decide
  have h := (resume_discipline hr (by decide)).2.2.1 [.connect, .paused 7] 8 [.timer] rfl
    (fun e he t' => by rw [List.mem_singleton.1 he]; exact nofun)
  exact (h.1 (.inr (.inl (.inl rfl)))).2

end Draconity
