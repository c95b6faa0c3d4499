import Draconity.Resume

/-!
Grammar updates while Dragon is paused.

Two commands and the cleanup of a disconnect can add an update while Dragon is paused, and each of
them syncs before its event ends; a pause syncs before anything else happens.  So nothing is pending
between two events while there is a token (`PausedApplied`), and Dragon is never resumed with an
update pending.
-/

namespace Draconity

open Lib

variable {E : Env} {s s' : State} {c : ClientId} {es : List Event}

/-- No grammar update is pending while Dragon is paused. -/
def PausedApplied (s : State) : Prop := s.pauseToken ≠ 0 → s.shadowGrammars = ∅

/-- Dragon is paused after an event only if it was before, or if the event is a pause. -/
theorem paused_of_step {e : Event} (he : Enabled s e) (h : (step E s e).pauseToken ≠ 0) :
    s.pauseToken ≠ 0 ∨ ∃ t, e = .paused t := by
  have hstep : (step E s e).barrier = s.barrier.step (e.signal E s) :=
    (barrier_simulates E).step s e he
  have hraised : (s.barrier.step (e.signal E s)).raised ≠ none := by
    rw [← hstep]
    exact barrier_raised_none.not.2 h
  have hforce : e.token.or s.barrier.raised ≠ none := by
    rcases Barrier.released_step s.barrier (e.signal E s) with ⟨-, h | h⟩ | ⟨_, -, -, h⟩
    · exact absurd h hraised
    · rw [signal_token] at h; exact h ▸ hraised
    · exact absurd h hraised
  cases e with
  | paused t => exact .inr ⟨t, rfl⟩
  | connect | close c stack | message c tid msg found | timer | ready | mimicDone =>
    exact .inl (barrier_raised_none.not.1 hforce)

theorem handleClose_paused (h : s.pauseToken ≠ 0) (c : ClientId) (stack : CString → UInt32) :
    ∃ s', s'.shadowGrammars = ∅ ∧ resumes s' = resumes s ∧ s'.pauseToken = s.pauseToken ∧
      handleClose E c stack s = clientUnpause E c s'.pauseToken s' := by
  have hsync := syncState_samePause (E := E) (clearClientState c stack (s.dropClient c))
  have htoken : (syncState E (clearClientState c stack (s.dropClient c))).pauseToken =
      s.pauseToken := hsync.pauseToken
  exact ⟨_, rfl, hsync.resumes, htoken, htoken.symm ▸ handleClose_of_paused h c stack⟩

theorem pausedApplied_step {e : Event} (he : Enabled s e) (hs : PausedApplied s) :
    PausedApplied (step E s e) := by
  intro h
  cases e with
  | connect => exact hs h
  | close c stack =>
    rcases paused_of_step he h with h0 | ⟨t, ⟨⟩⟩
    obtain ⟨s', hs', -, -, hstep⟩ := handleClose_paused (E := E) h0 c stack
    rw [step, hstep, (clientUnpause_sameStore c _ s').shadowGrammars, hs']
  | message c tid msg found =>
    rcases paused_of_step he h with h0 | ⟨t, ⟨⟩⟩
    cases msg with
    | none => exact hs h0
    | some root =>
      show (dispatch E c tid (.ofRoot root) found s).2.shadowGrammars = ∅
      have hd := dispatch_handled E c tid (.ofRoot root) found s
      generalize dispatch E c tid (.ofRoot root) found s = r at hd
      cases hd with
      | words ws cmd =>
        exact (setShadowWords_sameGrammars c tid ws s).shadowGrammars.trans (hs h0)
      | grammar name shadow => rw [acceptGrammar_eq, if_neg h0]; rfl
      | unpause => exact (clientUnpause_sameStore ..).shadowGrammars.trans (hs h0)
      | quiet o s' store => exact store.shadowGrammars.trans (hs h0)
  | paused t => exact (afterPauseSync_sameStore t _).shadowGrammars
  | timer => exact absurd (barrier_raised_none.1
      ((congrArg Barrier.raised (doUnpause_barrier E { s with pauseTimer := false })).trans
        (Barrier.release_raised _))) h
  | ready => exact (draconityReady_same s).1.shadowGrammars.trans (hs
      ((draconityReady_same (E := E) s).2.pauseToken ▸ h))
  | mimicDone stale => exact (draconityMimicDone_sameStore stale s).shadowGrammars.trans (hs
      ((draconityMimicDone_samePause stale s).pauseToken ▸ h))

theorem pausedApplied_of_reachable (h : (eventLoop E).Reachable s) : PausedApplied s :=
  Machine.invariant (I := PausedApplied) (fun h => absurd rfl h)
    (fun _ _ hs he => pausedApplied_step he hs) h

/-- From `s` to `s'` Dragon was not resumed, or it was resumed once, by `do_unpause` in a state
without pending updates, after which only messages were issued. -/
def ResumedApplied (E : Env) (s s' : State) : Prop :=
  resumes s' = resumes s ∨ ∃ m, m.shadowGrammars = ∅ ∧ m.pauseToken ≠ 0 ∧
    resumes m = resumes s ∧ resumes s' = resumes s ++ [m.pauseToken] ∧
    ∃ l, s' = { doUnpause E m with issued := (doUnpause E m).issued ++ l }

theorem doUnpause_resumedApplied {m : State} (hm : m.shadowGrammars = ∅)
    (hr : resumes m = resumes s) : ResumedApplied E s (doUnpause E m) := by
  by_cases h : m.pauseToken = 0
  · rw [doUnpause_of_not_paused h]
    exact .inl hr
  · exact .inr ⟨m, hm, h, hr, hr ▸ resumes_doUnpause h, [], by rw [List.append_nil]⟩

theorem clientUnpause_resumedApplied {m : State} (hm : m.shadowGrammars = ∅)
    (hr : resumes m = resumes s) (c : ClientId) :
    ResumedApplied E s (clientUnpause E c m.pauseToken m) := by
  unfold clientUnpause
  rw [if_pos rfl]
  dsimp only
  split_ifs
  · exact doUnpause_resumedApplied hm hr
  · exact .inl hr

theorem ResumedApplied.issue (h : ResumedApplied E s s') (i : Issued) :
    ResumedApplied E s (s'.issue i) := by
  rcases h with h | ⟨m, h₁, h₂, h₃, h₄, l, rfl⟩
  · exact .inl h
  · exact .inr ⟨m, h₁, h₂, h₃, h₄, l ++ [i], by rw [← List.append_assoc]; rfl⟩

/-- Every resume happens with no update pending. -/
theorem step_resumedApplied (hs : PausedApplied s) (e : Event) (he : Enabled s e) :
    ResumedApplied E s (step E s e) := by
  cases e with
  | connect => exact .inl rfl
  | close c stack =>
    -- a disconnect resumes Dragon behind its sync only
    by_cases h0 : s.pauseToken = 0
    · refine .inl ((congrArg Barrier.released (handleClose_barrier E c stack s)).trans ?_)
      unfold Barrier.step
      dsimp only
      rw [if_neg fun h => barrier_raised_isSome.1 h h0]
      rfl
    · obtain ⟨m, hm, hr, -, hstep⟩ := handleClose_paused (E := E) h0 c stack
      rw [step, hstep]
      exact clientUnpause_resumedApplied hm hr c
  | message c tid msg found =>
    cases msg with
    | none => exact .inl rfl
    | some root =>
      suffices h : ResumedApplied E s (dispatch E c tid (.ofRoot root) found s).2 from h.issue _
      have hd := dispatch_handled E c tid (.ofRoot root) found s
      generalize dispatch E c tid (.ofRoot root) found s = r at hd
      cases hd with
      | words ws => exact .inl (setShadowWords_samePause tid ws s).resumes
      | grammar name shadow => exact .inl (acceptGrammar_samePause name shadow s).resumes
      | quiet o s' _ pause => exact .inl pause.resumes
      | unpause cmd h0 ht =>
        rw [ht] at h0 ⊢
        exact clientUnpause_resumedApplied (hs h0) rfl c
  | paused t =>
    have hsync := syncState_samePause (E := E) { s with pauseToken := t }
    rw [step, handlePause_eq]
    unfold afterPauseSync
    split_ifs
    · exact doUnpause_resumedApplied rfl hsync.resumes
    · exact .inl hsync.resumes
  | timer =>
    by_cases h0 : s.pauseToken = 0
    · rw [step, handleTimer, doUnpause_of_not_paused (s := { s with pauseTimer := false }) h0]
      exact .inl rfl
    · exact doUnpause_resumedApplied (hs h0) rfl
  | ready => exact .inl (draconityReady_same s).2.resumes
  | mimicDone stale => exact .inl (draconityMimicDone_samePause stale s).resumes

/-- An update accepted while Dragon is paused is synced and answered by its own event. -/
theorem grammarUpdate_paused (hs : PausedApplied s) (h0 : s.pauseToken ≠ 0) {e : Event}
    {n : CString} {tid : UInt32} (he : e.grammarUpdate E s n = some (c, tid)) :
    ∃ r, gsetAnswers n (step E s e) = gsetAnswers n s ++ [r] ∧ r.clientId = c ∧ r.tid = tid ∧
      r.status ≠ .skipped ∧ (step E s e).shadowGrammars = ∅ := by
  obtain ⟨⟨c', tid', f⟩, hdef, hif⟩ := Option.bind_eq_some_iff.1 he
  split_ifs at hif with hcmd
  cases hif
  obtain ⟨hcmd, hname⟩ := hcmd
  obtain ⟨ops, hops⟩ := step_does E s e
  cases hops with
  | quiet _ reply =>
    have := reply _ _ _ hdef
    rw [this] at hcmd
    exact absurd hcmd (by decide)
  | words ws he' cmd =>
    rw [hdef] at he'
    cases he'
    rw [cmd] at hcmd
    exact absurd hcmd (by decide)
  | paused => cases hdef
  | close => cases hdef
  | grammar name shadow he' cmd hn hc ht hb rest =>
    rw [hdef] at he'
    cases he'
    obtain rfl := Option.some.inj (hname.symm.trans hn)
    rw [acceptGrammar_eq, if_neg h0] at rest
    have hlook : (setShadowGrammar n shadow s).shadowGrammars.lookup n = some shadow := by
      rw [lookup_setShadowGrammar, if_pos rfl]
    obtain ⟨r, hans, hrc, hrt, hsync⟩ := syncState_pending (E := E) hlook
    refine ⟨r, ?_, hrc.trans hc, hrt.trans ht, hsync.not_skipped, rest.shadowGrammars⟩
    rw [rest.gset, hans, gsetAnswers_setShadowGrammar, hs h0]
    simp

/-- **No update is pending while Dragon is paused.**  After any run, with any return codes: a token
means that nothing is pending; so every resume happens with nothing pending, and an update accepted
while paused is answered at once and not as skipped. -/
theorem paused_applied (hr : (eventLoop E).Run (eventLoop E).start es) :
    let s := (eventLoop E).exec (eventLoop E).start es
    (s.pauseToken ≠ 0 → s.shadowGrammars = ∅) ∧
      (∀ e, Enabled s e → ResumedApplied E s (step E s e)) ∧
      (s.pauseToken ≠ 0 → ∀ e n c tid, e.grammarUpdate E s n = some (c, tid) →
        ∃ r, gsetAnswers n (step E s e) = gsetAnswers n s ++ [r] ∧ r.clientId = c ∧ r.tid = tid ∧
          r.status ≠ .skipped ∧ (step E s e).shadowGrammars = ∅) := by
  have hs := pausedApplied_of_reachable hr.reachable
  exact ⟨hs, step_resumedApplied hs, fun h0 _ _ _ _ he => grammarUpdate_paused hs h0 he⟩

/-- Dragon is paused, and a client sets a grammar before it unpauses. -/
def setWhilePaused : List Event :=
  [.connect, .ready, .paused 7, .message 0 1 (some (gSetRequest "g" [1])) .usual]

/-- The grammar is answered before Dragon is resumed, and nothing is pending then. -/
theorem paused_applied_set :
    let s := (eventLoop .obliging).exec (eventLoop .obliging).start (setWhilePaused.take 3)
    let s' := (eventLoop .obliging).exec (eventLoop .obliging).start setWhilePaused
    let unpause : Event :=
      .message 0 2 (some [(.lit "cmd", .utf8 (ascii "unpause")), (.lit "token", .int64 7)]) .usual
    (∃ r, gsetAnswers (.lit "g") s' = gsetAnswers (.lit "g") s ++ [r] ∧ r.clientId = 0 ∧ r.tid = 1 ∧
      r.status ≠ .skipped) ∧ s'.shadowGrammars = ∅ ∧
      ∃ m, m.shadowGrammars = ∅ ∧ m.pauseToken = 7 ∧ resumes m = [] ∧
        resumes (step .obliging s' unpause) = [7] := by
  intro s s' unpause
  have hr : (eventLoop .obliging).Run (eventLoop .obliging).start setWhilePaused := by decide
  have hprefix : setWhilePaused.take 3 <+: setWhilePaused := List.take_prefix _ _
  obtain ⟨r, hans, hc, htid, hstatus, -⟩ := (paused_applied (hr.of_prefix hprefix)).2.2 (by decide)
    (.message 0 1 (some (gSetRequest "g" [1])) .usual) (.lit "g") 0 1 (by decide)
  obtain ⟨hpending, hresume, -⟩ := paused_applied hr
  refine ⟨⟨r, hans, hc, htid, hstatus⟩, hpending (by decide), ?_⟩
  rcases hresume unpause (by decide) with hsame | ⟨m, hm, hpaused, hbefore, hafter, -⟩
  · exact absurd hsame (by decide)
  · have hnone : resumes s' = [] := by decide
    have hseven : resumes (step .obliging s' unpause) = [7] := by decide
    rw [hnone] at hbefore hafter
    exact ⟨m, hm, List.singleton_inj.1 (hafter.symm.trans hseven), hbefore, hseven⟩

end Draconity
