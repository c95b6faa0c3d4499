import Draconity.Resume

/-!
What becomes of the tokens of the pauses.

A pause that is handled while a token is outstanding overwrites `pause_token`, and nothing else
holds the token that was there: Dragon is never resumed with it.  Tokens are lost in no other way.
-/

namespace Draconity

open Lib

variable {E : Env} {s : State} {es : List Event}

/-- A pause is handled while the token of an earlier one is outstanding. -/
def Overtakes (s : State) (e : Event) : Prop := s.pauseToken ≠ 0 ∧ e.token.isSome

instance (s : State) : DecidablePred (Overtakes s) := fun _ => inferInstanceAs (Decidable (_ ∧ _))

/-- When Dragon is not paused after the events, each token whose `handle_pause` has run was passed
to `_DSXEngine_Resume` exactly once. -/
def NoneLost (E : Env) (es : List Event) : Prop :=
  ((eventLoop E).exec (eventLoop E).start es).pauseToken = 0 →
    ∀ t ∈ es.filterMap Event.token,
      (resumes ((eventLoop E).exec (eventLoop E).start es)).count t = 1

theorem overtakes_iff (s : State) (e : Event) :
    Overtakes s e ↔ Barrier.overwritten s.barrier (e.signal E s) ≠ [] := by
  have hraised : s.barrier.raised.toList ≠ [] ↔ s.pauseToken ≠ 0 := by
    rw [← barrier_raised_isSome]
    cases s.barrier.raised <;> simp
  unfold Overtakes
  cases e with
  | paused t => simpa [Event.token, Event.signal, Barrier.overwritten] using hraised.symm
  | message c tid msg found =>
    unfold Event.signal
    dsimp only
    split_ifs <;> simp [Event.token, Barrier.overwritten]
  | connect | close c stack | timer | ready | mimicDone =>
    simp [Event.token, Event.signal, Barrier.overwritten]

/-- After a run with distinct tokens, no token is lost exactly when no pause overtook another. -/
theorem noneLost_iff (hr : (eventLoop E).Run (eventLoop E).start es)
    (hd : (es.filterMap Event.token).Nodup) :
    NoneLost E es ↔ (((eventLoop E).exec (eventLoop E).start es).pauseToken = 0 →
      ¬ (eventLoop E).Occurs Overtakes (eventLoop E).start es) := by
  have hsim := barrier_simulates E
  obtain ⟨-, hexec⟩ := hsim.run hr
  have htokens := events_token (E := E) (eventLoop E).start es
  refine forall_congr' fun h0 => ?_
  have hraised : ((Barrier.machine UInt64).exec Barrier.init
      ((eventLoop E).events (fun s e => e.signal E s) (eventLoop E).start es)).raised = none := by
    show ((Barrier.machine UInt64).exec (Barrier.machine UInt64).start _).raised = none
    rw [← hsim.start, hexec]
    exact barrier_raised_none.2 h0
  have hiff := Barrier.released_once_iff (htokens ▸ hd) hraised
  rw [htokens, show Barrier.init = (Barrier.machine UInt64).start from rfl, ← hsim.start,
    hexec, ← hsim.occurs overtakes_iff hr] at hiff
  exact hiff

/-- **When no pause token is lost.**  In a run whose pauses have distinct tokens: whenever Dragon is
not paused, each token that was handled has been resumed exactly once, if and only if no pause before
that moment was handled while the token of another was outstanding. -/
theorem tokens_resumed_iff (hr : (eventLoop E).Run (eventLoop E).start es)
    (hd : (es.filterMap Event.token).Nodup) :
    (∀ pre, pre <+: es → NoneLost E pre) ↔
      ∀ pre, pre <+: es → ((eventLoop E).exec (eventLoop E).start pre).pauseToken = 0 →
        ¬ (eventLoop E).Occurs Overtakes (eventLoop E).start pre :=
  forall₂_congr fun _ hpre =>
    noneLost_iff (hr.of_prefix hpre) (hd.sublist (hpre.sublist.filterMap _))

/-- A second pause is handled before the first token was resumed. -/
def overtaken : List Event := [.connect, .paused 7, .paused 8, .timer]

/-- The first token is lost. -/
theorem tokens_resumed_fails : ¬ ∀ (E : Env) (es : List Event),
    (eventLoop E).Run (eventLoop E).start es → (es.filterMap Event.token).Nodup →
      ∀ pre, pre <+: es → NoneLost E pre := by
  intro h
  have hlost := h .obliging overtaken (by decide) (by decide) overtaken List.prefix_rfl
  exact absurd (hlost (by decide) 7 (by decide)) (by decide)

theorem tokens_resumed_iff_timeouts : NoneLost .obliging
    [.connect, .paused 7, .timer, .paused 8, .timer] := by
  have hr : (eventLoop .obliging).Run (eventLoop .obliging).start
      [.connect, .paused 7, .timer, .paused 8, .timer] := by decide
  refine (tokens_resumed_iff hr (by decide)).2 (fun pre hpre _ hocc => ?_) _ List.prefix_rfl
  obtain ⟨post, hpost⟩ := hpre
  have hall : ¬ (eventLoop .obliging).Occurs Overtakes (eventLoop .obliging).start
      [.connect, .paused 7, .timer, .paused 8, .timer] := by decide
  rw [← hpost] at hall
  exact hall (Machine.occurs_append.2 (.inl hocc))

end Draconity
