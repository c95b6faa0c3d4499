import Draconity.Paused

/-!
What the disconnect of a client does to the updates and the grammars of another.

`clear_client_state` goes by the owner of the live grammar and not by the owner of the pending
update, so two clients that share a name can lose to the disconnect of one of them: an update of the
client that stays is replaced by an unload when the live grammar is the leaving client's, and an
update of the client that leaves stays when the live grammar is not its own.
-/

namespace Draconity

open Lib

variable {E F : Env} {s : State} {n : CString} {shadow : GrammarState} {a b : ClientId}
  {stack : CString → UInt32}

/-! ### The close of a client, seen from a name -/

/-- With a pending update, the close of a client queues its unloads and does not sync. -/
theorem handleClose_of_pending (hs : PausedApplied s) (hn : s.shadowGrammars.lookup n = some shadow) :
    handleClose E a stack s = clearClientState a stack (s.dropClient a) := by
  refine handleClose_of_not_paused ?_ a stack
  by_contra h0
  rw [hs h0] at hn
  cases hn

/-- The close of a client that owns the live grammar of a name queues an unload for it. -/
theorem handleClose_pending_of_owns (hs : PausedApplied s)
    (hn : s.shadowGrammars.lookup n = some shadow) (ho : s.Owns a n) :
    (handleClose E a stack s).shadowGrammars.lookup n = some (unloadState a (stack n)) := by
  rw [handleClose_of_pending hs hn]
  exact (lookup_clearClientState a stack (s.dropClient a) n).1 ho

/-- The close of a client leaves a pending update for a name it does not own. -/
theorem handleClose_pending_of_not_owns (hs : PausedApplied s)
    (hn : s.shadowGrammars.lookup n = some shadow) (ho : ¬ s.Owns a n)
    (stack : CString → UInt32) : (handleClose E a stack s).shadowGrammars.lookup n = some shadow ∧
      (handleClose E a stack s).record n = s.record n := by
  rw [handleClose_of_pending hs hn]
  exact ⟨((lookup_clearClientState a stack (s.dropClient a) n).2 ho).trans hn, rfl⟩

/-- The close of a client and a sync leave a name alone that it does not own and that nothing is
pending for. -/
theorem syncState_handleClose_of_none (hn : s.shadowGrammars.lookup n = none)
    (ho : ¬ s.Owns a n) :
    (syncState F (handleClose E a stack s)).record n = s.record n := by
  have hclear : (clearClientState a stack (s.dropClient a)).shadowGrammars.lookup n = none :=
    ((lookup_clearClientState a stack (s.dropClient a) n).2 ho).trans hn
  by_cases h0 : s.pauseToken = 0
  · rw [handleClose_of_not_paused h0, syncState_record_of_none hclear]
    rfl
  · have hrest := clientUnpause_sameStore (E := E) a s.pauseToken
      (syncState E (clearClientState a stack (s.dropClient a)))
    rw [handleClose_of_paused h0]
    have hsync : (syncState E (clearClientState a stack (s.dropClient a))).record n = s.record n :=
      (syncState_record_of_none hclear).trans rfl
    refine (syncState_record_of_none (by rw [hrest.shadowGrammars]; rfl)).trans (Eq.trans ?_ hsync)
    exact Prod.ext (congrArg (AList.lookup n) hrest.grammars) (hrest.gset n)

/-! ### Two clients -/

/-- What the close of `a`, with a sync right after it, leaves of the client `b`: its pending
updates are not touched by the close, its pending sets are in force after the sync, so are its live
grammars when nobody but `a` has an update for them, and each of its updates is answered. -/
structure Spares (E F : Env) (a b : ClientId) (stack : CString → UInt32) (s : State) : Prop where
  pending : ∀ n shadow, s.shadowGrammars.lookup n = some shadow → shadow.clientId = b →
    (handleClose E a stack s).shadowGrammars.lookup n = some shadow
  set : ∀ n shadow, s.shadowGrammars.lookup n = some shadow → shadow.clientId = b →
    shadow.unload = false →
    ∃ g, (syncState F (handleClose E a stack s)).grammars.lookup n = some g ∧ Follows g shadow
  live : ∀ n g, s.grammars.lookup n = some g → g.state.clientId = b →
    (∀ shadow, s.shadowGrammars.lookup n = some shadow → shadow.clientId = a) →
    ∃ g', (syncState F (handleClose E a stack s)).grammars.lookup n = some g' ∧
      g'.state.clientId = b ∧ g'.state.blob = g.state.blob ∧
      g'.state.activeRules = g.state.activeRules
  answered : ∀ n shadow, s.shadowGrammars.lookup n = some shadow → shadow.clientId = b →
    ∃ r, gsetAnswers n (syncState F (handleClose E a stack s)) = gsetAnswers n s ++ [r] ∧
      r.clientId = b ∧ r.tid = shadow.tid

/-- No update of one of the clients is pending for a name whose live grammar is the other's. -/
def Apart (a b : ClientId) (s : State) : Prop :=
  ∀ n shadow, s.shadowGrammars.lookup n = some shadow →
    (shadow.clientId = b → ¬ s.Owns a n) ∧ (shadow.clientId = a → ¬ s.Owns b n)

theorem State.Owns.not_of_ne (hab : a ≠ b) (h : s.Owns b n) : ¬ s.Owns a n := by
  rintro ⟨g, hg, rfl⟩
  obtain ⟨g', hg', hb⟩ := h
  obtain rfl := Option.some.inj (hg.symm.trans hg')
  exact hab hb

theorem spares_of_apart (hab : a ≠ b) (hF : F.AllZero) (hs : PausedApplied s) (h : Apart a b s) :
    Spares E F a b stack s where
  pending n shadow hn hb := (handleClose_pending_of_not_owns hs hn ((h n shadow hn).1 hb) stack).1
  set n shadow hn hb hu :=
    syncState_set_allZero hF (handleClose_pending_of_not_owns hs hn ((h n shadow hn).1 hb) stack).1 hu
  live n g hg hb hn := by
    have ho : s.Owns b n := ⟨g, hg, hb⟩
    have hnone : s.shadowGrammars.lookup n = none :=
      Option.eq_none_iff_forall_ne_some.2 fun shadow hsh => (h n shadow hsh).2 (hn shadow hsh) ho
    have hrec : (syncState F (handleClose E a stack s)).record n = s.record n :=
      syncState_handleClose_of_none hnone (ho.not_of_ne hab)
    exact ⟨g, (congrArg Prod.fst hrec).trans hg, hb, rfl, rfl⟩
  answered n shadow hn hb := by
    have hclose := handleClose_pending_of_not_owns (E := E) hs hn ((h n shadow hn).1 hb)
    obtain ⟨hpend, hrec⟩ := hclose stack
    obtain ⟨r, hr, hc, ht, -⟩ := syncState_pending (E := F) hpend
    have hold : gsetAnswers n (handleClose E a stack s) = gsetAnswers n s := congrArg Prod.snd hrec
    exact ⟨r, hold ▸ hr, hc.trans hb, ht⟩

theorem apart_of_spares (hab : a ≠ b) (hs : PausedApplied s) (h : Spares E F a b stack s) :
    Apart a b s := by
  refine fun n shadow hn => ⟨fun hb ho => ?_, fun ha ho => ?_⟩
  · -- the update of `b` was replaced by an unload
    have hkept := h.pending n shadow hn hb
    rw [handleClose_pending_of_owns hs hn ho, Option.some.injEq] at hkept
    exact hab ((congrArg GrammarState.clientId hkept).trans hb)
  · -- the update of `a` was synced over the grammar of `b`
    obtain ⟨g, hg, hgb⟩ := ho
    obtain ⟨g', hg', hb', -, -⟩ := h.live n g hg hgb fun shadow' hn' =>
      (congrArg GrammarState.clientId (Option.some.inj (hn'.symm.trans hn))).trans ha
    obtain ⟨hpend, -⟩ := handleClose_pending_of_not_owns (E := E) hs hn
      (State.Owns.not_of_ne hab ⟨g, hg, hgb⟩) stack
    obtain ⟨r, -, -, -, hsync⟩ := syncState_pending (E := F) hpend
    cases hsync with
    | unloaded _ _ hgone | failed _ _ _ hgone => rw [hg'] at hgone; cases hgone
    | set g'' _ _ hlive hfollows =>
      obtain rfl := Option.some.inj (hg'.symm.trans hlive)
      exact hab (ha.symm.trans (hfollows.clientId.symm.trans hb'))

/-- **When a disconnect touches only the leaving client.**  In every state the event loop reaches,
with any return codes up to the end of the disconnect of `a`, and for every other client `b`: the
disconnect, with a sync right after it in which every call returns `0`, spares `b` if and only if no
update of one of the two is pending for a name whose live grammar is the other's. -/
theorem disconnect_spares_iff (hF : F.AllZero) (h : (eventLoop E).Reachable s) (hab : a ≠ b)
    (stack : CString → UInt32) : Spares E F a b stack s ↔ Apart a b s :=
  have hs := pausedApplied_of_reachable h
  ⟨apart_of_spares hab hs, spares_of_apart hab hF hs⟩

/-- A client takes over the name of another, which leaves before the next pause. -/
def takeOver : List Event :=
  [.connect, .connect, .ready, .message 0 1 (some (gSetRequest "g" [1])) .usual, .paused 7, .timer,
    .message 1 2 (some (gSetRequest "g" [2])) .usual]

/-- The disconnect of the first client replaces the update of the second with an unload. -/
theorem disconnect_spares_fails : ¬ ∀ E F : Env, F.AllZero → ∀ s, (eventLoop E).Reachable s →
    ∀ a b, a ≠ b → ∀ stack, Spares E F a b stack s := by
  intro h
  let s := (eventLoop .obliging).exec (eventLoop .obliging).start takeOver
  have hspares := h .obliging .obliging Env.obliging_allZero s ⟨takeOver, by decide, rfl⟩ 0 1
    (by decide) fun _ => 0
  have hpend : (s.shadowGrammars.lookup (.lit "g")).map (·.clientId) = some 1 := by decide
  have hleft : ((handleClose .obliging 0 (fun _ => 0) s).shadowGrammars.lookup (.lit "g")).map
      (·.clientId) = some 0 := by decide
  obtain ⟨shadow, hn, hb⟩ := Option.map_eq_some_iff.1 hpend
  rw [hspares.pending _ shadow hn hb, Option.map_some, hb] at hleft
  exact absurd hleft (by decide)

/-- Two clients with a name each: the disconnect of one leaves the update of the other. -/
theorem disconnect_spares_iff_apart :
    Spares .obliging .obliging 0 1 (fun _ => 0) ((eventLoop .obliging).exec (eventLoop .obliging).start
      [.connect, .connect, .ready, .message 0 1 (some (gSetRequest "f" [1])) .usual,
        .message 1 2 (some (gSetRequest "g" [2])) .usual]) := by
  refine (disconnect_spares_iff (E := .obliging) (F := .obliging) Env.obliging_allZero
    ⟨_, by decide, rfl⟩ (by decide) fun _ => 0).2 fun n shadow _ => ?_
  constructor
  · rintro - ⟨g, hg, -⟩
    cases hg
  · rintro - ⟨g, hg, -⟩
    cases hg

end Draconity
