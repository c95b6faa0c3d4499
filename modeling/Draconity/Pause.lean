import Draconity.Lib.Barrier
import Draconity.Shadow

/-!
The pause protocol is a barrier.

The token, the awaited clients, the timer and the connections form a `Lib.Barrier`, and every event
of the event loop is one signal to it: a pause raises it, an accepted `unpause` answers, a close
leaves, and the timer lets it expire.  Syncs do not touch it.
-/

namespace Draconity

open Lib

variable {E : Env} {s s' : State} {c : ClientId}

/-! ### Syncs and updates leave the pause protocol alone -/

theorem Calls.resumed {P : Call → Prop} (hP : ∀ c, P c → c.resumed = none) {d d' : Dragon}
    (h : Calls E P d d') : d'.log.filterMap (fun c => c.1.resumed) =
      d.log.filterMap fun c => c.1.resumed :=
  h.keeps (fun d => d.log.filterMap fun c => c.1.resumed) fun d c hc => by simp [hP c hc]

theorem Call.OnGrammar.resumed {n : CString} {c : Call} (h : c.OnGrammar n) :
    c.resumed = none := by
  obtain ⟨op, rfl⟩ := h
  rfl

theorem Call.OnWord.resumed {c : Call} (h : c.OnWord) : c.resumed = none := by
  obtain ⟨w, rfl | rfl | rfl⟩ := h <;> rfl

theorem sendGsetResponse_samePause (tid : UInt32) (n : CString) (status : Status)
    (errors : List GrammarError) (s : State) :
    SamePause s (sendGsetResponse c tid n status errors s) := samePause_issue _ s

theorem removeGrammar_samePause (n : CString) (g : Grammar) (s : State) :
    SamePause s (removeGrammar E n g s) :=
  ⟨rfl, rfl, rfl, rfl, rfl,
    (unloadIfEnabled_only g s.dragon).2.resumed fun _ => Call.OnGrammar.resumed⟩

theorem syncEntry_samePause (s : State) (e : Σ _ : CString, GrammarState) :
    SamePause s (syncEntry E s e) := by
  unfold syncEntry syncUnload syncSet
  split_ifs with hu
  · dsimp only
    split
    · exact (removeGrammar_samePause ..).trans (sendGsetResponse_samePause ..)
    · exact sendGsetResponse_samePause ..
  · dsimp only
    generalize hg : (s.grammars.lookup e.1).getD (Grammar.new e.1) = g
    have h : SamePause s { s with
        grammars := s.grammars.insert e.1 { (syncGrammar E g e.2 s.dragon).1 with errors := [] }
        dragon := (syncGrammar E g e.2 s.dragon).2 } :=
      ⟨rfl, rfl, rfl, rfl, rfl,
        (syncGrammar_only g e.2 s.dragon).2.resumed fun _ => Call.OnGrammar.resumed⟩
    split_ifs
    · exact h.trans (sendGsetResponse_samePause ..)
    · exact (h.trans (removeGrammar_samePause ..)).trans (sendGsetResponse_samePause ..)

theorem syncWords_samePause (s : State) : SamePause s (syncWords E s) := by
  have hpass : ∀ errors (s : State) e, SamePause s (handleClientFailures errors s e) :=
    fun _ _ _ => ⟨rfl, rfl, rfl, rfl, rfl, rfl⟩
  refine SamePause.trans ?_ (Keyed.foldl_rel SamePause.refl SamePause.trans (hpass _) _ _)
  exact ⟨rfl, rfl, rfl, rfl, rfl, (setWords_calls _ _).resumed fun _ => Call.OnWord.resumed⟩

/-- A sync leaves the pause protocol alone. -/
theorem syncState_samePause (s : State) : SamePause s (syncState E s) := by
  have h := (syncWords_samePause (E := E) s).trans (Keyed.foldl_rel SamePause.refl SamePause.trans
    (syncEntry_samePause (E := E)) (E.grammarOrder (syncWords E s).syncs
      (syncWords E s).shadowGrammars.entries) (syncWords E s))
  exact ⟨h.pauseToken, h.pauseClients, h.pauseTimer, h.clients, h.clientNonce, h.resumes⟩

theorem setShadowWords_samePause (tid : UInt32) (ws : OrdSet CString) (s : State) :
    SamePause s (setShadowWords c tid ws s) := by
  unfold setShadowWords
  cases s.shadowWords.lookup c with
  | none => exact ⟨rfl, rfl, rfl, rfl, rfl, rfl⟩
  | some w => dsimp only; split_ifs <;> exact ⟨rfl, rfl, rfl, rfl, rfl, rfl⟩

theorem setShadowGrammar_samePause (n : CString) (shadow : GrammarState) (s : State) :
    SamePause s (setShadowGrammar n shadow s) := by
  unfold setShadowGrammar
  cases s.shadowGrammars.lookup n <;> exact ⟨rfl, rfl, rfl, rfl, rfl, rfl⟩

theorem acceptGrammar_samePause (n : CString) (shadow : GrammarState) (s : State) :
    SamePause s (acceptGrammar E n shadow s) := by
  unfold acceptGrammar
  dsimp only
  split_ifs
  · exact (setShadowGrammar_samePause ..).trans (syncState_samePause _)
  · exact setShadowGrammar_samePause ..

theorem acceptGrammar_eq (n : CString) (shadow : GrammarState) (s : State) :
    acceptGrammar E n shadow s =
      if s.pauseToken = 0 then setShadowGrammar n shadow s
      else syncState E (setShadowGrammar n shadow s) := by
  unfold acceptGrammar
  dsimp only
  rw [(setShadowGrammar_samePause n shadow s).pauseToken, ite_not]

theorem draconityMimicDone_samePause (stale : Option (ClientId × UInt32)) (s : State) :
    SamePause s (draconityMimicDone stale s) := by
  unfold draconityMimicDone
  split
  · exact .refl s
  · exact ⟨rfl, rfl, rfl, rfl, rfl, rfl⟩

/-! ### The barrier -/

/-- The pause protocol of a state.  A token of `0` stands for none. -/
def State.barrier (s : State) : Barrier UInt64 where
  raised := if s.pauseToken = 0 then none else some s.pauseToken
  awaited := s.pauseClients
  armed := s.pauseTimer
  members := s.clients
  next := s.clientNonce
  released := resumes s

/-- The token of an `unpause` request that is accepted. -/
def Event.unpauses (E : Env) (s : State) : Event → Option UInt64
  | .message c tid (some root) found =>
    if (Fields.ofRoot root).cmd = some (.lit "unpause") ∧
        (handleMessage E c tid (some root) found s).1 = some .success then
      some (Fields.ofRoot root).token
    else none
  | _ => none

/-- What an event is to the barrier. -/
def Event.signal (E : Env) (s : State) (e : Event) : Barrier.Signal UInt64 :=
  match e with
  | .connect => .join
  | .close c _ => .leave c
  | .message c _ _ _ => if (e.unpauses E s).isSome then .answer c else .idle
  | .paused t => .raise t
  | .timer => .expire
  | .ready | .mimicDone _ => .idle

theorem SamePause.barrier (h : SamePause s s') : s'.barrier = s.barrier := by
  unfold State.barrier
  rw [h.pauseToken, h.pauseClients, h.pauseTimer, h.clients, h.clientNonce, h.resumes]

theorem barrier_raised_isSome : s.barrier.raised.isSome ↔ s.pauseToken ≠ 0 := by
  unfold State.barrier
  dsimp only
  split_ifs with h <;> simp [h]

theorem barrier_raised_eq {t : UInt64} (ht : t ≠ 0) :
    s.barrier.raised = some t ↔ s.pauseToken = t := by
  unfold State.barrier
  dsimp only
  split_ifs with h
  · simp [h, ht.symm]
  · simp

theorem pauseToken_pos : s.pauseToken > 0 ↔ s.pauseToken ≠ 0 := UInt64.pos_iff_ne_zero

/-- `do_unpause` releases the barrier. -/
theorem doUnpause_barrier (E : Env) (s : State) : (doUnpause E s).barrier = s.barrier.release := by
  unfold doUnpause Barrier.release
  by_cases h : s.pauseToken = 0
  · rw [show s.barrier.raised = none from if_pos h, if_neg (by simp [h])]
  · rw [show s.barrier.raised = some s.pauseToken from if_neg h, if_pos (pauseToken_pos.2 h)]
    have hres := resumes_call (E := E) (.resume s.pauseToken) s
    exact congrArg (Barrier.mk none ∅ false s.clients s.clientNonce) hres

theorem doUnpause_of_not_paused (h : s.pauseToken = 0) : doUnpause E s = s := if_neg (by simp [h])

theorem resumes_doUnpause (h0 : s.pauseToken ≠ 0) :
    resumes (doUnpause E s) = resumes s ++ [s.pauseToken] := by
  have hrel : resumes (doUnpause E s) = resumes s ++ s.barrier.raised.toList :=
    (congrArg Barrier.released (doUnpause_barrier E s)).trans (Barrier.release_released _)
  rwa [show s.barrier.raised = some s.pauseToken from if_neg h0] at hrel

/-- `client_unpause` with the current token strikes the client off. -/
theorem clientUnpause_barrier (E : Env) (c : ClientId) (s : State) :
    (clientUnpause E c s.pauseToken s).barrier = s.barrier.strike c := by
  unfold clientUnpause Barrier.strike
  rw [if_pos rfl]
  dsimp only
  by_cases h : s.pauseClients.erase c = ∅
  · rw [if_pos h, if_pos (show s.barrier.awaited.erase c = ∅ from h)]
    exact doUnpause_barrier E { s with pauseClients := s.pauseClients.erase c }
  · rw [if_neg h, if_neg (show ¬ s.barrier.awaited.erase c = ∅ from h)]
    rfl

def State.dropClient (c : ClientId) (s : State) : State :=
  { s with clients := s.clients.filter (· ≠ c) }

theorem handleClose_of_not_paused (h : s.pauseToken = 0) (c : ClientId)
    (stack : CString → UInt32) :
    handleClose E c stack s = clearClientState c stack (s.dropClient c) :=
  if_neg (show ¬ s.pauseToken > 0 from fun h' => pauseToken_pos.1 h' h)

theorem handleClose_of_paused (h : s.pauseToken ≠ 0) (c : ClientId) (stack : CString → UInt32) :
    handleClose E c stack s =
      clientUnpause E c s.pauseToken (syncState E (clearClientState c stack (s.dropClient c))) := by
  have hsync := syncState_samePause (E := E) (clearClientState c stack (s.dropClient c))
  have htoken : s.pauseToken = (syncState E (clearClientState c stack (s.dropClient c))).pauseToken :=
    hsync.pauseToken.symm
  rw [htoken]
  exact if_pos (show s.pauseToken > 0 from pauseToken_pos.2 h)

theorem handleClose_barrier (E : Env) (c : ClientId) (stack : CString → UInt32) (s : State) :
    (handleClose E c stack s).barrier = s.barrier.step (.leave c) := by
  have hclear : SamePause (s.dropClient c) (clearClientState c stack (s.dropClient c)) :=
    ⟨rfl, rfl, rfl, rfl, rfl, rfl⟩
  have hsync := hclear.trans (syncState_samePause (E := E) _)
  have hbar : (s.dropClient c).barrier =
      { s.barrier with members := s.clients.filter (· ≠ c) } := rfl
  unfold Barrier.step
  dsimp only
  by_cases h : s.pauseToken = 0
  · rw [handleClose_of_not_paused h, hclear.barrier, hbar,
      if_neg (by rw [barrier_raised_isSome]; simp [h])]
    rfl
  · have htoken : s.pauseToken = _ := hsync.pauseToken.symm
    rw [handleClose_of_paused h, if_pos (barrier_raised_isSome.2 h), htoken, clientUnpause_barrier,
      hsync.barrier, hbar]
    rfl

theorem handlePause_barrier (E : Env) {t : UInt64} (ht : t ≠ 0) (s : State) :
    (handlePause E t s).barrier = s.barrier.step (.raise t) := by
  have hsync := syncState_samePause (E := E) { s with pauseToken := t }
  have hbar : ({ s with pauseToken := t } : State).barrier = { s.barrier with raised := some t } :=
    congrArg (fun r => Barrier.mk r _ _ _ _ _) (if_neg ht)
  rw [handlePause_eq]
  generalize syncState E { s with pauseToken := t } = s₁ at hsync
  have h₁ : s₁.barrier = { s.barrier with raised := some t } := hsync.barrier.trans hbar
  have hclients : s₁.clients = s.clients := hsync.clients
  unfold afterPauseSync Barrier.step
  dsimp only
  by_cases hm : s.clients = []
  · rw [if_pos (hclients.trans hm), if_pos (show s.barrier.members = [] from hm),
      doUnpause_barrier, h₁]
  · rw [if_neg (hclients ▸ hm), if_neg (show ¬ s.barrier.members = [] from hm)]
    have hmk : ∀ b : Barrier UInt64, s₁.barrier = b →
        Barrier.mk s₁.barrier.raised (s₁.clients.foldl (fun p c => p.insert c) s₁.pauseClients)
          true s₁.clients s₁.clientNonce (resumes s₁) =
        { b with awaited := b.members.foldl (fun p c => p.insert c) b.awaited, armed := true } := by
      rintro _ rfl
      rfl
    exact hmk _ h₁

/-- An accepted `unpause` is one whose token is the current one. -/
theorem handleMessage_barrier (E : Env) (c : ClientId) (tid : UInt32) (msg : Option Elements)
    (found : Found) (s : State) :
    (∃ t, (Event.message c tid msg found).unpauses E s = some t ∧ t ≠ 0 ∧ s.pauseToken = t ∧
      (handleMessage E c tid msg found s).2.barrier = s.barrier.strike c) ∨
    ((Event.message c tid msg found).unpauses E s = none ∧
      (handleMessage E c tid msg found s).2.barrier = s.barrier) := by
  cases msg with
  | none => exact .inr ⟨rfl, rfl⟩
  | some root =>
    have hd := dispatch_handled E c tid (.ofRoot root) found s
    generalize hr : dispatch E c tid (.ofRoot root) found s = r at hd
    have hbar : (handleMessage E c tid (some root) found s).2.barrier = r.2.barrier := by
      rw [← hr]; exact (samePause_issue _ _).barrier
    have hreply : (handleMessage E c tid (some root) found s).1 = r.1.toReply := by rw [← hr]; rfl
    unfold Event.unpauses
    dsimp only
    rw [hreply, hbar]
    cases hd with
    | words ws cmd =>
      exact .inr ⟨if_neg fun h => absurd h.2 nofun, (setShadowWords_samePause tid ws s).barrier⟩
    | grammar name shadow cmd hn hc ht hb =>
      exact .inr ⟨if_neg fun h => absurd h.2 nofun, (acceptGrammar_samePause name shadow s).barrier⟩
    | unpause cmd h0 ht =>
      refine .inl ⟨_, if_pos ⟨cmd, rfl⟩, h0, ht.symm, ?_⟩
      rw [ht]
      exact clientUnpause_barrier E c s
    | quiet o s' _ pause _ refused =>
      refine .inr ⟨if_neg fun h => ?_, pause.barrier⟩
      -- an `unpause` that leaves the pause alone was refused
      obtain ⟨e, rfl⟩ := refused h.1
      exact nomatch h.2

/-- **The pause protocol is a barrier**: every event of the event loop is one signal to it. -/
theorem barrier_simulates (E : Env) : (eventLoop E).Simulates (Barrier.machine UInt64)
    State.barrier (fun s e => e.signal E s) where
  start := rfl
  enabled s e he := by
    cases e with
    | connect | paused t | ready | mimicDone => trivial
    | close c stack => exact he
    | timer => exact he
    | message c tid msg found =>
      unfold Event.signal
      dsimp only
      rcases handleMessage_barrier E c tid msg found s with ⟨t, h, h0, ht, -⟩ | ⟨h, -⟩
      · rw [h]
        exact ⟨he, barrier_raised_isSome.2 (ht ▸ h0)⟩
      · rw [h]
        trivial
  step s e he := by
    cases e with
    | connect => rfl
    | close c stack => exact handleClose_barrier E c stack s
    | message c tid msg found =>
      unfold Event.signal
      dsimp only
      rcases handleMessage_barrier E c tid msg found s with ⟨t, h, -, -, hb⟩ | ⟨h, hb⟩
      · rw [h]; exact hb
      · rw [h]; exact hb
    | paused t => exact handlePause_barrier E he s
    | timer => exact doUnpause_barrier E { s with pauseTimer := false }
    | ready => exact (draconityReady_same s).2.barrier
    | mimicDone stale => exact (draconityMimicDone_samePause stale s).barrier

end Draconity
