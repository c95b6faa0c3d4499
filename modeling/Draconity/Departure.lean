import Draconity.Disconnect
import Draconity.Words

/-!
What is left of a client after its disconnect.

A client that left has no entry among the connections and never gets one again, so only what its
disconnect leaves in the shadow state can bring it back.  `Leaving` is the invariant of all later
steps, and the next sync forgets the client.
-/

namespace Draconity

open Lib

variable {E : Env} {s s' : State} {n : CString} {shadow : GrammarState} {c d : ClientId}

/-- No pending set is the client's. -/
def NoSet (c : ClientId) (s : State) : Prop :=
  ∀ n shadow, s.shadowGrammars.lookup n = some shadow → shadow.unload = false → shadow.clientId ≠ c

/-- Nothing that is live is the client's: no grammar, and every loaded word is in the words of
another client. -/
structure Forgotten (c : ClientId) (s : State) : Prop where
  grammars : ∀ n g, s.grammars.lookup n = some g → g.state.clientId ≠ c
  words : ∀ a ∈ s.loadedWords, ∃ b w, b ≠ c ∧ s.shadowWords.lookup b = some w ∧ a ∈ w.words

/-- The next sync forgets the client: no pending set is its own, each of its live grammars has a
pending update, and it has no words. -/
structure Leaving (c : ClientId) (s : State) : Prop where
  noSet : NoSet c s
  live : ∀ n, s.Owns c n → ∃ shadow, s.shadowGrammars.lookup n = some shadow
  words : ∀ w, s.shadowWords.lookup c = some w → w.words = ∅

theorem Leaving.sameStore (h : Leaving c s) (hs : SameStore s s') : Leaving c s' where
  noSet n shadow hn := h.noSet n shadow (hs.shadowGrammars ▸ hn)
  live n ho := by
    unfold State.Owns at ho
    rw [hs.grammars] at ho
    rw [hs.shadowGrammars]
    exact h.live n ho
  words w hw := h.words w (hs.shadowWords ▸ hw)

theorem Forgotten.sameStore (h : Forgotten c s) (hs : SameStore s s') : Forgotten c s' where
  grammars n g hg := h.grammars n g (hs.grammars ▸ hg)
  words a ha := by
    rw [hs.shadowWords]
    exact h.words a (hs.loadedWords ▸ ha)

/-! ### The operations of the others -/

theorem Leaving.setShadowGrammar (h : Leaving c s) (hc : shadow.clientId ≠ c) :
    Leaving c (setShadowGrammar n shadow s) := by
  have hlive := (setShadowGrammar_live n shadow s).1
  refine ⟨fun k sh hk hu => ?_, fun k ho => ?_, fun w hw => ?_⟩
  · rw [lookup_setShadowGrammar] at hk
    split_ifs at hk
    · cases hk; exact hc
    · exact h.noSet k sh hk hu
  · rw [lookup_setShadowGrammar]
    unfold State.Owns at ho
    rw [hlive] at ho
    split_ifs
    · exact ⟨shadow, rfl⟩
    · exact h.live k ho
  · exact h.words w ((setShadowGrammar_sameWords n shadow s).shadowWords ▸ hw)

theorem Leaving.setShadowWords (h : Leaving c s) (hd : d ≠ c) (tid : UInt32)
    (ws : OrdSet CString) : Leaving c (setShadowWords d tid ws s) := by
  have hsame := setShadowWords_sameGrammars d tid ws s
  refine ⟨fun k sh hk => h.noSet k sh (hsame.shadowGrammars ▸ hk), fun k ho => ?_, fun w hw => ?_⟩
  · unfold State.Owns at ho
    rw [hsame.grammars] at ho
    rw [hsame.shadowGrammars]
    exact h.live k ho
  · rw [lookup_setShadowWords, if_neg (Ne.symm hd)] at hw
    exact h.words w hw

/-- A disconnect only queues unloads and only clears words. -/
theorem Leaving.clearClientState (h : Leaving c s) (d : ClientId) (stack : CString → UInt32) :
    Leaving c (clearClientState d stack s) := by
  refine ⟨fun k sh hk hu => ?_, fun k ho => ?_, fun w hw => ?_⟩
  · obtain ⟨h₁, h₂⟩ := lookup_clearClientState d stack s k
    by_cases hd : s.Owns d k
    · rw [h₁ hd] at hk; cases hk; cases hu
    · exact h.noSet k sh ((h₂ hd).symm.trans hk) hu
  · obtain ⟨h₁, h₂⟩ := lookup_clearClientState d stack s k
    by_cases hd : s.Owns d k
    · exact ⟨_, h₁ hd⟩
    · rw [h₂ hd]; exact h.live k ho
  · rw [lookup_shadowWords_clearClientState] at hw
    split_ifs at hw with hcd
    · obtain ⟨_, -, rfl⟩ := Option.map_eq_some_iff.1 hw
      rfl
    · exact h.words w hw

/-! ### A sync -/

theorem Leaving.not_owns_syncState (h : Leaving c s) (n : CString) : ¬ (syncState E s).Owns c n := by
  rintro ⟨g, hg, hc⟩
  cases hn : s.shadowGrammars.lookup n with
  | none =>
    have hold : (syncState E s).grammars.lookup n = s.grammars.lookup n :=
      congrArg Prod.fst (syncState_record_of_none hn)
    obtain ⟨shadow, hsh⟩ := h.live n ⟨g, hold.symm.trans hg, hc⟩
    rw [hn] at hsh
    cases hsh
  | some shadow =>
    obtain ⟨r, -, -, -, hsync⟩ := syncState_pending (E := E) hn
    cases hsync with
    | unloaded _ _ hgone | failed _ _ _ hgone => rw [hg] at hgone; cases hgone
    | set g' hu _ hlive hfollows =>
      obtain rfl := Option.some.inj (hg.symm.trans hlive)
      exact h.noSet n shadow hn hu (hfollows.clientId.symm.trans hc)

theorem Leaving.words_syncState (h : Leaving c s) {w : WordState}
    (hw : (syncState E s).shadowWords.lookup c = some w) : w.words = ∅ := by
  have hrec := (syncState_wordRecord E s c).trans (syncWords_record E s c)
  have hlook : (syncState E s).shadowWords.lookup c = _ := congrArg Prod.fst hrec
  rw [hw] at hlook
  cases hold : s.shadowWords.lookup c with
  | none => rw [hold] at hlook; cases hlook
  | some w₀ =>
    rw [hold] at hlook
    cases hlook
    refine OrdSet.eq_empty_iff.2 fun a ha => ?_
    have hmem : a ∈ w₀.words := (mem_clientErrors.1 ha).1
    rw [h.words w₀ hold] at hmem
    exact OrdSet.notMem_empty a hmem

theorem Leaving.syncState (h : Leaving c s) : Leaving c (syncState E s) where
  noSet _ _ hn := nomatch hn
  live n ho := absurd ho (h.not_owns_syncState n)
  words _ hw := h.words_syncState hw

/-- **A sync forgets the client.** -/
theorem Leaving.forgotten (hE : E.AllZero) (h : Leaving c s) :
    Forgotten c (Draconity.syncState E s) where
  grammars n g hg hc := h.not_owns_syncState n ⟨g, hg, hc⟩
  words a ha := by
    obtain ⟨b, w, w', -, -, hw', ha'⟩ := syncState_loaded hE s ha
    refine ⟨b, w', ?_, hw', ha'⟩
    rintro rfl
    rw [h.words_syncState hw'] at ha'
    exact OrdSet.notMem_empty a ha'

/-! ### The steps of the event loop -/

theorem deferred_client {e : Event} {r : ClientId × UInt32 × Fields} (he : Enabled s e)
    (h : e.deferred E s = some r) : r.1 ∈ s.clients := by
  cases e with
  | message c tid msg found =>
    cases msg with
    | none => cases h
    | some root =>
      rw [Event.deferred] at h
      split_ifs at h
      cases h
      exact he
  | connect | close c stack | paused t | timer | ready | mimicDone => cases h

/-- Every event that is not the client's keeps the invariant, and forgets the client if it syncs. -/
theorem leaving_step (hE : E.AllZero) (h : Leaving c s) (hc : c ∉ s.clients) {e : Event}
    (he : Enabled s e) : Leaving c (step E s e) ∧
      ((step E s e).syncs ≠ s.syncs → Forgotten c (step E s e)) := by
  obtain ⟨ops, hops⟩ := step_does E s e
  cases hops with
  | quiet hs => exact ⟨h.sameStore hs, fun hsync => absurd hs.syncs hsync⟩
  | words ws hdef cmd rest =>
    -- only clients on the list send requests
    have hd := ne_of_mem_of_not_mem (deferred_client he hdef) hc
    refine ⟨(h.setShadowWords hd _ ws).sameStore rest, fun hsync => absurd ?_ hsync⟩
    exact rest.syncs.trans (setShadowWords_live _ ws s).2.2
  | grammar name shadow hdef cmd hn hclient ht hb rest =>
    have hd := ne_of_mem_of_not_mem (deferred_client he hdef) hc
    have hset := h.setShadowGrammar (n := name) (hclient ▸ hd)
    rw [acceptGrammar_eq] at rest
    by_cases h0 : s.pauseToken = 0
    · rw [if_pos h0] at rest
      refine ⟨hset.sameStore rest, fun hsync => absurd ?_ hsync⟩
      exact rest.syncs.trans (setShadowGrammar_live name shadow s).2.2
    · rw [if_neg h0] at rest
      exact ⟨hset.syncState.sameStore rest, fun _ => (hset.forgotten hE).sameStore rest⟩
  | paused rest =>
    rename_i token
    have htoken : Leaving c { s with pauseToken := token } := ⟨h.noSet, h.live, h.words⟩
    exact ⟨htoken.syncState.sameStore rest, fun _ => (htoken.forgotten hE).sameStore rest⟩
  | close rest =>
    rename_i d stack
    have hdrop : Leaving c (s.dropClient d) := ⟨h.noSet, h.live, h.words⟩
    have hclear := hdrop.clearClientState d stack
    dsimp only at rest
    by_cases h0 : s.pauseToken > 0
    · rw [if_pos h0] at rest
      exact ⟨hclear.syncState.sameStore rest, fun _ => (hclear.forgotten hE).sameStore rest⟩
    · rw [if_neg h0] at rest
      exact ⟨hclear.sameStore rest, fun hsync => absurd rest.syncs hsync⟩

/-- A client that is gone and was given out before is not among the connections again. -/
theorem gone_step (hn : c < s.clientNonce) (hc : c ∉ s.clients) {e : Event} (he : Enabled s e) :
    c < (step E s e).clientNonce ∧ c ∉ (step E s e).clients := by
  have hb : (step E s e).barrier = s.barrier.step (e.signal E s) :=
    (barrier_simulates E).step s e he
  have hgone := Barrier.gone_step (b := s.barrier) (e := e.signal E s) hn hc
  rw [← hb] at hgone
  exact hgone

/-! ### The disconnect of the client -/

/-- Each pending set of the client is for a name whose live grammar is its own. -/
def OwnsPending (c : ClientId) (s : State) : Prop :=
  ∀ n shadow, s.shadowGrammars.lookup n = some shadow → shadow.clientId = c →
    shadow.unload = false → s.Owns c n

theorem leaving_clearClientState (h : OwnsPending c s) (stack : CString → UInt32) :
    Leaving c (clearClientState c stack s) := by
  refine ⟨fun k sh hk hu hsh => ?_, fun k ho => ?_, fun w hw => ?_⟩
  · obtain ⟨h₁, h₂⟩ := lookup_clearClientState c stack s k
    by_cases ho : s.Owns c k
    · rw [h₁ ho] at hk; cases hk; cases hu
    · exact ho (h k sh ((h₂ ho).symm.trans hk) hsh hu)
  · exact ⟨_, (lookup_clearClientState c stack s k).1 ho⟩
  · rw [lookup_shadowWords_clearClientState, if_pos rfl] at hw
    obtain ⟨_, -, rfl⟩ := Option.map_eq_some_iff.1 hw
    rfl

theorem leaving_handleClose (h : OwnsPending c s) (stack : CString → UInt32) :
    Leaving c (handleClose E c stack s) := by
  have hdrop : OwnsPending c (s.dropClient c) := h
  have hclear := leaving_clearClientState hdrop stack
  by_cases h0 : s.pauseToken = 0
  · rw [handleClose_of_not_paused h0]
    exact hclear
  · rw [handleClose_of_paused h0]
    exact hclear.syncState.sameStore (clientUnpause_sameStore ..)

/-- A disconnect that leaves no set of the client pending found them all under its own names. -/
theorem ownsPending_of_noSet (hs : PausedApplied s) {stack : CString → UInt32}
    (h : NoSet c (handleClose E c stack s)) : OwnsPending c s := by
  intro n shadow hn hc hu
  by_contra ho
  exact h n shadow (handleClose_pending_of_not_owns hs hn ho stack).1 hu hc

/-- **When nothing of a disconnected client survives.**  In a run in which every call returns `0`,
from the end of the disconnect on no set of the client is pending, and after every later sync no
live grammar is its own and every loaded word is in the words of another client, if and only if each
set of the client that was pending is for a name whose live grammar was its own. -/
theorem disconnect_forgotten_iff (hE : E.AllZero) (h : (eventLoop E).Reachable s)
    (hc : c ∈ s.clients) (stack : CString → UInt32) :
    (∀ fs, (eventLoop E).Run (handleClose E c stack s) fs →
      let t := (eventLoop E).exec (handleClose E c stack s) fs
      NoSet c t ∧ ∀ e, Enabled t e → (step E t e).syncs ≠ t.syncs → Forgotten c (step E t e)) ↔
      OwnsPending c s := by
  constructor
  · exact fun hall => ownsPending_of_noSet (pausedApplied_of_reachable h) (hall [] trivial).1
  · intro hown fs hr
    -- the client is off the list of connections, and its id is not given out again
    have hcons := Barrier.consistent_of_reachable ((barrier_simulates E).reachable h)
    have hbar := handleClose_barrier E c stack s
    have hclose : c < (handleClose E c stack s).clientNonce ∧
        c ∉ (handleClose E c stack s).clients := by
      have hleft := Barrier.leave_gone (b := s.barrier) (hcons.below c hc)
      rw [← hbar] at hleft
      exact hleft
    have hkeep := hr.keeps (I := fun t => (c < t.clientNonce ∧ c ∉ t.clients) ∧ Leaving c t)
      (fun t e ⟨hgone, hleaving⟩ he =>
        ⟨gone_step hgone.1 hgone.2 he, (leaving_step hE hleaving hgone.2 he).1⟩)
      ⟨hclose, leaving_handleClose hown stack⟩
    exact ⟨hkeep.2.noSet, fun e he => (leaving_step hE hkeep.2 hkeep.1.2 he).2⟩

/-- A client that leaves before its first update is synced. -/
def leaveEarly : List Event :=
  [.connect, .ready, .message 0 1 (some (gSetRequest "g" [1])) .usual]

/-- The update of a client that left is still pending. -/
theorem disconnect_forgotten_fails : ¬ ∀ E : Env, E.AllZero → ∀ s, (eventLoop E).Reachable s →
    ∀ c ∈ s.clients, ∀ stack fs, (eventLoop E).Run (handleClose E c stack s) fs →
      let t := (eventLoop E).exec (handleClose E c stack s) fs
      NoSet c t ∧ ∀ e, Enabled t e → (step E t e).syncs ≠ t.syncs → Forgotten c (step E t e) := by
  intro h
  let s := (eventLoop .obliging).exec (eventLoop .obliging).start leaveEarly
  have hnoSet := (h .obliging Env.obliging_allZero s ⟨leaveEarly, by decide, rfl⟩ 0 (by decide)
    (fun _ => 0) [] trivial).1
  have hpend : ((handleClose .obliging 0 (fun _ => 0) s).shadowGrammars.lookup (.lit "g")).map
      (fun shadow => (shadow.unload, shadow.clientId)) = some (false, 0) := by decide
  obtain ⟨shadow, hn, hsh⟩ := Option.map_eq_some_iff.1 hpend
  exact hnoSet _ shadow hn (congrArg Prod.fst hsh) (congrArg Prod.snd hsh)

/-- A client that leaves after its update was synced: the pause after that forgets it. -/
theorem disconnect_forgotten_iff_synced :
    Forgotten 0 ((eventLoop .obliging).exec (eventLoop .obliging).start
      [.connect, .ready, .message 0 1 (some (gSetRequest "g" [1])) .usual, .paused 7, .timer,
        .close 0 (fun _ => 0), .paused 8]) := by
  have hown : OwnsPending 0 ((eventLoop .obliging).exec (eventLoop .obliging).start
      [.connect, .ready, .message 0 1 (some (gSetRequest "g" [1])) .usual, .paused 7,
        .timer]) := fun n shadow hn => nomatch hn
  exact ((disconnect_forgotten_iff Env.obliging_allZero ⟨_, by decide, rfl⟩ (by decide)
    fun _ => 0).2 hown [] trivial).2 (.paused 8) (by decide) (by decide)

end Draconity
