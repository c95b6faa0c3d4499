import Draconity.Answers
import Draconity.Words

/-!
Deferred responses to `w.set`: the words of each client are a mailbox too, but one that keeps its
update after a sync.

`set_shadow_words` looks at `synced` before it answers `skipped`, and `handle_word_failures` does
not look at it, so a sync answers the last `w.set` of a client again when nothing replaced it since
the sync before.
-/

namespace Draconity

open Lib Lib.Mailbox

variable {E : Env} {s s' : State} {c : ClientId} {es : List Event}

/-- The event makes a sync: it is a pause or, while Dragon is paused, the close of a client or an
accepted `g.set` or `g.unload`. -/
def Event.Syncs (E : Env) (s : State) (e : Event) : Prop :=
  match e with
  | .paused _ => True
  | .close _ _ => s.pauseToken ≠ 0
  | e => s.pauseToken ≠ 0 ∧ ∃ r ∈ e.deferred E s,
      r.2.2.cmd = some (.lit "g.set") ∨ r.2.2.cmd = some (.lit "g.unload")

instance (s : State) : DecidablePred (Event.Syncs E s)
  | .paused _ => .isTrue trivial
  | .close _ _ => inferInstanceAs (Decidable (s.pauseToken ≠ 0))
  | .message _ _ _ _ | .connect | .timer | .ready | .mimicDone _ =>
    inferInstanceAs (Decidable (s.pauseToken ≠ 0 ∧ _))

/-- The marks of an event for the words of a client: the `w.set` `handle_message` accepted, then a
sync if the event makes one. -/
def Event.wordMarks (E : Env) (c : ClientId) (s : State) (e : Event) : List (Mark UInt32) :=
  (e.wordsUpdate E s c).toList.map .accept ++ if (step E s e).syncs = s.syncs then [] else [.sync]

/-- What an event is to the words of a client that does not close: nothing, an accepted `w.set`, or
a sync. -/
inductive WordStep (E : Env) (c : ClientId) (s : State) (e : Event) : List (Mark UInt32) → Prop
  | same (hs : ¬ e.Syncs E s) (h : (step E s e).wordRecord c = s.wordRecord c) :
    WordStep E c s e []
  | accept (tid : UInt32) (ws : OrdSet CString) (hs : ¬ e.Syncs E s)
    (h : (step E s e).wordRecord c = (setShadowWords c tid ws s).wordRecord c) :
    WordStep E c s e [.accept tid]
  | sync (m : State) (hs : e.Syncs E s) (hm : m.wordRecord c = s.wordRecord c)
    (h : (step E s e).wordRecord c = (syncState E m).wordRecord c) :
    WordStep E c s e [.sync]

theorem SameWords.wordRecord (h : SameWords s s') (c : ClientId) :
    s'.wordRecord c = s.wordRecord c :=
  Prod.ext (congrArg (AList.lookup c) h.shadowWords) (h.wset c)

theorem setShadowWords_wordRecord_of_ne {b : ClientId} (hb : c ≠ b) (tid : UInt32)
    (ws : OrdSet CString) (s : State) :
    (setShadowWords b tid ws s).wordRecord c = s.wordRecord c := by
  refine Prod.ext ?_ ?_
  · exact (lookup_setShadowWords ..).trans (if_neg hb)
  · refine (wsetAnswers_setShadowWords ..).trans ?_
    rw [if_neg hb, List.append_nil]
    rfl

theorem clearClientState_wordRecord_of_ne {b : ClientId} (hb : c ≠ b) (stack : CString → UInt32)
    (s : State) : (clearClientState b stack (s.dropClient b)).wordRecord c = s.wordRecord c :=
  Prod.ext ((lookup_shadowWords_clearClientState ..).trans (if_neg hb)) rfl

theorem syncs_of_deferred {e : Event} {r : ClientId × UInt32 × Fields}
    (h : e.deferred E s = some r) : e.Syncs E s ↔ s.pauseToken ≠ 0 ∧
      (r.2.2.cmd = some (.lit "g.set") ∨ r.2.2.cmd = some (.lit "g.unload")) := by
  have hdef : (s.pauseToken ≠ 0 ∧ ∃ r ∈ e.deferred E s,
      r.2.2.cmd = some (.lit "g.set") ∨ r.2.2.cmd = some (.lit "g.unload")) ↔ s.pauseToken ≠ 0 ∧
      (r.2.2.cmd = some (.lit "g.set") ∨ r.2.2.cmd = some (.lit "g.unload")) := by
    rw [h]
    simp
  cases e with
  | message c tid msg found => exact hdef
  | connect | close c stack | paused t | timer | ready | mimicDone => cases h

theorem not_syncs_of_sameStore {e : Event} (hs : SameStore s (step E s e))
    (reply : ∀ c tid f, e.deferred E s = some (c, tid, f) → f.cmd = some (.lit "mimic")) :
    ¬ e.Syncs E s := by
  have hno : ∀ e', e' = e → ¬ ∃ r ∈ e'.deferred E s,
      r.2.2.cmd = some (.lit "g.set") ∨ r.2.2.cmd = some (.lit "g.unload") := by
    rintro _ rfl ⟨⟨c, tid, f⟩, hr, hcmd⟩
    rw [reply c tid f hr] at hcmd
    exact absurd hcmd (by decide)
  cases e with
  | connect | message c tid msg found | timer | ready | mimicDone => exact fun h => hno _ rfl h.2
  | paused t =>
    have h : (step E s (.paused t)).syncs = s.syncs + 1 :=
      (afterPauseSync_sameStore (E := E) t (syncState E { s with pauseToken := t })).syncs.trans
        (syncState_syncs _)
    have hsame := hs.syncs
    omega
  | close b stack =>
    intro h0
    have h : (step E s (.close b stack)).syncs = s.syncs + 1 := by
      rw [step, handleClose_of_paused h0, (clientUnpause_sameStore ..).syncs, syncState_syncs]
      rfl
    have hsame := hs.syncs
    omega

/-- **What an event is to the words of a client.** -/
theorem wordStep {e : Event} (he : ∀ stack, e ≠ .close c stack) :
    WordStep E c s e (e.wordMarks E c s) := by
  obtain ⟨ops, hops⟩ := step_does E s e
  have hmarks : ∀ o, e.wordsUpdate E s c = o → e.wordMarks E c s =
      o.toList.map .accept ++ if (step E s e).syncs = s.syncs then [] else [.sync] := by
    rintro _ rfl
    rfl
  have hupdate : ∀ {b : ClientId} {tid : UInt32} {f : Fields},
      e.deferred E s = some (b, tid, f) → e.wordsUpdate E s c =
        if f.cmd = some (.lit "w.set") ∧ b = c then some tid else none := by
    intro b tid f hdef
    unfold Event.wordsUpdate
    rw [hdef]
    rfl
  have hsynced : ∀ {s' : State}, s'.syncs = s.syncs + 1 → ¬ s'.syncs = s.syncs := by
    intro s' h
    omega
  cases hops with
  | quiet hs reply =>
    rw [hmarks none ?_, if_pos hs.syncs]
    · exact .same (not_syncs_of_sameStore hs reply) (hs.sameWords.wordRecord c)
    · cases hdef : e.deferred E s with
      | none => unfold Event.wordsUpdate; rw [hdef]; rfl
      | some r =>
        rw [hupdate hdef, if_neg fun h => absurd ((reply _ _ _ hdef).symm.trans h.1) (by decide)]
  | words ws hdef cmd rest =>
    rename_i b tid f
    have hquiet : ¬ e.Syncs E s := by
      intro h
      have := ((syncs_of_deferred hdef).1 h).2
      rw [cmd] at this
      exact absurd this (by decide)
    rw [hmarks _ (hupdate hdef), if_pos (rest.syncs.trans (setShadowWords_live tid ws s).2.2)]
    by_cases hb : b = c
    · subst hb
      rw [if_pos ⟨cmd, rfl⟩]
      exact .accept tid ws hquiet (rest.sameWords.wordRecord b)
    · rw [if_neg fun h => hb h.2]
      exact .same hquiet ((rest.sameWords.wordRecord c).trans
        (setShadowWords_wordRecord_of_ne (Ne.symm hb) tid ws s))
  | grammar name shadow hdef cmd hn hc ht hb rest =>
    rename_i b tid f
    have hset : (setShadowGrammar name shadow s).wordRecord c = s.wordRecord c :=
      (setShadowGrammar_sameWords name shadow s).wordRecord c
    have hsyncs := (setShadowGrammar_live name shadow s).2.2
    rw [hmarks _ (hupdate hdef), if_neg fun h => absurd (h.1 ▸ cmd) (by decide)]
    rw [acceptGrammar_eq] at rest
    -- the update is synced at once just when Dragon is paused
    by_cases h0 : s.pauseToken = 0
    · rw [if_pos h0] at rest
      rw [if_pos (rest.syncs.trans hsyncs)]
      exact .same (fun h => ((syncs_of_deferred hdef).1 h).1 h0)
        ((rest.sameWords.wordRecord c).trans hset)
    · rw [if_neg h0] at rest
      rw [if_neg (hsynced (by rw [rest.syncs, syncState_syncs, hsyncs]))]
      exact .sync _ ((syncs_of_deferred hdef).2 ⟨h0, cmd⟩) hset (rest.sameWords.wordRecord c)
  | paused rest =>
    rename_i token
    rw [hmarks none rfl, if_neg (hsynced (by rw [rest.syncs, syncState_syncs]))]
    exact .sync { s with pauseToken := token } trivial rfl (rest.sameWords.wordRecord c)
  | close rest =>
    rename_i b stack
    have hb : c ≠ b := fun h => he stack (h ▸ rfl)
    have hclear := clearClientState_wordRecord_of_ne hb stack s
    rw [hmarks none rfl]
    -- a disconnect syncs what it queues at once, while Dragon is paused
    by_cases h0 : s.pauseToken = 0
    · have hsyncs : (step E s (.close b stack)).syncs = s.syncs := by
        rw [step, handleClose_of_not_paused h0]
        rfl
      rw [if_pos hsyncs]
      exact .same (not_not.2 h0) ((congrArg _ (handleClose_of_not_paused h0 b stack)).trans hclear)
    · have hrest := clientUnpause_sameStore (E := E) b s.pauseToken
        (syncState E (clearClientState b stack (s.dropClient b)))
      rw [step, handleClose_of_paused h0, if_neg (hsynced (by
        rw [hrest.syncs, syncState_syncs]; rfl))]
      exact .sync _ h0 hclear ((congrArg _ (handleClose_of_paused h0 b stack)).trans
        (hrest.sameWords.wordRecord c))

/-! ### The mailbox of a client -/

/-- The transaction of the words that no sync has seen. -/
def WordState.unsynced (w : WordState) : Option UInt32 :=
  if w.synced then none else some w.lastTid.toUInt32

/-- The state shows the pending `w.set` and the settled ones of the history. -/
structure WordLedger (c : ClientId) (h : List (Mark UInt32)) (s : State) : Prop where
  pending : pending h = (s.shadowWords.lookup c).bind WordState.unsynced
  answered : answered h = (wsetAnswers c s).map fun r => (r.tid, r.status.fate)

/-- A sync that finds words of the client a sync has seen before. -/
def Resync (E : Env) (c : ClientId) (s : State) (e : Event) : Prop :=
  e.Syncs E s ∧ ∃ w ∈ s.shadowWords.lookup c, w.synced = true

instance (s : State) : DecidablePred (Resync E c s) := fun _ => inferInstanceAs (Decidable (_ ∧ _))

theorem wordPending_snoc {h : List (Mark UInt32)} {e : Event} {ms : List (Mark UInt32)}
    (hp : pending h = (s.shadowWords.lookup c).bind WordState.unsynced)
    (he : WordStep E c s e ms) :
    pending (h ++ ms) = ((step E s e).shadowWords.lookup c).bind WordState.unsynced := by
  cases he with
  | same _ hr =>
    rw [List.append_nil, hp]
    exact congrArg (fun r => r.1.bind WordState.unsynced) hr.symm
  | accept tid ws _ hr =>
    have hlook : (step E s e).shadowWords.lookup c = some ⟨ws, tid.toInt32, false⟩ :=
      (congrArg Prod.fst hr).trans ((lookup_setShadowWords ..).trans (if_pos rfl))
    rw [pending_snoc_accept, hlook]
    simp [WordState.unsynced]
  | sync m _ hm hr =>
    have hrec := (hr.trans (syncState_wordRecord E m c)).trans (syncWords_record E m c)
    have hlook : (step E s e).shadowWords.lookup c = _ := congrArg Prod.fst hrec
    rw [pending_snoc_sync, hlook]
    cases m.shadowWords.lookup c with
    | none => rfl
    | some w => rfl

/-- A sync answers the words of a client, seen before or not. -/
theorem wsetAnswers_sync {m : State} (hm : m.wordRecord c = s.wordRecord c)
    (h : s'.wordRecord c = (syncState E m).wordRecord c) :
    (wsetAnswers c s').map (fun r => (r.tid, r.status.fate)) =
      (wsetAnswers c s).map (fun r => (r.tid, r.status.fate)) ++
        (s.shadowWords.lookup c).toList.map fun w => (w.lastTid.toUInt32, .synced) := by
  have hrec := (h.trans (syncState_wordRecord E m c)).trans (syncWords_record E m c)
  have hlook : m.shadowWords.lookup c = s.shadowWords.lookup c := congrArg Prod.fst hm
  have hold : wsetAnswers c m = wsetAnswers c s := congrArg Prod.snd hm
  have hans : wsetAnswers c s' = _ := congrArg Prod.snd hrec
  rw [hans, hlook]
  cases s.shadowWords.lookup c with
  | none => rw [hold]; simp
  | some w =>
    have hfate : (w.answer c (syncedWords E m).errors).status.fate = .synced := by
      unfold WordState.answer
      dsimp only
      split_ifs <;> rfl
    rw [hold, List.map_append, List.map_singleton, hfate]
    rfl

/-- What an event that does not close the client keeps of its ledger. -/
theorem wordLedger_snoc_iff {h : List (Mark UInt32)} (hl : WordLedger c h s) {e : Event}
    (he : ∀ stack, e ≠ .close c stack) :
    WordLedger c (h ++ e.wordMarks E c s) (step E s e) ↔ ¬ Resync E c s e := by
  have hstep := wordStep (E := E) (s := s) he
  generalize e.wordMarks E c s = ms at hstep
  have hp := wordPending_snoc hl.pending hstep
  suffices hans : answered (h ++ ms) = (wsetAnswers c (step E s e)).map
      (fun r => (r.tid, r.status.fate)) ↔ ¬ Resync E c s e from
    ⟨fun h => hans.1 h.answered, fun h => ⟨hp, hans.2 h⟩⟩
  cases hstep with
  | same hs hr =>
    have hsame : wsetAnswers c (step E s e) = wsetAnswers c s := congrArg Prod.snd hr
    rw [List.append_nil, hl.answered, hsame]
    exact iff_of_true rfl fun h => hs h.1
  | accept tid ws hs hr =>
    have hnew := (congrArg Prod.snd hr).trans (wsetAnswers_setShadowWords (b := c) tid ws s)
    refine iff_of_true ?_ fun h => hs h.1
    rw [answered_snoc_accept, hl.answered, hl.pending, show wsetAnswers c (step E s e) = _ from hnew,
      if_pos rfl, List.map_append]
    cases s.shadowWords.lookup c with
    | none => rfl
    | some w =>
      cases hw : w.synced <;> simp [WordState.unsynced, Option.filter_some, hw, Status.fate]
  | sync m hs hm hr =>
    rw [answered_snoc_sync, hl.answered, hl.pending, wsetAnswers_sync hm hr, List.append_cancel_left_eq]
    unfold Resync
    cases s.shadowWords.lookup c with
    | none => simp
    | some w => cases hw : w.synced <;> simp [WordState.unsynced, hw, hs]

/-- **When a `w.set` is answered exactly once.**  In a run in which the client does not close, with
any return codes: after every event its responses are, in order, one for each `w.set` that is
settled, `skipped` when its next mark is another `w.set` of the client and from the sync when it is
a sync, if and only if no sync found words of the client that a sync had seen before. -/
theorem wset_answered_iff (hr : (eventLoop E).Run (eventLoop E).start es)
    (hc : ∀ e ∈ es, ∀ stack, e ≠ .close c stack) :
    (∀ fs, fs <+: es →
      WordLedger c ((eventLoop E).history (Event.wordMarks E c) (eventLoop E).start fs)
        ((eventLoop E).exec (eventLoop E).start fs)) ↔
      ¬ (eventLoop E).Occurs (Resync E c) (eventLoop E).start es := by
  refine hr.forall_prefix_iff (P := fun e => ∀ stack, e ≠ .close c stack) ⟨rfl, rfl⟩
    (fun fs e _ _ hfs hl => ?_) hc
  rw [Machine.history_snoc, Machine.exec_snoc]
  exact wordLedger_snoc_iff hl (hfs e (by simp))

/-- Two pauses after one `w.set`. -/
def twoPauses : List Event :=
  [.connect, .ready, .message 0 1 (some wSetRequest) .usual, .paused 7, .timer, .paused 8]

/-- Two pauses answer one `w.set` twice. -/
theorem wset_answered_fails : ¬ ∀ E : Env, ∀ c es, (eventLoop E).Run (eventLoop E).start es →
    (∀ e ∈ es, ∀ stack, e ≠ .close c stack) → ∀ fs, fs <+: es →
      WordLedger c ((eventLoop E).history (Event.wordMarks E c) (eventLoop E).start fs)
        ((eventLoop E).exec (eventLoop E).start fs) := by
  intro h
  have hl := h .obliging 0 twoPauses (by decide) (by simp [twoPauses]) twoPauses List.prefix_rfl
  exact absurd hl.answered (by decide)

/-- Two `w.set`s and one pause: the first is skipped, the second is synced. -/
theorem wset_answered_iff_pause :
    (wsetAnswers 0 ((eventLoop .obliging).exec (eventLoop .obliging).start
      [.connect, .ready, .message 0 1 (some wSetRequest) .usual,
        .message 0 2 (some wSetRequest) .usual, .paused 7])).map
      (fun r => (r.tid, r.status.fate)) = [(1, .skipped), (2, .synced)] := by
  have hrun : (eventLoop .obliging).Run (eventLoop .obliging).start
      [.connect, .ready, .message 0 1 (some wSetRequest) .usual,
        .message 0 2 (some wSetRequest) .usual, .paused 7] := by decide
  have hquiet : ¬ (eventLoop .obliging).Occurs (Resync .obliging 0) (eventLoop .obliging).start
      [.connect, .ready, .message 0 1 (some wSetRequest) .usual,
        .message 0 2 (some wSetRequest) .usual, .paused 7] := by decide
  exact ((wset_answered_iff hrun (by simp)).2 hquiet _ List.prefix_rfl).answered.symm.trans
    (by decide)

end Draconity
