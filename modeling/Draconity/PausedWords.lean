import Mathlib.Data.List.Infix
import Draconity.Logged
import Draconity.Paused
import Draconity.WordAnswers

/-!
Word updates while Dragon is paused.

A `w.set` does not sync, not even while Dragon is paused, where `g.set` and `g.unload` do.  So it is
in force at a resume only if something else has synced in between: a pause, a close, or an update of
a grammar.
-/

namespace Draconity

open Lib Lib.Mailbox

variable {E : Env} {s s' : State} {c : ClientId} {es : List Event} {e : Event}

/-! ### The words that are in force -/

/-- A sync has seen the words of a client, and Dragon has them. -/
structure InForce (s : State) (w : WordState) : Prop where
  synced : w.synced = true
  loaded : ∀ a ∈ w.words, a ∈ s.dragon.words

/-- The words of every client are in force. -/
def WordsInForce (s : State) : Prop := ∀ c w, s.shadowWords.lookup c = some w → InForce s w

/-- The words a sync has seen are in the vocabulary of Dragon. -/
def SyncedLoaded (s : State) : Prop :=
  ∀ c w, s.shadowWords.lookup c = some w → w.synced = true → ∀ a ∈ w.words, a ∈ s.dragon.words

theorem SameWords.wordsInForce (h : SameWords s s') : WordsInForce s' ↔ WordsInForce s := by
  have hforce : ∀ w, InForce s' w ↔ InForce s w := fun w =>
    ⟨fun hw => ⟨hw.synced, h.words ▸ hw.loaded⟩, fun hw => ⟨hw.synced, h.words ▸ hw.loaded⟩⟩
  unfold WordsInForce
  rw [h.shadowWords]
  exact forall₃_congr fun _ w _ => hforce w

/-- After a sync the words of every client are in force. -/
theorem syncState_inForce (h : KnowsWords s) : WordsInForce (syncState E s) := by
  rw [(syncState_sameWords s).wordsInForce]
  intro c w' hc
  refine ⟨?_, fun a ha => ?_⟩
  · have hrec := congrArg Prod.fst (syncWords_record E s c)
    rw [show ((syncWords E s).wordRecord c).1 = some w' from hc] at hrec
    cases hw : s.shadowWords.lookup c with
    | none =>
      rw [hw] at hrec
      exact absurd hrec (Option.some_ne_none _)
    | some w =>
      rw [hw] at hrec
      rw [Option.some.inj hrec]
      rfl
  · rw [← show (syncWords E s).loadedWords = _ from h.syncWords]
    exact mem_loadedWords_syncWords.2 (.inl (mem_allShadowWords.2 ⟨c, w', hc, ha⟩))

theorem syncedLoaded_of_reachable (h : (eventLoop E).Reachable s) : SyncedLoaded s := by
  have hstep := Machine.invariant (M := store E) (I := fun s => KnowsWords s ∧ SyncedLoaded s)
    ⟨rfl, fun c w hc => absurd hc.symm (Option.some_ne_none w)⟩ (fun s op hs ho => ?_)
    (reachable_store h)
  · exact hstep.2
  have hsame : ∀ {s'}, SameWords s s' → KnowsWords s' ∧ SyncedLoaded s' := by
    intro s' h
    refine ⟨hs.1.sameWords h, ?_⟩
    unfold SyncedLoaded
    rw [h.shadowWords, h.words]
    exact hs.2
  cases op with
  | setGrammar n shadow => exact hsame (setShadowGrammar_sameWords n shadow s)
  | other s' => exact hsame (SameStore.sameWords ho)
  | sync =>
    refine ⟨hs.1.syncWords.sameWords (syncState_sameWords s), fun c w hc _ => ?_⟩
    exact (syncState_inForce hs.1 c w hc).loaded
  | setWords c tid ws =>
    obtain ⟨hloaded, hdragon, -⟩ := setShadowWords_live (c := c) tid ws s
    refine ⟨hloaded.trans (hs.1.trans (congrArg Dragon.words hdragon).symm), fun b w hb hw => ?_⟩
    have hlook := (lookup_setShadowWords (b := b) (c := c) tid ws s).symm.trans hb
    show ∀ a ∈ w.words, a ∈ (setShadowWords c tid ws s).dragon.words
    rw [hdragon]
    split_ifs at hlook with hbc
    · cases hlook
      cases hw
    · exact hs.2 b w hlook hw
  | disconnect c stack =>
    refine ⟨hs.1, fun b w hb hw => ?_⟩
    have hlook := (lookup_shadowWords_clearClientState (c := c) stack s b).symm.trans hb
    split_ifs at hlook with hbc
    · obtain ⟨w', -, rfl⟩ := Option.map_eq_some_iff.1 hlook
      cases hw
    · exact hs.2 b w hlook hw

/-! ### What a resume finds -/

/-- The event resumes Dragon at once, without a sync: the timer, or an `unpause` of the only client
that is still awaited. -/
def Event.ResumesAtOnce (s : State) : Event → Prop
  | .timer => s.pauseToken ≠ 0
  | .message c _ (some root) _ =>
    (Fields.ofRoot root).cmd = some (.lit "unpause") ∧ (Fields.ofRoot root).token ≠ 0 ∧
      (Fields.ofRoot root).token = s.pauseToken ∧ s.pauseClients.erase c = ∅
  | _ => False

instance (s : State) : DecidablePred (Event.ResumesAtOnce s)
  | .timer => inferInstanceAs (Decidable (s.pauseToken ≠ 0))
  | .message _ _ (some _) _ => inferInstanceAs (Decidable (_ ∧ _))
  | .message _ _ none _ | .connect | .close _ _ | .paused _ | .ready | .mimicDone _ =>
    inferInstanceAs (Decidable False)

theorem synced_step (h : KnowsWords s) (he : e.Syncs E s) :
    (step E s e).syncs = s.syncs + 1 ∧ WordsInForce (step E s e) := by
  have hsync : ∀ m, KnowsWords m → m.syncs = s.syncs → SameStore (syncState E m) (step E s e) →
      (step E s e).syncs = s.syncs + 1 ∧ WordsInForce (step E s e) := by
    intro m hm hsyncs hrest
    rw [hrest.syncs, syncState_syncs, hsyncs]
    exact ⟨rfl, hrest.sameWords.wordsInForce.2 (syncState_inForce hm)⟩
  obtain ⟨ops, hops⟩ := step_does E s e
  cases hops with
  | quiet hs reply => exact absurd he (not_syncs_of_sameStore hs reply)
  | words ws hdef cmd rest =>
    have hcmd := ((syncs_of_deferred hdef).1 he).2
    rw [cmd] at hcmd
    exact absurd hcmd (by decide)
  | grammar name shadow hdef cmd hn hc ht hb rest =>
    rw [acceptGrammar_eq, if_neg ((syncs_of_deferred hdef).1 he).1] at rest
    obtain ⟨-, -, hsyncs⟩ := setShadowGrammar_live name shadow s
    exact hsync _ (h.sameWords (setShadowGrammar_sameWords name shadow s)) hsyncs rest
  | paused rest =>
    rename_i token
    exact hsync _ (show KnowsWords { s with pauseToken := token } from h) rfl rest
  | close rest =>
    rename_i c stack
    dsimp only at rest
    rw [if_pos (pauseToken_pos.2 he)] at rest
    exact hsync _ (show KnowsWords (clearClientState c stack (s.dropClient c)) from h) rfl rest

theorem clientUnpause_last (h : s.pauseClients.erase c = ∅) :
    clientUnpause E c s.pauseToken s = doUnpause E { s with pauseClients := ∅ } := by
  unfold clientUnpause
  rw [if_pos rfl]
  dsimp only
  rw [if_pos h, h]

theorem clientUnpause_not_last (h : s.pauseClients.erase c ≠ ∅) (E : Env) (t : UInt64) :
    resumes (clientUnpause E c t s) = resumes s := by
  unfold clientUnpause
  dsimp only
  split_ifs <;> rfl

theorem handleMessage_unpause (tid : UInt32) {root : Elements} (found : Found)
    (hcmd : (Fields.ofRoot root).cmd = some (.lit "unpause"))
    (h0 : (Fields.ofRoot root).token ≠ 0) (ht : (Fields.ofRoot root).token = s.pauseToken) :
    (handleMessage E c tid (some root) found s).2 =
      (clientUnpause E c s.pauseToken s).issue (.publish (.cmd true root)) := by
  have hdispatch : dispatch E c tid (.ofRoot root) found s =
      (.reply .success, clientUnpause E c s.pauseToken s) := by
    unfold dispatch
    rw [hcmd]
    dsimp only
    rw [if_neg (by decide), if_neg (by decide), if_neg (by decide), if_neg (by decide), if_pos rfl]
    unfold unpause
    rw [if_neg (not_or.2 ⟨h0, not_not.2 ht⟩), ht]
  exact congrArg (fun r : Outcome × State => r.2.issue (.publish (.cmd r.1.ok root))) hdispatch

/-- An event that resumes at once calls `_DSXEngine_Resume`, and leaves the words as they are. -/
theorem resumes_of_atOnce (h : e.ResumesAtOnce s) :
    s.pauseToken ≠ 0 ∧ resumes (step E s e) = resumes s ++ [s.pauseToken] ∧
      SameWords s (step E s e) := by
  cases e with
  | timer =>
    have hstop : SameStore s { s with pauseTimer := false } :=
      ⟨rfl, rfl, rfl, rfl, rfl, rfl, rfl, rfl, fun _ => rfl, fun _ => rfl⟩
    exact ⟨h, resumes_doUnpause (s := { s with pauseTimer := false }) h,
      (hstop.trans (doUnpause_sameStore _)).sameWords⟩
  | message c tid msg found =>
    cases msg with
    | none => exact absurd h id
    | some root =>
      obtain ⟨hcmd, h0, ht, hlast⟩ := h
      rw [step, handleMessage_unpause tid found hcmd h0 ht]
      have h0 : s.pauseToken ≠ 0 := ht ▸ h0
      refine ⟨h0, ?_, ((clientUnpause_sameStore c _ s).trans (sameStore_publish ..)).sameWords⟩
      rw [clientUnpause_last hlast]
      exact resumes_doUnpause (s := { s with pauseClients := ∅ }) h0
  | connect | close c stack | paused t | ready | mimicDone => exact absurd h id

/-- Every resume is one at once, or follows a sync of the same event. -/
theorem syncs_or_atOnce (he : resumes (step E s e) ≠ resumes s) :
    e.Syncs E s ∨ e.ResumesAtOnce s := by
  cases e with
  | connect => exact absurd rfl he
  | paused t => exact .inl trivial
  | ready => exact absurd (draconityReady_same s).2.resumes he
  | mimicDone stale => exact absurd (draconityMimicDone_samePause stale s).resumes he
  | close c stack =>
    refine .inl fun h0 => he ?_
    rw [step, handleClose_of_not_paused h0]
    rfl
  | timer =>
    refine .inr fun h0 => he ?_
    rw [step, handleTimer, doUnpause_of_not_paused (s := { s with pauseTimer := false }) h0]
    rfl
  | message c tid msg found =>
    cases msg with
    | none => exact absurd rfl he
    | some root =>
      have hpause : resumes (dispatch E c tid (.ofRoot root) found s).2 ≠ resumes s := he
      have hd := dispatch_handled E c tid (.ofRoot root) found s
      generalize dispatch E c tid (.ofRoot root) found s = r at hd hpause
      cases hd with
      | words ws => exact absurd (setShadowWords_samePause tid ws s).resumes hpause
      | grammar name shadow => exact absurd (acceptGrammar_samePause name shadow s).resumes hpause
      | quiet o s' _ pause => exact absurd pause.resumes hpause
      | unpause cmd h0 ht =>
        refine .inr ⟨cmd, h0, ht, ?_⟩
        by_contra hlast
        exact hpause (clientUnpause_not_last hlast E _)

/-! ### The histories of a run -/

/-- A `w.set` of the client has been accepted, and no event has synced since. -/
def WordsOutstanding (E : Env) (c : ClientId) (es : List Event) : Prop :=
  (pending ((eventLoop E).history (Event.wordMarks E c) (eventLoop E).start es)).isSome

instance (es : List Event) : Decidable (WordsOutstanding E c es) :=
  inferInstanceAs (Decidable (_ = true))

/-- While Dragon is paused, the words of a client that no sync has seen are those of a `w.set` that is
outstanding. -/
def OutstandingShown (E : Env) (es : List Event) : Prop :=
  let s := (eventLoop E).exec (eventLoop E).start es
  s.pauseToken ≠ 0 → ∀ c, pending ((eventLoop E).history (Event.wordMarks E c) (eventLoop E).start es) =
    (s.shadowWords.lookup c).bind WordState.unsynced

theorem wordMarks_of_syncs (h : KnowsWords s) (he : e.Syncs E s) (c : ClientId) :
    ∃ ms, e.wordMarks E c s = ms ++ [.sync] := by
  obtain ⟨hsyncs, -⟩ := synced_step h he
  refine ⟨(e.wordsUpdate E s c).toList.map .accept, ?_⟩
  unfold Event.wordMarks
  rw [if_neg (by omega)]

theorem outstandingShown_of_run (hr : (eventLoop E).Run (eventLoop E).start es) :
    OutstandingShown E es := by
  refine hr.snoc_induction (P := OutstandingShown E) (fun h => absurd rfl h)
    fun fs e hfs he ih h0 c => ?_
  have hknows := knowsWords_of_reachable hfs.reachable
  rw [Machine.exec_snoc] at h0 ⊢
  rw [Machine.history_snoc]
  unfold OutstandingShown at ih
  generalize (eventLoop E).exec (eventLoop E).start fs = s at he ih hknows h0 ⊢
  by_cases hs : e.Syncs E s
  · obtain ⟨ms, hms⟩ := wordMarks_of_syncs hknows hs c
    rw [hms, ← List.append_assoc, pending_snoc_sync]
    show none = ((step E s e).shadowWords.lookup c).bind WordState.unsynced
    cases hw : (step E s e).shadowWords.lookup c with
    | none => rfl
    | some w => exact (if_pos ((synced_step hknows hs).2 c w hw).synced).symm
  · rcases paused_of_step he h0 with hp | ⟨t, rfl⟩
    · refine wordPending_snoc (ih hp c) (wordStep fun stack hclose => hs ?_)
      rw [hclose]
      exact hp
    · exact absurd trivial hs

/-- **When the words are in force at a resume.**  In a run, the words of every client are in force at
each call of `_DSXEngine_Resume`, just when Dragon is never resumed by the timer, or by the `unpause`
of the last client that is awaited, while an accepted `w.set` has not been followed by a sync. -/
theorem resumed_inForce_iff (hr : (eventLoop E).Run (eventLoop E).start es) :
    (∀ fs e, fs ++ [e] <+: es →
      let s := (eventLoop E).exec (eventLoop E).start fs
      resumes (step E s e) ≠ resumes s → WordsInForce (step E s e)) ↔
      ∀ fs e, fs ++ [e] <+: es →
        e.ResumesAtOnce ((eventLoop E).exec (eventLoop E).start fs) →
          ∀ c, ¬ WordsOutstanding E c fs := by
  refine forall₃_congr fun fs e hfs => ?_
  have hrun := (Machine.run_snoc.1 (hr.of_prefix hfs)).1
  have hshown := outstandingShown_of_run hrun
  have hknows := knowsWords_of_reachable hrun.reachable
  have hloaded := syncedLoaded_of_reachable hrun.reachable
  unfold OutstandingShown at hshown
  dsimp only
  unfold WordsOutstanding
  generalize (eventLoop E).exec (eventLoop E).start fs = s at hshown hknows hloaded ⊢
  have hforce : e.ResumesAtOnce s → (WordsInForce s ↔ ∀ c,
      ¬ (pending ((eventLoop E).history (Event.wordMarks E c) (eventLoop E).start fs)).isSome) := by
    intro hat
    refine forall_congr' fun c => ?_
    rw [hshown (resumes_of_atOnce (E := E) hat).1 c]
    cases hw : s.shadowWords.lookup c with
    | none => simp
    | some w =>
      constructor
      · intro h
        simp [WordState.unsynced, (h w rfl).synced]
      · rintro h _ ⟨⟩
        have hsynced : w.synced = true := by simpa [WordState.unsynced] using h
        exact ⟨hsynced, hloaded c w hw hsynced⟩
  constructor
  · intro h hat
    obtain ⟨-, hres, hsame⟩ := resumes_of_atOnce (E := E) hat
    refine (hforce hat).1 (hsame.wordsInForce.1 (h ?_))
    rw [hres]
    simp
  · intro h hres
    -- Dragon is resumed right behind a sync, or in a step without one
    rcases syncs_or_atOnce hres with hs | hat
    · exact (synced_step hknows hs).2
    · exact (resumes_of_atOnce hat).2.2.wordsInForce.2 ((hforce hat).2 (h hat))

/-- A client sets its words before Dragon pauses. -/
def setThenPause : List Event :=
  [.connect, .ready, .message 0 1 (some wSetRequest) .usual, .paused 7]

theorem resumed_inForce_timer : WordsInForce (step .obliging
    ((eventLoop .obliging).exec (eventLoop .obliging).start setThenPause) .timer) := by
  have hr : (eventLoop .obliging).Run (eventLoop .obliging).start (setThenPause ++ [.timer]) := by
    decide
  have hlast : ∀ l ∈ List.inits (setThenPause ++ [Event.timer]), ∀ e ∈ l.getLast?,
      Event.ResumesAtOnce ((eventLoop .obliging).exec (eventLoop .obliging).start l.dropLast) e →
        l.length = (setThenPause ++ [Event.timer]).length := by
    decide
  refine (resumed_inForce_iff hr).2 (fun fs e hfs hat c => ?_) setThenPause .timer List.prefix_rfl
    (by decide)
  have hlen := hlast (fs ++ [e]) ((List.mem_inits _ _).2 hfs) e (by simp) (by simpa using hat)
  obtain ⟨rfl, -⟩ := List.append_inj' (hfs.eq_of_length hlen) rfl
  have hsynced : (eventLoop .obliging).history (Event.wordMarks .obliging c)
      (eventLoop .obliging).start setThenPause = _ ++ [.sync] :=
    (Machine.history_snoc : (eventLoop .obliging).history (Event.wordMarks .obliging c)
      (eventLoop .obliging).start (setThenPause.take 3 ++ [.paused 7]) = _)
  unfold WordsOutstanding
  rw [hsynced, pending_snoc_sync]
  simp

/-- A client sets its words while Dragon is paused. -/
def pausedSet : List Event := [.connect, .ready, .paused 7, .message 0 1 (some wSetRequest) .usual]

/-- It unpauses: Dragon is resumed before a sync has seen the words. -/
theorem resumed_inForce_fails : ¬ ∀ (E : Env) (es : List Event),
    (eventLoop E).Run (eventLoop E).start es → ∀ fs e, fs ++ [e] <+: es →
      let s := (eventLoop E).exec (eventLoop E).start fs
      resumes (step E s e) ≠ resumes s →
        ∀ c w, (step E s e).shadowWords.lookup c = some w → w.synced = true := by
  intro h
  let unpause : Event :=
    .message 0 2 (some [(.lit "cmd", .utf8 (ascii "unpause")), (.lit "token", .int64 7)]) .usual
  have hlook : ((step .obliging ((eventLoop .obliging).exec (eventLoop .obliging).start pausedSet)
      unpause).shadowWords.lookup 0).map WordState.synced = some false := by decide
  obtain ⟨w, hw, hunsynced⟩ := Option.map_eq_some_iff.1 hlook
  have hsynced := h .obliging (pausedSet ++ [unpause]) (by decide) pausedSet unpause List.prefix_rfl
    (by decide) 0 w hw
  exact Bool.false_ne_true (hunsynced.symm.trans hsynced)

end Draconity
