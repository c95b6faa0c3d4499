import Draconity.Departure
import Draconity.Mimics
import Draconity.Issues

/-!
A client that the server knows nothing of but its connection.

As long as a client has sent no request, no grammar, no words and no mimic are its own, whatever the
other clients and Dragon do, and so no message is sent to it alone.
-/

namespace Draconity

open Lib

variable {E : Env} {s s' s'' : State} {c d : ClientId} {tid : UInt32} {f : Fields}

structure Unknown (c : ClientId) (s : State) : Prop where
  grammars : ∀ n g, s.grammars.lookup n = some g → g.state.clientId ≠ c
  shadowGrammars : ∀ n shadow, s.shadowGrammars.lookup n = some shadow → shadow.clientId ≠ c
  shadowWords : s.shadowWords.lookup c = none
  mimicQueue : ∀ p ∈ s.mimicQueue, p.1 ≠ c

theorem unknown_init (c : ClientId) (token : UInt64) : Unknown c (State.init token) :=
  ⟨nofun, nofun, rfl, nofun⟩

/-- The client stays unknown, and nothing is sent to it alone. -/
def Ignores (c : ClientId) (s s' : State) : Prop :=
  Unknown c s → Unknown c s' ∧ Issues (fun i => i.client ≠ some c) s s'

namespace Ignores

theorem refl (s : State) : Ignores c s s := fun h => ⟨h, .refl s⟩

theorem trans (h : Ignores c s s') (h' : Ignores c s' s'') : Ignores c s s'' := by
  intro hs
  obtain ⟨hs', hissues⟩ := h hs
  obtain ⟨hs'', hissues'⟩ := h' hs'
  exact ⟨hs'', hissues.trans hissues'⟩

theorem of_eq (hgrammars : s'.grammars = s.grammars)
    (hshadow : s'.shadowGrammars = s.shadowGrammars) (hwords : s'.shadowWords = s.shadowWords)
    (hmimics : s'.mimicQueue = s.mimicQueue) (hissued : s'.issued = s.issued) : Ignores c s s' := by
  rintro ⟨grammars, shadowGrammars, shadowWords, mimicQueue⟩
  exact ⟨⟨hgrammars ▸ grammars, hshadow ▸ shadowGrammars, hwords ▸ shadowWords,
    hmimics ▸ mimicQueue⟩, .of_eq hissued⟩

theorem issue {i : Issued} (hi : i.client ≠ some c) (s : State) : Ignores c s (s.issue i) :=
  fun h => ⟨⟨h.grammars, h.shadowGrammars, h.shadowWords, h.mimicQueue⟩, .issue hi s⟩

theorem publish (p : Payload) (s : State) : Ignores c s (s.issue (.publish p)) :=
  issue (i := .publish p) nofun s

end Ignores

/-! ### Syncs and updates -/

theorem Unknown.leaving (h : Unknown c s) : Leaving c s where
  noSet n shadow hn _ := h.shadowGrammars n shadow hn
  live := by
    rintro n ⟨g, hg, hc⟩
    exact absurd hc (h.grammars n g hg)
  words w hw := by
    rw [h.shadowWords] at hw
    cases hw

theorem syncState_ignores (s : State) : Ignores c s (syncState E s) := by
  intro h
  have hwords := (syncState_wordRecord E s c).trans (syncWords_record E s c)
  have hlookup : (syncState E s).shadowWords.lookup c = _ := congrArg Prod.fst hwords
  refine ⟨⟨fun n g hg hc => h.leaving.not_owns_syncState n ⟨g, hg, hc⟩, nofun, ?_, ?_⟩,
    syncState_issues s ?_ ?_⟩
  · rw [hlookup, h.shadowWords]
  · rw [(syncState_sameMimics s).queue]
    exact h.mimicQueue
  · intro n shadow hn status errors heq
    exact h.shadowGrammars n shadow hn (Option.some.inj heq)
  · intro b w hb status errors heq
    obtain rfl := Option.some.inj heq
    rw [h.shadowWords] at hb
    cases hb

theorem setShadowGrammar_ignores (n : CString) {shadow : GrammarState} (hc : shadow.clientId ≠ c)
    (s : State) : Ignores c s (setShadowGrammar n shadow s) := by
  intro h
  have hlive := (setShadowGrammar_live n shadow s).1
  have hsame := setShadowGrammar_sameWords n shadow s
  refine ⟨⟨?_, ?_, ?_, ?_⟩, ?_⟩
  · rw [hlive]
    exact h.grammars
  · intro k sh hk
    rw [lookup_setShadowGrammar] at hk
    split_ifs at hk
    · cases hk
      exact hc
    · exact h.shadowGrammars k sh hk
  · rw [hsame.shadowWords]
    exact h.shadowWords
  · rw [(setShadowGrammar_sameMimics n shadow s).queue]
    exact h.mimicQueue
  · unfold setShadowGrammar
    cases hn : s.shadowGrammars.lookup n with
    | none => exact .of_eq rfl
    | some skipped =>
      have hskip : (Issued.send (.gset n .skipped []) skipped.tid skipped.clientId).client ≠
          some c := fun heq => h.shadowGrammars n skipped hn (Option.some.inj heq)
      exact (Issues.issue hskip s).trans (.of_eq rfl)

theorem setShadowWords_ignores (hd : d ≠ c) (ws : OrdSet CString) (s : State) :
    Ignores c s (setShadowWords d tid ws s) := by
  intro h
  have hsame := setShadowWords_sameGrammars d tid ws s
  refine ⟨⟨?_, ?_, ?_, ?_⟩, ?_⟩
  · rw [hsame.grammars]
    exact h.grammars
  · rw [hsame.shadowGrammars]
    exact h.shadowGrammars
  · rw [lookup_setShadowWords, if_neg (Ne.symm hd)]
    exact h.shadowWords
  · rw [(setShadowWords_sameMimics ws s).queue]
    exact h.mimicQueue
  · have hsend : ∀ (p : Payload) (t : UInt32), (Issued.send p t d).client ≠ some c :=
      fun _ _ heq => hd (Option.some.inj heq)
    unfold setShadowWords
    cases s.shadowWords.lookup d with
    | none => exact .of_eq rfl
    | some w =>
      dsimp only
      split_ifs
      · exact (Issues.issue (hsend _ _) s).trans (.of_eq rfl)
      · exact .of_eq rfl

theorem acceptGrammar_ignores (n : CString) {shadow : GrammarState} (hc : shadow.clientId ≠ c)
    (s : State) : Ignores c s (acceptGrammar E n shadow s) := by
  have h := setShadowGrammar_ignores n hc s
  rw [acceptGrammar_eq]
  split_ifs
  · exact h
  · exact h.trans (syncState_ignores _)

/-- A disconnect queues unloads for the client that leaves only. -/
theorem clearClientState_ignores (d : ClientId) (stack : CString → UInt32) (s : State) :
    Ignores c s (clearClientState d stack s) := by
  intro h
  refine ⟨⟨h.grammars, fun n shadow hn => ?_, ?_, h.mimicQueue⟩, .of_eq rfl⟩
  · obtain ⟨howns, hnot⟩ := lookup_clearClientState d stack s n
    by_cases ho : s.Owns d n
    · rw [howns ho] at hn
      cases hn
      obtain ⟨g, hg, rfl⟩ := ho
      exact h.grammars n g hg
    · exact h.shadowGrammars n shadow ((hnot ho).symm.trans hn)
  · rw [lookup_shadowWords_clearClientState, h.shadowWords]
    split_ifs with hd
    · rw [← hd, h.shadowWords]
      rfl
    · rfl

theorem doUnpause_ignores (s : State) : Ignores c s (doUnpause E s) := by
  unfold doUnpause
  split_ifs
  · exact .of_eq rfl rfl rfl rfl rfl
  · exact .refl s

theorem clientUnpause_ignores (d : ClientId) (token : UInt64) (s : State) :
    Ignores c s (clientUnpause E d token s) := by
  have h : Ignores c s { s with pauseClients := s.pauseClients.erase d } :=
    .of_eq rfl rfl rfl rfl rfl
  unfold clientUnpause
  dsimp only
  split_ifs
  · exact h.trans (doUnpause_ignores _)
  · exact h
  · exact .refl s

theorem draconityReady_ignores (s : State) : Ignores c s (draconityReady E s) := by
  unfold draconityReady
  split_ifs
  · exact .refl s
  · exact (Ignores.publish _ s).trans (.of_eq rfl rfl rfl rfl rfl)

theorem handlePause_ignores (token : UInt64) (s : State) : Ignores c s (handlePause E token s) := by
  have htoken : Ignores c s { s with pauseToken := token } := .of_eq rfl rfl rfl rfl rfl
  have h := htoken.trans (syncState_ignores (E := E) _)
  unfold handlePause
  dsimp only
  generalize syncState E { s with pauseToken := token } = m at h
  split_ifs
  · exact h.trans (doUnpause_ignores m)
  · have hawait : Ignores c m
        { m with pauseClients := m.clients.foldl (fun p c => p.insert c) m.pauseClients } :=
      .of_eq rfl rfl rfl rfl rfl
    exact ((h.trans hawait).trans (.publish _ _)).trans (.of_eq rfl rfl rfl rfl rfl)

theorem handleClose_ignores (d : ClientId) (stack : CString → UInt32) (s : State) :
    Ignores c s (handleClose E d stack s) := by
  have hdrop : Ignores c s (s.dropClient d) := .of_eq rfl rfl rfl rfl rfl
  have h := hdrop.trans (clearClientState_ignores d stack _)
  by_cases h0 : s.pauseToken = 0
  · rw [handleClose_of_not_paused h0]
    exact h
  · rw [handleClose_of_paused h0]
    exact (h.trans (syncState_ignores _)).trans (clientUnpause_ignores d _ _)

theorem draconityMimicDone_ignores {stale : Option (ClientId × UInt32)}
    (hover : ∀ tid, stale ≠ some (c, tid)) (s : State) :
    Ignores c s (draconityMimicDone stale s) := by
  intro h
  unfold draconityMimicDone
  cases hq : s.mimicQueue with
  | nil => exact Ignores.refl s h
  | cons p q =>
    have hread : (stale.getD p).1 ≠ c := by
      cases stale with
      | none => exact h.mimicQueue p (hq ▸ List.mem_cons_self ..)
      | some r =>
        rintro rfl
        exact hover r.2 rfl
    have hpop : Unknown c { s with mimicQueue := q } :=
      ⟨h.grammars, h.shadowGrammars, h.shadowWords,
        fun r hr => h.mimicQueue r (hq ▸ List.mem_cons_of_mem _ hr)⟩
    have hsend : (Issued.send .mimic (stale.getD p).2 (stale.getD p).1).client ≠ some c :=
      fun heq => hread (Option.some.inj heq)
    exact Ignores.issue hsend _ hpop

/-! ### The requests of the others -/

variable {cmd : CString}

theorem wCommand_ignores (hd : d ≠ c) (found : Found) :
    Ignores c s (wCommand E d tid cmd f found s).2 := by
  unfold wCommand wSet
  split_ifs
  · exact .refl s
  · exact .refl s
  · exact .refl s
  · dsimp only
    split_ifs
    · exact .refl s
    · split
      · exact .refl s
      · split
        · exact .refl s
        · exact setShadowWords_ignores hd _ s
  · exact .refl s

theorem gCommand_ignores (hd : d ≠ c) : Ignores c s (gCommand E d tid cmd f s).2 := by
  unfold gCommand
  by_cases hr : s.ready = false
  · rw [if_pos hr]
    exact .refl s
  rw [if_neg hr]
  cases f.name with
  | none => exact .refl s
  | some name =>
    dsimp only
    split_ifs
    · cases hs : gSetState d tid f with
      | error e => exact .refl s
      | ok shadow =>
        obtain ⟨hclient, -, -⟩ := gSetState_ok hs
        exact acceptGrammar_ignores name (hclient ▸ hd) s
    · have hclient : (unloadState d tid).clientId ≠ c := hd
      exact acceptGrammar_ignores name hclient s
    · exact .refl s

theorem micSetState_ignores (found : Found) : Ignores c s (micSetState E f found s).2 := by
  unfold micSetState
  split
  · exact .refl s
  · split
    · exact .refl s
    · have h : Ignores c s (engineAcquire E found s) :=
        engineAcquire_rel .refl .trans .publish draconityReady_ignores found s
      dsimp only
      split_ifs <;> exact h.trans (.of_eq rfl rfl rfl rfl rfl)

theorem unpause_ignores : Ignores c s (unpause E d f s).2 := by
  unfold unpause
  split_ifs
  · exact .refl s
  · exact clientUnpause_ignores d _ s

theorem mimicCall_ignores : Ignores c s (mimicCall E f s).2 := by
  unfold mimicCall
  split_ifs
  · exact .refl s
  split
  · exact .refl s
  split_ifs
  · exact .refl s
  split
  · exact .refl s
  split
  · exact .refl s
  · exact .of_eq rfl rfl rfl rfl rfl

theorem mimic_ignores (hd : d ≠ c) : Ignores c s (mimic E d tid f s).2 := by
  have hcall := mimicCall_ignores (E := E) (c := c) (f := f) (s := s)
  have hpush : ∀ m, Ignores c m (mimicPush d tid m) := by
    intro m h
    refine ⟨⟨h.grammars, h.shadowGrammars, h.shadowWords, fun p hp => ?_⟩, .of_eq rfl⟩
    rcases List.mem_append.1 hp with hp | hp
    · exact h.mimicQueue p hp
    · rw [List.mem_singleton.1 hp]
      exact hd
  rw [mimic_eq]
  rcases hm : mimicCall E f s with ⟨_ | e, m⟩
  · rw [hm] at hcall
    exact hcall.trans (hpush m)
  · rw [hm] at hcall
    exact hcall

theorem handleMessage_ignores (hd : d ≠ c) (msg : Option Elements) (found : Found) (s : State) :
    Ignores c s (handleMessage E d tid msg found s).2 := by
  cases msg with
  | none => exact .refl s
  | some root =>
    refine Ignores.trans ?_ (.publish _ (dispatch E d tid (.ofRoot root) found s).2)
    unfold dispatch
    split
    · exact .refl s
    · split_ifs
      · exact wCommand_ignores hd found
      · exact draconityReady_ignores s
      · exact gCommand_ignores hd
      · exact micSetState_ignores found
      · exact unpause_ignores
      · exact .refl s
      · exact mimic_ignores hd
      · exact .refl s

/-! ### Every event that does not name the client -/

/-- **A client that sends no request stays unknown**, and no message is sent to it alone. -/
theorem step_ignores {e : Event} (he : ¬ e.Names c) (s : State) : Ignores c s (step E s e) := by
  cases e with
  | connect => exact .of_eq rfl rfl rfl rfl rfl
  | close d stack => exact handleClose_ignores d stack s
  | message d t msg found => exact handleMessage_ignores he msg found s
  | paused token => exact handlePause_ignores token s
  | timer =>
    have h : Ignores c s { s with pauseTimer := false } := .of_eq rfl rfl rfl rfl rfl
    exact h.trans (doUnpause_ignores _)
  | ready => exact draconityReady_ignores s
  | mimicDone stale => exact draconityMimicDone_ignores (not_exists.1 he) s

theorem exec_ignores {es : List Event} (hes : ∀ e ∈ es, ¬ e.Names c) (s : State) :
    Ignores c s ((eventLoop E).exec s es) := by
  induction es generalizing s with
  | nil => exact .refl s
  | cons e es ih =>
    exact (step_ignores (hes e (List.mem_cons_self ..)) s).trans
      (ih (fun e' he' => hes e' (List.mem_cons_of_mem _ he')) _)

end Draconity
