import Draconity.EventLoop

/-!
What the events leave alone.

The state is read through a few views: the responses issued for a grammar name or to a client, and
the calls of `_DSXEngine_Resume`.  `SameStore` and `SamePause` say that a step changed nothing of
the shadow and live state, or of the pause protocol; `handled` says once what a request can do.
-/

namespace Draconity

open Lib

variable {E : Env} {s s' s'' : State}

/-! ### Responses and resumes -/

/-- A deferred response: its client, its transaction, its status and its errors. -/
structure Answer (ε : Type) where
  clientId : ClientId
  tid : UInt32
  status : Status
  errors : List ε
  deriving DecidableEq

/-- The `g.set` response for a name that was issued, if one was. -/
def Issued.gset (name : CString) : Issued → Option (Answer GrammarError)
  | .send (.gset n status errors) tid c => if n = name then some ⟨c, tid, status, errors⟩ else none
  | _ => none

def Issued.wset (clientId : ClientId) : Issued → Option (Answer WordError)
  | .send (.wset status errors) tid c =>
    if c = clientId then some ⟨c, tid, status, errors⟩ else none
  | _ => none

/-- The `g.set` responses issued for a name, oldest first. -/
def gsetAnswers (name : CString) (s : State) : List (Answer GrammarError) :=
  s.issued.filterMap (Issued.gset name)

def wsetAnswers (clientId : ClientId) (s : State) : List (Answer WordError) :=
  s.issued.filterMap (Issued.wset clientId)

/-- The token of a call of `_DSXEngine_Resume`. -/
def Call.resumed : Call → Option UInt64
  | .resume t => some t
  | _ => none

/-- The tokens `_DSXEngine_Resume` was called with, oldest first. -/
def resumes (s : State) : List UInt64 := s.dragon.log.filterMap fun c => c.1.resumed

@[simp] theorem gsetAnswers_issue (n : CString) (i : Issued) (s : State) :
    gsetAnswers n (s.issue i) = gsetAnswers n s ++ (i.gset n).toList := by
  unfold gsetAnswers State.issue
  cases h : i.gset n <;> simp [h]

@[simp] theorem wsetAnswers_issue (c : ClientId) (i : Issued) (s : State) :
    wsetAnswers c (s.issue i) = wsetAnswers c s ++ (i.wset c).toList := by
  unfold wsetAnswers State.issue
  cases h : i.wset c <;> simp [h]

/-! ### Frames -/

/-- Nothing of the shadow state, the live state or their responses changed. -/
structure SameStore (s s' : State) : Prop where
  grammars : s'.grammars = s.grammars
  shadowGrammars : s'.shadowGrammars = s.shadowGrammars
  loadedWords : s'.loadedWords = s.loadedWords
  shadowWords : s'.shadowWords = s.shadowWords
  syncs : s'.syncs = s.syncs
  loaded : s'.dragon.loaded = s.dragon.loaded
  next : s'.dragon.next = s.dragon.next
  words : s'.dragon.words = s.dragon.words
  gset : ∀ n, gsetAnswers n s' = gsetAnswers n s
  wset : ∀ c, wsetAnswers c s' = wsetAnswers c s

theorem SameStore.refl (s : State) : SameStore s s :=
  ⟨rfl, rfl, rfl, rfl, rfl, rfl, rfl, rfl, fun _ => rfl, fun _ => rfl⟩

theorem SameStore.trans (h : SameStore s s') (h' : SameStore s' s'') : SameStore s s'' where
  grammars := h'.grammars.trans h.grammars
  shadowGrammars := h'.shadowGrammars.trans h.shadowGrammars
  loadedWords := h'.loadedWords.trans h.loadedWords
  shadowWords := h'.shadowWords.trans h.shadowWords
  syncs := h'.syncs.trans h.syncs
  loaded := h'.loaded.trans h.loaded
  next := h'.next.trans h.next
  words := h'.words.trans h.words
  gset n := (h'.gset n).trans (h.gset n)
  wset c := (h'.wset c).trans (h.wset c)

/-- Nothing of the pause protocol or the connections changed. -/
structure SamePause (s s' : State) : Prop where
  pauseToken : s'.pauseToken = s.pauseToken
  pauseClients : s'.pauseClients = s.pauseClients
  pauseTimer : s'.pauseTimer = s.pauseTimer
  clients : s'.clients = s.clients
  clientNonce : s'.clientNonce = s.clientNonce
  resumes : resumes s' = resumes s

theorem SamePause.refl (s : State) : SamePause s s := ⟨rfl, rfl, rfl, rfl, rfl, rfl⟩

theorem SamePause.trans (h : SamePause s s') (h' : SamePause s' s'') : SamePause s s'' where
  pauseToken := h'.pauseToken.trans h.pauseToken
  pauseClients := h'.pauseClients.trans h.pauseClients
  pauseTimer := h'.pauseTimer.trans h.pauseTimer
  clients := h'.clients.trans h.clients
  clientNonce := h'.clientNonce.trans h.clientNonce
  resumes := h'.resumes.trans h.resumes

/-! ### Messages and calls that are neither responses nor about the store -/

theorem sameStore_issue {i : Issued} (hg : ∀ n, i.gset n = none) (hw : ∀ c, i.wset c = none)
    (s : State) : SameStore s (s.issue i) :=
  ⟨rfl, rfl, rfl, rfl, rfl, rfl, rfl, rfl, fun n => by simp [hg n], fun c => by simp [hw c]⟩

theorem samePause_issue (i : Issued) (s : State) : SamePause s (s.issue i) :=
  ⟨rfl, rfl, rfl, rfl, rfl, rfl⟩

theorem sameStore_publish (p : Payload) (s : State) : SameStore s (s.issue (.publish p)) :=
  sameStore_issue (fun _ => rfl) (fun _ => rfl) s

theorem sameStore_call {c : Call} (hc : ∀ d : Dragon, d.effect c = d) (s : State) :
    SameStore s { s with dragon := (s.dragon.call E c).2 } := by
  refine ⟨rfl, rfl, rfl, rfl, rfl, ?_, ?_, ?_, fun _ => rfl, fun _ => rfl⟩
  · simp [Dragon.loaded_call, hc]
  · simp [Dragon.next_call, hc]
  · simp [Dragon.words_call, hc]

theorem resumes_call (c : Call) (s : State) :
    resumes { s with dragon := (s.dragon.call E c).2 } = resumes s ++ c.resumed.toList := by
  unfold resumes
  cases h : c.resumed <;> simp [h]

theorem samePause_call {c : Call} (hc : c.resumed = none) (s : State) :
    SamePause s { s with dragon := (s.dragon.call E c).2 } :=
  ⟨rfl, rfl, rfl, rfl, rfl, by simp [resumes_call, hc]⟩

/-! ### Requests -/

/-- What a request with the fields `f` can do: it is an accepted `w.set`, an accepted `g.set` or
`g.unload`, an accepted `unpause`, or it changes neither the store nor the pause protocol. -/
inductive Handled (E : Env) (c : ClientId) (tid : UInt32) (f : Fields) (s : State) :
    Outcome × State → Prop
  | words (ws : OrdSet CString) (cmd : f.cmd = some (.lit "w.set")) :
    Handled E c tid f s (.noResponse, setShadowWords c tid ws s)
  | grammar (name : CString) (shadow : GrammarState)
    (cmd : f.cmd = some (.lit "g.set") ∨ f.cmd = some (.lit "g.unload"))
    (hn : f.name = some name) (hc : shadow.clientId = c) (ht : shadow.tid = tid)
    (hb : shadow.unload = false → shadow.blob ≠ []) :
    Handled E c tid f s (.noResponse, acceptGrammar E name shadow s)
  | unpause (cmd : f.cmd = some (.lit "unpause")) (h0 : f.token ≠ 0)
    (ht : f.token = s.pauseToken) :
    Handled E c tid f s (.reply .success, clientUnpause E c f.token s)
  | quiet (o : Outcome) (s' : State) (store : SameStore s s') (pause : SamePause s s')
    (reply : o = .noResponse → f.cmd = some (.lit "mimic"))
    (refused : f.cmd = some (.lit "unpause") → ∃ e, o = .refuse e) :
    Handled E c tid f s (o, s')

section Handled

variable {c : ClientId} {tid : UInt32} {f : Fields} {cmd : CString}

theorem Handled.refuse (e : Refusal) : Handled E c tid f s (.refuse e, s) :=
  .quiet _ _ (.refl s) (.refl s) (fun h => nomatch h) fun _ => ⟨e, rfl⟩

theorem Handled.answer (hf : f.cmd = some cmd) (hu : cmd ≠ .lit "unpause") (r : Reply)
    (store : SameStore s s') (pause : SamePause s s') : Handled E c tid f s (.reply r, s') :=
  .quiet _ _ store pause (fun h => nomatch h) fun h =>
    absurd (Option.some.inj (hf.symm.trans h)) hu

theorem gSetState_ok {shadow : GrammarState} (h : gSetState c tid f = .ok shadow) :
    shadow.clientId = c ∧ shadow.tid = tid ∧ shadow.blob ≠ [] := by
  unfold gSetState at h
  split at h
  · cases h
  · cases h
  · split at h
    · cases h
    · split at h
      · cases h
      · split at h
        · cases h
        · split at h
          · cases h
          · split at h
            · cases h; exact ⟨rfl, rfl, List.cons_ne_nil _ _⟩
            · split at h
              · cases h
              · split at h
                · cases h
                · cases hl : readLists ∅ _ with
                  | error e => rw [hl] at h; cases h
                  | ok l => rw [hl] at h; cases h; exact ⟨rfl, rfl, List.cons_ne_nil _ _⟩

theorem wCommand_handled (found : Found) (hf : f.cmd = some cmd) (hu : cmd ≠ .lit "unpause") :
    Handled E c tid f s (wCommand E c tid cmd f found s) := by
  unfold wCommand wSet wList
  split_ifs with _ _ _ hw
  · exact .refuse _
  · exact .refuse _
  · split
    · exact .refuse _
    · split
      · exact .refuse _
      · exact .answer hf hu _ (.refl s) (.refl s)
  · dsimp only
    split_ifs
    · exact .refuse _
    · split
      · exact .refuse _
      · split
        · exact .refuse _
        · exact .words _ (hw ▸ hf)
  · exact .refuse _

theorem gCommand_handled (hf : f.cmd = some cmd) :
    Handled E c tid f s (gCommand E c tid cmd f s) := by
  unfold gCommand
  by_cases hr : s.ready = false
  · rw [if_pos hr]; exact .refuse _
  rw [if_neg hr]
  cases hn : f.name with
  | none => exact .refuse _
  | some name =>
    dsimp only
    by_cases hset : cmd = .lit "g.set"
    · rw [if_pos hset]
      cases hs : gSetState c tid f with
      | error e => exact .refuse e
      | ok shadow =>
        obtain ⟨h₁, h₂, h₃⟩ := gSetState_ok hs
        exact .grammar name shadow (.inl (hset ▸ hf)) hn h₁ h₂ fun _ => h₃
    · rw [if_neg hset]
      split_ifs with hunload
      · exact .grammar name _ (.inr (hunload ▸ hf)) hn rfl rfl fun h => nomatch h
      · exact .refuse _

theorem draconityReady_same (s : State) :
    SameStore s (draconityReady E s) ∧ SamePause s (draconityReady E s) := by
  unfold draconityReady
  split_ifs
  · exact ⟨.refl s, .refl s⟩
  · exact ⟨(sameStore_publish _ s).trans ⟨rfl, rfl, rfl, rfl, rfl, rfl, rfl, rfl, fun _ => rfl,
      fun _ => rfl⟩, ⟨rfl, rfl, rfl, rfl, rfl, rfl⟩⟩

theorem draconityReady_dragon (s : State) : (draconityReady E s).dragon = s.dragon := by
  unfold draconityReady
  split_ifs <;> rfl

theorem draconityReady_ready (s : State) : (draconityReady E s).ready = true := by
  unfold draconityReady
  split_ifs with h
  · exact h
  · rfl

/-- `engine_acquire` publishes at most, and may set `ready`. -/
theorem engineAcquire_rel {R : State → State → Prop} (refl : ∀ s, R s s)
    (trans : ∀ {s s' s''}, R s s' → R s' s'' → R s s'')
    (publish : ∀ p s, R s (s.issue (.publish p))) (ready : ∀ s, R s (draconityReady E s))
    (found : Found) (s : State) : R s (engineAcquire E found s) := by
  unfold engineAcquire
  have hstart : R s (if found.engine then s else s.issue (.publish .start)) := by
    split_ifs
    · exact refl s
    · exact publish _ s
  dsimp only
  generalize (if found.engine then s else s.issue (.publish .start)) = m at hstart
  split_ifs
  · exact trans hstart (ready m)
  · exact hstart

theorem engineAcquire_same (found : Found) (s : State) :
    SameStore s (engineAcquire E found s) ∧ SamePause s (engineAcquire E found s) :=
  ⟨engineAcquire_rel .refl .trans sameStore_publish (fun s => (draconityReady_same s).1) found s,
    engineAcquire_rel .refl .trans (fun _ => samePause_issue _)
      (fun s => (draconityReady_same s).2) found s⟩

theorem engineAcquire_dragon (found : Found) (s : State) :
    (engineAcquire E found s).dragon = s.dragon :=
  engineAcquire_rel (R := fun s s' => s'.dragon = s.dragon) (fun _ => rfl) (fun h h' => h'.trans h)
    (fun _ _ => rfl) draconityReady_dragon found s

theorem micSetState_handled (hf : f.cmd = some cmd) (hu : cmd ≠ .lit "unpause") (found : Found) :
    Handled E c tid f s (micSetState E f found s) := by
  unfold micSetState
  split
  · exact .refuse _
  · split
    · exact .refuse _
    · obtain ⟨hstore, hpause⟩ := engineAcquire_same (E := E) found s
      have store := hstore.trans (sameStore_call (E := E) (c := .setMicState ‹ℕ›) (fun _ => rfl) _)
      have pause := hpause.trans (samePause_call (E := E) (c := .setMicState ‹ℕ›) rfl _)
      dsimp only
      split_ifs
      · exact .quiet _ _ store pause (fun h => nomatch h) fun _ => ⟨_, rfl⟩
      · exact .answer hf hu _ store pause

theorem unpause_handled (hf : f.cmd = some (.lit "unpause")) :
    Handled E c tid f s (unpause E c f s) := by
  unfold unpause
  split_ifs with h
  · exact .refuse _
  · obtain ⟨h0, ht⟩ := not_or.1 h
    exact .unpause hf h0 (not_not.1 ht)

theorem mimic_handled (hf : f.cmd = some (.lit "mimic")) :
    Handled E c tid f s (mimic E c tid f s) := by
  have hu : f.cmd ≠ some (.lit "unpause") := by rw [hf]; decide
  unfold mimic
  split
  · exact .refuse _
  split
  · exact .refuse _
  split
  · exact .refuse _
  split
  · exact .refuse _
  split
  · exact .refuse _
  rename_i phrase _
  have store := sameStore_call (E := E) (c := .mimic phrase) (fun _ => rfl) s
  have pause := samePause_call (E := E) (c := .mimic phrase) rfl s
  dsimp only
  split
  · exact .quiet _ _ store pause (fun h => nomatch h) fun _ => ⟨_, rfl⟩
  · exact .quiet _ _
      (store.trans ⟨rfl, rfl, rfl, rfl, rfl, rfl, rfl, rfl, fun _ => rfl, fun _ => rfl⟩)
      (pause.trans ⟨rfl, rfl, rfl, rfl, rfl, rfl⟩) (fun _ => hf) fun h => absurd h hu

/-- **What a request can do.** -/
theorem dispatch_handled (E : Env) (c : ClientId) (tid : UInt32) (f : Fields) (found : Found)
    (s : State) : Handled E c tid f s (dispatch E c tid f found s) := by
  unfold dispatch
  split
  · exact .refuse _
  · rename_i cmd hf
    split_ifs with hw hr hg hm hu hs hmim
    · refine wCommand_handled found hf ?_
      rintro rfl
      exact absurd hw (by decide)
    · exact .answer hf (hr ▸ by decide) _ (draconityReady_same s).1 (draconityReady_same s).2
    · exact gCommand_handled hf
    · exact micSetState_handled hf (hm ▸ by decide) found
    · exact unpause_handled (hu ▸ hf)
    · exact .answer hf hu _ (.refl s) (.refl s)
    · exact mimic_handled (hmim ▸ hf)
    · exact .refuse _

end Handled

end Draconity
