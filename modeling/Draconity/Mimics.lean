import Draconity.Lib.Pairing
import Draconity.Requests

/-!
Mimics, with the callbacks of Dragon between their two halves.

`handle_message` calls `_DSXEngine_Mimic` and then pushes the client and the transaction on
`mimic_queue`, while `draconity_mimic_done` pops the front of the queue on a thread of Dragon.  The
two halves of a `mimic` are steps of their own here, and a callback can arrive between them.  It reads
the entry only after it has popped it, when something else may stand in its place.
-/

namespace Draconity

open Lib

variable {E : Env} {s s' s'' : State} {c : ClientId} {tid : UInt32}

/-! ### The halves of a `mimic` -/

/-- `mimic` up to the return code of `_DSXEngine_Mimic`; a refusal ends the command. -/
def mimicCall (E : Env) (f : Fields) (s : State) : Option Refusal × State :=
  if s.ready = false then (some .notReady, s) else
  match f.phrase with
  | none => (some .brokenPhrase, s)
  | some ⟨len, iter⟩ =>
    if len = 0 then (some .brokenPhrase, s) else
    match iter with
    | none => (some .phraseIter, s)
    | some es =>
      match readPhrase es with
      | none => (some .nonStringPhrase, s)
      | some phrase =>
        let r := s.dragon.call E (.mimic phrase)
        (if r.1 ≠ 0 then some (.mimic r.1) else none, { s with dragon := r.2 })

/-- `mimic` from the lock of `mimic_lock` on. -/
def mimicPush (clientId : ClientId) (tid : UInt32) (s : State) : State :=
  { s with mimicQueue := s.mimicQueue ++ [(clientId, tid)] }

/-- The halves make up the command. -/
theorem mimic_eq (E : Env) (c : ClientId) (tid : UInt32) (f : Fields) (s : State) :
    mimic E c tid f s = match mimicCall E f s with
      | (some e, m) => (.refuse e, m)
      | (none, m) => (.noResponse, mimicPush c tid m) := by
  unfold mimic mimicCall
  by_cases hr : s.ready = false
  · rw [if_pos hr, if_pos hr]
  rw [if_neg hr, if_neg hr]
  rcases hp : f.phrase with _ | ⟨len, iter⟩
  · rfl
  dsimp only
  by_cases hl : len = 0
  · rw [if_pos hl, if_pos hl]
  rw [if_neg hl, if_neg hl]
  cases iter with
  | none => rfl
  | some es =>
    dsimp only
    cases readPhrase es with
    | none => rfl
    | some phrase =>
      dsimp only
      by_cases hrc : (s.dragon.call E (.mimic phrase)).1 = 0
      · rw [if_neg (not_not.2 hrc), if_neg (not_not.2 hrc)]
        rfl
      · rw [if_pos hrc, if_pos hrc]

/-! ### The queue and the responses -/

def Issued.mimic : Issued → Option (ClientId × UInt32)
  | .send .mimic tid c => some (c, tid)
  | _ => none

def mimicAnswers (s : State) : List (ClientId × UInt32) := s.issued.filterMap Issued.mimic

theorem mimicAnswers_issue (i : Issued) (s : State) :
    mimicAnswers (s.issue i) = mimicAnswers s ++ i.mimic.toList := by
  unfold mimicAnswers State.issue
  cases h : i.mimic <;> simp [h]

/-- Neither the queue nor the responses changed. -/
structure SameMimics (s s' : State) : Prop where
  queue : s'.mimicQueue = s.mimicQueue
  answers : mimicAnswers s' = mimicAnswers s

namespace SameMimics

theorem refl (s : State) : SameMimics s s := ⟨rfl, rfl⟩

theorem trans (h : SameMimics s s') (h' : SameMimics s' s'') : SameMimics s s'' :=
  ⟨h'.queue.trans h.queue, h'.answers.trans h.answers⟩

theorem issue {i : Issued} (hi : i.mimic = none) (s : State) : SameMimics s (s.issue i) := by
  refine ⟨rfl, ?_⟩
  rw [mimicAnswers_issue, hi]
  exact List.append_nil _

end SameMimics

theorem mimicAnswers_sends (s : State) : mimicAnswers s = (sends s).filterMap Issued.mimic := by
  unfold mimicAnswers sends
  induction s.issued with
  | nil => rfl
  | cons i is ih =>
    cases i with
    | publish p => exact ih
    | send p t b =>
      rw [List.filter_cons_of_pos (show (Issued.send p t b).deferred = true from rfl),
        List.filterMap_cons, List.filterMap_cons, ih]

theorem SameRecords.sameMimics (h : SameRecords s s') : SameMimics s s' where
  queue := h.mimicQueue
  answers := by rw [mimicAnswers_sends, mimicAnswers_sends, h.sends]

theorem removeGrammar_sameMimics (n : CString) (g : Grammar) (s : State) :
    SameMimics s (removeGrammar E n g s) := ⟨rfl, rfl⟩

theorem syncEntry_sameMimics (s : State) (e : Σ _ : CString, GrammarState) :
    SameMimics s (syncEntry E s e) := by
  unfold syncEntry syncUnload syncSet
  split_ifs with hu
  · dsimp only
    split
    · exact (removeGrammar_sameMimics ..).trans (.issue rfl _)
    · exact .issue rfl _
  · dsimp only
    generalize syncGrammar E ((s.grammars.lookup e.1).getD (Grammar.new e.1)) e.2 s.dragon = p
    have h : SameMimics s { s with
        grammars := s.grammars.insert e.1 { p.1 with errors := [] }
        dragon := p.2 } := ⟨rfl, rfl⟩
    split_ifs
    · exact h.trans (.issue rfl _)
    · exact (h.trans (removeGrammar_sameMimics ..)).trans (.issue rfl _)

theorem syncWords_sameMimics (s : State) : SameMimics s (syncWords E s) := by
  have hpass : ∀ errors (s : State) e, SameMimics s (handleClientFailures errors s e) := by
    intro errors s e
    have h : ∀ w, SameMimics s { s with shadowWords := w } := fun _ => ⟨rfl, rfl⟩
    exact (h _).trans (.issue rfl _)
  refine SameMimics.trans ?_
    (Keyed.foldl_rel SameMimics.refl SameMimics.trans (hpass _) _ _)
  exact ⟨rfl, rfl⟩

theorem syncState_sameMimics (s : State) : SameMimics s (syncState E s) := by
  have h := (syncWords_sameMimics (E := E) s).trans
    (Keyed.foldl_rel SameMimics.refl SameMimics.trans (syncEntry_sameMimics (E := E))
      (E.grammarOrder (syncWords E s).syncs (syncWords E s).shadowGrammars.entries)
      (syncWords E s))
  exact ⟨h.queue, h.answers⟩

theorem setShadowGrammar_sameMimics (n : CString) (shadow : GrammarState) (s : State) :
    SameMimics s (setShadowGrammar n shadow s) := by
  unfold setShadowGrammar
  cases s.shadowGrammars.lookup n with
  | none => exact ⟨rfl, rfl⟩
  | some g => exact SameMimics.trans (.issue rfl s) ⟨rfl, rfl⟩

theorem setShadowWords_sameMimics (ws : OrdSet CString) (s : State) :
    SameMimics s (setShadowWords c tid ws s) := by
  unfold setShadowWords
  cases s.shadowWords.lookup c with
  | none => exact ⟨rfl, rfl⟩
  | some w =>
    dsimp only
    split_ifs
    · exact SameMimics.trans (.issue rfl s) ⟨rfl, rfl⟩
    · exact ⟨rfl, rfl⟩

theorem acceptGrammar_sameMimics (n : CString) (shadow : GrammarState) (s : State) :
    SameMimics s (acceptGrammar E n shadow s) := by
  have h := setShadowGrammar_sameMimics n shadow s
  rw [acceptGrammar_eq]
  split_ifs
  · exact h
  · exact h.trans (syncState_sameMimics _)

theorem handlePause_sameMimics (token : UInt64) (s : State) :
    SameMimics s (handlePause E token s) := by
  have htoken : SameMimics s { s with pauseToken := token } := ⟨rfl, rfl⟩
  have h := htoken.trans (syncState_sameMimics (E := E) _)
  unfold handlePause
  dsimp only
  generalize syncState E { s with pauseToken := token } = m at h
  split_ifs
  · exact h.trans (doUnpause_sameRecords m).sameMimics
  · have hpub := SameMimics.issue (i := .publish (.paused token)) rfl
      { m with pauseClients := m.clients.foldl (fun p c => p.insert c) m.pauseClients }
    exact h.trans ⟨hpub.queue, hpub.answers⟩

theorem handleDisconnect_sameMimics (stack : CString → UInt32) (s : State) :
    SameMimics s (handleDisconnect E c stack s) := by
  have h : SameMimics s (clearClientState c stack s) := ⟨rfl, rfl⟩
  unfold handleDisconnect
  dsimp only
  split_ifs
  · exact (h.trans (syncState_sameMimics _)).trans (clientUnpause_sameRecords ..).sameMimics
  · exact h

def Event.onMimic : Event → Bool
  | .message _ _ (some root) _ => (Fields.ofRoot root).cmd = some (.lit "mimic")
  | .mimicDone _ => true
  | _ => false

/-- Dragon calls `draconity_ready` on a thread of its own. -/
def Event.ofDragon : Event → Bool
  | .ready => true
  | _ => false

theorem handleMessage_sameMimics {msg : Option Elements} {found : Found}
    (h : (Event.message c tid msg found).onMimic = false) :
    SameMimics s (handleMessage E c tid msg found s).2 := by
  cases msg with
  | none => exact .refl s
  | some root =>
    have hf : (Fields.ofRoot root).cmd ≠ some (.lit "mimic") := of_decide_eq_false h
    have hends := dispatch_ends E c tid (.ofRoot root) found s
    unfold handleMessage
    dsimp only
    generalize dispatch E c tid (.ofRoot root) found s = r at hends
    refine SameMimics.trans ?_ (.issue rfl _)
    cases hends with
    | refuse e d => exact ⟨rfl, rfl⟩
    | notSet rc d =>
      exact (engineAcquire_sameRecords found s).sameMimics.trans ⟨rfl, rfl⟩
    | reply r s' ok same => exact same.sameMimics
    | words ws cmd => exact setShadowWords_sameMimics ws s
    | grammar name shadow cmd hn hc ht => exact acceptGrammar_sameMimics name shadow s
    | mimic d cmd => exact absurd cmd hf

/-- Nothing else touches mimics. -/
theorem step_sameMimics {e : Event} (he : e.onMimic = false) : SameMimics s (step E s e) := by
  cases e with
  | connect => exact ⟨rfl, rfl⟩
  | close b stack =>
    have h : SameMimics s (s.dropClient b) := ⟨rfl, rfl⟩
    exact h.trans (handleDisconnect_sameMimics stack _)
  | message b t msg found => exact handleMessage_sameMimics he
  | paused token => exact handlePause_sameMimics token s
  | timer =>
    have h : SameMimics s { s with pauseTimer := false } := ⟨rfl, rfl⟩
    exact h.trans (doUnpause_sameRecords _).sameMimics
  | ready => exact (draconityReady_sameRecords s).sameMimics
  | mimicDone stale => cases he

/-! ### The event loop, and the callbacks of Dragon -/

/-- The state of the event loop, which may be inside of a `mimic`. -/
structure MimicState where
  state : State
  /-- The client, the transaction and the request of a `mimic` that was accepted and is not on the
  queue yet. -/
  entering : Option (ClientId × UInt32 × Elements)
  /-- The clients and transactions of the mimics that `_DSXEngine_Mimic` accepted. -/
  accepted : List (ClientId × UInt32)
  /-- How many mimic-done callbacks have arrived. -/
  arrived : ℕ

inductive MimicEvent
  /-- A `mimic`, up to the call of `_DSXEngine_Mimic`. -/
  | request (clientId : ClientId) (tid : UInt32) (root : Elements)
  /-- The rest of it. -/
  | push
  /-- Dragon calls `draconity_mimic_done`; `stale` is as there. -/
  | done (stale : Option (ClientId × UInt32))
  /-- Any other event. -/
  | other (e : Event)

/-- The client and the transaction that are not on the queue yet. -/
def MimicState.entered (m : MimicState) : Option (ClientId × UInt32) :=
  m.entering.map fun r => (r.1, r.2.1)

/-- What an event does.  A refused `mimic` ends at once, and the request is published when it ends. -/
def mimicStep (E : Env) (m : MimicState) : MimicEvent → MimicState
  | .request c tid root =>
    match mimicCall E (.ofRoot root) m.state with
    | (some _, s) => { m with state := s.issue (.publish (.cmd false root)) }
    | (none, s) =>
      { m with state := s, entering := some (c, tid, root), accepted := m.accepted ++ [(c, tid)] }
  | .push =>
    match m.entering with
    | none => m
    | some (c, tid, root) =>
      { m with state := (mimicPush c tid m.state).issue (.publish (.cmd true root)), entering := none }
  | .done stale => { m with state := draconityMimicDone stale m.state, arrived := m.arrived + 1 }
  | .other e => { m with state := step E m.state e }

/-- When an event can happen.  The thread of the event loop finishes a `mimic` before it does
anything else, but `draconity_ready` may come from Dragon; and Dragon makes one callback for each
mimic it accepted, in the order it accepted them. -/
def MimicEnabled (m : MimicState) : MimicEvent → Prop
  | .request c _ root =>
    m.entering.isNone ∧ c ∈ m.state.clients ∧ (Fields.ofRoot root).cmd = some (.lit "mimic")
  | .push => m.entering.isSome
  | .done _ => m.arrived < m.accepted.length
  | .other e =>
    Enabled m.state e ∧ e.onMimic = false ∧ (e.ofDragon = true ∨ m.entering.isNone)

instance (m : MimicState) : DecidablePred (MimicEnabled m)
  | .request _ _ _ => inferInstanceAs (Decidable (_ ∧ _ ∧ _ = _))
  | .push => inferInstanceAs (Decidable (m.entering.isSome = true))
  | .done _ => inferInstanceAs (Decidable (_ < _))
  | .other _ => inferInstanceAs (Decidable (_ ∧ _ = _ ∧ (_ = _ ∨ _ = _)))

/-- The event loop with the callbacks of Dragon, started with no token. -/
def mimicLoop (E : Env) : Machine MimicState MimicEvent where
  start := ⟨State.init 0, none, [], 0⟩
  enabled := MimicEnabled
  step := mimicStep E

instance (E : Env) (m : MimicState) : DecidablePred ((mimicLoop E).enabled m) :=
  inferInstanceAs (DecidablePred (MimicEnabled m))

/-- A `mimic` is one step of the event loop when nothing comes between its halves. -/
theorem step_mimic {m : MimicState} {root : Elements} {found : Found} (hnone : m.entering.isNone)
    (hf : (Fields.ofRoot root).cmd = some (.lit "mimic")) :
    let m' := mimicStep E m (.request c tid root)
    step E m.state (.message c tid (some root) found) =
      (if m'.entering.isSome then mimicStep E m' .push else m').state := by
  have hdispatch : dispatch E c tid (.ofRoot root) found m.state =
      mimic E c tid (.ofRoot root) m.state := by
    unfold dispatch
    rw [hf]
    exact if_neg (by decide)
  show (dispatch E c tid (.ofRoot root) found m.state).2.issue (.publish (.cmd
    (dispatch E c tid (.ofRoot root) found m.state).1.ok root)) = _
  rw [hdispatch, mimic_eq]
  rw [Option.isNone_iff_eq_none] at hnone
  rcases hcall : mimicCall E (.ofRoot root) m.state with ⟨_ | e, s⟩
  · simp only [mimicStep, hcall, Option.isSome_some, if_true]
    rfl
  · simp only [mimicStep, hcall, hnone, Option.isSome_none, Bool.false_eq_true, if_false]
    rfl

/-! ### The pairing -/

def MimicState.pairing (m : MimicState) : Pairing (ClientId × UInt32) where
  accepted := m.accepted
  entering := m.entered
  queue := m.state.mimicQueue
  arrived := m.arrived
  answered := mimicAnswers m.state

/-- What an event is to the mimics. -/
def MimicEvent.pairing (E : Env) (m : MimicState) : MimicEvent → Pairing.Event (ClientId × UInt32)
  | .request c tid root =>
    if (mimicCall E (.ofRoot root) m.state).1.isNone then .accept (c, tid) else .other
  | .push => .enter
  | .done stale => .arrive stale
  | .other _ => .other

theorem MimicEvent.pairing_request (E : Env) (m : MimicState) (c : ClientId) (tid : UInt32)
    (root : Elements) : (MimicEvent.request c tid root).pairing E m = .accept (c, tid) ∨
      (MimicEvent.request c tid root).pairing E m = .other := by
  unfold MimicEvent.pairing
  dsimp only
  split_ifs
  · exact .inl rfl
  · exact .inr rfl

theorem mimicCall_sameMimics (f : Fields) (s : State) :
    SameMimics s (mimicCall E f s).2 := by
  unfold mimicCall
  split_ifs
  · exact .refl s
  split
  · exact .refl s
  split_ifs
  · exact .refl s
  split
  · exact .refl s
  split
  · exact .refl s
  · exact ⟨rfl, rfl⟩

/-- `draconity_mimic_done` takes the front of the queue, and answers what it reads there. -/
theorem draconityMimicDone_pairing (stale : Option (ClientId × UInt32)) (s : State) :
    (draconityMimicDone stale s).mimicQueue = s.mimicQueue.tail ∧
      mimicAnswers (draconityMimicDone stale s) =
        mimicAnswers s ++ (s.mimicQueue.head?.map stale.getD).toList := by
  unfold draconityMimicDone
  cases hq : s.mimicQueue with
  | nil => exact ⟨hq, (List.append_nil _).symm⟩
  | cons p q =>
    refine ⟨rfl, ?_⟩
    rw [mimicAnswers_issue]
    rfl

/-- **Mimics are paired by position.** -/
theorem pairing_simulates (E : Env) : (mimicLoop E).Simulates
    (Pairing.machine (ClientId × UInt32)) MimicState.pairing (fun m e => e.pairing E m) where
  start := rfl
  enabled m e he := by
    cases e with
    | request c tid root =>
      rcases MimicEvent.pairing_request E m c tid root with h | h <;> rw [h]
      · show m.entered = none
        rw [MimicState.entered, Option.isNone_iff_eq_none.1 he.1]
        rfl
      · trivial
    | push =>
      show m.entered.isSome
      rw [MimicState.entered, Option.isSome_map]
      exact he
    | done => exact he
    | other e => trivial
  step m e he := by
    cases e with
    | request c tid root =>
      have hsame := mimicCall_sameMimics (E := E) (.ofRoot root) m.state
      show (mimicStep E m (.request c tid root)).pairing = m.pairing.step _
      unfold MimicEvent.pairing mimicStep
      dsimp only
      rcases hcall : mimicCall E (.ofRoot root) m.state with ⟨_ | e, s⟩
      · -- the engine takes the call: the request waits for its push
        rw [hcall] at hsame
        have hqueue : s.mimicQueue = m.state.mimicQueue := hsame.queue
        simp only [MimicState.pairing, MimicState.entered, Pairing.step, hqueue, hsame.answers,
          Option.isNone_none, if_true, Option.map_some]
      · -- the engine refuses it, and the request ends
        rw [hcall] at hsame
        have hpub := hsame.trans (.issue (i := .publish (.cmd false root)) rfl s)
        simp only [MimicState.pairing, MimicState.entered, Pairing.step, hpub.queue, hpub.answers,
          Option.isNone_some, Bool.false_eq_true, if_false]
    | push =>
      obtain ⟨⟨c, tid, root⟩, hent⟩ := Option.isSome_iff_exists.1 he
      show (mimicStep E m .push).pairing = m.pairing.step .enter
      unfold mimicStep
      have hans : mimicAnswers ((mimicPush c tid m.state).issue (.publish (.cmd true root))) =
          mimicAnswers m.state :=
        (SameMimics.issue (i := .publish (.cmd true root)) rfl (mimicPush c tid m.state)).answers
      simp only [hent, MimicState.pairing, MimicState.entered, Pairing.step, hans, Option.map_some,
        Option.map_none, Option.toList_some]
      rfl
    | done stale =>
      -- an entry is popped, whatever the callback reads
      obtain ⟨hqueue, hans⟩ := draconityMimicDone_pairing stale m.state
      show (mimicStep E m (.done stale)).pairing = m.pairing.step (.arrive stale)
      simp only [mimicStep, MimicState.pairing, MimicState.entered, hqueue, hans, Pairing.step]
      cases m.state.mimicQueue with
      | nil => simp
      | cons p q => simp
    | other e =>
      have hsame := step_sameMimics (E := E) (s := m.state) he.2.1
      show (mimicStep E m (.other e)).pairing = m.pairing
      simp only [mimicStep, MimicState.pairing, MimicState.entered, hsame.queue, hsame.answers]

/-! ### Every mimic is answered to the client that asked for it -/

def callbackAnswers (m : MimicState) : MimicEvent → List (List (ClientId × UInt32))
  | .done stale =>
    [(mimicAnswers (draconityMimicDone stale m.state)).drop (mimicAnswers m.state).length]
  | .request _ _ _ | .push | .other _ => []

/-- Each mimic-done callback that arrived issued one `mimic` response, the n-th of them to the client
and the transaction of the n-th accepted mimic; there are no others; and what waits are the accepted
mimics whose callback has not arrived. -/
structure MimicsAnswered (E : Env) (es : List MimicEvent) : Prop where
  callbacks : (mimicLoop E).history callbackAnswers (mimicLoop E).start es =
    (((mimicLoop E).exec (mimicLoop E).start es).accepted.take
      ((mimicLoop E).exec (mimicLoop E).start es).arrived).map fun a => [a]
  responses : mimicAnswers ((mimicLoop E).exec (mimicLoop E).start es).state =
    ((mimicLoop E).exec (mimicLoop E).start es).accepted.take
      ((mimicLoop E).exec (mimicLoop E).start es).arrived
  waiting : ((mimicLoop E).exec (mimicLoop E).start es).state.mimicQueue ++
      ((mimicLoop E).exec (mimicLoop E).start es).entered.toList =
    ((mimicLoop E).exec (mimicLoop E).start es).accepted.drop
      ((mimicLoop E).exec (mimicLoop E).start es).arrived

/-- A callback arrives between the two halves of its own `mimic`. -/
def EarlyCallback (m : MimicState) : MimicEvent → Prop
  | .done _ => m.entering.isSome ∧ m.arrived + 1 = m.accepted.length
  | .request _ _ _ | .push | .other _ => False

instance (m : MimicState) : DecidablePred (EarlyCallback m)
  | .done _ => inferInstanceAs (Decidable (_ = _ ∧ _ = _))
  | .request _ _ _ | .push | .other _ => .isFalse id

/-- A callback reads something else than the entry that it has popped. -/
def MisreadCallback (m : MimicState) : MimicEvent → Prop
  | .done stale => ∃ p ∈ m.state.mimicQueue.head?, stale.getD p ≠ p
  | .request _ _ _ | .push | .other _ => False

instance (m : MimicState) : DecidablePred (MisreadCallback m)
  | .done stale => inferInstanceAs (Decidable (∃ p ∈ m.state.mimicQueue.head?, stale.getD p ≠ p))
  | .request _ _ _ | .push | .other _ => .isFalse id

theorem early_pairing (m : MimicState) (e : MimicEvent) :
    EarlyCallback m e ↔ m.pairing.Early (e.pairing E m) := by
  cases e with
  | request c tid root =>
    rcases MimicEvent.pairing_request E m c tid root with h | h <;> rw [h] <;> exact Iff.rfl
  | push => exact Iff.rfl
  | other e => exact Iff.rfl
  | done stale =>
    have hsome : m.pairing.entering.isSome = m.entering.isSome := Option.isSome_map
    unfold EarlyCallback MimicEvent.pairing Pairing.Early
    rw [hsome]
    exact Iff.rfl

theorem misread_pairing (m : MimicState) (e : MimicEvent) :
    MisreadCallback m e ↔ m.pairing.Misread (e.pairing E m) := by
  cases e with
  | request c tid root =>
    rcases MimicEvent.pairing_request E m c tid root with h | h <;> rw [h] <;> exact Iff.rfl
  | push | other | done => exact Iff.rfl

theorem callbackAnswers_pairing (m : MimicState) (e : MimicEvent) :
    callbackAnswers m e = m.pairing.given (e.pairing E m) := by
  cases e with
  | request c tid root =>
    rcases MimicEvent.pairing_request E m c tid root with h | h <;> rw [h] <;> rfl
  | push => rfl
  | other e => rfl
  | done stale =>
    show [_] = [_]
    rw [(draconityMimicDone_pairing stale m.state).2, List.drop_left]
    rfl

/-- **Each mimic is answered to the client that asked for it, exactly when no callback arrives between
the call of `_DSXEngine_Mimic` it is for and the push that follows, and each still finds the entry
that it has popped.**  The callback that comes early is dropped, and every later one answers a request
before its own; one that reads something else answers whoever that names. -/
theorem mimic_answered_iff (E : Env) {es : List MimicEvent}
    (hr : (mimicLoop E).Run (mimicLoop E).start es) :
    MimicsAnswered E es ↔ ¬ (mimicLoop E).Occurs EarlyCallback (mimicLoop E).start es ∧
      ¬ (mimicLoop E).Occurs MisreadCallback (mimicLoop E).start es := by
  have hsim := pairing_simulates E
  obtain ⟨hrun, hexec⟩ := hsim.run hr
  have hstart : (mimicLoop E).start.pairing = (Pairing.machine (ClientId × UInt32)).start := rfl
  rw [hsim.occurs (early_pairing (E := E)) hr, hsim.occurs (misread_pairing (E := E)) hr]
  rw [hstart] at hrun hexec ⊢
  rw [← Pairing.paired_iff hrun]
  constructor
  · intro h
    rw [hexec]
    exact ⟨h.responses, h.waiting⟩
  · intro h
    have hgiven := Pairing.history_given hrun h
    rw [hexec] at h hgiven
    have hcallbacks := hsim.history (fun m e _ => callbackAnswers_pairing (E := E) m e) hr
    refine ⟨?_, h.answered, h.waiting⟩
    rw [hcallbacks, hstart, hgiven, h.answered]
    rfl

def mimicRequest : Elements :=
  [(.lit "cmd", .utf8 (ascii "mimic")),
    (.lit "phrase", .array 20 (some [(.lit "0", .utf8 (ascii "hello"))]))]

/-- Two mimics of one client, and the callback of the first comes before its push. -/
def earlyCallback : List MimicEvent :=
  [.other .connect, .other .ready, .request 0 1 mimicRequest, .done none, .push,
    .request 0 2 mimicRequest, .push, .done none]

/-- The second callback is answered to the first transaction. -/
theorem mimic_answered_fails : ¬ ∀ (E : Env) (es : List MimicEvent),
    (mimicLoop E).Run (mimicLoop E).start es → MimicsAnswered E es := by
  intro h
  have hrun : (mimicLoop .obliging).Run (mimicLoop .obliging).start earlyCallback := by decide
  exact absurd (h .obliging earlyCallback hrun).responses (by decide)

/-- The entry of a mimic is popped, and what is read there names another client. -/
example :
    let es : List MimicEvent := [.other .connect, .other .connect, .other .ready,
      .request 0 1 mimicRequest, .push, .done (some (1, 7))]
    (mimicLoop .obliging).Run (mimicLoop .obliging).start es ∧
      mimicAnswers ((mimicLoop .obliging).exec (mimicLoop .obliging).start es).state = [(1, 7)] := by
  decide

/-- Two mimics of two clients, the first of which leaves before its callback comes. -/
def leaveUnanswered : List MimicEvent :=
  [.other .connect, .other .connect, .other .ready, .request 0 1 mimicRequest, .push,
    .request 1 5 mimicRequest, .other .ready, .push, .other (.close 0 fun _ => 0), .done none,
    .done none]

theorem mimic_answered_iff_leaves : mimicAnswers
    ((mimicLoop .obliging).exec (mimicLoop .obliging).start leaveUnanswered).state =
      [(0, 1), (1, 5)] := by
  have hrun : (mimicLoop .obliging).Run (mimicLoop .obliging).start leaveUnanswered := by decide
  have hquiet : ¬ (mimicLoop .obliging).Occurs EarlyCallback (mimicLoop .obliging).start
      leaveUnanswered := by decide
  have hread : ¬ (mimicLoop .obliging).Occurs MisreadCallback (mimicLoop .obliging).start
      leaveUnanswered := by decide
  exact ((mimic_answered_iff .obliging hrun).2 ⟨hquiet, hread⟩).responses.trans (by decide)

end Draconity
