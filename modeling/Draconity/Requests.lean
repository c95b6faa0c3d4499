import Draconity.Pause

/-!
How a request ends.

`Ends` says once what `dispatch` returns together with what it leaves of the state: a refusal leaves
all but the engine as it was, a reply makes no record, and a request that is answered later makes one
record of its client and transaction.
-/

namespace Draconity

open Lib

variable {E : Env} {s s' s'' : State} {c : ClientId} {tid : UInt32} {f : Fields} {found : Found}

/-! ### Deferred responses and records -/

/-- The message is a deferred response, to one client. -/
def Issued.deferred : Issued → Bool
  | .send _ _ _ => true
  | .publish _ => false

def sends (s : State) : List Issued := s.issued.filter Issued.deferred

theorem sends_publish (p : Payload) (s : State) : sends (s.issue (.publish p)) = sends s := by
  unfold sends State.issue
  rw [List.filter_append]
  exact List.append_nil _

/-- No record of a request for later was made or dropped, and no deferred response was issued. -/
structure SameRecords (s s' : State) : Prop where
  shadowGrammars : s'.shadowGrammars = s.shadowGrammars
  shadowWords : s'.shadowWords = s.shadowWords
  mimicQueue : s'.mimicQueue = s.mimicQueue
  sends : sends s' = sends s

theorem SameRecords.refl (s : State) : SameRecords s s := ⟨rfl, rfl, rfl, rfl⟩

theorem SameRecords.trans (h : SameRecords s s') (h' : SameRecords s' s'') : SameRecords s s'' where
  shadowGrammars := h'.shadowGrammars.trans h.shadowGrammars
  shadowWords := h'.shadowWords.trans h.shadowWords
  mimicQueue := h'.mimicQueue.trans h.mimicQueue
  sends := h'.sends.trans h.sends

theorem sameRecords_publish (p : Payload) (s : State) : SameRecords s (s.issue (.publish p)) :=
  ⟨rfl, rfl, rfl, sends_publish p s⟩

theorem doUnpause_sameRecords (s : State) : SameRecords s (doUnpause E s) := by
  unfold doUnpause
  split_ifs
  · exact ⟨rfl, rfl, rfl, rfl⟩
  · exact .refl s

theorem clientUnpause_sameRecords (c : ClientId) (token : UInt64) (s : State) :
    SameRecords s (clientUnpause E c token s) := by
  unfold clientUnpause
  have h : SameRecords s { s with pauseClients := s.pauseClients.erase c } := ⟨rfl, rfl, rfl, rfl⟩
  dsimp only
  split_ifs
  · exact h.trans (doUnpause_sameRecords _)
  · exact h
  · exact .refl s

theorem draconityReady_sameRecords (s : State) : SameRecords s (draconityReady E s) := by
  unfold draconityReady
  split_ifs
  · exact .refl s
  · exact (sameRecords_publish _ s).trans ⟨rfl, rfl, rfl, rfl⟩

theorem engineAcquire_sameRecords (found : Found) (s : State) :
    SameRecords s (engineAcquire E found s) :=
  engineAcquire_rel .refl .trans sameRecords_publish draconityReady_sameRecords found s

/-! ### The ends of `dispatch` -/

/-- How a request with the fields `f` ends. -/
inductive Ends (E : Env) (c : ClientId) (tid : UInt32) (f : Fields) (found : Found) (s : State) :
    Outcome × State → Prop
  | refuse (e : Refusal) (d : Dragon) : Ends E c tid f found s (.refuse e, { s with dragon := d })
  | notSet (rc : Int) (d : Dragon) :
    Ends E c tid f found s (.refuse (.setMicState rc), { engineAcquire E found s with dragon := d })
  | reply (r : Reply) (s' : State) (ok : ∀ e, r ≠ .error e) (same : SameRecords s s') :
    Ends E c tid f found s (.reply r, s')
  | words (ws : OrdSet CString) (cmd : f.cmd = some (.lit "w.set")) :
    Ends E c tid f found s (.noResponse, setShadowWords c tid ws s)
  | grammar (name : CString) (shadow : GrammarState)
    (cmd : f.cmd = some (.lit "g.set") ∨ f.cmd = some (.lit "g.unload"))
    (hn : f.name = some name) (hc : shadow.clientId = c) (ht : shadow.tid = tid) :
    Ends E c tid f found s (.noResponse, acceptGrammar E name shadow s)
  | mimic (d : Dragon) (cmd : f.cmd = some (.lit "mimic")) :
    Ends E c tid f found s
      (.noResponse, { s with dragon := d, mimicQueue := s.mimicQueue ++ [(c, tid)] })

theorem Ends.refused (e : Refusal) : Ends E c tid f found s (.refuse e, s) := .refuse e s.dragon

variable {cmd : CString}

theorem wCommand_ends (hf : f.cmd = some cmd) :
    Ends E c tid f found s (wCommand E c tid cmd f found s) := by
  unfold wCommand wSet wList
  split_ifs with _ _ _ hw
  · exact .refused _
  · exact .refused _
  · split
    · exact .refused _
    · split
      · exact .refused _
      · exact .reply _ _ (by simp) (.refl s)
  · dsimp only
    split_ifs
    · exact .refused _
    · split
      · exact .refused _
      · split
        · exact .refused _
        · exact .words _ (hw ▸ hf)
  · exact .refused _

theorem gCommand_ends (hf : f.cmd = some cmd) :
    Ends E c tid f found s (gCommand E c tid cmd f s) := by
  unfold gCommand
  by_cases hr : s.ready = false
  · rw [if_pos hr]; exact .refused _
  rw [if_neg hr]
  cases hn : f.name with
  | none => exact .refused _
  | some name =>
    dsimp only
    by_cases hset : cmd = .lit "g.set"
    · rw [if_pos hset]
      cases hs : gSetState c tid f with
      | error e => exact .refused e
      | ok shadow =>
        obtain ⟨h₁, h₂, -⟩ := gSetState_ok hs
        exact .grammar name shadow (.inl (hset ▸ hf)) hn h₁ h₂
    · rw [if_neg hset]
      split_ifs with hunload
      · exact .grammar name _ (.inr (hunload ▸ hf)) hn rfl rfl
      · exact .refused _

theorem micSetState_ends : Ends E c tid f found s (micSetState E f found s) := by
  unfold micSetState
  split
  · exact .refused _
  · split
    · exact .refused _
    · dsimp only
      split_ifs
      · exact .notSet _ _
      · have h := engineAcquire_sameRecords (E := E) found s
        exact .reply _ _ (by simp) (h.trans ⟨rfl, rfl, rfl, rfl⟩)

theorem unpause_ends : Ends E c tid f found s (unpause E c f s) := by
  unfold unpause
  split_ifs
  · exact .refused _
  · exact .reply _ _ (by simp) (clientUnpause_sameRecords ..)

theorem mimic_ends (hf : f.cmd = some (.lit "mimic")) :
    Ends E c tid f found s (mimic E c tid f s) := by
  unfold mimic
  split
  · exact .refused _
  split
  · exact .refused _
  split
  · exact .refused _
  split
  · exact .refused _
  split
  · exact .refused _
  dsimp only
  split
  · exact .refuse _ _
  · exact .mimic _ hf

/-- **How a request ends.** -/
theorem dispatch_ends (E : Env) (c : ClientId) (tid : UInt32) (f : Fields) (found : Found)
    (s : State) : Ends E c tid f found s (dispatch E c tid f found s) := by
  unfold dispatch
  split
  · exact .refused _
  · rename_i cmd hf
    split_ifs with hw hr hg hm hu hs hmim
    · exact wCommand_ends hf
    · exact .reply _ _ (by simp) (draconityReady_sameRecords s)
    · exact gCommand_ends hf
    · exact micSetState_ends
    · exact unpause_ends
    · exact .reply _ _ (by simp) (.refl s)
    · exact mimic_ends (hmim ▸ hf)
    · exact .refused _

/-! ### Answered now, or registered for later -/

/-- Nothing of the state changed that a request is about, and no deferred response was issued. -/
structure Untouched (s s' : State) : Prop where
  records : SameRecords s s'
  loadedWords : s'.loadedWords = s.loadedWords
  grammars : s'.grammars = s.grammars
  pauseToken : s'.pauseToken = s.pauseToken
  pauseClients : s'.pauseClients = s.pauseClients

theorem engineAcquire_untouched (found : Found) (s : State) :
    Untouched s (engineAcquire E found s) := by
  obtain ⟨store, pause⟩ := engineAcquire_same (E := E) found s
  exact ⟨engineAcquire_sameRecords found s, store.loadedWords, store.grammars, pause.pauseToken,
    pause.pauseClients⟩

/-- Only a speaker gets `engine_acquire` to set `ready`. -/
theorem engineAcquire_ready (found : Found) (s : State) :
    (engineAcquire E found s).ready = (s.ready || found.speaker) := by
  have hstart : ∀ m, m = (if found.engine then s else s.issue (.publish .start)) →
      m.ready = s.ready := by
    rintro m rfl
    split_ifs <;> rfl
  unfold engineAcquire
  dsimp only
  generalize hm : (if found.engine then s else s.issue (.publish .start)) = m
  rw [← hstart m hm.symm]
  split_ifs with h
  · rw [draconityReady_ready, h.2, Bool.or_true]
  · cases hr : m.ready with
    | true => rfl
    | false => rw [Bool.false_or, Bool.eq_false_of_not_eq_true fun hs => h ⟨hr, hs⟩]

/-- The state `m` has one record more than `s`, of the client and the transaction: in the shadow
grammars under the name of the request, in the shadow words of the client, or at the tail of the
mimic queue. -/
inductive Registered (c : ClientId) (tid : UInt32) (f : Fields) (s m : State) : Prop
  | grammar (name : CString) (shadow : GrammarState)
    (cmd : f.cmd = some (.lit "g.set") ∨ f.cmd = some (.lit "g.unload"))
    (hn : f.name = some name) (hc : shadow.clientId = c) (ht : shadow.tid = tid)
    (grammars : ∀ k, m.shadowGrammars.lookup k =
      if k = name then some shadow else s.shadowGrammars.lookup k)
    (words : m.shadowWords = s.shadowWords) (mimics : m.mimicQueue = s.mimicQueue)
  | words (w : WordState) (cmd : f.cmd = some (.lit "w.set")) (ht : w.lastTid.toUInt32 = tid)
    (grammars : m.shadowGrammars = s.shadowGrammars)
    (words : ∀ b, m.shadowWords.lookup b = if b = c then some w else s.shadowWords.lookup b)
    (mimics : m.mimicQueue = s.mimicQueue)
  | mimic (cmd : f.cmd = some (.lit "mimic"))
    (grammars : m.shadowGrammars = s.shadowGrammars) (words : m.shadowWords = s.shadowWords)
    (mimics : m.mimicQueue = s.mimicQueue ++ [(c, tid)])

/-- The request updates a grammar. -/
def Fields.OnGrammar (f : Fields) : Prop :=
  f.cmd = some (.lit "g.set") ∨ f.cmd = some (.lit "g.unload")

instance : DecidablePred Fields.OnGrammar := fun _ => inferInstanceAs (Decidable (_ ∨ _))

theorem setShadowGrammar_registered (name : CString) {shadow : GrammarState} (h : f.OnGrammar)
    (hn : f.name = some name) (hc : shadow.clientId = c) (ht : shadow.tid = tid) :
    Registered c tid f s (setShadowGrammar name shadow s) := by
  refine .grammar name shadow h hn hc ht (lookup_setShadowGrammar name · shadow s)
    (setShadowGrammar_sameWords ..).shadowWords ?_
  unfold setShadowGrammar
  cases s.shadowGrammars.lookup name <;> rfl

theorem setShadowWords_registered (ws : OrdSet CString) (h : f.cmd = some (.lit "w.set")) :
    Registered c tid f s (setShadowWords c tid ws s) := by
  refine .words ⟨ws, tid.toInt32, false⟩ h (by simp)
    (setShadowWords_sameGrammars ..).shadowGrammars (fun _ => lookup_setShadowWords tid ws s) ?_
  unfold setShadowWords
  cases s.shadowWords.lookup c with
  | none => rfl
  | some w => dsimp only; split_ifs <;> rfl

theorem Fields.not_onGrammar (h : f.cmd = some cmd) (hset : cmd ≠ .lit "g.set")
    (hunload : cmd ≠ .lit "g.unload") : ¬ f.OnGrammar := by
  rintro (hf | hf)
  · exact hset (Option.some.inj (h.symm.trans hf))
  · exact hunload (Option.some.inj (h.symm.trans hf))

/-- While Dragon is paused, an update is answered when it is accepted. -/
theorem acceptGrammar_answers (name : CString) (shadow : GrammarState) (h0 : s.pauseToken ≠ 0) :
    ∃ a, (acceptGrammar E name shadow s).shadowGrammars = ∅ ∧
      gsetAnswers name (acceptGrammar E name shadow s) =
        gsetAnswers name (setShadowGrammar name shadow s) ++ [a] ∧
      a.clientId = shadow.clientId ∧ a.tid = shadow.tid ∧ a.status ≠ .skipped := by
  have hpend : (setShadowGrammar name shadow s).shadowGrammars.lookup name = some shadow := by
    rw [lookup_setShadowGrammar, if_pos rfl]
  obtain ⟨a, hans, hac, hat, hsync⟩ := syncState_pending (E := E) hpend
  rw [acceptGrammar_eq, if_neg h0]
  exact ⟨a, rfl, hans, hac, hat, hsync.not_skipped⟩

/-- **A command that fails changes nothing, and a request is answered now or registered for later,
never both.**  In every state, for every client, transaction and message:
* a reply with `success` false leaves everything a request is about as it was, and no deferred
  response was issued; it leaves `ready`, too, unless the engine refused a `mic.set_state`, whose call
  leads to Draconity's own hook, and has a speaker;
* any reply comes without a record and without a deferred response;
* without a reply, the command is `g.set`, `g.unload`, `w.set` or `mimic`, one record of the client
  and the transaction was made, and while Dragon is paused the record of a grammar was synced in the
  same step, which answered it. -/
theorem handleMessage_once (E : Env) (c : ClientId) (tid : UInt32) (msg : Option Elements)
    (found : Found) (s : State) :
    let r := handleMessage E c tid msg found s
    (∀ e, r.1 = some (.error e) → Untouched s r.2 ∧ (r.2.ready = s.ready ∨
        (∃ rc, e = .setMicState rc) ∧ found.speaker = true ∧ r.2.ready = true)) ∧
      (∀ reply, r.1 = some reply → SameRecords s r.2) ∧
      (r.1 = none → ∃ root m p, msg = some root ∧ Registered c tid (.ofRoot root) s m ∧
        r.2 = (if (Fields.ofRoot root).OnGrammar ∧ s.pauseToken ≠ 0 then syncState E m
          else m).issue (.publish p) ∧
        ((Fields.ofRoot root).OnGrammar → s.pauseToken ≠ 0 →
          ∃ name a, (Fields.ofRoot root).name = some name ∧ r.2.shadowGrammars = ∅ ∧
            gsetAnswers name r.2 = gsetAnswers name m ++ [a] ∧ a.clientId = c ∧ a.tid = tid ∧
            a.status ≠ .skipped)) := by
  cases msg with
  | none =>
    have h : Untouched s s := ⟨.refl s, rfl, rfl, rfl, rfl⟩
    exact ⟨fun _ _ => ⟨h, .inl rfl⟩, fun _ _ => h.records, nofun⟩
  | some root =>
    have hends := dispatch_ends E c tid (.ofRoot root) found s
    unfold handleMessage
    dsimp only
    generalize dispatch E c tid (.ofRoot root) found s = r at hends
    cases hends with
    | refuse e d =>
      have hpub := sameRecords_publish (.cmd false root) { s with dragon := d }
      have hsame : SameRecords s (State.issue (.publish (.cmd false root)) { s with dragon := d }) :=
        ⟨hpub.shadowGrammars, hpub.shadowWords, hpub.mimicQueue, hpub.sends⟩
      exact ⟨fun _ _ => ⟨⟨hsame, rfl, rfl, rfl, rfl⟩, .inl rfl⟩, fun _ _ => hsame, nofun⟩
    | notSet rc d =>
      -- the hook may have set `ready` before the engine refused
      have hready := engineAcquire_ready (E := E) found s
      have hacquire := engineAcquire_untouched (E := E) found s
      generalize engineAcquire E found s = m at hready hacquire
      have hcall : SameRecords m { m with dragon := d } := ⟨rfl, rfl, rfl, rfl⟩
      have hsame := (hacquire.records.trans hcall).trans (sameRecords_publish (.cmd false root) _)
      refine ⟨fun e he => ⟨⟨hsame, hacquire.loadedWords, hacquire.grammars, hacquire.pauseToken,
        hacquire.pauseClients⟩, ?_⟩, fun _ _ => hsame, nofun⟩
      obtain rfl : Refusal.setMicState rc = e := Reply.error.inj (Option.some.inj he)
      cases hspeaker : found.speaker with
      | false =>
        left
        rw [hspeaker, Bool.or_false] at hready
        exact hready
      | true =>
        right
        rw [hspeaker, Bool.or_true] at hready
        exact ⟨⟨rc, rfl⟩, rfl, hready⟩
    | reply r s' ok same =>
      refine ⟨fun e he => absurd (Option.some.inj he) (ok e), fun _ _ => ?_, nofun⟩
      exact same.trans (sameRecords_publish _ s')
    | words ws cmd =>
      have hno := Fields.not_onGrammar cmd (by decide) (by decide)
      refine ⟨nofun, nofun, fun _ => ⟨root, _, .cmd true root, rfl,
        setShadowWords_registered ws cmd, ?_, fun h => absurd h hno⟩⟩
      rw [if_neg fun h => hno h.1]
      rfl
    | mimic d cmd =>
      have hno := Fields.not_onGrammar cmd (by decide) (by decide)
      refine ⟨nofun, nofun, fun _ => ⟨root, _, .cmd true root, rfl,
        .mimic (m := { s with dragon := d, mimicQueue := s.mimicQueue ++ [(c, tid)] }) cmd rfl rfl
          rfl, ?_, fun h => absurd h hno⟩⟩
      rw [if_neg fun h => hno h.1]
      rfl
    | grammar name shadow cmd hn hc ht =>
      have hg : (Fields.ofRoot root).OnGrammar := cmd
      refine ⟨nofun, nofun, fun _ => ⟨root, setShadowGrammar name shadow s, .cmd true root, rfl,
        setShadowGrammar_registered name hg hn hc ht, ?_, fun _ h0 => ?_⟩⟩
      · -- behind the record there is only the sync, while Dragon is paused
        rw [acceptGrammar_eq]
        by_cases h0 : s.pauseToken = 0
        · rw [if_pos h0, if_neg fun h => h.2 h0]
          rfl
        · rw [if_neg h0, if_pos ⟨hg, h0⟩]
          rfl
      · -- that sync answers the update it finds
        obtain ⟨a, hnone, hans, hac, hat, hskip⟩ := acceptGrammar_answers (E := E) name shadow h0
        refine ⟨name, a, hn, hnone, ?_, hac.trans hc, hat.trans ht, hskip⟩
        rw [gsetAnswers_issue, hans]
        exact List.append_nil _

/-- A request to turn the microphone on. -/
def micOnRequest : Elements :=
  [(.lit "cmd", .utf8 (ascii "mic.set_state")), (.lit "state", .utf8 (ascii "on"))]

/-- The engine, which has a speaker, refuses to turn the microphone on, and `ready` is set. -/
theorem handleMessage_sets_ready : ¬ ∀ (E : Env) (c : ClientId) (tid : UInt32)
    (msg : Option Elements) (found : Found) (s : State) (e : Refusal),
    (handleMessage E c tid msg found s).1 = some (.error e) →
      (handleMessage E c tid msg found s).2.ready = s.ready := by
  intro h
  have hready := h (.answering 1) 0 1 (some micOnRequest) .usual (State.init 0) (.setMicState 1)
    (by decide)
  exact absurd hready (by decide)

end Draconity
