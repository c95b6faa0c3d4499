import Draconity.Frame

/-!
The store: the shadow state and the live state, under the operations on them in any order.

A run of the store is any history of updates, disconnects and syncs.  Each event of the event loop
is a few operations (`step_does`), so a state the event loop reaches is one the store reaches, and
what holds over all runs of the store holds over all runs of the event loop.
-/

namespace Draconity

open Lib

variable {E : Env} {s s' : State}

inductive Op
  | setGrammar (name : CString) (shadow : GrammarState)
  | setWords (clientId : ClientId) (tid : UInt32) (words : OrdSet CString)
  | disconnect (clientId : ClientId) (stack : CString → UInt32)
  | sync
  /-- Anything else leaves the store alone. -/
  | other (s' : State)

def Op.apply (E : Env) (s : State) : Op → State
  | .setGrammar name shadow => setShadowGrammar name shadow s
  | .setWords c tid ws => setShadowWords c tid ws s
  | .disconnect c stack => clearClientState c stack s
  | .sync => syncState E s
  | .other s' => s'

/-- When an operation can occur.  `handle_message` refuses a `g.set` without a blob. -/
def Op.Enabled (s : State) : Op → Prop
  | .setGrammar _ shadow => shadow.unload = false → shadow.blob ≠ []
  | .setWords _ _ _ | .disconnect _ _ | .sync => True
  | .other s' => SameStore s s'

/-- The store, started with no token. -/
def store (E : Env) : Machine State Op where
  start := State.init 0
  enabled := Op.Enabled
  step := Op.apply E

/-! ### What the handlers do besides -/

theorem doUnpause_sameStore (s : State) : SameStore s (doUnpause E s) := by
  unfold doUnpause
  split_ifs
  · exact (sameStore_call (E := E) (c := .resume s.pauseToken) (fun _ => rfl) s).trans
      ⟨rfl, rfl, rfl, rfl, rfl, rfl, rfl, rfl, fun _ => rfl, fun _ => rfl⟩
  · exact .refl s

theorem clientUnpause_sameStore (c : ClientId) (token : UInt64) (s : State) :
    SameStore s (clientUnpause E c token s) := by
  unfold clientUnpause
  have h : SameStore s { s with pauseClients := s.pauseClients.erase c } :=
    ⟨rfl, rfl, rfl, rfl, rfl, rfl, rfl, rfl, fun _ => rfl, fun _ => rfl⟩
  dsimp only
  split_ifs
  · exact h.trans (doUnpause_sameStore _)
  · exact h
  · exact .refl s

theorem draconityMimicDone_sameStore (stale : Option (ClientId × UInt32)) (s : State) :
    SameStore s (draconityMimicDone stale s) := by
  unfold draconityMimicDone
  split
  · exact .refl s
  · rename_i q _
    have h : SameStore s { s with mimicQueue := q } :=
      ⟨rfl, rfl, rfl, rfl, rfl, rfl, rfl, rfl, fun _ => rfl, fun _ => rfl⟩
    exact h.trans (sameStore_issue (fun _ => rfl) (fun _ => rfl) _)

/-- What `handle_pause` does after its sync. -/
def afterPauseSync (E : Env) (token : UInt64) (s : State) : State :=
  if s.clients = [] then doUnpause E s
  else
    let s := { s with pauseClients := s.clients.foldl (fun p c => p.insert c) s.pauseClients }
    let s := s.issue (.publish (.paused token))
    { s with pauseTimer := true }

theorem handlePause_eq (token : UInt64) (s : State) :
    handlePause E token s = afterPauseSync E token (syncState E { s with pauseToken := token }) :=
  rfl

theorem afterPauseSync_sameStore (token : UInt64) (s : State) :
    SameStore s (afterPauseSync E token s) := by
  unfold afterPauseSync
  split_ifs
  · exact doUnpause_sameStore s
  · exact (sameStore_publish (.paused token) s).trans
      ⟨rfl, rfl, rfl, rfl, rfl, rfl, rfl, rfl, fun _ => rfl, fun _ => rfl⟩

/-! ### The operations of an event -/

/-- The client, the transaction and the fields of a request for which `handle_message` returns
null: it is answered later. -/
def Event.deferred (E : Env) (s : State) : Event → Option (ClientId × UInt32 × Fields)
  | .message c tid (some root) found =>
    if (handleMessage E c tid (some root) found s).1 = none then some (c, tid, .ofRoot root) else none
  | _ => none

/-- The client and the transaction of an accepted `g.set` or `g.unload` for a name. -/
def Event.grammarUpdate (E : Env) (s : State) (n : CString) (e : Event) :
    Option (ClientId × UInt32) :=
  (e.deferred E s).bind fun r =>
    if (r.2.2.cmd = some (.lit "g.set") ∨ r.2.2.cmd = some (.lit "g.unload")) ∧ r.2.2.name = some n
    then some (r.1, r.2.1) else none

/-- The transaction of an accepted `w.set` of a client. -/
def Event.wordsUpdate (E : Env) (s : State) (c : ClientId) (e : Event) : Option UInt32 :=
  (e.deferred E s).bind fun r =>
    if r.2.2.cmd = some (.lit "w.set") ∧ r.1 = c then some r.2.1 else none

/-- The operations an event of the event loop takes in the state `s`. -/
inductive Does (E : Env) (s : State) : Event → List Op → Prop
  /-- The event leaves the store alone. -/
  | quiet {e : Event} (store : SameStore s (step E s e))
    (reply : ∀ c tid f, e.deferred E s = some (c, tid, f) → f.cmd = some (.lit "mimic")) :
    Does E s e [.other (step E s e)]
  /-- An accepted `w.set`. -/
  | words {e : Event} {c : ClientId} {tid : UInt32} {f : Fields} (ws : OrdSet CString)
    (he : e.deferred E s = some (c, tid, f)) (cmd : f.cmd = some (.lit "w.set"))
    (rest : SameStore (setShadowWords c tid ws s) (step E s e)) :
    Does E s e [.setWords c tid ws, .other (step E s e)]
  /-- An accepted `g.set` or `g.unload`. -/
  | grammar {e : Event} {c : ClientId} {tid : UInt32} {f : Fields} (name : CString)
    (shadow : GrammarState) (he : e.deferred E s = some (c, tid, f))
    (cmd : f.cmd = some (.lit "g.set") ∨ f.cmd = some (.lit "g.unload")) (hn : f.name = some name)
    (hc : shadow.clientId = c) (ht : shadow.tid = tid)
    (hb : shadow.unload = false → shadow.blob ≠ [])
    (rest : SameStore (acceptGrammar E name shadow s) (step E s e)) :
    Does E s e (.setGrammar name shadow ::
      ((if s.pauseToken ≠ 0 then [.sync] else []) ++ [.other (step E s e)]))
  /-- A pause. -/
  | paused {token : UInt64} (rest : SameStore (syncState E { s with pauseToken := token })
      (step E s (.paused token))) :
    Does E s (.paused token)
      [.other { s with pauseToken := token }, .sync, .other (step E s (.paused token))]
  /-- A client closes. -/
  | close {c : ClientId} {stack : CString → UInt32}
    (rest : SameStore
      (let s' := clearClientState c stack { s with clients := s.clients.filter (· ≠ c) }
       if s.pauseToken > 0 then syncState E s' else s') (step E s (.close c stack))) :
    Does E s (.close c stack)
      (.other { s with clients := s.clients.filter (· ≠ c) } :: .disconnect c stack ::
        ((if s.pauseToken > 0 then [.sync] else []) ++ [.other (step E s (.close c stack))]))

/-- **What an event does to the store.** -/
theorem step_does (E : Env) (s : State) (e : Event) : ∃ ops, Does E s e ops := by
  cases e with
  | connect =>
    exact ⟨_, .quiet ⟨rfl, rfl, rfl, rfl, rfl, rfl, rfl, rfl, fun _ => rfl, fun _ => rfl⟩
      fun _ _ _ h => nomatch h⟩
  | close c stack =>
    refine ⟨_, .close ?_⟩
    show SameStore _ (handleClose E c stack s)
    unfold handleClose handleDisconnect
    have ht : (clearClientState c stack
        { s with clients := s.clients.filter (· ≠ c) }).pauseToken = s.pauseToken := rfl
    dsimp only
    rw [ht]
    split_ifs
    · exact clientUnpause_sameStore ..
    · exact .refl _
  | message c tid msg found =>
    cases msg with
    | none => exact ⟨_, .quiet (.refl s) fun _ _ _ h => nomatch h⟩
    | some root =>
      have hd := dispatch_handled E c tid (.ofRoot root) found s
      generalize hr : dispatch E c tid (.ofRoot root) found s = r at hd
      have hstep : step E s (.message c tid (some root) found) =
          r.2.issue (.publish (.cmd r.1.ok root)) := by rw [← hr]; rfl
      have hreply : (handleMessage E c tid (some root) found s).1 = r.1.toReply := by
        rw [← hr]; rfl
      have hdefer : ∀ {v}, (Event.message c tid (some root) found).deferred E s = some v ↔
          r.1.toReply = none ∧ (c, tid, Fields.ofRoot root) = v := by
        unfold Event.deferred
        simp [hreply]
      cases hd with
      | words ws cmd =>
        exact ⟨_, .words ws (hdefer.2 ⟨rfl, rfl⟩) cmd (hstep ▸ sameStore_publish _ _)⟩
      | grammar name shadow cmd hn hc ht hb =>
        exact ⟨_, .grammar name shadow (hdefer.2 ⟨rfl, rfl⟩) cmd hn hc ht hb
          (hstep ▸ sameStore_publish _ _)⟩
      | unpause cmd h0 ht =>
        exact ⟨_, .quiet (hstep ▸ (clientUnpause_sameStore ..).trans (sameStore_publish _ _))
          fun _ _ _ h => nomatch (hdefer.1 h).1⟩
      | quiet o s' hs _ reply _ =>
        refine ⟨_, .quiet (hstep ▸ hs.trans (sameStore_publish _ _)) fun c' tid' f h => ?_⟩
        obtain ⟨h, ⟨⟩⟩ := hdefer.1 h
        -- of the commands that leave the store alone, only `mimic` is answered later
        cases o with
        | noResponse => exact reply rfl
        | reply r | refuse e => cases h
  | paused token => exact ⟨_, .paused (afterPauseSync_sameStore token _)⟩
  | timer =>
    refine ⟨_, .quiet (SameStore.trans ?_ (doUnpause_sameStore _)) fun _ _ _ h => nomatch h⟩
    exact ⟨rfl, rfl, rfl, rfl, rfl, rfl, rfl, rfl, fun _ => rfl, fun _ => rfl⟩
  | ready => exact ⟨_, .quiet (draconityReady_same s).1 fun _ _ _ h => nomatch h⟩
  | mimicDone stale =>
    exact ⟨_, .quiet (draconityMimicDone_sameStore stale s) fun _ _ _ h => nomatch h⟩

/-- The operations of an event lead where the event leads. -/
theorem Does.run {e : Event} {ops : List Op} (h : Does E s e ops) :
    (store E).Run s ops ∧ (store E).exec s ops = step E s e := by
  cases h with
  | quiet hs => exact ⟨⟨hs, trivial⟩, rfl⟩
  | words ws he cmd rest => exact ⟨⟨trivial, rest, trivial⟩, rfl⟩
  | grammar name shadow he cmd hn hc ht hb rest =>
    unfold acceptGrammar at rest
    have ht : (setShadowGrammar name shadow s).pauseToken = s.pauseToken := by
      unfold setShadowGrammar; dsimp only; split <;> rfl
    dsimp only at rest
    rw [ht] at rest
    split_ifs at rest ⊢
    · exact ⟨⟨hb, trivial, rest, trivial⟩, rfl⟩
    · exact ⟨⟨hb, rest, trivial⟩, rfl⟩
  | paused rest =>
    exact ⟨⟨⟨rfl, rfl, rfl, rfl, rfl, rfl, rfl, rfl, fun _ => rfl, fun _ => rfl⟩, trivial, rest,
      trivial⟩, rfl⟩
  | close rest =>
    dsimp only at rest
    refine ⟨⟨⟨rfl, rfl, rfl, rfl, rfl, rfl, rfl, rfl, fun _ => rfl, fun _ => rfl⟩, trivial, ?_⟩, ?_⟩
    · split_ifs at rest ⊢
      · exact ⟨trivial, rest, trivial⟩
      · exact ⟨rest, trivial⟩
    · split_ifs <;> rfl

/-- **The event loop refines the store.** -/
theorem reachable_store (h : (eventLoop E).Reachable s) : (store E).Reachable s := by
  have hstep : ∀ s e, (store E).Reachable s → (eventLoop E).enabled s e →
      (store E).Reachable ((eventLoop E).step s e) := by
    intro s e hs _
    obtain ⟨ops, hops⟩ := step_does E s e
    obtain ⟨hr, he⟩ := hops.run
    show (store E).Reachable (step E s e)
    exact he ▸ hs.exec hr
  exact Machine.invariant ⟨[], trivial, rfl⟩ hstep h

end Draconity
