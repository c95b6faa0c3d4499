import Draconity.Grammar

/-!
The state of Draconity and the functions of `draconity.cpp` that change it, in the order of the
source: the shadow state, its syncs into the engine, and the pause protocol.

One record holds the fields of the class `Draconity`, the connection list of `UvServer`, the engine,
and two histories: the messages issued so far, oldest first, and the number of syncs.  Locks are
left out, since every function here runs on the thread of the event loop.
-/

namespace Draconity

open Lib

/-- The state the event loop works on. -/
structure State where
  grammars : AList fun _ : CString => Grammar
  shadowGrammars : AList fun _ : CString => GrammarState
  loadedWords : OrdSet CString
  shadowWords : AList fun _ : ClientId => WordState
  ready : Bool
  dragonEnabled : Bool
  mimicQueue : List (ClientId × UInt32)
  /-- Also encodes whether Dragon is paused: it never supplies a token of `0`. -/
  pauseToken : UInt64
  /-- Clients that haven't unpaused yet. -/
  pauseClients : OrdSet ClientId
  /-- The pause timer is armed. -/
  pauseTimer : Bool
  /-- The ids of `server->clients`. -/
  clients : List ClientId
  clientNonce : ℕ
  dragon : Dragon
  /-- What `draconity_publish` and `draconity_send` were called with. -/
  issued : List Issued
  /-- How many times `sync_state` has run. -/
  syncs : ℕ

namespace State

/-- The constructors of `Draconity` and `UvServer`.  `Draconity::Draconity` does not set
`pause_token`, which is what the memory held. -/
def init (pauseToken : UInt64) : State where
  grammars := ∅
  shadowGrammars := ∅
  loadedWords := ∅
  shadowWords := ∅
  ready := false
  dragonEnabled := false
  mimicQueue := []
  pauseToken := pauseToken
  pauseClients := ∅
  pauseTimer := false
  clients := []
  clientNonce := 0
  dragon := Dragon.init
  issued := []
  syncs := 0

/-- `draconity_publish` and `draconity_send`. -/
def issue (i : Issued) (s : State) : State := { s with issued := s.issued ++ [i] }

end State

/-! ### Grammars -/

def sendGsetResponse (clientId : ClientId) (tid : UInt32) (grammarName : CString) (status : Status)
    (errors : List GrammarError) (s : State) : State :=
  s.issue (.send (.gset grammarName status errors) tid clientId)

/-- The state `clear_client_state` queues for a grammar of the client.  Its `tid` is not set. -/
def unloadState (clientId : ClientId) (tid : UInt32) : GrammarState where
  blob := []
  activeRules := ∅
  lists := ∅
  unload := true
  clientId := clientId
  tid := tid

/-- `Draconity::clear_client_state`: queue unloads for the live grammars of the client, and clear
its words.  `stack name` is what the `tid` of the queued state for `name` happens to hold. -/
def clearClientState (clientId : ClientId) (stack : CString → UInt32) (s : State) : State :=
  { s with
    shadowGrammars := s.grammars.entries.foldl
      (fun m e =>
        if e.2.state.clientId = clientId then m.insert e.1 (unloadState clientId (stack e.1)) else m)
      s.shadowGrammars
    shadowWords := match s.shadowWords.lookup clientId with
      | some w => s.shadowWords.insert clientId { w with words := ∅, synced := false }
      | none => s.shadowWords }

def removeGrammar (E : Env) (name : CString) (g : Grammar) (s : State) : State :=
  { s with
    dragon := (unloadIfEnabled E g s.dragon).2
    grammars := s.grammars.erase name }

/-- `sync_grammars` for an entry that is flagged to unload. -/
def syncUnload (E : Env) (name : CString) (shadow : GrammarState) (s : State) : State :=
  let s := match s.grammars.lookup name with
    | some g => removeGrammar E name g s
    | none => s
  sendGsetResponse shadow.clientId shadow.tid name .success [] s

/-- `sync_grammars` for an entry that sets a grammar: it is synced, and when any error occurred it
is unloaded and erased. -/
def syncSet (E : Env) (name : CString) (shadow : GrammarState) (s : State) : State :=
  let p := syncGrammar E ((s.grammars.lookup name).getD (Grammar.new name)) shadow s.dragon
  let s := { s with grammars := s.grammars.insert name { p.1 with errors := [] }, dragon := p.2 }
  if p.1.errors = [] then
    sendGsetResponse shadow.clientId shadow.tid name .success [] s
  else
    sendGsetResponse shadow.clientId shadow.tid name .error p.1.errors
      (removeGrammar E name p.1 s)

/-- One pass of the loop of `sync_grammars`. -/
def syncEntry (E : Env) (s : State) (e : Σ _ : CString, GrammarState) : State :=
  if e.2.unload then syncUnload E e.1 e.2 s else syncSet E e.1 e.2 s

/-- `Draconity::sync_grammars`.  Only un-synced grammars stay in the shadow state. -/
def syncGrammars (E : Env) (s : State) : State :=
  { (E.grammarOrder s.syncs s.shadowGrammars.entries).foldl (syncEntry E) s with
    shadowGrammars := ∅ }

/-- `Draconity::set_shadow_grammar`: an update that was not synced is replaced, and its client is
told that it was skipped. -/
def setShadowGrammar (name : CString) (shadow : GrammarState) (s : State) : State :=
  let s := match s.shadowGrammars.lookup name with
    | some skipped => sendGsetResponse skipped.clientId skipped.tid name .skipped [] s
    | none => s
  { s with shadowGrammars := s.shadowGrammars.insert name shadow }

/-! ### Words -/

/-- What `set_words` works on: the loaded words, the errors so far, and the engine. -/
structure Vocabulary where
  loaded : OrdSet CString
  errors : List WordError
  dragon : Dragon

/-- `add_word`, less its return code, which nothing reads. -/
def addWord (E : Env) (v : Vocabulary) (word : CString) : Vocabulary :=
  let r := v.dragon.call E (.validateWord word)
  if E.valid v.dragon.log word = false then
    if r.1 = 0 then
      { v with errors := v.errors ++ [⟨word, "error: invalid word"⟩], dragon := r.2 }
    else
      { v with
        errors := v.errors ++ [⟨word, "error validating word. Return code: " ++ toString r.1⟩]
        dragon := r.2 }
  else
    let a := r.2.call E (.addTemporaryWord word)
    if a.1 ≠ 0 then
      { v with
        errors := v.errors ++ [⟨word, "error adding word. Return code: " ++ toString a.1⟩]
        dragon := a.2 }
    else { v with loaded := v.loaded.insert word, dragon := a.2 }

/-- `remove_word`, less its return code, which nothing reads. -/
def removeWord (E : Env) (v : Vocabulary) (word : CString) : Vocabulary :=
  let r := v.dragon.call E (.deleteWord word)
  if r.1 ≠ 0 then
    { v with
      errors := v.errors ++ [⟨word, "error deleting word. Return code: " ++ toString r.1⟩]
      dragon := r.2 }
  else { v with loaded := v.loaded.erase word, dragon := r.2 }

def setWords (E : Env) (newWords : OrdSet CString) (v : Vocabulary) : Vocabulary :=
  let wordsToAdd := newWords.diff v.loaded
  let wordsToRemove := v.loaded.diff newWords
  wordsToRemove.toList.foldl (removeWord E) (wordsToAdd.toList.foldl (addWord E) v)

def sendWsetResponse (clientId : ClientId) (tid : UInt32) (status : Status)
    (errors : List WordError) (s : State) : State :=
  s.issue (.send (.wset status errors) tid clientId)

/-- The errors that map to a client, and its words without those of the errors. -/
def clientErrors (words : OrdSet CString) (errors : List WordError) :
    OrdSet CString × List WordError :=
  errors.foldl (fun p e => if e.word ∈ p.1 then (p.1.erase e.word, p.2 ++ [e]) else p) (words, [])

/-- One pass of the loop of `handle_word_failures`. -/
def handleClientFailures (errors : List WordError) (s : State) (e : Σ _ : ClientId, WordState) :
    State :=
  let p := clientErrors e.2.words errors
  let s := { s with shadowWords := s.shadowWords.insert e.1 { e.2 with words := p.1 } }
  sendWsetResponse e.1 e.2.lastTid.toUInt32 (if p.2 = [] then .success else .error) p.2 s

def handleWordFailures (E : Env) (errors : List WordError) (s : State) : State :=
  (E.wordOrder s.syncs s.shadowWords.entries).foldl (handleClientFailures errors) s

/-- The union of the words of all clients. -/
def allShadowWords (s : State) : OrdSet CString :=
  OrdSet.ofList (s.shadowWords.entries.flatMap fun e => e.2.words.toList)

def syncWords (E : Env) (s : State) : State :=
  let v := setWords E (allShadowWords s) ⟨s.loadedWords, [], s.dragon⟩
  handleWordFailures E v.errors
    { s with
      shadowWords := Keyed.mapValues (fun w => { w with synced := true }) s.shadowWords
      loadedWords := v.loaded
      dragon := v.dragon }

def setShadowWords (clientId : ClientId) (tid : UInt32) (words : OrdSet CString) (s : State) :
    State :=
  let s := match s.shadowWords.lookup clientId with
    | some existing =>
      if existing.synced = false then
        sendWsetResponse clientId existing.lastTid.toUInt32 .skipped [] s
      else s
    | none => s
  { s with
    shadowWords := s.shadowWords.insert clientId
      { words := words, lastTid := tid.toInt32, synced := false } }

/-- `Draconity::sync_state`: push the shadow state into Dragon - make it live. -/
def syncState (E : Env) (s : State) : State :=
  let s := syncGrammars E (syncWords E s)
  { s with syncs := s.syncs + 1 }

/-! ### The pause protocol -/

/-- `Draconity::do_unpause`, also the handler of the pause timer. -/
def doUnpause (E : Env) (s : State) : State :=
  if s.pauseToken > 0 then
    { s with
      pauseClients := ∅
      pauseTimer := false
      dragon := (s.dragon.call E (.resume s.pauseToken)).2
      pauseToken := 0 }
  else s

def clientUnpause (E : Env) (clientId : ClientId) (token : UInt64) (s : State) : State :=
  if s.pauseToken = token then
    let s := { s with pauseClients := s.pauseClients.erase clientId }
    if s.pauseClients = ∅ then doUnpause E s else s
  else s

/-- What `Draconity::handle_pause` runs on the event loop. -/
def handlePause (E : Env) (token : UInt64) (s : State) : State :=
  let s := { s with pauseToken := token }
  let s := syncState E s
  if s.clients = [] then
    -- There are no clients to wait for so we unpause immediately.
    doUnpause E s
  else
    let s := { s with pauseClients := s.clients.foldl (fun p c => p.insert c) s.pauseClients }
    let s := s.issue (.publish (.paused token))
    { s with pauseTimer := true }

def handleDisconnect (E : Env) (clientId : ClientId) (stack : CString → UInt32) (s : State) :
    State :=
  let s := clearClientState clientId stack s
  if s.pauseToken > 0 then
    let s := syncState E s
    clientUnpause E clientId s.pauseToken s
  else s

end Draconity
