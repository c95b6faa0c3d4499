import Draconity.State

/-!
`handle_message`, the request handler of `server.cpp`.

A request comes as libbson shows it: `none` when `bson_init_static` refuses the bytes, else the
elements of the document.  Each command of the source's `if` chain is a function here; it says
whether the request is answered now, refused with an `errmsg`, or answered later.
-/

namespace Draconity

open Lib

/-! ### Errors and replies -/

/-- The values of `errmsg`. -/
inductive Refusal
  | bsonInit
  | brokenCmd
  | notReady
  | unsupportedCommand
  | noVocabulary
  | nullWordIterator
  | wordIteration
  | brokenWords
  | wordIter
  | nonStringWord
  | noName
  | brokenData
  | brokenActiveRules
  | activeRulesIter
  | nonStringRule
  | brokenLists
  | listsIter
  | nonArrayList (listName : CString)
  | recurseList (listName : CString)
  | nonStringElement (listName : CString)
  | brokenState
  | invalidMicState
  | setMicState (rc : Int)
  | brokenToken
  | brokenPhrase
  | phraseIter
  | nonStringPhrase
  | mimic (rc : Int)
  deriving DecidableEq

def ascii (s : String) : List UInt8 := s.toList.map fun c => c.toNat.toUInt8

def Refusal.text : Refusal → List UInt8
  | .bsonInit => ascii "bson init error"
  | .brokenCmd => ascii "missing or broken cmd field"
  | .notReady => ascii "engine not ready"
  | .unsupportedCommand => ascii "unsupported command"
  | .noVocabulary => ascii "engine does not support vocabulary editing"
  | .nullWordIterator => ascii "word iterator is null"
  | .wordIteration => ascii "word iteration failed"
  | .brokenWords => ascii "missing or broken words field"
  | .wordIter => ascii "word iter failed"
  | .nonStringWord => ascii "words contains non-string value"
  | .noName => ascii "no name"
  | .brokenData => ascii "missing or broken data field"
  | .brokenActiveRules => ascii "missing or broken active_rules field"
  | .activeRulesIter => ascii "active_rules iter failed"
  | .nonStringRule => ascii "active_rules array contained non-string element"
  | .brokenLists => ascii "missing or broken lists field"
  | .listsIter => ascii "lists iter failed"
  | .nonArrayList n =>
    ascii "value field for list \"" ++ n.bytes ++ ascii "\" contains non-array value"
  | .recurseList n => ascii "error recursing into list " ++ n.bytes
  | .nonStringElement n => ascii "an element in list \"" ++ n.bytes ++ ascii "\" is not a string"
  | .brokenState => ascii "missing or broken state field"
  | .invalidMicState => ascii "invalid mic state"
  | .setMicState rc => ascii "error setting mic state: " ++ ascii (toString rc)
  | .brokenToken => ascii "missing or broken pause token"
  | .brokenPhrase => ascii "missing or broken phrase field"
  | .phraseIter => ascii "mimic phrase iter failed"
  | .nonStringPhrase => ascii "phrase contains non-string value"
  | .mimic rc => ascii "error during mimic: " ++ ascii (toString rc)

/-- The replies of `handle_message`, less the `runtime` of `status`.  A grammar of `status` is its
name, `enabled` and `priority`. -/
inductive Reply
  | success
  | error (r : Refusal)
  | words (ws : List (List UInt8))
  | status (ready : Bool) (languageId : Int) (grammars : List (CString × Bool × Int))
  deriving DecidableEq

/-- How a command ends: with a reply, with an `errmsg`, or at `no_response`. -/
inductive Outcome
  | reply (r : Reply)
  | refuse (e : Refusal)
  | noResponse

/-- What `handle_message` returns; `none` is the null pointer. -/
def Outcome.toReply : Outcome → Option Reply
  | .reply r => some r
  | .refuse e => some (.error e)
  | .noResponse => none

/-- `errmsg` is empty. -/
def Outcome.ok : Outcome → Bool
  | .refuse _ => false
  | .reply _ | .noResponse => true

/-! ### The fields of a request -/

/-- The locals the first loop of `handle_message` fills, less those nothing reads.  `words_buf` and
`words_len` start unset, so `words` is `none` until the loop sets it. -/
structure Fields where
  cmd : Option CString
  name : Option CString
  state : Option CString
  token : UInt64
  activeRules : Option Nested
  lists : Option Nested
  phrase : Option Nested
  words : Option Nested
  data : Option (List UInt8)

def Fields.init : Fields := ⟨none, none, none, 0, none, none, none, none, none⟩

/-- One pass of the first loop: a field is taken when its element has the right type. -/
def Fields.read (f : Fields) (e : CString × Value) : Fields :=
  match e.2 with
  | .utf8 b =>
    if e.1 = .lit "cmd" then { f with cmd := some (.ofBytes b) }
    else if e.1 = .lit "name" then { f with name := some (.ofBytes b) }
    else if e.1 = .lit "state" then { f with state := some (.ofBytes b) }
    else f
  | .int64 i => if e.1 = .lit "token" then { f with token := i.toUInt64 } else f
  | .array len iter =>
    if e.1 = .lit "active_rules" then { f with activeRules := some ⟨len, iter⟩ }
    else if e.1 = .lit "phrase" then { f with phrase := some ⟨len, iter⟩ }
    else if e.1 = .lit "words" then { f with words := some ⟨len, iter⟩ }
    else f
  | .document len iter =>
    if e.1 = .lit "lists" then { f with lists := some ⟨len, iter⟩ } else f
  | .binary b => if e.1 = .lit "data" then { f with data := some b } else f
  | .bool _ | .int32 _ | .other => f

/-- The fields of a document: of several elements with one key, the last of the right type. -/
def Fields.ofRoot (root : Elements) : Fields := root.foldl Fields.read .init

/-- The strings of an array as a set, `none` when an element is not a string. -/
def readStrings : OrdSet CString → Elements → Option (OrdSet CString)
  | acc, [] => some acc
  | acc, (_, .utf8 b) :: es => readStrings (acc.insert (.ofBytes b)) es
  | _, _ :: _ => none

/-- The strings of an array with all their bytes, `none` when an element is not a string. -/
def readPhrase : Elements → Option (List (List UInt8))
  | [] => some []
  | (_, .utf8 b) :: es => (readPhrase es).map (b :: ·)
  | _ :: _ => none

/-- The loop over the document `lists`. -/
def readLists : (AList fun _ : CString => OrdSet CString) → Elements →
    Except Refusal (AList fun _ : CString => OrdSet CString)
  | acc, [] => .ok acc
  | acc, (k, .array _ iter) :: es =>
    match iter with
    | none => .error (.recurseList k)
    | some vs =>
      match readStrings ∅ vs with
      | none => .error (.nonStringElement k)
      | some l => readLists (acc.insert k l) es
  | _, (k, _) :: _ => .error (.nonArrayList k)

/-! ### The commands -/

/-- What a call of `handle_message` finds besides its arguments and the state. -/
structure Found where
  /-- What `words_buf` and `words_len` happen to hold. -/
  words : Nested
  /-- `draconity->engine` is set. -/
  engine : Bool
  /-- `_DSXEngine_GetCurrentSpeaker` gives a speaker. -/
  speaker : Bool

/-- The loop of `w.list` over the answers of the enumerator. -/
def readWords : List EnumBatch → List (List UInt8) → Except Refusal (List (List UInt8))
  | [], acc => .ok acc
  | b :: bs, acc =>
    if (b.err ≠ 0 ∧ b.err ≠ -1) ∨ b.size > 0x200000 then .error .wordIteration
    else if b.size = 0 then .ok acc
    else readWords bs (acc ++ b.words)

/-- `w.list`. -/
def wList (E : Env) (s : State) : Outcome :=
  match E.enumWords s.dragon.log with
  | none => .refuse .nullWordIterator
  | some bs =>
    match readWords bs [] with
    | .error e => .refuse e
    | .ok ws => .reply (.words ws)

/-- `w.set`. Without a `words` field it goes by what `words_buf` and `words_len` hold. -/
def wSet (clientId : ClientId) (tid : UInt32) (f : Fields) (found : Found) (s : State) :
    Outcome × State :=
  let words := f.words.getD found.words
  if words.len = 0 then (.refuse .brokenWords, s) else
  match words.iter with
  | none => (.refuse .wordIter, s)
  | some es =>
    match readStrings ∅ es with
    | none => (.refuse .nonStringWord, s)
    | some ws => (.noResponse, setShadowWords clientId tid ws s)

def wCommand (E : Env) (clientId : ClientId) (tid : UInt32) (cmd : CString) (f : Fields)
    (found : Found) (s : State) : Outcome × State :=
  if s.ready = false then (.refuse .notReady, s)
  else if E.vocabulary = false then (.refuse .noVocabulary, s)
  else if cmd = .lit "w.list" then (wList E s, s)
  else if cmd = .lit "w.set" then wSet clientId tid f found s
  else (.refuse .unsupportedCommand, s)

def draconityReady (E : Env) (s : State) : State :=
  if s.ready then s
  else { s.issue (.publish (.ready (E.languageId s.dragon.log))) with ready := true }

/-- The shadow state `g.set` builds from its fields. -/
def gSetState (clientId : ClientId) (tid : UInt32) (f : Fields) : Except Refusal GrammarState :=
  match f.data with
  | none | some [] => .error .brokenData
  | some (b :: bs) =>
    match f.activeRules with
    | none => .error .brokenActiveRules
    | some ⟨rulesLen, rulesIter⟩ =>
      if rulesLen = 0 then .error .brokenActiveRules else
      match rulesIter with
      | none => .error .activeRulesIter
      | some es =>
        match readStrings ∅ es with
        | none => .error .nonStringRule
        | some rules =>
          match f.lists with
          | none => .ok ⟨b :: bs, rules, ∅, false, clientId, tid⟩
          | some ⟨listsLen, listsIter⟩ =>
            if listsLen = 0 then .error .brokenLists else
            match listsIter with
            | none => .error .listsIter
            | some ls =>
              (readLists ∅ ls).map fun lists => ⟨b :: bs, rules, lists, false, clientId, tid⟩

/-- An accepted `g.set` or `g.unload`: when Dragon is paused it is synced immediately, which lets
the client correct errors before unpausing. -/
def acceptGrammar (E : Env) (name : CString) (shadow : GrammarState) (s : State) : State :=
  let s := setShadowGrammar name shadow s
  if s.pauseToken ≠ 0 then syncState E s else s

def gCommand (E : Env) (clientId : ClientId) (tid : UInt32) (cmd : CString) (f : Fields)
    (s : State) : Outcome × State :=
  if s.ready = false then (.refuse .notReady, s) else
  match f.name with
  | none => (.refuse .noName, s)
  | some name =>
    if cmd = .lit "g.set" then
      match gSetState clientId tid f with
      | .error e => (.refuse e, s)
      | .ok shadow => (.noResponse, acceptGrammar E name shadow s)
    else if cmd = .lit "g.unload" then
      (.noResponse, acceptGrammar E name (unloadState clientId tid) s)
    else (.refuse .unsupportedCommand, s)

def settableMicstateCode (state : CString) : Option ℕ :=
  if state = .lit "off" then some 1
  else if state = .lit "on" then some 2
  else if state = .lit "sleeping" then some 3
  else none

/-- `engine_acquire`, not early.  What it does to an engine that it has not seen before is in `Shim`,
but for the status. -/
def engineAcquire (E : Env) (found : Found) (s : State) : State :=
  let s := if found.engine then s else s.issue (.publish .start)
  if s.ready = false ∧ found.speaker then draconityReady E s else s

/-- `mic.set_state`.  The pointer `_DSXEngine_SetMicState` leads to Draconity's own hook, which calls
`engine_acquire` first.  A return code of `-1` means that this is the state already. -/
def micSetState (E : Env) (f : Fields) (found : Found) (s : State) : Outcome × State :=
  match f.state with
  | none => (.refuse .brokenState, s)
  | some state =>
    match settableMicstateCode state with
    | none => (.refuse .invalidMicState, s)
    | some code =>
      let s := engineAcquire E found s
      let r := s.dragon.call E (.setMicState code)
      let s := { s with dragon := r.2 }
      if r.1 ≠ 0 ∧ r.1 ≠ -1 then (.refuse (.setMicState r.1), s) else (.reply .success, s)

def unpause (E : Env) (clientId : ClientId) (f : Fields) (s : State) : Outcome × State :=
  if f.token = 0 ∨ f.token ≠ s.pauseToken then (.refuse .brokenToken, s)
  else (.reply .success, clientUnpause E clientId f.token s)

/-- `status`: the live grammars, and the pseudo-grammar of Dragon's own rules. -/
def status (E : Env) (s : State) : Outcome :=
  .reply (.status s.ready (if s.ready then E.languageId s.dragon.log else -1)
    (s.grammars.entries.map (fun e => (e.2.name, e.2.enabled, e.2.priority)) ++
      [(.lit "dragon", s.dragonEnabled, 0)]))

def mimic (E : Env) (clientId : ClientId) (tid : UInt32) (f : Fields) (s : State) :
    Outcome × State :=
  if s.ready = false then (.refuse .notReady, s) else
  match f.phrase with
  | none => (.refuse .brokenPhrase, s)
  | some ⟨len, iter⟩ =>
    if len = 0 then (.refuse .brokenPhrase, s) else
    match iter with
    | none => (.refuse .phraseIter, s)
    | some es =>
      match readPhrase es with
      | none => (.refuse .nonStringPhrase, s)
      | some phrase =>
        let r := s.dragon.call E (.mimic phrase)
        let s := { s with dragon := r.2 }
        if r.1 ≠ 0 then (.refuse (.mimic r.1), s)
        else (.noResponse, { s with mimicQueue := s.mimicQueue ++ [(clientId, tid)] })

/-- The `if` chain of `handle_message`. -/
def dispatch (E : Env) (clientId : ClientId) (tid : UInt32) (f : Fields) (found : Found)
    (s : State) : Outcome × State :=
  match f.cmd with
  | none => (.refuse .brokenCmd, s)
  | some cmd =>
    if cmd.bytes.head? = some 'w'.toNat.toUInt8 then wCommand E clientId tid cmd f found s
    else if cmd = .lit "ready" then (.reply .success, draconityReady E s)
    else if cmd.bytes.head? = some 'g'.toNat.toUInt8 then gCommand E clientId tid cmd f s
    else if cmd = .lit "mic.set_state" then micSetState E f found s
    else if cmd = .lit "unpause" then unpause E clientId f s
    else if cmd = .lit "status" then (status E s, s)
    else if cmd = .lit "mimic" then mimic E clientId tid f s
    else (.refuse .unsupportedCommand, s)

/-- `handle_message`: the reply it returns and the state it leaves.  At `end`, a request that is a
document is published to all clients. -/
def handleMessage (E : Env) (clientId : ClientId) (tid : UInt32) (msg : Option Elements)
    (found : Found) (s : State) : Option Reply × State :=
  match msg with
  | none => ((Outcome.refuse .bsonInit).toReply, s)
  | some root =>
    let r := dispatch E clientId tid (.ofRoot root) found s
    (r.1.toReply, r.2.issue (.publish (.cmd r.1.ok root)))

/-! ### Requests a client can write -/

/-- No words in `words_buf`, and an engine with a speaker. -/
def Found.usual : Found := ⟨⟨0, none⟩, true, true⟩

/-- A `g.set` without rules or lists; an empty array takes five bytes. -/
def gSetRequest (name : String) (blob : List UInt8) : Elements :=
  [(.lit "cmd", .utf8 (ascii "g.set")), (.lit "name", .utf8 (ascii name)),
    (.lit "data", .binary blob), (.lit "active_rules", .array 5 (some []))]

/-- A `w.set` of no words. -/
def wSetRequest : Elements :=
  [(.lit "cmd", .utf8 (ascii "w.set")), (.lit "words", .array 5 (some []))]

end Draconity
