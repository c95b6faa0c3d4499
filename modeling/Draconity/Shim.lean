import Draconity.Lib.Runs
import Mathlib.Data.List.Basic
import Mathlib.Tactic.SplitIfs

/-!
How Draconity gets hold of the engine and becomes ready: the hooks of `shim.cpp` that lead to
`engine_acquire`, with `draconity_ready` and the branch of `draconity_attrib_changed` that calls it.

The hooks run on any thread of Dragon, and a `ready` request runs `draconity_ready` on the thread of the
event loop, so the calls that are under way take their steps in any order.  A step reads or writes one
field that the calls share.  Only `draconity_ready` has a lock, `readyLock`.
-/

namespace Draconity

open Lib

/-- A `drg_engine *`; `none` is the null pointer.  The hooks take what they are given, and what
`DSXEngine_New` and `DSXEngine_Create` leave when they fail. -/
abbrev Engine := Option ℕ

/-- The calls of `engine_setup` and of `draconity_set_param`. -/
inductive EngineCall
  | registerAttribChanged (engine : Engine)
  | registerMimicDone (engine : Engine)
  | registerPaused (engine : Engine)
  | setParam (engine : Engine) (key value : String)
  deriving DecidableEq

def EngineCall.engine : EngineCall → Engine
  | .registerAttribChanged e | .registerMimicDone e | .registerPaused e | .setParam e _ _ => e

/-- The messages with the topic `status` that are published here. -/
inductive Notice
  | start
  | ready (languageId : Int)
  | speakerChange (languageId : Int)
  deriving DecidableEq

inductive Hook
  | new
  | create
  | getMicState
  | setMicState
  | loadGrammar
  deriving DecidableEq

/-- The `early` they pass to `engine_acquire`. -/
def Hook.early : Hook → Bool
  | .new | .create => true
  | .getMicState | .setMicState | .loadGrammar => false

/-- Where a call is: before which step. -/
inductive Pc
  /-- `if (!draconity->engine)`. -/
  | acquire (hook : Hook) (engine : Engine)
  /-- `draconity->engine = engine`. -/
  | assign (hook : Hook) (engine : Engine)
  /-- `engine_setup(engine)`. -/
  | setup (hook : Hook) (engine : Engine)
  /-- `if (!early && !draconity->ready)`. -/
  | testReady (hook : Hook)
  /-- `if (_DSXEngine_GetCurrentSpeaker(_engine))`. -/
  | testSpeaker
  /-- `draconity_ready`: before the lock, and before each step inside it. -/
  | lock
  | check
  | publish
  | mark
  | unlock
  /-- `DSXEngine_New` returns `_engine`. -/
  | ret
  /-- The branch `SPEAKERCHANGED`: before `draconity_set_default_params`, before its test of `ready`,
  and before it publishes `speaker_change`. -/
  | setParams
  | testChanged
  | announce
  | done
  deriving DecidableEq

/-- What the calls share, and how far each of them is. -/
structure Shim where
  /-- `timeout` of the configuration. -/
  timeout : Int
  engine : Engine
  ready : Bool
  /-- The call that holds it. -/
  readyLock : Option ℕ
  log : List EngineCall
  published : List Notice
  /-- What `DSXEngine_New` has returned. -/
  returned : List Engine
  calls : List Pc

/-- The parameters of `draconity_set_default_params`, which takes `timeout` for both timeouts. -/
def defaultParams (timeout : Int) : List (String × String) :=
  [("DwTimeOutComplete", toString timeout), ("DwTimeOutIncomplete", toString timeout),
    ("DemonThreadPhraseFinishWait", "0"), ("NumWordsAvailable", "10000"),
    ("UseParallelRecognizers", "1"), ("Pass1A_DurationThresh_ms", "50"),
    ("ExtraDictationWords", "10000"), ("MaxCFGWords", "20000"), ("MaxPronGuessedWords", "20000"),
    ("PhraseHypothesisCallbackThread", "1")]

namespace Shim

def init (timeout : Int) : Shim := ⟨timeout, none, false, none, [], [], [], []⟩

/-- `draconity_publish`. -/
def publish (m : Notice) (s : Shim) : Shim := { s with published := s.published ++ [m] }

/-- `draconity_set_default_params`.  `draconity_set_param` does nothing without an engine. -/
def setDefaultParams (s : Shim) : Shim :=
  if s.engine = none then s
  else { s with log := s.log ++ (defaultParams s.timeout).map fun p => .setParam s.engine p.1 p.2 }

def engineSetup (engine : Engine) (s : Shim) : Shim :=
  let s : Shim := { s with log := s.log ++
    [.registerAttribChanged engine, .registerMimicDone engine, .registerPaused engine] }
  s.setDefaultParams.publish .start

/-- What `_DSXEngine_GetLanguageID` leaves in `language_id`, which starts at `-1`. -/
def languageId (s : Shim) (answer : Int) : Int := if s.engine.isSome then answer else -1

/-- A step of the call `i`: where it is next, and what becomes of what is shared.  `speaker` and
`answer` are what the engine says when it is asked. -/
def advance (i : ℕ) (speaker : Bool) (answer : Int) (s : Shim) : Pc → Pc × Shim
  | .acquire hook engine =>
    (if s.engine.isNone then .assign hook engine else .testReady hook, s)
  | .assign hook engine => (.setup hook engine, { s with engine := engine })
  | .setup hook engine => (.testReady hook, engineSetup engine s)
  | .testReady hook =>
    (if hook = .new then .ret else if hook.early ∨ s.ready then .done else .testSpeaker, s)
  | .testSpeaker => (if speaker then .lock else .done, s)
  | .lock => (.check, { s with readyLock := some i })
  | .check => (if s.ready then .unlock else .publish, s)
  | .publish => (.mark, s.publish (.ready (s.languageId answer)))
  | .mark => (.unlock, { s with ready := true })
  | .unlock => (.done, { s with readyLock := none })
  | .ret => (.done, { s with returned := s.returned ++ [s.engine] })
  | .setParams => (.testChanged, s.setDefaultParams)
  | .testChanged => (if s.ready then .announce else .lock, s)
  | .announce => (.done, s.publish (.speakerChange (s.languageId answer)))
  | .done => (.done, s)

end Shim

inductive ShimEvent
  /-- A hook is called with an engine, or the original of `DSXEngine_New` or `DSXEngine_Create` has
  returned with one. -/
  | hook (hook : Hook) (engine : Engine)
  /-- `draconity_ready` is called for a request. -/
  | ready
  /-- The attribute `SPEAKERCHANGED` changes. -/
  | speakerChanged
  /-- The call `i` takes its next step. -/
  | advance (i : ℕ) (speaker : Bool) (answer : Int)

namespace Shim

def begin (p : Pc) (s : Shim) : Shim := { s with calls := s.calls ++ [p] }

def step (s : Shim) : ShimEvent → Shim
  | .hook hook engine => s.begin (.acquire hook engine)
  | .ready => s.begin .lock
  | .speakerChanged => s.begin .setParams
  | .advance i speaker answer =>
    match s.calls[i]? with
    | none => s
    | some p =>
      let r := s.advance i speaker answer p
      { r.2 with calls := s.calls.set i r.1 }

/-- When an event can occur: a call that is not done can take a step, if it is not before a lock that
is held. -/
def Enabled (s : Shim) : ShimEvent → Prop
  | .hook _ _ | .ready | .speakerChanged => True
  | .advance i _ _ => ∃ p, s.calls[i]? = some p ∧ p ≠ .done ∧ (p = .lock → s.readyLock = none)

instance (s : Shim) : DecidablePred s.Enabled
  | .hook _ _ | .ready | .speakerChanged => .isTrue trivial
  | .advance i _ _ =>
    match h : s.calls[i]? with
    | none => .isFalse fun ⟨_, hp, _⟩ => nomatch h.symm.trans hp
    | some p => decidable_of_iff (p ≠ .done ∧ (p = .lock → s.readyLock = none))
        ⟨fun hp => ⟨p, h, hp⟩, fun ⟨_, hp, hrest⟩ => Option.some.inj (h.symm.trans hp) ▸ hrest⟩

/-- The calls from the start on, with the given timeout. -/
def machine (timeout : Int) : Machine Shim ShimEvent where
  start := init timeout
  enabled := Enabled
  step := step

instance (timeout : Int) (s : Shim) : DecidablePred ((machine timeout).enabled s) :=
  inferInstanceAs (DecidablePred s.Enabled)

end Shim

namespace Shim

variable {timeout : Int} {s s' : Shim} {e : ShimEvent} {i j : ℕ} {p q : Pc} {speaker : Bool}
  {answer : Int} {es : List ShimEvent}

/-! ### The calls that are under way -/

@[simp] theorem calls_setDefaultParams (s : Shim) : s.setDefaultParams.calls = s.calls := by
  unfold setDefaultParams
  split <;> rfl

@[simp] theorem engine_setDefaultParams (s : Shim) : s.setDefaultParams.engine = s.engine := by
  unfold setDefaultParams
  split <;> rfl

@[simp] theorem returned_setDefaultParams (s : Shim) :
    s.setDefaultParams.returned = s.returned := by
  unfold setDefaultParams
  split <;> rfl

@[simp] theorem published_setDefaultParams (s : Shim) :
    s.setDefaultParams.published = s.published := by
  unfold setDefaultParams
  split <;> rfl

@[simp] theorem ready_setDefaultParams (s : Shim) : s.setDefaultParams.ready = s.ready := by
  unfold setDefaultParams
  split <;> rfl

@[simp] theorem readyLock_setDefaultParams (s : Shim) :
    s.setDefaultParams.readyLock = s.readyLock := by
  unfold setDefaultParams
  split <;> rfl

theorem mem_log_setDefaultParams {c : EngineCall} (hc : c ∈ s.setDefaultParams.log) :
    c ∈ s.log ∨ c.engine = s.engine ∧ s.engine ≠ none := by
  unfold setDefaultParams at hc
  split_ifs at hc with hnone
  · exact .inl hc
  · rcases List.mem_append.1 hc with hc | hc
    · exact .inl hc
    · obtain ⟨p, -, rfl⟩ := List.mem_map.1 hc
      exact .inr ⟨rfl, hnone⟩

theorem calls_advance (i : ℕ) (speaker : Bool) (answer : Int) (s : Shim) (p : Pc) :
    (s.advance i speaker answer p).2.calls = s.calls := by
  cases p with
  | setup hook engine => exact calls_setDefaultParams _
  | setParams => exact calls_setDefaultParams s
  | acquire _ _ | assign _ _ | testReady _ | testSpeaker | lock | check | publish | mark | unlock
  | ret | testChanged | announce | done => rfl

theorem step_advance (hp : s.calls[i]? = some p) (speaker : Bool) (answer : Int) :
    s.step (.advance i speaker answer) =
      { (s.advance i speaker answer p).2 with
        calls := s.calls.set i (s.advance i speaker answer p).1 } := by
  unfold step
  dsimp only
  rw [hp]

end Shim

end Draconity
