import Draconity.Lib.Courier
import Draconity.Hub

/-!
The server with its threads.

The thread of the event loop and the threads of the engine call `UvServer::invoke`, which pushes a
function on `invoke_queue` and sends a wake-up; the event loop runs the functions.  A handler does
its work on the state in one step, and the calls of `invoke` it owes for the messages it issued are
steps of their own, in the order it issued them.  What an engine thread does between two frames of
one chunk, it does between two chunks here, since a chunk is handled frame by frame.
-/

namespace Draconity

open Lib

/-- The threads that call `UvServer::invoke`. -/
inductive Thread
  /-- The thread of the event loop. -/
  | loop
  | engine (k : ℕ)
  deriving DecidableEq

/-- The functions on `invoke_queue`: those of `UvServer::publish`, of `UvServer::send` and of
`Draconity::handle_pause`. -/
inductive Job
  | publish (msg : List UInt8)
  | send (msg : List UInt8) (tid : UInt32) (clientId : ClientId)
  | pause (token : UInt64)
  deriving DecidableEq

/-- The threads, their queue, and the server. -/
structure System where
  hub : Hub
  courier : Courier Thread Job
  /-- The calls of `invoke` a thread has still to make. -/
  todo : Thread → List Job

/-! ### Messages -/

def Issued.payload : Issued → Payload
  | .publish p | .send p _ _ => p

/-- `draconity_publish` and `draconity_send`: a message without bytes is not handed on. -/
def Issued.jobs (msg : List UInt8) : Issued → List Job
  | .publish _ => if msg = [] then [] else [.publish msg]
  | .send _ tid c => if msg = [] then [] else [.send msg tid c]

/-- The calls of `invoke` for messages, of which the first has the number `n`. -/
def Net.jobs (N : Net) : ℕ → List Issued → List Job
  | _, [] => []
  | n, i :: is => i.jobs (N.prep n i.payload) ++ N.jobs (n + 1) is

/-- The calls of `invoke` for the messages that were issued from one state to another. -/
def Net.owed (N : Net) (s s' : State) : List Job :=
  N.jobs s.issued.length (s'.issued.drop s.issued.length)

namespace System

/-- The thread has calls of `invoke` to make. -/
def owe (t : Thread) (js : List Job) (s : System) : System :=
  { s with todo := Function.update s.todo t (s.todo t ++ js) }

def handle (N : Net) (t : Thread) (f : Hub → Hub) (s : System) : System :=
  ({ s with hub := f s.hub } : System).owe t (N.owed s.hub.state (f s.hub).state)

/-- A function of the queue runs. -/
def run (N : Net) (s : System) : Job → System
  | .publish msg => { s with hub := s.hub.publish N msg }
  | .send msg tid c => { s with hub := s.hub.send N msg tid c }
  | .pause token => s.handle N .loop (Hub.onState (handlePause N.env token))

/-- The message of a phrase callback goes to the client of the grammar, if that is live. -/
def phraseJobs (name : CString) (msg : List UInt8) (s : State) : List Job :=
  match s.grammars.lookup name with
  | some g => if msg = [] then [] else [.send msg Hub.publishTid g.state.clientId]
  | none => []

inductive Event
  /-- The handlers of the event loop. -/
  | connect
  | close (clientId : ClientId) (stack : CString → UInt32)
  | data (clientId : ClientId) (bytes : List UInt8)
  | timer
  /-- The callbacks of the engine, on its thread `k`: `draconity_ready`, `draconity_mimic_done`,
  `draconity_paused`, the callbacks that publish a status or a log message, and the phrase callbacks
  of a grammar. -/
  | ready (k : ℕ)
  | mimicDone (k : ℕ) (stale : Option (ClientId × UInt32))
  | paused (k : ℕ) (token : UInt64)
  | publish (k : ℕ) (msg : List UInt8)
  | phrase (k : ℕ) (name : CString) (msg : List UInt8)
  /-- The two halves of `UvServer::invoke`. -/
  | push (t : Thread)
  | send (t : Thread)
  /-- The event loop calls the handler of the `AsyncEvent`. -/
  | wake
  /-- The locked half of `UvServer::drain_invoke_queue`. -/
  | take
  /-- One pass of its loop. -/
  | exec
  /-- The end of its loop. -/
  | finish

def step (N : Net) (s : System) : Event → System
  | .connect => s.handle N .loop (Hub.listen N)
  | .close c stack => s.handle N .loop (Hub.close N c stack)
  | .data c bytes => s.handle N .loop (Hub.data N c bytes)
  | .timer => s.handle N .loop (Hub.onState (handleTimer N.env))
  | .ready k => s.handle N (.engine k) (Hub.onState (draconityReady N.env))
  | .mimicDone k stale => s.handle N (.engine k) (Hub.onState (draconityMimicDone stale))
  | .paused k token => s.owe (.engine k) [.pause token]
  | .publish k msg => s.owe (.engine k) (if msg = [] then [] else [.publish msg])
  | .phrase k name msg => s.owe (.engine k) (phraseJobs name msg s.hub.state)
  | .push t =>
    match s.todo t with
    | [] => s
    | j :: js =>
      { s with courier := s.courier.step (.push t j), todo := Function.update s.todo t js }
  | .send t => { s with courier := s.courier.step (.send t) }
  | .wake => { s with courier := s.courier.step .wake }
  | .take => { s with courier := s.courier.step .take }
  | .exec =>
    match s.courier.batch with
    | [] => s
    | (_, j) :: _ => run N { s with courier := s.courier.step .exec } j
  | .finish => { s with courier := s.courier.step .finish }

/-- The thread is in no call of `invoke`, and has none to make. -/
def Free (t : Thread) (s : System) : Prop := s.todo t = [] ∧ s.courier.unsent t = false

instance (t : Thread) (s : System) : Decidable (s.Free t) :=
  inferInstanceAs (Decidable (_ = _ ∧ _ = _))

/-- The event loop waits for an event. -/
def Idle (s : System) : Prop := s.Free .loop ∧ s.courier.phase = .idle

instance (s : System) : Decidable s.Idle := inferInstanceAs (Decidable (_ ∧ _ = _))

/-- When an event can happen: a thread ends what it does before it begins something else. -/
def Enabled (s : System) : Event → Prop
  | .connect => s.Idle ∧ s.hub.state.clientNonce + 1 < 2 ^ 63
  | .close c _ | .data c _ => s.Idle ∧ c ∈ s.hub.state.clients
  | .timer => s.Idle ∧ s.hub.state.pauseTimer = true
  | .ready k | .mimicDone k _ | .publish k _ | .phrase k _ _ => s.Free (.engine k)
  | .paused k token => s.Free (.engine k) ∧ token ≠ 0
  | .push t => s.todo t ≠ [] ∧ s.courier.unsent t = false
  | .send t => s.courier.unsent t = true
  | .wake => s.Idle
  | .take => s.Free .loop ∧ s.courier.phase = .woken
  | .exec => s.Free .loop ∧ s.courier.phase = .running ∧ s.courier.batch ≠ []
  | .finish => s.Free .loop ∧ s.courier.phase = .running ∧ s.courier.batch = []

instance (s : System) : DecidablePred s.Enabled
  | .connect => inferInstanceAs (Decidable (_ ∧ _ < _))
  | .close c _ | .data c _ => inferInstanceAs (Decidable (_ ∧ c ∈ s.hub.state.clients))
  | .timer => inferInstanceAs (Decidable (_ ∧ _ = _))
  | .ready k | .mimicDone k _ | .publish k _ | .phrase k _ _ =>
    inferInstanceAs (Decidable (s.Free (.engine k)))
  | .paused _ token => inferInstanceAs (Decidable (_ ∧ token ≠ 0))
  | .push t => inferInstanceAs (Decidable (s.todo t ≠ [] ∧ _ = _))
  | .send t => inferInstanceAs (Decidable (s.courier.unsent t = true))
  | .wake => inferInstanceAs (Decidable s.Idle)
  | .take => inferInstanceAs (Decidable (_ ∧ _ = _))
  | .exec => inferInstanceAs (Decidable (_ ∧ _ = _ ∧ s.courier.batch ≠ []))
  | .finish => inferInstanceAs (Decidable (_ ∧ _ = _ ∧ s.courier.batch = []))

/-- The server, started with nobody connected and no token. -/
def machine (N : Net) : Machine System Event where
  start := ⟨Hub.init N, Courier.init, fun _ => []⟩
  enabled := Enabled
  step := step N

instance (N : Net) (s : System) : DecidablePred ((machine N).enabled s) :=
  inferInstanceAs (DecidablePred s.Enabled)

variable {N : Net} {s : System} {e : Event}

theorem step_push_nil {t : Thread} (h : s.todo t = []) : step N s (.push t) = s := by
  simp only [step, h]

theorem step_exec_nil (h : s.courier.batch = []) : step N s .exec = s := by
  simp only [step, h]

theorem step_push {t : Thread} {j : Job} {js : List Job} (h : s.todo t = j :: js) :
    step N s (.push t) =
      { s with courier := s.courier.step (.push t j), todo := Function.update s.todo t js } := by
  simp only [step, h]

theorem step_exec {p : Thread × Job} {b : List (Thread × Job)} (h : s.courier.batch = p :: b) :
    step N s .exec = run N { s with courier := s.courier.step .exec } p.2 := by
  simp only [step, h]

/-! ### The queue -/

def Event.courier (s : System) : Event → Courier.Event Thread Job
  | .push t =>
    match s.todo t with
    | [] => .other
    | j :: _ => .push t j
  | .send t => .send t
  | .wake => .wake
  | .take => .take
  | .exec => .exec
  | .finish => .finish
  | .connect | .close _ _ | .data _ _ | .timer | .ready _ | .mimicDone _ _ | .paused _ _
  | .publish _ _ | .phrase _ _ _ => .other

theorem courier_push {t : Thread} {j : Job} {js : List Job} (h : s.todo t = j :: js) :
    Event.courier s (.push t) = .push t j := by
  simp only [Event.courier, h]

theorem run_courier (s : System) (j : Job) : (s.run N j).courier = s.courier := by
  cases j <;> rfl

/-- **The threads keep to the rules of the queue.** -/
theorem courier_simulates (N : Net) : (machine N).Simulates (Courier.machine Thread Job)
    System.courier (fun s e => e.courier s) where
  start := rfl
  enabled s e he := by
    cases e with
    | push t =>
      obtain ⟨j, js, htodo⟩ := List.exists_cons_of_ne_nil he.1
      rw [courier_push htodo]
      exact he.2
    | send t => exact he
    | wake => exact he.2
    | take => exact he.2
    | exec => exact he.2
    | finish => exact he.2
    | connect | close | data | timer | ready | mimicDone | paused | publish | phrase => trivial
  step s e he := by
    cases e with
    | push t =>
      obtain ⟨j, js, htodo⟩ := List.exists_cons_of_ne_nil he.1
      rw [courier_push htodo]
      exact congrArg System.courier (step_push (N := N) htodo)
    | exec =>
      obtain ⟨p, b, hbatch⟩ := List.exists_cons_of_ne_nil he.2.2
      exact (congrArg System.courier (step_exec hbatch)).trans (run_courier ..)
    | connect | close | data | timer | ready | mimicDone | paused | publish | phrase | send | wake
    | take | finish => rfl

/-! ### The calls of `invoke` a thread owes -/

/-- The calls of `invoke` an event adds to those the thread owes. -/
def begun (N : Net) (t : Thread) (s : System) (e : Event) : List Job :=
  ((step N s e).todo t).drop (s.todo t).length

/-- The call of `invoke` of the thread that an event makes. -/
def called (t : Thread) (s : System) : Event → List Job
  | .push u => if u = t then (s.todo t).head?.toList else []
  | _ => []

theorem begun_of_todo {t : Thread} (h : (step N s e).todo t = s.todo t) : begun N t s e = [] := by
  unfold begun
  rw [h, List.drop_length]

theorem owe_todo (s : System) (t u : Thread) (js : List Job) :
    ∃ js', (s.owe u js).todo t = s.todo t ++ js' := by
  by_cases hu : t = u
  · subst hu
    exact ⟨js, Function.update_self ..⟩
  · exact ⟨[], by rw [List.append_nil]; exact Function.update_of_ne hu ..⟩

theorem run_todo (s : System) (j : Job) (t : Thread) :
    ∃ js, (s.run N j).todo t = s.todo t ++ js := by
  cases j with
  | publish msg => exact ⟨[], (List.append_nil _).symm⟩
  | send msg tid c => exact ⟨[], (List.append_nil _).symm⟩
  | pause token => exact owe_todo s t .loop _

theorem called_of_nil {t u : Thread} {s : System} (h : s.todo u = []) :
    called t s (.push u) = [] := by
  show (if u = t then (s.todo t).head?.toList else []) = []
  split_ifs with hu
  · rw [← hu, h]
    rfl
  · rfl

/-- A call of `invoke` is the first one that the thread owes. -/
theorem called_push (N : Net) (t u : Thread) (s : System) :
    called t s (.push u) ++ (step N s (.push u)).todo t = s.todo t ∧
      begun N t s (.push u) = [] := by
  cases htodo : s.todo u with
  | nil =>
    have hnone := step_push_nil (N := N) htodo
    refine ⟨?_, begun_of_todo (congrArg (fun m => m.todo t) hnone)⟩
    rw [hnone, called_of_nil htodo, List.nil_append]
  | cons j js =>
    unfold called begun
    rw [step_push htodo]
    by_cases hu : u = t
    · subst hu
      simp [htodo]
    · have hne : t ≠ u := fun h => hu h.symm
      simp [hu, hne]

/-- A thread calls `invoke` in the order in which it came to owe the calls. -/
theorem called_todo (N : Net) (t : Thread) (s : System) (e : Event) :
    called t s e ++ (step N s e).todo t = s.todo t ++ begun N t s e := by
  have howe : ∀ {l js : List Job}, l = s.todo t ++ js →
      [] ++ l = s.todo t ++ l.drop (s.todo t).length := by
    rintro l js rfl
    rw [List.drop_left, List.nil_append]
  cases e with
  | push u =>
    obtain ⟨hcalled, hbegun⟩ := called_push N t u s
    rw [hcalled, hbegun, List.append_nil]
  | exec =>
    cases hbatch : s.courier.batch with
    | nil =>
      have hsame := congrArg (fun m => m.todo t) (step_exec_nil (N := N) hbatch)
      exact howe (hsame.trans (List.append_nil _).symm)
    | cons p b =>
      obtain ⟨js, hjs⟩ := run_todo (N := N) { s with courier := s.courier.step .exec } p.2 t
      unfold begun
      rw [step_exec hbatch]
      exact howe hjs
  | connect | close | data | timer | ready | mimicDone | paused | publish | phrase =>
    obtain ⟨js, hjs⟩ := owe_todo s t _ _
    exact howe hjs
  | send | wake | take | finish => exact howe (List.append_nil _).symm

/-- The property holds of all calls that are owed or wait in the queue. -/
structure Holds (P : Job → Prop) (s : System) : Prop where
  todo : ∀ t, ∀ j ∈ s.todo t, P j
  queue : ∀ p ∈ s.courier.queue, P p.2
  batch : ∀ p ∈ s.courier.batch, P p.2

theorem Holds.step {P : Job → Prop} (h : s.Holds P) (he : s.Enabled e)
    (hbegun : ∀ t, ∀ j ∈ begun N t s e, P j) : (step N s e).Holds P := by
  have htodo : ∀ t, ∀ j ∈ (System.step N s e).todo t, P j := by
    intro t j hj
    have hmem : j ∈ called t s e ++ (System.step N s e).todo t := List.mem_append_right _ hj
    rw [called_todo] at hmem
    rcases List.mem_append.1 hmem with hold | hnew
    · exact h.todo t j hold
    · exact hbegun t j hnew
  have hcourier : (System.step N s e).courier = s.courier.step (e.courier s) :=
    (courier_simulates N).step s e he
  refine ⟨htodo, ?_, ?_⟩
  · rw [hcourier]
    intro p hp
    cases e with
    | push t =>
      obtain ⟨j, js, htodo⟩ := List.exists_cons_of_ne_nil he.1
      rw [courier_push htodo] at hp
      rcases List.mem_append.1 hp with hold | hnew
      · exact h.queue p hold
      · rw [List.mem_singleton.1 hnew]
        exact h.todo t j (htodo ▸ List.mem_cons_self ..)
    | take => exact nomatch hp
    | connect | close | data | timer | ready | mimicDone | paused | publish | phrase | send | wake
    | exec | finish => exact h.queue p hp
  · rw [hcourier]
    intro p hp
    cases e with
    | push t =>
      obtain ⟨j, js, htodo⟩ := List.exists_cons_of_ne_nil he.1
      rw [courier_push htodo] at hp
      exact h.batch p hp
    | take => exact h.queue p hp
    | exec => exact h.batch p (List.mem_of_mem_tail hp)
    | connect | close | data | timer | ready | mimicDone | paused | publish | phrase | send | wake
    | finish => exact h.batch p hp

end System

end Draconity
