import Draconity.Lib.Runs

/-!
A queue that one thread empties for many.

Threads push items under a lock and then signal the thread that runs them, which is a step of its
own.  Signals may coalesce into one wake-up, and a wake-up may come without a signal.  Woken, the
runner takes the whole queue at once under the lock and runs it item by item outside of it, so that
whatever is pushed meanwhile waits for the next wake-up.  Each item is kept with the thread that
pushed it.
-/

namespace Lib

inductive Phase
  | idle
  /-- It was woken, and has not taken the queue yet. -/
  | woken
  /-- It runs what it took. -/
  | running
  deriving DecidableEq

def Phase.rank : Phase → ℕ
  | .idle => 0
  | .running => 1
  | .woken => 2

/-- The queue and its runner. -/
structure Courier (τ α : Type*) where
  queue : List (τ × α)
  /-- What the runner took and has not run yet. -/
  batch : List (τ × α)
  phase : Phase
  /-- A signal was given that no wake-up has served. -/
  signalled : Bool
  /-- The thread has pushed an item and not signalled yet. -/
  unsent : τ → Bool
  /-- Everything that was run, oldest first. -/
  executed : List (τ × α)
  /-- Everything that was pushed, oldest first. -/
  pushed : List (τ × α)

namespace Courier

variable {τ α : Type*} [DecidableEq τ]

inductive Event (τ α : Type*)
  | push (t : τ) (a : α)
  | send (t : τ)
  | wake
  | take
  | exec
  | finish
  /-- Anything else. -/
  | other

def init : Courier τ α := ⟨[], [], .idle, false, fun _ => false, [], []⟩

def step (q : Courier τ α) : Event τ α → Courier τ α
  | .push t a =>
    { q with
      queue := q.queue ++ [(t, a)]
      unsent := Function.update q.unsent t true
      pushed := q.pushed ++ [(t, a)] }
  | .send t => { q with signalled := true, unsent := Function.update q.unsent t false }
  | .wake => { q with phase := .woken, signalled := false }
  | .take => { q with queue := [], batch := q.queue, phase := .running }
  | .exec => { q with batch := q.batch.tail, executed := q.executed ++ q.batch.head?.toList }
  | .finish => { q with phase := .idle }
  | .other => q

/-- When an event can happen: a thread signals for each item before it pushes the next, and the
runner is woken, takes the queue and runs all of it in turn. -/
def Enabled (q : Courier τ α) : Event τ α → Prop
  | .push t _ => q.unsent t = false
  | .send t => q.unsent t = true
  | .wake => q.phase = .idle
  | .take => q.phase = .woken
  | .exec => q.phase = .running ∧ q.batch ≠ []
  | .finish => q.phase = .running ∧ q.batch = []
  | .other => True

variable (τ α) in
def machine : Machine (Courier τ α) (Event τ α) where
  start := init
  enabled := Enabled
  step := step

variable {q q' : Courier τ α} {es : List (Event τ α)}

/-! ### Nothing is lost, doubled or reordered -/

/-- What was run, what was taken and what is queued make up what was pushed. -/
structure Ordered (q : Courier τ α) : Prop where
  order : q.executed ++ q.batch ++ q.queue = q.pushed
  taken : q.batch ≠ [] → q.phase = .running

omit [DecidableEq τ] in
theorem ordered_init : (init : Courier τ α).Ordered := ⟨rfl, fun h => absurd rfl h⟩

theorem ordered_step (h : q.Ordered) {e : Event τ α} (he : q.Enabled e) : (q.step e).Ordered := by
  obtain ⟨order, taken⟩ := h
  have hidle : q.phase ≠ .running → q.batch = [] := fun hp => by_contra fun hb => hp (taken hb)
  cases e with
  | push t a =>
    refine ⟨?_, taken⟩
    simp only [step, ← order, List.append_assoc]
  | send t => exact ⟨order, taken⟩
  | wake =>
    have hp : q.phase = .idle := he
    have hb : q.batch = [] := hidle (by rw [hp]; decide)
    exact ⟨order, fun h => absurd hb h⟩
  | take =>
    have hp : q.phase = .woken := he
    have hb : q.batch = [] := hidle (by rw [hp]; decide)
    refine ⟨?_, fun _ => rfl⟩
    simp only [step, ← order, hb, List.append_nil]
  | exec =>
    refine ⟨?_, fun _ => he.1⟩
    show q.executed ++ q.batch.head?.toList ++ q.batch.tail ++ q.queue = q.pushed
    rw [← order]
    cases hb : q.batch with
    | nil => exact absurd hb he.2
    | cons p b => simp
  | finish => exact ⟨order, fun h => absurd he.2 h⟩
  | other => exact ⟨order, taken⟩

theorem ordered_of_reachable (h : (machine τ α).Reachable q) : q.Ordered :=
  Machine.invariant (M := machine τ α) ordered_init (fun _ _ h he => ordered_step h he) h

/-! ### No wake-up is lost -/

/-- A wake-up is pending: it was signalled, or the runner is awake and has not taken the queue. -/
def Awaking (q : Courier τ α) : Prop := q.signalled = true ∨ q.phase = .woken

/-- Whatever is queued will be taken: a wake-up is pending, or some thread has still to signal. -/
def Alert (q : Courier τ α) : Prop := q.queue ≠ [] → q.Awaking ∨ ∃ t, q.unsent t = true

theorem alert_step (h : q.Alert) {e : Event τ α} (he : q.Enabled e) : (q.step e).Alert := by
  intro hne
  cases e with
  | push t a => exact .inr ⟨t, Function.update_self ..⟩
  | send t => exact .inl (.inl rfl)
  | wake => exact .inl (.inr rfl)
  | take => exact absurd rfl hne
  | exec => exact h hne
  | finish =>
    rcases h hne with (hs | hp) | ht
    · exact .inl (.inl hs)
    · rw [he.1] at hp
      cases hp
    · exact .inr ht
  | other => exact h hne

theorem alert_of_reachable (h : (machine τ α).Reachable q) : q.Alert :=
  Machine.invariant (M := machine τ α) (I := Alert) (fun h => absurd rfl h)
    (fun _ _ h he => alert_step h he) h

/-- When no thread has to signal and the runner sleeps without a signal, all that was pushed was
run. -/
theorem all_executed (h : (machine τ α).Reachable q) (hsent : ∀ t, q.unsent t = false)
    (hidle : q.phase = .idle) (hsignal : q.signalled = false) : q.executed = q.pushed := by
  have hqueue : q.queue = [] := by
    by_contra hne
    rcases alert_of_reachable h hne with (hs | hp) | ⟨t, ht⟩
    · rw [hsignal] at hs
      cases hs
    · rw [hidle] at hp
      cases hp
    · rw [hsent t] at ht
      cases ht
  have hbatch : q.batch = [] := by
    by_contra hne
    have hp := (ordered_of_reachable h).taken hne
    rw [hidle] at hp
    cases hp
  have horder := (ordered_of_reachable h).order
  rwa [hqueue, hbatch, List.append_nil, List.append_nil] at horder

/-! ### Along a run -/

def pushes : Event τ α → List (τ × α)
  | .push t a => [(t, a)]
  | .send _ | .wake | .take | .exec | .finish | .other => []

def runs (q : Courier τ α) : Event τ α → List (τ × α)
  | .exec => q.batch.head?.toList
  | .push _ _ | .send _ | .wake | .take | .finish | .other => []

theorem pushed_step (q : Courier τ α) (e : Event τ α) :
    (q.step e).pushed = q.pushed ++ pushes e := by
  cases e <;> simp [step, pushes]

theorem executed_step (q : Courier τ α) (e : Event τ α) :
    (q.step e).executed = q.executed ++ q.runs e := by
  cases e <;> simp [step, runs]

theorem pushed_exec (q : Courier τ α) (es : List (Event τ α)) :
    ((machine τ α).exec q es).pushed =
      q.pushed ++ (machine τ α).history (fun _ e => pushes e) q es := by
  induction es generalizing q with
  | nil => simp [Machine.history]
  | cons e es ih =>
    rw [Machine.exec_cons, ih]
    show (q.step e).pushed ++ _ = _ ++ (pushes e ++ _)
    rw [pushed_step, List.append_assoc]

theorem executed_exec (q : Courier τ α) (es : List (Event τ α)) :
    ((machine τ α).exec q es).executed =
      q.executed ++ (machine τ α).history runs q es := by
  induction es generalizing q with
  | nil => simp [Machine.history]
  | cons e es ih =>
    rw [Machine.exec_cons, ih]
    show (q.step e).executed ++ _ = _ ++ (q.runs e ++ _)
    rw [executed_step, List.append_assoc]

/-- **From any state on**, what is run is what was waiting and then what is pushed, in this order,
up to what is waiting in the end. -/
theorem runs_eq (h : (machine τ α).Reachable q) (hr : (machine τ α).Run q es) :
    (machine τ α).history runs q es ++
        (((machine τ α).exec q es).batch ++ ((machine τ α).exec q es).queue) =
      q.batch ++ q.queue ++ (machine τ α).history (fun _ e => pushes e) q es := by
  have hstart := (ordered_of_reachable h).order
  have hend := (ordered_of_reachable (h.exec hr)).order
  rw [executed_exec, pushed_exec, ← hstart] at hend
  simp only [List.append_assoc] at hend
  have hcancel := List.append_cancel_left hend
  rw [hcancel, List.append_assoc]

/-! ### What is left to do -/

/-- What the runner has to do before it sleeps without a signal, when nothing more is pushed. -/
def load (q : Courier τ α) : ℕ :=
  q.queue.length + q.batch.length + 3 * q.signalled.toNat + q.phase.rank

/-- The runner takes its next step, and is not woken without a signal. -/
def Due (q : Courier τ α) : Event τ α → Prop
  | .wake => q.signalled = true
  | .take | .exec | .finish => True
  | .push _ _ | .send _ | .other => False

theorem load_push (q : Courier τ α) (t : τ) (a : α) : (q.step (.push t a)).load = q.load + 1 := by
  simp only [load, step, List.length_append, List.length_singleton]
  omega

theorem load_send (q : Courier τ α) (t : τ) : (q.step (.send t)).load ≤ q.load + 3 := by
  simp only [load, step, Bool.toNat_true]
  omega

theorem load_due (h : q.Ordered) {e : Event τ α} (he : q.Enabled e) (hdue : q.Due e) :
    (q.step e).load < q.load := by
  cases e with
  | wake =>
    have hp : q.phase = .idle := he
    have hs : q.signalled = true := hdue
    simp [load, step, hp, hs, Phase.rank]
  | take =>
    have hp : q.phase = .woken := he
    have hb : q.batch = [] := by
      by_contra hne
      have hrunning := h.taken hne
      rw [hp] at hrunning
      cases hrunning
    simp only [load, step, hp, hb, Phase.rank, List.length_nil]
    omega
  | exec =>
    have hlen := List.length_pos_iff.2 he.2
    simp only [load, step, List.length_tail]
    omega
  | finish =>
    simp only [load, step, he.1, Phase.rank]
    omega
  | push | send | other => exact hdue.elim

/-- When the runner can take no step, all that was pushed was run, once nobody has to signal. -/
theorem idle_of_no_due (h : (machine τ α).Reachable q) (hsent : ∀ t, q.unsent t = false)
    (hno : ∀ e, q.Enabled e → ¬ q.Due e) :
    q.phase = .idle ∧ q.signalled = false ∧ q.batch = [] ∧ q.queue = [] := by
  have hphase : q.phase = .idle := by
    cases hp : q.phase with
    | idle => rfl
    | woken => exact absurd trivial (hno .take hp)
    | running =>
      by_cases hb : q.batch = []
      · exact absurd trivial (hno .finish ⟨hp, hb⟩)
      · exact absurd trivial (hno .exec ⟨hp, hb⟩)
  have hsignal : q.signalled = false := by
    by_contra hs
    exact hno .wake hphase (by simpa [Due] using hs)
  have horder := (ordered_of_reachable h).order
  rw [all_executed h hsent hphase hsignal, List.append_assoc, List.append_right_eq_self] at horder
  exact ⟨hphase, hsignal, List.append_eq_nil_iff.1 horder⟩

end Courier

end Lib
