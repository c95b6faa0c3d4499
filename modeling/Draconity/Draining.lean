import Draconity.Delivery
import Mathlib.Algebra.BigOperators.Group.Finset.Basic
import Mathlib.Data.Prod.Lex

/-!
What is handed to `invoke` is delivered, however the threads are scheduled.

From any state on, let the threads go on with the calls of `invoke` they owe, and the event loop with
what it is woken for, while no handler and no callback begins anything new.  A pause that runs makes
the event loop owe new messages, but no new pause, so that this ends.
-/

namespace Draconity

open Lib

/-- The function of `Draconity::handle_pause`. -/
def Job.isPause : Job → Bool
  | .pause _ => true
  | .publish _ | .send _ _ _ => false

@[simp] theorem Job.isPause_pause (token : UInt64) : (Job.pause token).isPause = true := rfl

namespace System

variable {N : Net} {m s : System} {e : Event} {es : List Event} {T : Finset Thread} {t : Thread}

/-- The next step of a call of `invoke`, or of the event loop, which is not woken without a signal. -/
def Delivers (s : System) : Event → Prop
  | .push _ | .send _ | .take | .exec | .finish => True
  | .wake => s.courier.signalled = true
  | .connect | .close _ _ | .data _ _ | .timer | .ready _ | .mimicDone _ _ | .paused _ _
  | .publish _ _ | .phrase _ _ _ => False

instance (s : System) : DecidablePred s.Delivers
  | .push _ | .send _ | .take | .exec | .finish => .isTrue trivial
  | .wake => inferInstanceAs (Decidable (_ = _))
  | .connect | .close _ _ | .data _ _ | .timer | .ready _ | .mimicDone _ _ | .paused _ _
  | .publish _ _ | .phrase _ _ _ => .isFalse id

/-- The server, when nothing new begins. -/
def deliveries (N : Net) : Machine System Event := (machine N).only Delivers

instance (N : Net) (s : System) : DecidablePred ((deliveries N).enabled s) := fun e =>
  inferInstanceAs (Decidable (s.Enabled e ∧ s.Delivers e))

/-! ### The threads that have something to do -/

def Event.thread : Event → Thread
  | .connect | .close _ _ | .data _ _ | .timer | .wake | .take | .exec | .finish => .loop
  | .ready k | .mimicDone k _ | .paused k _ | .publish k _ | .phrase k _ _ => .engine k
  | .push t | .send t => t

theorem step_elsewhere (N : Net) (s : System) (ht : t ≠ e.thread) :
    (step N s e).todo t = s.todo t ∧ (step N s e).courier.unsent t = s.courier.unsent t := by
  cases e with
  | push u =>
    have hu : t ≠ u := ht
    cases htodo : s.todo u with
    | nil => rw [step_push_nil htodo]; exact ⟨rfl, rfl⟩
    | cons j js =>
      rw [step_push htodo]
      exact ⟨Function.update_of_ne hu .., Function.update_of_ne hu ..⟩
  | send u => exact ⟨rfl, Function.update_of_ne ht ..⟩
  | exec =>
    cases hbatch : s.courier.batch with
    | nil => rw [step_exec_nil hbatch]; exact ⟨rfl, rfl⟩
    | cons p b =>
      rw [step_exec hbatch, run_courier]
      refine ⟨?_, rfl⟩
      cases p.2 with
      | publish msg => rfl
      | send msg tid c => rfl
      | pause token => exact Function.update_of_ne ht ..
  | connect | close | data | timer | ready | mimicDone | paused | publish | phrase =>
    exact ⟨Function.update_of_ne ht .., rfl⟩
  | wake | take | finish => exact ⟨rfl, rfl⟩

/-- Only the event loop and threads of the set have something to do. -/
def Within (T : Finset Thread) (s : System) : Prop := .loop ∈ T ∧ ∀ t ∉ T, s.Free t

theorem Within.step (h : s.Within T) (he : e.thread ∈ T) : (step N s e).Within T := by
  refine ⟨h.1, fun t ht => ?_⟩
  obtain ⟨htodo, hunsent⟩ := step_elsewhere N s (ne_of_mem_of_not_mem he ht).symm
  obtain ⟨h₁, h₂⟩ := h.2 t ht
  exact ⟨htodo.trans h₁, hunsent.trans h₂⟩

theorem within_of_reachable (h : (machine N).Reachable s) : ∃ T, s.Within T := by
  refine Machine.invariant (M := machine N) (I := fun s => ∃ T, s.Within T)
    ⟨{.loop}, Finset.mem_singleton_self _, fun _ _ => ⟨rfl, rfl⟩⟩ (fun s e ⟨T, hT⟩ _ => ?_) h
  have hmore : s.Within (insert e.thread T) :=
    ⟨Finset.mem_insert_of_mem hT.1, fun t ht =>
      hT.2 t fun hmem => ht (Finset.mem_insert_of_mem hmem)⟩
  exact ⟨_, hmore.step (Finset.mem_insert_self ..)⟩

theorem Within.thread_mem (h : s.Within T) (he : s.Enabled e) (hd : s.Delivers e) :
    e.thread ∈ T := by
  by_contra hno
  cases e with
  | push t => exact he.1 (h.2 t hno).1
  | send t =>
    have hunsent : s.courier.unsent t = true := he
    rw [(h.2 t hno).2] at hunsent
    cases hunsent
  | wake | take | exec | finish => exact hno h.1
  | connect | close | data | timer | ready | mimicDone | paused | publish | phrase => exact hd

/-! ### What is left to do -/

def pauses (T : Finset Thread) (s : System) : ℕ :=
  ∑ t ∈ T, (s.todo t).countP (·.isPause) + s.courier.batch.countP (·.2.isPause) +
    s.courier.queue.countP (·.2.isPause)

/-- The steps that are left, until a pause runs. -/
def steps (T : Finset Thread) (s : System) : ℕ :=
  ∑ t ∈ T, (6 * (s.todo t).length + 4 * (s.courier.unsent t).toNat) + s.courier.load

/-- What is left: the pauses first, since one that runs may owe any number of messages. -/
def work (T : Finset Thread) (s : System) : ℕ ×ₗ ℕ := toLex (s.pauses T, s.steps T)

theorem sum_change {f g : Thread → ℕ} (ht : t ∈ T) (h : ∀ u ≠ t, g u = f u) :
    ∑ u ∈ T, g u + f t = ∑ u ∈ T, f u + g t := by
  have hrest : ∑ u ∈ T.erase t, g u = ∑ u ∈ T.erase t, f u :=
    Finset.sum_congr rfl fun u hu => h u (Finset.ne_of_mem_erase hu)
  rw [← Finset.add_sum_erase T f ht, ← Finset.add_sum_erase T g ht, hrest]
  omega

theorem work_push {j : Job} {js : List Job} (h : s.Within T) (he : s.Enabled (.push t))
    (htodo : s.todo t = j :: js) : (step N s (.push t)).work T < s.work T := by
  have ht : t ∈ T := h.thread_mem (e := .push t) he trivial
  have hsum := sum_change (f := fun u => (s.todo u).countP (·.isPause))
    (g := fun u => (Function.update s.todo t js u).countP (·.isPause)) ht fun u hu => by
      simp only [Function.update_of_ne hu]
  have hsteps := sum_change
    (f := fun u => 6 * (s.todo u).length + 4 * (s.courier.unsent u).toNat)
    (g := fun u => 6 * (Function.update s.todo t js u).length +
      4 * (Function.update s.courier.unsent t true u).toNat) ht fun u hu => by
      simp only [Function.update_of_ne hu]
  have hload := Courier.load_push s.courier t j
  simp only [Function.update_self, htodo, List.countP_cons, List.length_cons, he.2, Bool.toNat_true,
    Bool.toNat_false] at hsum hsteps
  rw [step_push htodo]
  refine Prod.Lex.toLex_lt_toLex.2 (.inr ⟨?_, ?_⟩)
  · simp only [pauses, Courier.step, List.countP_append, List.countP_singleton]
    omega
  · simp only [steps, hload]
    show ∑ u ∈ T, (6 * (Function.update s.todo t js u).length +
      4 * (Function.update s.courier.unsent t true u).toNat) + _ < _
    omega

theorem work_send (h : s.Within T) (he : s.Enabled (.send t)) :
    (step N s (.send t)).work T < s.work T := by
  have ht : t ∈ T := h.thread_mem (e := .send t) he trivial
  have hunsent : s.courier.unsent t = true := he
  have hsteps := sum_change
    (f := fun u => 6 * (s.todo u).length + 4 * (s.courier.unsent u).toNat)
    (g := fun u => 6 * (s.todo u).length +
      4 * (Function.update s.courier.unsent t false u).toNat) ht fun u hu => by
      simp only [Function.update_of_ne hu]
  have hload := Courier.load_send s.courier t
  simp only [Function.update_self, hunsent, Bool.toNat_true, Bool.toNat_false] at hsteps
  refine Prod.Lex.toLex_lt_toLex.2 (.inr ⟨rfl, ?_⟩)
  show ∑ u ∈ T, (6 * (s.todo u).length + 4 * (Function.update s.courier.unsent t false u).toNat) +
    (s.courier.step (.send t)).load < _
  unfold steps
  omega

/-- The event loop takes the queue, or goes to sleep and wakes up. -/
theorem work_loop (hs : s.courier.Ordered) (he : s.Enabled e) (hd : s.Delivers e)
    (hloop : e = .wake ∨ e = .take ∨ e = .finish) : (step N s e).work T < s.work T := by
  have hload : (s.courier.step (e.courier s)).load < s.courier.load := by
    refine Courier.load_due hs ((courier_simulates N).enabled s e he) ?_
    rcases hloop with rfl | rfl | rfl
    · exact hd
    · trivial
    · trivial
  have hpauses : (step N s e).pauses T = s.pauses T := by
    rcases hloop with rfl | rfl | rfl
    · rfl
    · have hbatch : s.courier.batch = [] := by
        by_contra hne
        have hrunning := hs.taken hne
        rw [he.2] at hrunning
        cases hrunning
      unfold pauses
      rw [hbatch, List.countP_nil, Nat.add_zero]
      rfl
    · rfl
  refine Prod.Lex.toLex_lt_toLex.2 (.inr ⟨hpauses, ?_⟩)
  rcases hloop with rfl | rfl | rfl <;> exact Nat.add_lt_add_left hload _

theorem owed_not_pause (N : Net) (s s' : State) : (N.owed s s').countP (·.isPause) = 0 := by
  refine List.countP_eq_zero.2 fun j hj => ?_
  obtain ⟨i, -, msg, hmsg⟩ := mem_jobs hj
  rcases mem_issued_jobs hmsg with ⟨p, -, rfl⟩ | ⟨p, tid, c, -, rfl⟩ <;> nofun

theorem work_exec (h : s.Within T) (hs : s.courier.Ordered) (he : s.Enabled .exec) :
    (step N s .exec).work T < s.work T := by
  obtain ⟨⟨u, j⟩, b, hbatch⟩ := List.exists_cons_of_ne_nil he.2.2
  have hload : (s.courier.step .exec).load < s.courier.load :=
    Courier.load_due hs (e := .exec) he.2 trivial
  have hsame : j.isPause = false → (step N s .exec).todo = s.todo →
      (step N s .exec).courier = s.courier.step .exec → (step N s .exec).work T < s.work T := by
    intro hj htodo hcourier
    refine Prod.Lex.toLex_lt_toLex.2 (.inr ⟨?_, ?_⟩)
    · simp [pauses, htodo, hcourier, Courier.step, hbatch, hj]
    · unfold steps
      rw [htodo, hcourier]
      exact Nat.add_lt_add_left hload _
  rw [step_exec hbatch] at hsame ⊢
  cases j with
  | publish msg => exact hsame rfl rfl rfl
  | send msg tid c => exact hsame rfl rfl rfl
  | pause token =>
    -- the thread of the event loop owes new messages now
    refine Prod.Lex.toLex_lt_toLex.2 (.inl ?_)
    have howed := owed_not_pause N s.hub.state (handlePause N.env token s.hub.state)
    have hsum := sum_change (f := fun u => (s.todo u).countP (·.isPause))
      (g := fun u => (Function.update s.todo .loop (s.todo .loop ++
        N.owed s.hub.state (handlePause N.env token s.hub.state)) u).countP (·.isPause)) h.1
      fun u hu => by simp only [Function.update_of_ne hu]
    simp only [Function.update_self, List.countP_append, howed] at hsum
    show ∑ u ∈ T, (Function.update s.todo .loop (s.todo .loop ++
      N.owed s.hub.state (handlePause N.env token s.hub.state)) u).countP (·.isPause) +
        s.courier.batch.tail.countP (·.2.isPause) + s.courier.queue.countP (·.2.isPause) < _
    simp only [pauses, hbatch, List.tail_cons, List.countP_cons, Job.isPause_pause, if_true]
    omega

/-- **Whatever is delivered, there is less to deliver.** -/
theorem work_step (h : s.Within T) (hs : s.courier.Ordered) (he : (deliveries N).enabled s e) :
    (step N s e).work T < s.work T := by
  obtain ⟨he, hd⟩ := he
  cases e with
  | push t =>
    obtain ⟨j, js, htodo⟩ := List.exists_cons_of_ne_nil he.1
    exact work_push h he htodo
  | send t => exact work_send h he
  | exec => exact work_exec h hs he
  | wake => exact work_loop hs he hd (.inl rfl)
  | take => exact work_loop hs he hd (.inr (.inl rfl))
  | finish => exact work_loop hs he hd (.inr (.inr rfl))
  | connect | close | data | timer | ready | mimicDone | paused | publish | phrase => exact hd.elim

/-! ### When nothing can be delivered -/

/-- Where no delivery can be made, nobody has anything to do. -/
theorem settled (hm : (machine N).Reachable s) (hno : ∀ e, ¬ (deliveries N).enabled s e) :
    (∀ t, s.Free t) ∧ s.courier.phase = .idle ∧ s.courier.signalled = false ∧
      s.courier.batch = [] ∧ s.courier.queue = [] := by
  have hsent : ∀ t, s.courier.unsent t = false := fun t => by
    by_contra hunsent
    exact hno (.send t) ⟨by simpa [machine, Enabled] using hunsent, trivial⟩
  have hfree : ∀ t, s.Free t := fun t => by
    refine ⟨?_, hsent t⟩
    by_contra htodo
    exact hno (.push t) ⟨⟨htodo, hsent t⟩, trivial⟩
  refine ⟨hfree, Courier.idle_of_no_due ((courier_simulates N).reachable hm) hsent
    fun e he hdue => ?_⟩
  cases e with
  | wake => exact hno .wake ⟨⟨hfree .loop, he⟩, hdue⟩
  | take => exact hno .take ⟨⟨hfree .loop, he⟩, trivial⟩
  | exec => exact hno .exec ⟨⟨hfree .loop, he⟩, trivial⟩
  | finish => exact hno .finish ⟨⟨hfree .loop, he⟩, trivial⟩
  | push | send | other => exact hdue

theorem clients_deliver (hm : Steady N s) (he : (deliveries N).enabled s e) :
    (step N s e).hub.state.clients = s.hub.state.clients := by
  obtain ⟨he, hd⟩ := he
  cases e with
  | push t =>
    obtain ⟨j, js, htodo⟩ := List.exists_cons_of_ne_nil he.1
    rw [step_push htodo]
  | exec =>
    obtain ⟨⟨u, j⟩, b, hbatch⟩ := List.exists_cons_of_ne_nil he.2.2
    rw [step_exec hbatch]
    cases j with
    | publish msg =>
      exact congrArg State.clients (Hub.publish_spec (N := N) msg hm.consistent.nodup).1
    | send msg tid c => exact congrArg State.clients (Hub.send_spec (N := N) msg tid c).1
    | pause token =>
      have htoken : token ≠ 0 := hm.tokens.batch (u, .pause token) (hbatch ▸ List.mem_cons_self ..)
      have hbar := congrArg Barrier.members (handlePause_barrier N.env htoken s.hub.state)
      refine hbar.trans ?_
      unfold Barrier.step
      dsimp only
      split_ifs
      · exact Barrier.release_members _
      · rfl
  | send | wake | take | finish => rfl
  | connect | close | data | timer | ready | mimicDone | paused | publish | phrase => exact hd.elim

/-! ### What is delivered -/

theorem begun_engine (N : Net) {k : ℕ} (hd : s.Delivers e) : begun N (.engine k) s e = [] := by
  cases e with
  | push t => exact (called_push N _ t s).2
  | exec => exact begun_of_todo (step_elsewhere N s (t := .engine k) (e := .exec) nofun).1
  | send | wake | take | finish => exact begun_of_todo rfl
  | connect | close | data | timer | ready | mimicDone | paused | publish | phrase => exact hd.elim

/-- What is written are messages of the queue. -/
theorem writes_deliver (N : Net) (c : ClientId) (hd : s.Delivers e) :
    (writes N c s e).map (Write.bytes N.transport.byteOrder) =
      ((writes N c s e).filterMap Write.entry).map (·.2.frame N.transport.byteOrder) := by
  cases e with
  | exec =>
    rw [writes_exec]
    split_ifs
    · rw [List.map_map, List.filterMap_map]
      refine Eq.trans ?_ (congrArg _ List.filterMap_some.symm)
      rfl
    · rfl
  | push | send | wake | take | finish => rfl
  | connect | close | data | timer | ready | mimicDone | paused | publish | phrase => exact hd.elim

theorem history_deliver (hr : (deliveries N).Run m es) :
    ((machine N).history (writes N c) m es).map (Write.bytes N.transport.byteOrder) =
        (((machine N).history (writes N c) m es).filterMap Write.entry).map
          (·.2.frame N.transport.byteOrder) ∧
      ∀ k, (machine N).history (begun N (.engine k)) m es = [] := by
  induction es generalizing m with
  | nil => exact ⟨rfl, fun _ => rfl⟩
  | cons e es ih =>
    obtain ⟨h₁, h₂⟩ := ih hr.2
    refine ⟨?_, fun k => ?_⟩
    · show (writes N c m e ++ _).map _ = ((writes N c m e ++ _).filterMap _).map _
      rw [List.map_append, List.filterMap_append, List.map_append, writes_deliver N c hr.1.2]
      exact congrArg _ h₁
    · show begun N (.engine k) m e ++ _ = []
      rw [begun_engine N hr.1.2]
      exact h₂ k

/-- **What is handed to `invoke` is delivered.**  From every state the server reaches, when nothing
new begins:
* the threads cannot go on for ever, in whatever order they take their steps;
* where none of them can take a step, they are done, the event loop sleeps, everything that was
  pushed was executed, and the same clients are connected as before;
* each of these was written what is addressed to it of one list of messages, the same for all, in
  which each engine thread has what it had handed over or had still to, in its order, and the event
  loop has that and the messages of the pauses that ran. -/
theorem drained (hm : (machine N).Reachable m) :
    (∀ f : ℕ → Event, ∃ n, ¬ (deliveries N).Run m ((List.range n).map f)) ∧
      ∀ es, (deliveries N).Run m es → ∀ s, s = (deliveries N).exec m es →
        (∀ e, ¬ (deliveries N).enabled s e) →
        (∀ t, s.Free t) ∧ s.Idle ∧ s.courier.executed = s.courier.pushed ∧
          s.hub.state.clients = m.hub.state.clients ∧
          ∃ l : List (Thread × Job),
            (∀ c ∈ m.hub.state.clients, (s.hub.conns c).written =
              (m.hub.conns c).written ++
                (toClient c l).map (·.2.frame N.transport.byteOrder)) ∧
            (∀ k, byThread (.engine k) l = waiting (.engine k) m) ∧
            byThread .loop l = waiting .loop m ++ (machine N).history (begun N .loop) m es := by
  refine ⟨fun f => ?_, ?_⟩
  · obtain ⟨T, hT⟩ := within_of_reachable hm
    -- each step makes `work` smaller
    refine Machine.not_endless (M := deliveries N)
      (I := fun s => (machine N).Reachable s ∧ s.Within T) (w := work T)
      (fun s e ⟨hs, hT⟩ he => ⟨⟨hs.step he.1, hT.step (hT.thread_mem he.1 he.2)⟩, ?_⟩) ⟨hm, hT⟩ f
    exact work_step hT (Courier.ordered_of_reachable ((courier_simulates N).reachable hs)) he
  · rintro es hes _ rfl hno
    have hr : (machine N).Run m es := hes.of_only
    have hs : (machine N).Reachable ((machine N).exec m es) := hm.exec hr
    obtain ⟨hfree, hphase, hsignal, hbatch, hqueue⟩ := settled hs hno
    have hclients : ((machine N).exec m es).hub.state.clients = m.hub.state.clients :=
      (Machine.Run.keeps (M := deliveries N) (I := fun s => (machine N).Reachable s ∧
        s.hub.state.clients = m.hub.state.clients) (fun s e ⟨hs, hc⟩ he => ⟨hs.step he.1,
          (clients_deliver (steady_of_reachable hs) he).trans hc⟩) hes ⟨hm, rfl⟩).2
    refine ⟨hfree, ⟨hfree .loop, hphase⟩, ?_, hclients,
      m.courier.batch ++ m.courier.queue ++ (machine N).history pushes m es, fun c hc => ?_, ?_⟩
    · exact Courier.all_executed ((courier_simulates N).reachable hs) (fun t => (hfree t).2) hphase
        hsignal
    · have horder := written_in_order hm hr hc (hclients.symm ▸ hc)
      rw [hbatch, hqueue] at horder
      have hwritten := written_exec hm hr c
      rw [(history_deliver hes).1, (List.append_nil _).symm.trans horder] at hwritten
      exact hwritten
    · have hthread : ∀ t, byThread t (m.courier.batch ++ m.courier.queue ++
          (machine N).history pushes m es) =
          waiting t m ++ (machine N).history (begun N t) m es := by
        intro t
        have hcalled := called_history (N := N) t m es
        rw [(hfree t).1, List.append_nil] at hcalled
        rw [byThread_append, byThread_history, hcalled, waiting, List.append_assoc]
      refine ⟨fun k => ?_, hthread .loop⟩
      rw [hthread, (history_deliver (c := 0) hes).2, List.append_nil]

/-- Two engine threads have something to hand over, and one of them a pause. -/
def handedOver : List Event := [.connect, .ready 0, .paused 1 7]

/-- The pause runs before the other message is pushed. -/
def delivering : List Event :=
  [.push (.engine 1), .send (.engine 1), .wake, .take, .exec, .push .loop, .push (.engine 0),
    .send (.engine 0), .send .loop, .finish, .wake, .take, .exec, .exec, .finish]

theorem drained_delivering :
    ∃ l : List (Thread × Job),
      (((machine numbering).exec (machine numbering).start (handedOver ++ delivering)).hub.conns
        0).written = (toClient 0 l).map (·.2.frame .little) ∧
      byThread (.engine 0) l = [.publish [0]] ∧ byThread (.engine 1) l = [.pause 7] ∧
      byThread .loop l = [.publish [1]] := by
  have hdone : ∀ e, ¬ (deliveries numbering).enabled ((deliveries numbering).exec
      ((machine numbering).exec (machine numbering).start handedOver) delivering) e := by
    rintro e ⟨he, hd⟩
    cases e with
    | push t =>
      refine he.1 ?_
      match t with
      | .loop | .engine 0 | .engine 1 | .engine (k + 2) => rfl
    | send t =>
      refine absurd (show (_ : Bool) = true from he) ?_
      match t with
      | .loop | .engine 0 | .engine 1 | .engine (k + 2) => nofun
    | wake => exact absurd hd (by decide)
    | take | exec | finish => exact absurd he (by decide)
    | connect | close | data | timer | ready | mimicDone | paused | publish | phrase =>
      exact hd
  obtain ⟨-, -, -, -, l, hwritten, hengine, hloop⟩ :=
    (drained (N := numbering) ⟨handedOver, by decide, rfl⟩).2 delivering (by decide) _ rfl hdone
  exact ⟨l, hwritten 0 (by decide), hengine 0, hengine 1, hloop⟩

end System

end Draconity
