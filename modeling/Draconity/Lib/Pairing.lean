import Draconity.Lib.Runs

/-!
Answers that are paired with requests by their position alone.

A request is accepted, which names it to the one who will answer, and entered at the end of a queue,
which is a step of its own.  An answer arrives for each accepted request, in the order they were
accepted; it takes the front of the queue and is given to the request that is read there, and is
dropped when the queue is empty.
-/

namespace Lib

/-- Requests on their way to an answer. -/
structure Pairing (α : Type*) where
  /-- The requests that were accepted, oldest first. -/
  accepted : List α
  /-- The request that was accepted and not entered yet. -/
  entering : Option α
  queue : List α
  /-- How many answers have arrived. -/
  arrived : ℕ
  /-- The requests that answers were given to, oldest first. -/
  answered : List α

namespace Pairing

variable {α : Type*}

inductive Event (α : Type*)
  | accept (a : α)
  | enter
  /-- An answer arrives; `stale` is what is read where the front of the queue was, if it is not there
  any more. -/
  | arrive (stale : Option α)
  /-- Anything else. -/
  | other

def init : Pairing α := ⟨[], none, [], 0, []⟩

def step (p : Pairing α) : Event α → Pairing α
  | .accept a => { p with accepted := p.accepted ++ [a], entering := some a }
  | .enter => { p with queue := p.queue ++ p.entering.toList, entering := none }
  | .arrive stale =>
    match p.queue with
    | [] => { p with arrived := p.arrived + 1 }
    | a :: q =>
      { p with arrived := p.arrived + 1, queue := q, answered := p.answered ++ [stale.getD a] }
  | .other => p

/-- When an event can happen: one request is entered before the next is accepted, and no answer
arrives that was not asked for. -/
def Enabled (p : Pairing α) : Event α → Prop
  | .accept _ => p.entering = none
  | .enter => p.entering.isSome
  | .arrive _ => p.arrived < p.accepted.length
  | .other => True

def machine (α : Type*) : Machine (Pairing α) (Event α) where
  start := init
  enabled := Enabled
  step := step

/-- What holds of the requests in any case: those without an answer wait, in their order. -/
structure Kept (p : Pairing α) : Prop where
  waiting : p.queue ++ p.entering.toList = p.accepted.drop p.answered.length
  arrived : p.answered.length ≤ p.arrived
  asked : p.arrived ≤ p.accepted.length

/-- Each answer was given to the request it arrived for, and the others wait for theirs. -/
structure Paired (p : Pairing α) : Prop where
  answered : p.answered = p.accepted.take p.arrived
  waiting : p.queue ++ p.entering.toList = p.accepted.drop p.arrived

/-- An answer arrives before the request it is for was entered: all that were accepted but the last
have their answer, and the last is not in the queue yet. -/
def Early (p : Pairing α) : Event α → Prop
  | .arrive _ => p.entering.isSome ∧ p.arrived + 1 = p.accepted.length
  | .accept _ | .enter | .other => False

/-- An answer takes a request and is given to another one. -/
def Misread (p : Pairing α) : Event α → Prop
  | .arrive stale => ∃ a ∈ p.queue.head?, stale.getD a ≠ a
  | .accept _ | .enter | .other => False

theorem kept_init : Kept (init : Pairing α) := ⟨rfl, Nat.le_refl 0, Nat.le_refl 0⟩

theorem kept_step {p : Pairing α} (hp : Kept p) {e : Event α} (he : Enabled p e) :
    Kept (p.step e) := by
  obtain ⟨waiting, arrived, asked⟩ := hp
  cases e with
  | accept a =>
    have hnone : p.entering = none := he
    have hle : p.answered.length ≤ p.accepted.length := Nat.le_trans arrived asked
    rw [hnone, Option.toList_none, List.append_nil] at waiting
    refine ⟨?_, arrived, ?_⟩
    · simp only [step, Option.toList_some]
      rw [waiting, List.drop_append_of_le_length hle]
    · simp only [step, List.length_append, List.length_singleton]
      omega
  | enter =>
    refine ⟨?_, arrived, asked⟩
    simp only [step, Option.toList_none, List.append_nil]
    exact waiting
  | arrive stale =>
    -- an answer arrives for an accepted request only, so it is not ahead of the requests
    have hlt : p.arrived < p.accepted.length := he
    unfold step
    cases hq : p.queue with
    | nil =>
      refine ⟨?_, ?_, hlt⟩
      · rw [← waiting, hq]
      · simp only
        omega
    | cons a q =>
      rw [hq, List.cons_append] at waiting
      refine ⟨?_, ?_, hlt⟩
      · simp only [List.length_append, List.length_singleton]
        rw [← List.tail_drop, ← waiting, List.tail_cons]
      · simp only [List.length_append, List.length_singleton]
        omega
  | other => exact ⟨waiting, arrived, asked⟩

theorem kept_of_reachable {p : Pairing α} (h : (machine α).Reachable p) : Kept p :=
  Machine.invariant (M := machine α) kept_init (fun _ _ hp he => kept_step hp he) h

/-- The pairing is right exactly as long as those were answered that the answers arrived for. -/
theorem Kept.paired_iff {p : Pairing α} (hp : Kept p) :
    Paired p ↔ p.answered = p.accepted.take p.arrived := by
  refine ⟨Paired.answered, fun h => ⟨h, ?_⟩⟩
  have hlen := congrArg List.length h
  rw [List.length_take, Nat.min_eq_left hp.asked] at hlen
  rw [hp.waiting, hlen]

/-- As long as as many were answered as arrived, an answer arrives early just when the queue is
empty. -/
theorem Kept.early_iff {p : Pairing α} (hp : Kept p) (heven : p.answered.length = p.arrived)
    {stale : Option α} (he : Enabled p (.arrive stale)) : Early p (.arrive stale) ↔ p.queue = [] := by
  have hlt : p.arrived < p.accepted.length := he
  have hlen := congrArg List.length hp.waiting
  rw [List.length_append, List.length_drop] at hlen
  unfold Early
  rw [← List.length_eq_zero_iff]
  cases hent : p.entering with
  | none =>
    rw [hent, Option.toList_none, List.length_nil] at hlen
    simp only [Option.isSome_none, Bool.false_eq_true, false_and, false_iff]
    omega
  | some a =>
    rw [hent, Option.toList_some, List.length_singleton] at hlen
    simp only [Option.isSome_some, true_and]
    omega

/-- The request at the front of the queue is the one the next answer arrives for. -/
theorem Kept.next {p : Pairing α} (hp : Kept p) (heven : p.answered.length = p.arrived) {a : α}
    {q : List α} (hq : p.queue = a :: q) :
    p.accepted.take (p.arrived + 1) = p.accepted.take p.arrived ++ [a] := by
  have hdrop := hp.waiting
  rw [hq, List.cons_append, heven] at hdrop
  rw [List.take_add, ← hdrop]
  rfl

/-- An early answer is given to no one and a misread one to the wrong request, and what went wrong
once stays so. -/
theorem step_right {p : Pairing α} (hp : Kept p) {e : Event α} (he : Enabled p e) :
    (p.step e).answered = (p.step e).accepted.take (p.step e).arrived ↔
      p.answered = p.accepted.take p.arrived ∧ ¬ (Early p e ∨ Misread p e) := by
  have hasked := hp.asked
  cases e with
  | accept a => simp [step, Early, Misread, List.take_append_of_le_length hasked]
  | enter => simp [step, Early, Misread]
  | other => simp [step, Early, Misread]
  | arrive stale =>
    have hlt : p.arrived < p.accepted.length := he
    have harrived := hp.arrived
    have heven : p.answered = p.accepted.take p.arrived → p.answered.length = p.arrived := by
      intro h
      rw [h, List.length_take, Nat.min_eq_left hasked]
    cases hq : p.queue with
    | nil =>
      -- The answer is dropped, and from now on more have arrived than were given to anyone.
      refine iff_of_false (fun h => ?_) fun ⟨h, hno⟩ => hno (.inl ?_)
      · have hlen := congrArg List.length h
        simp only [step, hq, List.length_take] at hlen
        omega
      · exact (hp.early_iff (heven h) he).2 hq
    | cons a q =>
      have hstep : (p.step (.arrive stale)).answered =
          (p.step (.arrive stale)).accepted.take (p.step (.arrive stale)).arrived ↔
          p.answered ++ [stale.getD a] = p.accepted.take (p.arrived + 1) := by
        simp only [step, hq]
      have hmisread : Misread p (.arrive stale) ↔ stale.getD a ≠ a := by
        simp [Misread, hq]
      rw [hstep, hmisread]
      constructor
      · intro h
        have hlen := congrArg List.length h
        rw [List.length_append, List.length_singleton, List.length_take] at hlen
        have hlength : p.answered.length = p.arrived := by omega
        rw [hp.next hlength hq] at h
        obtain ⟨hanswered, hread⟩ := List.append_inj' h rfl
        refine ⟨hanswered, not_or.2 ⟨fun hearly => ?_, fun hne => hne (List.singleton_inj.1 hread)⟩⟩
        have hnil := (hp.early_iff hlength he).1 hearly
        rw [hq] at hnil
        cases hnil
      · rintro ⟨hanswered, hno⟩
        have hread : stale.getD a = a := not_not.1 (not_or.1 hno).2
        rw [hp.next (heven hanswered) hq, hanswered, hread]

/-- **When every answer goes where it belongs**: when no answer arrives early and none is misread.
One that is early is dropped, and shifts those that come after it. -/
theorem paired_iff {es : List (Event α)} (hr : (machine α).Run (machine α).start es) :
    Paired ((machine α).exec (machine α).start es) ↔
      ¬ (machine α).Occurs Early (machine α).start es ∧
        ¬ (machine α).Occurs Misread (machine α).start es := by
  have hstep : ∀ p e, Kept p → (machine α).enabled p e → Kept ((machine α).step p e) ∧
      (((machine α).step p e).answered =
          ((machine α).step p e).accepted.take ((machine α).step p e).arrived ↔
        p.answered = p.accepted.take p.arrived ∧ ¬ (Early p e ∨ Misread p e)) :=
    fun p e hp he => ⟨kept_step hp he, step_right hp he⟩
  have hgood := hr.good_iff (G := fun p => p.answered = p.accepted.take p.arrived) hstep kept_init
  rw [(kept_of_reachable hr.reachable).paired_iff, hgood, Machine.occurs_or, not_or]
  exact and_iff_right rfl

/-- Whom an arriving answer is given to. -/
def given (p : Pairing α) : Event α → List (List α)
  | .arrive stale => [(p.queue.head?.map stale.getD).toList]
  | .accept _ | .enter | .other => []

/-- As long as the pairing is right, each answer was given to one request. -/
theorem history_given {es : List (Event α)} (hr : (machine α).Run (machine α).start es)
    (hp : Paired ((machine α).exec (machine α).start es)) :
    (machine α).history given (machine α).start es =
      ((machine α).exec (machine α).start es).answered.map fun a => [a] := by
  have hright := hp.answered
  clear hp
  induction es using List.reverseRecOn with
  | nil => rfl
  | append_singleton es e ih =>
    obtain ⟨hes, he⟩ := Machine.run_snoc.1 hr
    have hkept := kept_of_reachable hes.reachable
    rw [Machine.exec_snoc] at hright ⊢
    rw [Machine.history_snoc]
    generalize (machine α).exec (machine α).start es = p at hkept he ih hright ⊢
    obtain ⟨hprev, hno⟩ := (step_right hkept he).1 hright
    rw [ih hes hprev]
    cases e with
    | accept a => exact List.append_nil _
    | enter => exact List.append_nil _
    | other => exact List.append_nil _
    | arrive stale =>
      have hlen := congrArg List.length hprev
      rw [List.length_take, Nat.min_eq_left hkept.asked] at hlen
      obtain ⟨a, q, hq⟩ := List.exists_cons_of_ne_nil fun h =>
        (not_or.1 hno).1 ((hkept.early_iff hlen he).2 h)
      show _ = (p.step (.arrive stale)).answered.map _
      simp [given, step, hq]

end Pairing

end Lib
