import Mathlib.Data.List.Induction
import Mathlib.Order.WellFounded

/-!
Machines that take one event at a time, and their runs.

A machine has a start state, a condition under which an event can occur, and the state the event
leads to.  A list of events is a run when each of them can occur where it occurs.  The rules below
carry a property along a run: `Machine.invariant` for one state, `Machine.Run.snoc_induction` for
properties of the whole history.
-/

namespace Lib

/-- A machine: the start state, when an event can occur, and what it leads to. -/
structure Machine (σ ε : Type*) where
  start : σ
  enabled : σ → ε → Prop
  step : σ → ε → σ

namespace Machine

variable {σ ε : Type*} (M : Machine σ ε)

def exec (s : σ) (es : List ε) : σ := es.foldl M.step s

/-- Each event of the list can occur where it occurs, from the state `s` on. -/
def Run : σ → List ε → Prop
  | _, [] => True
  | s, e :: es => M.enabled s e ∧ Run (M.step s e) es

/-- A state some run from the start leads to. -/
def Reachable (s : σ) : Prop := ∃ es, M.Run M.start es ∧ M.exec M.start es = s

variable {M} {s : σ} {es fs : List ε} {e : ε}

@[simp] theorem exec_nil : M.exec s [] = s := rfl

@[simp] theorem exec_cons : M.exec s (e :: es) = M.exec (M.step s e) es := rfl

theorem exec_append : M.exec s (es ++ fs) = M.exec (M.exec s es) fs := List.foldl_append

theorem exec_snoc : M.exec s (es ++ [e]) = M.step (M.exec s es) e := exec_append

theorem run_append : M.Run s (es ++ fs) ↔ M.Run s es ∧ M.Run (M.exec s es) fs := by
  induction es generalizing s with
  | nil => simp [Run]
  | cons e es ih => simp [Run, ih, and_assoc]

theorem run_snoc : M.Run s (es ++ [e]) ↔ M.Run s es ∧ M.enabled (M.exec s es) e := by
  simp [run_append, Run]

instance instDecidableRun [∀ s e, Decidable (M.enabled s e)] :
    (s : σ) → (es : List ε) → Decidable (M.Run s es)
  | _, [] => .isTrue trivial
  | s, e :: es =>
    have : Decidable (M.Run (M.step s e) es) := instDecidableRun (M.step s e) es
    inferInstanceAs (Decidable (M.enabled s e ∧ M.Run (M.step s e) es))

theorem Run.of_prefix (h : fs <+: es) (hr : M.Run s es) : M.Run s fs := by
  obtain ⟨gs, rfl⟩ := h
  exact (run_append.1 hr).1

/-- A property of the history so far, carried along a run by its last event. -/
theorem Run.snoc_induction {P : List ε → Prop} (nil : P [])
    (snoc : ∀ es e, M.Run s es → M.enabled (M.exec s es) e → P es → P (es ++ [e]))
    (h : M.Run s es) : P es := by
  induction es using List.reverseRecOn with
  | nil => exact nil
  | append_singleton es e ih =>
    obtain ⟨h₁, h₂⟩ := run_snoc.1 h
    exact snoc es e h₁ h₂ (ih h₁)

/-- An invariant that the events of a run keep, along a run that starts where it holds.  `P` selects
events. -/
theorem Run.keeps_of {I : σ → Prop} {P : ε → Prop}
    (step : ∀ s e, I s → M.enabled s e → P e → I (M.step s e)) (h : M.Run s es) (hP : ∀ e ∈ es, P e)
    (hs : I s) : I (M.exec s es) := by
  induction es generalizing s with
  | nil => exact hs
  | cons e es ih =>
    have he : P e := hP e (List.mem_cons_self ..)
    exact ih h.2 (fun e' he' => hP e' (List.mem_cons_of_mem _ he')) (step _ _ hs h.1 he)

/-- An invariant of the machine, along a run that starts where it holds. -/
theorem Run.keeps {I : σ → Prop} (step : ∀ s e, I s → M.enabled s e → I (M.step s e))
    (h : M.Run s es) (hs : I s) : I (M.exec s es) :=
  h.keeps_of (P := fun _ => True) (fun s e hI he _ => step s e hI he) (fun _ _ => trivial) hs

/-- What the start state has and every event keeps, every reachable state has. -/
theorem invariant {I : σ → Prop} (start : I M.start)
    (step : ∀ s e, I s → M.enabled s e → I (M.step s e)) {s : σ} (h : M.Reachable s) : I s := by
  obtain ⟨es, hr, rfl⟩ := h
  exact hr.keeps step start

/-- The machine with some of its events. -/
def only (M : Machine σ ε) (P : σ → ε → Prop) : Machine σ ε :=
  { M with enabled := fun s e => M.enabled s e ∧ P s e }

theorem Run.of_only {P : σ → ε → Prop} (h : (M.only P).Run s es) : M.Run s es := by
  induction es generalizing s with
  | nil => trivial
  | cons e es ih => exact ⟨h.1.1, ih h.2⟩

/-! ### Observations, and machines with smaller steps -/

/-- What `f` observes of the events of a list, in order. -/
def history {μ : Type*} (M : Machine σ ε) (f : σ → ε → List μ) : σ → List ε → List μ
  | _, [] => []
  | s, e :: es => f s e ++ M.history f (M.step s e) es

theorem history_append {μ : Type*} {f : σ → ε → List μ} :
    M.history f s (es ++ fs) = M.history f s es ++ M.history f (M.exec s es) fs := by
  induction es generalizing s with
  | nil => rfl
  | cons e es ih => simp [history, ih]

theorem history_snoc {μ : Type*} {f : σ → ε → List μ} :
    M.history f s (es ++ [e]) = M.history f s es ++ f (M.exec s es) e := by
  simp [history_append, history]

/-- **Refinement.**  When every event of `M` is a run of `N` that shows the same observations, so
is every run of `M`.  `P` selects events of `M`, and `Q` holds of the events of `N` they take. -/
theorem Run.refine {ι μ : Type*} {N : Machine σ ι} {f : σ → ε → List μ} {g : σ → ι → List μ}
    {P : ε → Prop} {Q : ι → Prop}
    (h : ∀ s e, M.enabled s e → P e → ∃ is, N.Run s is ∧ N.exec s is = M.step s e ∧
      N.history g s is = f s e ∧ ∀ i ∈ is, Q i)
    (hr : M.Run s es) (hP : ∀ e ∈ es, P e) :
    ∃ is, N.Run s is ∧ N.exec s is = M.exec s es ∧ N.history g s is = M.history f s es ∧
      ∀ i ∈ is, Q i := by
  induction es generalizing s with
  | nil => exact ⟨[], trivial, rfl, rfl, by simp⟩
  | cons e es ih =>
    obtain ⟨is, hi, he, ho, hq⟩ := h s e hr.1 (hP e (List.mem_cons_self ..))
    obtain ⟨js, hj, he', ho', hq'⟩ := ih hr.2 fun e' h' => hP e' (List.mem_cons_of_mem _ h')
    rw [← he] at hj he' ho'
    refine ⟨is ++ js, run_append.2 ⟨hi, hj⟩, by rw [exec_append, he', he]; rfl, ?_, fun i hi => ?_⟩
    · rw [history_append, ho, ho', he]; rfl
    · exact (List.mem_append.1 hi).elim (hq i) (hq' i)

/-! ### Something that happens along a run -/

/-- `Q` holds of an event of the list, in the state it occurs in. -/
def Occurs (M : Machine σ ε) (Q : σ → ε → Prop) : σ → List ε → Prop
  | _, [] => False
  | s, e :: es => Q s e ∨ M.Occurs Q (M.step s e) es

instance instDecidableOccurs {Q : σ → ε → Prop} [∀ s e, Decidable (Q s e)] :
    (s : σ) → (es : List ε) → Decidable (M.Occurs Q s es)
  | _, [] => .isFalse id
  | s, e :: es =>
    have : Decidable (M.Occurs Q (M.step s e) es) := instDecidableOccurs (M.step s e) es
    inferInstanceAs (Decidable (Q s e ∨ M.Occurs Q (M.step s e) es))

theorem occurs_append {Q : σ → ε → Prop} :
    M.Occurs Q s (es ++ fs) ↔ M.Occurs Q s es ∨ M.Occurs Q (M.exec s es) fs := by
  induction es generalizing s with
  | nil => simp [Occurs]
  | cons e es ih => simp [Occurs, ih, or_assoc]

theorem occurs_snoc {Q : σ → ε → Prop} :
    M.Occurs Q s (es ++ [e]) ↔ M.Occurs Q s es ∨ Q (M.exec s es) e := by
  simp [occurs_append, Occurs]

theorem occurs_or {Q Q' : σ → ε → Prop} :
    M.Occurs (fun s e => Q s e ∨ Q' s e) s es ↔ M.Occurs Q s es ∨ M.Occurs Q' s es := by
  induction es generalizing s with
  | nil => simp [Occurs]
  | cons e es ih =>
    simp only [Occurs, ih]
    tauto

/-- What no event does where an invariant holds does not occur.  `P` selects events. -/
theorem Run.not_occurs {I : σ → Prop} {P : ε → Prop} {Q : σ → ε → Prop}
    (step : ∀ s e, I s → M.enabled s e → P e → ¬ Q s e ∧ I (M.step s e))
    (h : M.Run s es) (hP : ∀ e ∈ es, P e) (hs : I s) : ¬ M.Occurs Q s es := by
  induction es generalizing s with
  | nil => exact id
  | cons e es ih =>
    obtain ⟨hQ, hI⟩ := step s e hs h.1 (hP e (List.mem_cons_self ..))
    rintro (hq | hq)
    · exact hQ hq
    · exact ih h.2 (fun e' he' => hP e' (List.mem_cons_of_mem _ he')) hI hq

/-- Nothing is observed of a run just when no event shows anything. -/
theorem history_eq_nil_iff {μ : Type*} {f : σ → ε → List μ} :
    M.history f s es = [] ↔ ¬ M.Occurs (fun s e => f s e ≠ []) s es := by
  induction es generalizing s with
  | nil => simp [history, Occurs]
  | cons e es ih => simp [history, Occurs, ih, not_or]

/-- **A property of the history that only some events break.**  When an event takes a history that
has `G` to one that has it unless `Q` holds of the event, all prefixes of a run have `G` exactly when
`Q` holds of none of its events.  `P` selects events. -/
theorem Run.forall_prefix_iff {G : List ε → Prop} {Q : σ → ε → Prop} {P : ε → Prop} (nil : G [])
    (snoc : ∀ es e, M.Run s es → M.enabled (M.exec s es) e → (∀ e' ∈ es ++ [e], P e') → G es →
      (G (es ++ [e]) ↔ ¬ Q (M.exec s es) e))
    (h : M.Run s es) (hP : ∀ e ∈ es, P e) :
    (∀ fs, fs <+: es → G fs) ↔ ¬ M.Occurs Q s es := by
  induction es using List.reverseRecOn with
  | nil => simpa [Occurs] using nil
  | append_singleton es e ih =>
    obtain ⟨h₁, h₂⟩ := run_snoc.1 h
    have ih := ih h₁ fun e' he' => hP e' (List.mem_append_left _ he')
    rw [occurs_snoc, not_or, ← ih]
    constructor
    · intro hall
      have hpre : ∀ fs, fs <+: es → G fs := fun fs hf => hall fs (hf.trans (List.prefix_append ..))
      exact ⟨hpre, (snoc es e h₁ h₂ hP (hpre es List.prefix_rfl)).1 (hall _ List.prefix_rfl)⟩
    · rintro ⟨hpre, hQ⟩ fs hf
      rcases List.prefix_concat_iff.1 hf with rfl | hf
      · exact (snoc es e h₁ h₂ hP (hpre es List.prefix_rfl)).2 hQ
      · exact hpre fs hf

/-- **A property that only some events destroy, for ever.**  When an event takes a state with the
property to one that has it unless `Q` holds of the event, and no state without the property to one
that has it, a run ends with the property just when `Q` holds of none of its events. -/
theorem Run.good_iff {I G : σ → Prop} {Q : σ → ε → Prop}
    (step : ∀ s e, I s → M.enabled s e → I (M.step s e) ∧ (G (M.step s e) ↔ G s ∧ ¬ Q s e))
    (h : M.Run s es) (hs : I s) : G (M.exec s es) ↔ G s ∧ ¬ M.Occurs Q s es := by
  induction es generalizing s with
  | nil => simp [Occurs]
  | cons e es ih =>
    obtain ⟨hI, hG⟩ := step s e hs h.1
    rw [exec_cons, ih h.2 hI, hG]
    simp only [Occurs, not_or, and_assoc]

/-! ### Two runs, one of which leaves out some events -/

/-- **Leaving out events.**  Let `R` relate the states of two runs, of which the second leaves out
the events to be skipped.  When a skipped event keeps `R` and shows nothing, and any other event can
occur in the second run too, keeps `R` and shows the same, unless `Q` holds of it, then a run without
such events is a run when the skipped ones are left out, with the same observations. -/
theorem Run.without {μ : Type*} {f : σ → ε → List μ} {R : σ → σ → Prop} {Q : σ → ε → Prop}
    {skip : ε → Prop} [DecidablePred skip]
    (skips : ∀ s s' e, R s s' → M.enabled s e → ¬ Q s e → skip e →
      R (M.step s e) s' ∧ f s e = [])
    (keeps : ∀ s s' e, R s s' → M.enabled s e → ¬ Q s e → ¬ skip e →
      M.enabled s' e ∧ R (M.step s e) (M.step s' e) ∧ f s' e = f s e)
    {s' : σ} (h : M.Run s es) (hQ : ¬ M.Occurs Q s es) (hR : R s s') :
    M.Run s' (es.filter (¬ skip ·)) ∧
      M.history f s' (es.filter (¬ skip ·)) = M.history f s es := by
  induction es generalizing s s' with
  | nil => exact ⟨trivial, rfl⟩
  | cons e es ih =>
    obtain ⟨he, hes⟩ := h
    obtain ⟨hQe, hQes⟩ := not_or.1 hQ
    -- the other run stands still, or takes the same event
    by_cases hskip : skip e
    · obtain ⟨hR', hf⟩ := skips s s' e hR he hQe hskip
      rw [List.filter_cons_of_neg (by simpa using hskip)]
      obtain ⟨ih₁, ih₂⟩ := ih hes hQes hR'
      refine ⟨ih₁, ih₂.trans ?_⟩
      show _ = f s e ++ _
      rw [hf, List.nil_append]
    · obtain ⟨he', hR', hf⟩ := keeps s s' e hR he hQe hskip
      rw [List.filter_cons_of_pos (by simpa using hskip)]
      obtain ⟨ih₁, ih₂⟩ := ih hes hQes hR'
      refine ⟨⟨he', ih₁⟩, ?_⟩
      show f s' e ++ _ = f s e ++ _
      rw [hf, ih₂]

/-- **Leaving out events, seen from the end.**  When an event to be left out keeps `R` between the
run and the one without it, and any other event can occur in the second run too and keeps `R`, then
a run without the events to be left out is a run, and `R` holds at the end. -/
theorem Run.purged {R : σ → σ → Prop} {K : ε → Prop} [DecidablePred K]
    (drops : ∀ s s' e, R s s' → M.enabled s e → ¬ K e → R (M.step s e) s')
    (keeps : ∀ s s' e, R s s' → M.enabled s e → K e →
      M.enabled s' e ∧ R (M.step s e) (M.step s' e))
    {s' : σ} (h : M.Run s es) (hR : R s s') :
    M.Run s' (es.filter K) ∧ R (M.exec s es) (M.exec s' (es.filter K)) := by
  induction es generalizing s s' with
  | nil => exact ⟨trivial, hR⟩
  | cons e es ih =>
    obtain ⟨he, hes⟩ := h
    by_cases hk : K e
    · obtain ⟨he', hR'⟩ := keeps s s' e hR he hk
      rw [List.filter_cons_of_pos (by simpa using hk)]
      exact ⟨⟨he', (ih hes hR').1⟩, (ih hes hR').2⟩
    · rw [List.filter_cons_of_neg (by simpa using hk)]
      exact ih hes (drops s s' e hR he hk)

/-- Two conditions on events that agree where an invariant holds occur in the same runs. -/
theorem Run.occurs_congr {I : σ → Prop} {Q Q' : σ → ε → Prop}
    (keeps : ∀ s e, I s → M.enabled s e → I (M.step s e))
    (hQ : ∀ s e, I s → M.enabled s e → (Q s e ↔ Q' s e)) (h : M.Run s es) (hs : I s) :
    M.Occurs Q s es ↔ M.Occurs Q' s es := by
  induction es generalizing s with
  | nil => exact Iff.rfl
  | cons e es ih => exact or_congr (hQ s e hs h.1) (ih h.2 (keeps s e hs h.1))

/-! ### Simulation -/

/-- Every event of `M` is one event of `N`, seen through `view`. -/
structure Simulates {τ ι : Type*} (M : Machine σ ε) (N : Machine τ ι) (view : σ → τ)
    (event : σ → ε → ι) : Prop where
  start : view M.start = N.start
  enabled : ∀ s e, M.enabled s e → N.enabled (view s) (event s e)
  step : ∀ s e, M.enabled s e → view (M.step s e) = N.step (view s) (event s e)

/-- The events of `N` a run of `M` takes. -/
def events {τ : Type*} (M : Machine σ ε) (event : σ → ε → τ) : σ → List ε → List τ :=
  M.history fun s e => [event s e]

theorem events_cons {τ : Type*} {event : σ → ε → τ} :
    M.events event s (e :: es) = event s e :: M.events event (M.step s e) es := rfl

/-- A run that takes the same events. -/
theorem events_self : M.events (fun _ e => e) s es = es := by
  induction es generalizing s with
  | nil => rfl
  | cons e es ih => rw [events_cons, ih]

namespace Simulates

variable {τ ι : Type*} {N : Machine τ ι} {view : σ → τ} {event : σ → ε → ι}

theorem run (h : M.Simulates N view event) (hr : M.Run s es) :
    N.Run (view s) (M.events event s es) ∧
      N.exec (view s) (M.events event s es) = view (M.exec s es) := by
  induction es generalizing s with
  | nil => exact ⟨trivial, rfl⟩
  | cons e es ih =>
    obtain ⟨h₁, h₂⟩ := ih hr.2
    rw [h.step s e hr.1] at h₁ h₂
    exact ⟨⟨h.enabled s e hr.1, h₁⟩, h₂⟩

theorem reachable (h : M.Simulates N view event) (hs : M.Reachable s) :
    N.Reachable (view s) := by
  obtain ⟨es, hr, rfl⟩ := hs
  obtain ⟨h₁, h₂⟩ := h.run hr
  rw [h.start] at h₁ h₂
  exact ⟨_, h₁, h₂⟩

theorem occurs (h : M.Simulates N view event) {Q : σ → ε → Prop} {R : τ → ι → Prop}
    (hQ : ∀ s e, Q s e ↔ R (view s) (event s e)) (hr : M.Run s es) :
    M.Occurs Q s es ↔ N.Occurs R (view s) (M.events event s es) := by
  induction es generalizing s with
  | nil => exact Iff.rfl
  | cons e es ih =>
    rw [events_cons]
    show _ ∨ _ ↔ _ ∨ _
    rw [ih hr.2, hQ, h.step s e hr.1]

theorem history (h : M.Simulates N view event) {μ : Type*} {f : σ → ε → List μ}
    {g : τ → ι → List μ} (hf : ∀ s e, M.enabled s e → f s e = g (view s) (event s e))
    (hr : M.Run s es) : M.history f s es = N.history g (view s) (M.events event s es) := by
  induction es generalizing s with
  | nil => rfl
  | cons e es ih =>
    rw [events_cons]
    show _ ++ _ = _ ++ _
    rw [ih hr.2, hf s e hr.1, h.step s e hr.1]

end Simulates

/-! ### What can be brought to an end -/

/-- Where some event can occur that makes the work less, as long as there is any, it can be brought to
an end by such events.  `P` selects events. -/
theorem finishes {I : σ → Prop} {P : ε → Prop} {work : σ → ℕ}
    (next : ∀ s, I s → work s ≠ 0 → ∃ e, P e ∧ M.enabled s e ∧ I (M.step s e) ∧
      work (M.step s e) < work s) (hs : I s) :
    ∃ es, (∀ e ∈ es, P e) ∧ M.Run s es ∧ I (M.exec s es) ∧ work (M.exec s es) = 0 := by
  induction hn : work s using Nat.strongRecOn generalizing s with
  | ind n ih =>
    by_cases h0 : work s = 0
    · exact ⟨[], fun e he => absurd he List.not_mem_nil, trivial, hs, h0⟩
    · obtain ⟨e, hP, he, hI, hlt⟩ := next s hs h0
      obtain ⟨es, hes, hr, hend⟩ := ih _ (hn ▸ hlt) hI rfl
      exact ⟨e :: es, List.forall_mem_cons.2 ⟨hP, hes⟩, ⟨he, hr⟩, hend⟩

/-- Where every event makes the work less, events cannot go on for ever. -/
theorem not_endless {α : Type*} [Preorder α] [WellFoundedLT α] {I : σ → Prop} {w : σ → α}
    (less : ∀ s e, I s → M.enabled s e → I (M.step s e) ∧ w (M.step s e) < w s) (hs : I s)
    (f : ℕ → ε) : ∃ n, ¬ M.Run s ((List.range n).map f) := by
  induction hw : w s using WellFoundedLT.induction generalizing s f with
  | ind k ih =>
    by_cases h0 : M.enabled s (f 0)
    · obtain ⟨hI, hlt⟩ := less s _ hs h0
      obtain ⟨n, hn⟩ := ih _ (hw ▸ hlt) hI (fun i => f (i + 1)) rfl
      refine ⟨n + 1, fun hr => hn ?_⟩
      rw [List.range_succ_eq_map, List.map_cons, List.map_map] at hr
      exact hr.2
    · exact ⟨1, fun hr => h0 hr.1⟩

/-! ### Reachable states -/

theorem Run.reachable (h : M.Run M.start es) : M.Reachable (M.exec M.start es) := ⟨es, h, rfl⟩

theorem Reachable.exec (h : M.Reachable s) (hr : M.Run s es) : M.Reachable (M.exec s es) := by
  obtain ⟨fs, hf, rfl⟩ := h
  exact ⟨fs ++ es, run_append.2 ⟨hf, hr⟩, exec_append⟩

theorem Reachable.step (h : M.Reachable s) (he : M.enabled s e) : M.Reachable (M.step s e) := by
  obtain ⟨fs, hf, rfl⟩ := h
  exact ⟨fs ++ [e], run_snoc.2 ⟨hf, he⟩, exec_snoc⟩

end Machine

end Lib
