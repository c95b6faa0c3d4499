import Draconity.Lib.OrdSet
import Draconity.Lib.Runs

/-!
A barrier that waits for the members who were there when it was raised.

Raising the barrier with a token takes a snapshot of the members; each of them is awaited until it
answers or leaves, and the barrier is released when nobody is awaited any more, or when it expires.
Members who join later are not awaited.  A barrier can be raised again before it is released; the
new token takes the place of the old one.

The machine keeps the awaited set only, and the results say what this means for the history:
`waits_exec` names the moment of the release, `distinct_exec` says that no token is released twice,
and `tokens_perm` accounts for each of them.
-/

namespace Lib

/-- The barrier, its members, and the tokens released so far. -/
structure Barrier (τ : Type*) where
  /-- The token it is raised with, `none` when it is not raised. -/
  raised : Option τ
  awaited : OrdSet ℕ
  /-- It will expire. -/
  armed : Bool
  members : List ℕ
  /-- The next member to join. -/
  next : ℕ
  released : List τ

namespace Barrier

variable {τ : Type*}

inductive Signal (τ : Type*)
  | join
  | leave (c : ℕ)
  | answer (c : ℕ)
  | raise (t : τ)
  | expire
  | idle

def init : Barrier τ := ⟨none, ∅, false, [], 0, []⟩

/-- The barrier is released, if it is raised. -/
def release (b : Barrier τ) : Barrier τ :=
  match b.raised with
  | none => b
  | some t =>
    { b with raised := none, awaited := ∅, armed := false, released := b.released ++ [t] }

/-- Nobody waits for `c` any more. -/
def strike (c : ℕ) (b : Barrier τ) : Barrier τ :=
  if b.awaited.erase c = ∅ then { b with awaited := b.awaited.erase c }.release
  else { b with awaited := b.awaited.erase c }

def step (b : Barrier τ) : Signal τ → Barrier τ
  | .join => { b with members := b.members ++ [b.next], next := b.next + 1 }
  | .leave c =>
    let b := { b with members := b.members.filter (· ≠ c) }
    if b.raised.isSome then b.strike c else b
  | .answer c => b.strike c
  | .raise t =>
    let b := { b with raised := some t }
    if b.members = [] then b.release
    else
      { b with awaited := b.members.foldl (fun p c => p.insert c) b.awaited, armed := true }
  | .expire => { b with armed := false }.release
  | .idle => b

/-- Only an awaiting barrier takes answers, and only an armed one expires. -/
def Enabled (b : Barrier τ) : Signal τ → Prop
  | .leave c => c ∈ b.members
  | .answer c => c ∈ b.members ∧ b.raised.isSome
  | .expire => b.armed = true
  | .join | .raise _ | .idle => True

def machine (τ : Type*) : Machine (Barrier τ) (Signal τ) where
  start := init
  enabled := Enabled
  step := step

/-! ### The invariant -/

/-- The barrier is consistent: it is raised just when somebody is awaited and just when it is armed,
only members are awaited, and members are distinct and were given out. -/
structure Consistent (b : Barrier τ) : Prop where
  awaited : b.raised = none ↔ b.awaited = ∅
  members : ∀ c ∈ b.awaited, c ∈ b.members
  armed : b.armed = true ↔ b.raised ≠ none
  nodup : b.members.Nodup
  below : ∀ c ∈ b.members, c < b.next

variable {b : Barrier τ} {c : ℕ}

theorem consistent_init : (init : Barrier τ).Consistent :=
  ⟨by simp [init], by simp [init], by simp [init], by simp [init], by simp [init]⟩

@[simp] theorem release_raised (b : Barrier τ) : b.release.raised = none := by
  unfold release
  split
  · assumption
  · rfl

theorem release_released (b : Barrier τ) :
    b.release.released = b.released ++ b.raised.toList := by
  unfold release
  split <;> simp [*]

@[simp] theorem release_members (b : Barrier τ) : b.release.members = b.members := by
  unfold release; split <;> rfl

@[simp] theorem release_next (b : Barrier τ) : b.release.next = b.next := by
  unfold release; split <;> rfl

theorem consistent_release (hr : b.raised ≠ none) (hn : b.members.Nodup)
    (hb : ∀ c ∈ b.members, c < b.next) : b.release.Consistent := by
  obtain ⟨t, ht⟩ := Option.ne_none_iff_exists'.1 hr
  unfold release
  rw [ht]
  exact ⟨by simp, by simp, by simp, hn, hb⟩

/-- Striking off keeps the barrier consistent, when only `c` may be awaited without being a
member. -/
theorem consistent_strike (hr : b.raised ≠ none) (ha : b.armed = true)
    (hm : ∀ d ∈ b.awaited, d ≠ c → d ∈ b.members) (hn : b.members.Nodup)
    (hb : ∀ d ∈ b.members, d < b.next) : (b.strike c).Consistent := by
  unfold strike
  split_ifs with h
  · exact consistent_release hr hn hb
  · exact ⟨by simp [hr, h], fun d hd => hm d (OrdSet.mem_erase.1 hd).1 (OrdSet.mem_erase.1 hd).2,
      by simp [hr, ha], hn, hb⟩

theorem consistent_step (h : b.Consistent) {e : Signal τ} (he : b.Enabled e) :
    (b.step e).Consistent := by
  cases e with
  | join =>
    refine ⟨h.awaited, fun c hc => List.mem_append_left _ (h.members c hc), h.armed, ?_, ?_⟩
    · refine List.Nodup.append h.nodup (List.nodup_singleton _) fun c hc hc' => ?_
      rw [List.mem_singleton.1 hc'] at hc
      exact lt_irrefl _ (h.below _ hc)
    · intro c hc
      rcases List.mem_append.1 hc with hc | hc
      · have := h.below c hc
        simp only [step]
        omega
      · rw [List.mem_singleton.1 hc]
        simp [step]
  | leave c =>
    have hn : (b.members.filter (· ≠ c)).Nodup := h.nodup.filter _
    have hb : ∀ d ∈ b.members.filter (· ≠ c), d < b.next := fun d hd =>
      h.below d (List.mem_filter.1 hd).1
    unfold step
    dsimp only
    split_ifs with hr
    · have hr' : b.raised ≠ none := Option.isSome_iff_ne_none.1 hr
      exact consistent_strike hr' (h.armed.2 hr')
        (fun d hd hdc => List.mem_filter.2 ⟨h.members d hd, by simpa using hdc⟩) hn hb
    · have hr' : b.raised = none := by simpa using hr
      refine ⟨h.awaited, fun d hd => ?_, h.armed, hn, hb⟩
      rw [show b.awaited = ∅ from h.awaited.1 hr'] at hd
      exact absurd hd (OrdSet.notMem_empty d)
  | answer c =>
    have hr : b.raised ≠ none := Option.isSome_iff_ne_none.1 he.2
    exact consistent_strike hr (h.armed.2 hr) (fun d hd _ => h.members d hd) h.nodup h.below
  | raise t =>
    unfold step
    dsimp only
    split_ifs with hm
    · exact consistent_release (by simp) h.nodup h.below
    · refine ⟨?_, fun c hc => ?_, by simp, h.nodup, h.below⟩
      · obtain ⟨c, hc⟩ := List.exists_mem_of_ne_nil _ hm
        refine ⟨nofun, fun h => ?_⟩
        exact absurd ((OrdSet.mem_foldl_insert _ _).2 (.inl hc)) (OrdSet.eq_empty_iff.1 h c)
      · exact ((OrdSet.mem_foldl_insert _ _).1 hc).elim id (h.members c)
  | expire =>
    exact consistent_release (b := { b with armed := false }) (h.armed.1 he) h.nodup h.below
  | idle => exact h

theorem consistent_of_reachable (h : (machine τ).Reachable b) : b.Consistent :=
  Machine.invariant (I := Consistent) consistent_init (fun _ _ h he => consistent_step h he) h

/-- Raised, a barrier awaits its members. -/
theorem mem_awaited_raise (h : b.Consistent) (t : τ) :
    c ∈ (b.step (.raise t)).awaited ↔ c ∈ b.members := by
  unfold step
  dsimp only
  split_ifs with hm
  · rw [hm]
    exact iff_of_false (OrdSet.notMem_empty c) List.not_mem_nil
  · exact (OrdSet.mem_foldl_insert _ _).trans (or_iff_left_of_imp (h.members c))

/-! ### Members come and go once -/

@[simp] theorem strike_members (c : ℕ) (b : Barrier τ) : (b.strike c).members = b.members := by
  unfold strike; split_ifs <;> simp

@[simp] theorem strike_next (c : ℕ) (b : Barrier τ) : (b.strike c).next = b.next := by
  unfold strike; split_ifs <;> simp

theorem leave_members (b : Barrier τ) (c : ℕ) :
    (b.step (.leave c)).members = b.members.filter (· ≠ c) := by
  unfold step
  dsimp only
  split_ifs
  · exact strike_members ..
  · rfl

theorem leave_next (b : Barrier τ) (c : ℕ) : (b.step (.leave c)).next = b.next := by
  unfold step
  dsimp only
  split_ifs
  · exact strike_next ..
  · rfl

/-- Members come by joining and go by leaving. -/
theorem members_step {e : Signal τ} (hjoin : e ≠ .join) (hleave : ∀ c, e ≠ .leave c) :
    (b.step e).members = b.members ∧ (b.step e).next = b.next := by
  cases e with
  | join => exact absurd rfl hjoin
  | leave c => exact absurd rfl (hleave c)
  | answer c => exact ⟨strike_members c b, strike_next c b⟩
  | raise t =>
    unfold step
    dsimp only
    split_ifs
    · exact ⟨release_members _, release_next _⟩
    · exact ⟨rfl, rfl⟩
  | expire => exact ⟨release_members _, release_next _⟩
  | idle => exact ⟨rfl, rfl⟩

theorem next_le_step (b : Barrier τ) (e : Signal τ) : b.next ≤ (b.step e).next := by
  unfold step
  cases e with
  | join => simp
  | leave c | raise t => dsimp only; split_ifs <;> simp
  | answer c | expire | idle => simp

theorem leave_gone (hn : c < b.next) : c < (b.step (.leave c)).next ∧
    c ∉ (b.step (.leave c)).members := by
  refine ⟨lt_of_lt_of_le hn (next_le_step b _), ?_⟩
  unfold step
  dsimp only
  split_ifs <;> simp

/-- A member who was given out and is gone stays away. -/
theorem gone_step {e : Signal τ} (hn : c < b.next) (hc : c ∉ b.members) :
    c < (b.step e).next ∧ c ∉ (b.step e).members := by
  refine ⟨lt_of_lt_of_le hn (next_le_step b e), ?_⟩
  unfold step
  cases e with
  | join =>
    intro h
    rcases List.mem_append.1 h with h | h
    · exact hc h
    · exact absurd (List.mem_singleton.1 h) (ne_of_lt hn)
  | leave d =>
    have hf : c ∉ b.members.filter (· ≠ d) := fun h => hc (List.mem_filter.1 h).1
    dsimp only
    split_ifs
    · simpa using hf
    · exact hf
  | raise t => dsimp only; split_ifs <;> simpa using hc
  | answer d | expire | idle => simpa using hc

theorem gone_exec {es : List (Signal τ)} (hr : (machine τ).Run b es) (hn : c < b.next)
    (hc : c ∉ b.members) : c ∉ ((machine τ).exec b es).members :=
  (hr.keeps (I := fun b => c < b.next ∧ c ∉ b.members) (fun _ _ h _ => gone_step h.1 h.2)
    ⟨hn, hc⟩).2

/-! ### When a token is released -/

/-- The event settles the member `c` for the token `t`: it answers while `t` is raised, or leaves. -/
def Settles (t : τ) (c : ℕ) (b : Barrier τ) (e : Signal τ) : Prop :=
  e = .leave c ∨ e = .answer c ∧ b.raised = some t

/-- After `t` was raised in `b` and the events that followed: there was nobody to wait for, or the
barrier expired, or every member of the snapshot is settled. -/
def Done (t : τ) (b : Barrier τ) (es : List (Signal τ)) : Prop :=
  b.members = [] ∨
    (machine τ).Occurs (fun _ e => e = .expire) (b.step (.raise t)) es ∨
      ∀ c ∈ b.members, (machine τ).Occurs (Settles t c) (b.step (.raise t)) es

/-- Where the barrier stands after `t` was raised in `b` and the events that followed. -/
structure Waits (t : τ) (b : Barrier τ) (es : List (Signal τ)) (b' : Barrier τ) : Prop where
  done : Done t b es → b'.raised = none ∧ b'.released = b.released ++ [t]
  waiting : ¬ Done t b es → b'.raised = some t ∧ b'.released = b.released ∧
    ∀ c, c ∈ b'.awaited ↔ c ∈ b.members ∧
      ¬ (machine τ).Occurs (Settles t c) (b.step (.raise t)) es

theorem done_mono {t : τ} {es : List (Signal τ)} {e : Signal τ} (h : Done t b es) :
    Done t b (es ++ [e]) := by
  rcases h with h | h | h
  · exact .inl h
  · exact .inr (.inl (Machine.occurs_snoc.2 (.inl h)))
  · exact .inr (.inr fun c hc => Machine.occurs_snoc.2 (.inl (h c hc)))

theorem waits_nil (t : τ) (hb : b.Consistent) : Waits t b [] (b.step (.raise t)) := by
  by_cases hm : b.members = []
  · have hstep : b.step (.raise t) = ({ b with raised := some t } : Barrier τ).release := if_pos hm
    refine ⟨fun _ => ?_, fun h => absurd (.inl hm) h⟩
    rw [hstep, release_released]
    exact ⟨release_raised _, rfl⟩
  · have hstep : b.step (.raise t) = { b with
        raised := some t, awaited := b.members.foldl (fun p c => p.insert c) b.awaited,
        armed := true } := if_neg hm
    refine ⟨fun h => ?_, fun _ => ?_⟩
    · obtain ⟨c, hc⟩ := List.exists_mem_of_ne_nil _ hm
      rcases h with h | h | h
      · exact absurd h hm
      · exact h.elim
      · exact (h c hc).elim
    · have hawaited := fun c => mem_awaited_raise (c := c) hb t
      rw [hstep] at hawaited ⊢
      refine ⟨rfl, rfl, fun c => (hawaited c).trans ?_⟩
      exact (and_iff_left fun h => h).symm

theorem waits_strike {t : τ} {es : List (Signal τ)} {e : Signal τ} {b' b'' : Barrier τ}
    (hexec : (machine τ).exec (b.step (.raise t)) es = b') (hw : ¬ Done t b es)
    (hset : ∀ d, Settles t d b' e ↔ d = c) (hexp : e ≠ .expire) (hraised : b''.raised = some t)
    (hrel : b''.released = b.released) (haw : ∀ d, d ∈ b''.awaited ↔ d ∈ b.members ∧
      ¬ (machine τ).Occurs (Settles t d) (b.step (.raise t)) es) :
    Waits t b (es ++ [e]) (b''.strike c) := by
  have hocc : ∀ d, (machine τ).Occurs (Settles t d) (b.step (.raise t)) (es ++ [e]) ↔
      (machine τ).Occurs (Settles t d) (b.step (.raise t)) es ∨ d = c := by
    intro d
    rw [Machine.occurs_snoc, hexec, hset]
  have herase : ∀ d, d ∈ b''.awaited.erase c ↔ d ∈ b.members ∧
      ¬ (machine τ).Occurs (Settles t d) (b.step (.raise t)) (es ++ [e]) := by
    intro d
    rw [OrdSet.mem_erase, haw, hocc]
    tauto
  have hdone : Done t b (es ++ [e]) ↔ b''.awaited.erase c = ∅ := by
    rw [OrdSet.eq_empty_iff]
    constructor
    · rintro (h | h | h) d hd
      · exact hw (.inl h)
      · rw [Machine.occurs_snoc] at h
        exact h.elim (fun h => hw (.inr (.inl h))) hexp
      · exact ((herase d).1 hd).2 (h d ((herase d).1 hd).1)
    · intro h
      refine .inr (.inr fun d hd => ?_)
      by_contra hno
      exact h d ((herase d).2 ⟨hd, hno⟩)
  unfold strike
  split_ifs with hempty
  · refine ⟨fun _ => ⟨release_raised _, ?_⟩, fun h => absurd (hdone.2 hempty) h⟩
    rw [release_released]
    simp [hraised, hrel]
  · exact ⟨fun h => absurd (hdone.1 h) hempty, fun _ => ⟨hraised, hrel, herase⟩⟩

theorem waits_step {t : τ} {es : List (Signal τ)} {e : Signal τ} {b' : Barrier τ}
    (hexec : (machine τ).exec (b.step (.raise t)) es = b') (hc : b'.Consistent)
    (he : b'.Enabled e) (hne : ∀ t', e ≠ .raise t') (hw : Waits t b es b') :
    Waits t b (es ++ [e]) (b'.step e) := by
  -- an event that settles nobody changes nothing of the wait
  have other : (∀ d, ¬ Settles t d b' e) → e ≠ .expire → (b'.step e).raised = b'.raised →
      (b'.step e).released = b'.released → (b'.step e).awaited = b'.awaited →
      Waits t b (es ++ [e]) (b'.step e) := by
    intro hset hexp h₁ h₂ h₃
    have hdone : Done t b (es ++ [e]) ↔ Done t b es := by
      unfold Done
      simp only [Machine.occurs_snoc, hexec, hset, hexp, or_false]
    refine ⟨fun h => ?_, fun h => ?_⟩
    · rw [h₁, h₂]; exact hw.done (hdone.1 h)
    · rw [h₁, h₂, h₃]
      simp only [Machine.occurs_snoc, hexec, hset, or_false]
      exact hw.waiting fun h' => h (hdone.2 h')
  by_cases hd : Done t b es
  · -- the token was released, so nobody answers, nothing expires, and a member may just leave
    obtain ⟨hr, hrel⟩ := hw.done hd
    have keep : (b'.step e).raised = b'.raised ∧ (b'.step e).released = b'.released := by
      cases e with
      | join | idle => exact ⟨rfl, rfl⟩
      | leave c =>
        unfold step
        simp [hr]
      | answer c => exact absurd he.2 (by simp [hr])
      | raise t' => exact absurd rfl (hne t')
      | expire => exact absurd hr (hc.armed.1 he)
    refine ⟨fun _ => ?_, fun h => absurd (done_mono hd) h⟩
    rw [keep.1, keep.2]
    exact ⟨hr, hrel⟩
  · -- the token is raised, and the members that have not settled are awaited
    obtain ⟨hr, hrel, haw⟩ := hw.waiting hd
    cases e with
    | join => exact other (by simp [Settles]) (by simp) rfl rfl rfl
    | idle => exact other (by simp [Settles]) (by simp) rfl rfl rfl
    | leave c =>
      have hstep : b'.step (.leave c) =
          ({ b' with members := b'.members.filter (· ≠ c) } : Barrier τ).strike c := by
        unfold step
        simp [hr]
      rw [hstep]
      exact waits_strike hexec hd (fun d => by simp [Settles, eq_comm]) (by simp) hr hrel haw
    | answer c =>
      exact waits_strike hexec hd (fun d => by simp [Settles, hr, eq_comm]) (by simp) hr hrel haw
    | raise t' => exact absurd rfl (hne t')
    | expire =>
      refine ⟨fun _ => ⟨release_raised _, ?_⟩, fun h => absurd ?_ h⟩
      · unfold step
        rw [release_released]
        simp [hr, hrel]
      · exact .inr (.inl (Machine.occurs_snoc.2 (.inr rfl)))

/-- **When a token is released.**  As long as the barrier is not raised again, the token is released
exactly when the wait is done. -/
theorem waits_exec (t : τ) (hb : b.Consistent) {es : List (Signal τ)}
    (hr : (machine τ).Run (b.step (.raise t)) es) (hne : ∀ e ∈ es, ∀ t', e ≠ .raise t') :
    Waits t b es ((machine τ).exec (b.step (.raise t)) es) := by
  have hc : (b.step (.raise t)).Consistent := consistent_step (e := .raise t) hb trivial
  induction es using List.reverseRecOn with
  | nil => exact waits_nil t hb
  | append_singleton es e ih =>
    obtain ⟨hr, he⟩ := Machine.run_snoc.1 hr
    rw [Machine.exec_snoc]
    refine waits_step rfl ?_ he (hne e (by simp))
      (ih hr fun e' h' => hne e' (List.mem_append_left _ h'))
    exact hr.keeps (I := Consistent) (fun _ _ h he => consistent_step h he) hc

/-! ### No token is released twice -/

def Signal.token : Signal τ → Option τ
  | .raise t => some t
  | _ => none

/-- What a step can do to the tokens: it takes in the token the barrier is raised with, if any, and
then it may release. -/
theorem step_or_release (b : Barrier τ) (e : Signal τ) : ∃ b' : Barrier τ,
    b'.released = b.released ∧ b'.raised = e.token.or b.raised ∧
      (b.step e = b' ∨ b.step e = b'.release) := by
  have hstrike : ∀ (b' : Barrier τ) (c : ℕ), ∃ b'' : Barrier τ,
      b''.released = b'.released ∧ b''.raised = b'.raised ∧
        (b'.strike c = b'' ∨ b'.strike c = b''.release) := by
    intro b' c
    refine ⟨{ b' with awaited := b'.awaited.erase c }, rfl, rfl, ?_⟩
    unfold strike
    split_ifs
    · exact .inr rfl
    · exact .inl rfl
  cases e with
  | join => exact ⟨b.step .join, rfl, rfl, .inl rfl⟩
  | idle => exact ⟨b, rfl, rfl, .inl rfl⟩
  | leave c =>
    unfold step
    dsimp only
    split_ifs
    · exact hstrike { b with members := b.members.filter (· ≠ c) } c
    · exact ⟨{ b with members := b.members.filter (· ≠ c) }, rfl, rfl, .inl rfl⟩
  | answer c => exact hstrike b c
  | raise t =>
    unfold step
    dsimp only
    split_ifs
    · exact ⟨{ b with raised := some t }, rfl, rfl, .inr rfl⟩
    · refine ⟨_, ?_, ?_, .inl rfl⟩
      · rfl
      · rfl
  | expire => exact ⟨{ b with armed := false }, rfl, rfl, .inr rfl⟩

/-- What a step adds to the released tokens is the token that is raised, or was just raised. -/
theorem released_step (b : Barrier τ) (e : Signal τ) :
    (b.step e).released = b.released ∧
        ((b.step e).raised = none ∨ (b.step e).raised = e.token.or b.raised) ∨
      ∃ t, e.token.or b.raised = some t ∧ (b.step e).released = b.released ++ [t] ∧
        (b.step e).raised = none := by
  obtain ⟨b', hreleased, hraised, hstep | hstep⟩ := step_or_release b e
  · rw [hstep]
    exact .inl ⟨hreleased, .inr hraised⟩
  · rw [hstep, release_released, hreleased, ← hraised]
    cases h : b'.raised with
    | none => exact .inl ⟨List.append_nil _, .inl (release_raised b')⟩
    | some t => exact .inr ⟨t, rfl, rfl, release_raised b'⟩

/-- The released tokens are distinct, and the raised one is not among them. -/
structure Distinct (b : Barrier τ) (tokens : List τ) : Prop where
  nodup : b.released.Nodup
  released : ∀ t ∈ b.released, t ∈ tokens
  raised : ∀ t, b.raised = some t → t ∈ tokens ∧ t ∉ b.released

/-- **No token is released twice**, when the barrier is raised with distinct tokens. -/
theorem distinct_exec {es : List (Signal τ)} (hn : (es.filterMap Signal.token).Nodup) :
    ((machine τ).exec init es).Distinct (es.filterMap Signal.token) := by
  induction es using List.reverseRecOn with
  | nil => exact ⟨List.nodup_nil, nofun, nofun⟩
  | append_singleton es e ih =>
    rw [List.filterMap_append, List.nodup_append] at hn
    obtain ⟨hn, -, hdisj⟩ := hn
    have hd := ih hn
    rw [Machine.exec_snoc, List.filterMap_append]
    generalize (machine τ).exec init es = b at hd
    -- the token in force during the step is new or the raised one
    have hforce : ∀ t, e.token.or b.raised = some t →
        t ∈ es.filterMap Signal.token ++ [e].filterMap Signal.token ∧ t ∉ b.released := by
      intro t ht
      cases he : e.token with
      | none =>
        rw [he, Option.none_or] at ht
        obtain ⟨h₁, h₂⟩ := hd.raised t ht
        exact ⟨List.mem_append_left _ h₁, h₂⟩
      | some t' =>
        rw [he, Option.some_or, Option.some.injEq] at ht
        subst ht
        have hmem : t' ∈ [e].filterMap Signal.token := by simp [he]
        exact ⟨List.mem_append_right _ hmem, fun h => hdisj t' (hd.released t' h) t' hmem rfl⟩
    rcases released_step b e with ⟨hrel, hraised⟩ | ⟨t, ht, hrel, hraised⟩
    · refine ⟨hrel ▸ hd.nodup, fun t ht => List.mem_append_left _ (hd.released t (hrel ▸ ht)),
        fun t ht => ?_⟩
      show _ ∧ t ∉ (b.step e).released
      rw [hrel]
      rcases hraised with h | h
      · exact absurd (h.symm.trans ht) nofun
      · exact hforce t (h.symm.trans ht)
    · obtain ⟨hmem, hnew⟩ := hforce t ht
      refine ⟨?_, fun u hu => ?_, fun u hu => absurd (hraised.symm.trans hu) nofun⟩
      · show (b.step e).released.Nodup
        rw [hrel]
        exact hd.nodup.append (List.nodup_singleton t) fun u hu hu' =>
          hnew (List.mem_singleton.1 hu' ▸ hu)
      · have hu' : u ∈ b.released ++ [t] := hrel ▸ hu
        rcases List.mem_append.1 hu' with hu' | hu'
        · exact List.mem_append_left _ (hd.released u hu')
        · exact List.mem_singleton.1 hu' ▸ hmem

/-! ### What becomes of a token -/

/-- The token that is raised when another takes its place. -/
def overwritten (b : Barrier τ) : Signal τ → List τ
  | .raise _ => b.raised.toList
  | _ => []

/-- A step moves the raised token to the released ones, or keeps it, unless another takes its
place. -/
theorem released_raised_step (b : Barrier τ) (e : Signal τ) :
    (b.step e).released ++ (b.step e).raised.toList =
      b.released ++ (e.token.or b.raised).toList := by
  obtain ⟨b', hreleased, hraised, hstep | hstep⟩ := step_or_release b e
  · rw [hstep, hreleased, hraised]
  · rw [hstep, release_released, release_raised, hreleased, hraised, Option.toList_none,
      List.append_nil]

/-- **Accounting.**  Every token the barrier was raised with was released, is raised, or had another
take its place. -/
theorem tokens_perm (es : List (Signal τ)) : (es.filterMap Signal.token).Perm
    (((machine τ).exec init es).released ++ ((machine τ).exec init es).raised.toList ++
      (machine τ).history overwritten init es) := by
  induction es using List.reverseRecOn with
  | nil => exact .nil
  | append_singleton es e ih =>
    rw [Machine.exec_snoc, Machine.history_snoc, List.filterMap_append]
    generalize (machine τ).exec init es = b at ih ⊢
    show List.Perm _ ((b.step e).released ++ (b.step e).raised.toList ++ _)
    rw [released_raised_step]
    cases e with
    | raise t =>
      classical
      refine (ih.append_right [t]).trans (List.perm_iff_count.2 fun u => ?_)
      simp only [Signal.token, overwritten, Option.some_or, Option.toList_some, List.count_append]
      omega
    | join | leave c | answer c | expire | idle =>
      simp only [Signal.token, overwritten, Option.none_or, List.append_nil]
      exact (List.append_nil _).symm ▸ ih

/-- **When no token is lost.**  With distinct tokens and none raised, every token was released once
exactly when none had another take its place. -/
theorem released_once_iff {es : List (Signal τ)} (hn : (es.filterMap Signal.token).Nodup)
    (hr : ((machine τ).exec init es).raised = none) [DecidableEq τ] :
    (∀ t ∈ es.filterMap Signal.token, ((machine τ).exec init es).released.count t = 1) ↔
      ¬ (machine τ).Occurs (fun b e => overwritten b e ≠ []) init es := by
  have hperm := tokens_perm es
  rw [hr, Option.toList_none, List.append_nil] at hperm
  rw [← Machine.history_eq_nil_iff]
  have hcount : ∀ t ∈ es.filterMap Signal.token,
      ((machine τ).exec init es).released.count t +
        ((machine τ).history overwritten init es).count t = 1 := by
    intro t ht
    rw [← List.count_append, ← hperm.count_eq]
    exact List.count_eq_one_of_mem hn ht
  constructor
  · intro h
    by_contra hne
    obtain ⟨t, ht⟩ := List.exists_mem_of_ne_nil _ hne
    have hmem : t ∈ es.filterMap Signal.token :=
      hperm.mem_iff.2 (List.mem_append_right _ ht)
    have hpos := List.count_pos_iff.2 ht
    have := hcount t hmem
    have := h t hmem
    omega
  · intro h t ht
    have := hcount t ht
    rw [h] at this
    simpa using this

end Barrier

end Lib
