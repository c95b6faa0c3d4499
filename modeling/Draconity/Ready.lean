import Draconity.Shim
import Draconity.Lib.Once
import Mathlib.Algebra.Order.Ring.Nat

/-!
`draconity_ready` is called from any thread, and its test of `ready` is behind a lock: the calls are
callers of an action that is taken once.  The two tests of `ready` outside the lock, in `engine_acquire`
and in `draconity_attrib_changed`, only decide whether it is called.
-/

namespace Draconity

open Lib

/-- Where a call is in `draconity_ready`. -/
def Pc.pos : Pc → Once.Pos
  | .lock => .waiting
  | .check => .testing
  | .publish => .acting
  | .mark => .marking
  | .unlock => .leaving
  | _ => .outside

/-- How many steps a call has left, at most. -/
def Pc.left : Pc → ℕ
  | .acquire _ _ => 10
  | .assign _ _ => 9
  | .setup _ _ => 8
  | .testReady _ | .setParams => 7
  | .testSpeaker | .testChanged => 6
  | .lock => 5
  | .check => 4
  | .publish => 3
  | .mark => 2
  | .unlock | .ret | .announce => 1
  | .done => 0

def Notice.readyLanguage : Notice → Option Int
  | .ready languageId => some languageId
  | .start | .speakerChange _ => none

namespace Shim

variable {timeout : Int} {s s' : Shim} {e : ShimEvent} {i j : ℕ} {p q : Pc} {speaker : Bool}
  {answer : Int} {es : List ShimEvent}

/-! ### `draconity_ready` -/

def readies (s : Shim) : List Int := s.published.filterMap Notice.readyLanguage

/-- What the calls are in `draconity_ready`, where publishing `ready` is the action. -/
def once (s : Shim) : Once.State ℕ where
  lock := s.readyLock
  done := s.ready
  acts := s.readies.length
  pos i := (s.calls[i]?.getD .done).pos

def onceEvent (s : Shim) : ShimEvent → Once.Event ℕ
  | .hook _ _ | .speakerChanged => .other
  | .ready => .arrive s.calls.length
  | .advance i speaker _ =>
    match s.calls[i]?.getD .done with
    | .testSpeaker => if speaker then .arrive i else .other
    | .testChanged => if s.ready then .other else .arrive i
    | .lock | .check | .publish | .mark | .unlock => .advance i
    | _ => .other

theorem once_begin (p : Pc) (s : Shim) :
    (s.begin p).once = s.once.move s.calls.length p.pos := by
  have hpos : (s.begin p).once.pos = (s.once.move s.calls.length p.pos).pos := by
    funext j
    rw [Once.State.pos_move]
    show (((s.calls ++ [p])[j]?).getD .done).pos = if j = s.calls.length then p.pos else
      ((s.calls[j]?).getD .done).pos
    rcases lt_trichotomy j s.calls.length with hj | rfl | hj
    · rw [List.getElem?_append_left hj, if_neg hj.ne]
    · rw [List.getElem?_concat_length, if_pos rfl]
      rfl
    · rw [if_neg hj.ne', List.getElem?_eq_none (by simpa [Nat.succ_le_iff] using hj),
        List.getElem?_eq_none hj.le]
  unfold once at hpos ⊢
  exact congrArg (Once.State.mk s.readyLock s.ready s.readies.length) hpos

theorem once_set (hp : s.calls[i]? = some p) (hcalls : s'.calls = s.calls) (q : Pc) :
    ({ s' with calls := s'.calls.set i q } : Shim).once =
      { s.once with lock := s'.readyLock, done := s'.ready, acts := s'.readies.length }.move i q.pos := by
  obtain ⟨hi, -⟩ := List.getElem?_eq_some_iff.1 hp
  have hpos : ({ s' with calls := s'.calls.set i q } : Shim).once.pos =
      (s.once.move i q.pos).pos := by
    funext j
    rw [Once.State.pos_move]
    show (((s'.calls.set i q)[j]?).getD .done).pos = if j = i then q.pos else
      ((s.calls[j]?).getD .done).pos
    rw [hcalls]
    split_ifs with hj
    · rw [hj, List.getElem?_set_self hi]
      rfl
    · rw [List.getElem?_set_ne fun h => hj h.symm]
  unfold once at hpos ⊢
  exact congrArg (Once.State.mk s'.readyLock s'.ready s'.readies.length) hpos

theorem once_pos (hp : s.calls[i]? = some p) : s.once.pos i = p.pos := by
  show (s.calls[i]?.getD .done).pos = p.pos
  rw [hp, Option.getD_some]

theorem once_pos_length (s : Shim) : s.once.pos s.calls.length = .outside := by
  show (s.calls[s.calls.length]?.getD .done).pos = .outside
  rw [List.getElem?_eq_none le_rfl]
  rfl

theorem readies_publish (m : Notice) (s : Shim) :
    (s.publish m).readies = s.readies ++ m.readyLanguage.toList := by
  unfold readies publish
  cases h : m.readyLanguage <;> simp [h]

theorem once_move_self (h : s.once.pos i = p.pos) : s.once.move i p.pos = s.once := by
  show Once.State.mk _ _ _ (Function.update s.once.pos i p.pos) = s.once
  rw [← h, Function.update_eq_self]

theorem once_begin_outside (hp : p.pos = .outside) (s : Shim) : (s.begin p).once = s.once := by
  rw [once_begin]
  exact once_move_self (hp ▸ once_pos_length s)

theorem once_quiet (hp : s.calls[i]? = some p)
    (hlock : (s.advance i speaker answer p).2.readyLock = s.readyLock)
    (hready : (s.advance i speaker answer p).2.ready = s.ready)
    (hreadies : (s.advance i speaker answer p).2.readies = s.readies) :
    (s.step (.advance i speaker answer)).once = s.once.move i (s.advance i speaker answer p).1.pos := by
  have hset := once_set hp (calls_advance i speaker answer s p) (s.advance i speaker answer p).1
  rw [calls_advance] at hset
  rw [step_advance hp]
  refine hset.trans ?_
  rw [hlock, hready, hreadies]
  rfl

theorem once_outside (hp : s.calls[i]? = some p) (hpos : p.pos = .outside)
    (hnext : (s.advance i speaker answer p).1.pos = .outside) :
    (s.step (.advance i speaker answer)).once = s.once := by
  have hreadies : (s.advance i speaker answer p).2.readies = s.readies ∧
      (s.advance i speaker answer p).2.ready = s.ready ∧
      (s.advance i speaker answer p).2.readyLock = s.readyLock := by
    cases p with
    | setup hook engine =>
      refine ⟨?_, ready_setDefaultParams _, readyLock_setDefaultParams _⟩
      show (Shim.publish .start _).readies = s.readies
      rw [readies_publish]
      exact (List.append_nil _).trans
        (congrArg (List.filterMap Notice.readyLanguage) (published_setDefaultParams _))
    | setParams =>
      exact ⟨congrArg (List.filterMap Notice.readyLanguage) (published_setDefaultParams s),
        ready_setDefaultParams s, readyLock_setDefaultParams s⟩
    | announce => exact ⟨(readies_publish _ s).trans (List.append_nil _), rfl, rfl⟩
    | acquire _ _ | assign _ _ | testReady _ | testSpeaker | ret | testChanged | done =>
      exact ⟨rfl, rfl, rfl⟩
    | lock | check | publish | mark | unlock => cases hpos
  obtain ⟨h₁, h₂, h₃⟩ := hreadies
  rw [once_quiet hp h₃ h₂ h₁, hnext, ← hpos]
  exact once_move_self (once_pos hp)

theorem once_inside (hp : s.calls[i]? = some p) (hpos : p.pos ≠ .outside) :
    (s.step (.advance i speaker answer)).once = s.once.step (.advance i) := by
  have hset := once_set hp (calls_advance i speaker answer s p) (s.advance i speaker answer p).1
  rw [calls_advance] at hset
  rw [step_advance hp]
  refine hset.trans ?_
  unfold Once.State.step
  dsimp only
  rw [once_pos hp]
  cases p with
  | lock | mark | unlock => rfl
  | check =>
    show Once.State.move i (Pc.pos (if s.ready then .unlock else .publish)) _ = _
    rw [apply_ite Pc.pos]
    rfl
  | publish =>
    show Once.State.move i _ { s.once with acts := (s.publish _).readies.length } = _
    rw [readies_publish, List.length_append]
    rfl
  | acquire _ _ | assign _ _ | setup _ _ | testReady _ | testSpeaker | ret | setParams | testChanged
  | announce | done => exact absurd rfl hpos

theorem once_testSpeaker (hp : s.calls[i]? = some .testSpeaker) :
    (s.step (.advance i speaker answer)).once =
      s.once.step (if speaker then .arrive i else .other) := by
  cases speaker with
  | true => exact once_quiet hp rfl rfl rfl
  | false => exact once_outside hp rfl rfl

theorem once_testChanged (hp : s.calls[i]? = some .testChanged) :
    (s.step (.advance i speaker answer)).once =
      s.once.step (if s.ready then .other else .arrive i) := by
  cases hr : s.ready with
  | true => exact once_outside hp rfl (by simp [advance, hr, Pc.pos])
  | false =>
    refine (once_quiet hp rfl rfl rfl).trans ?_
    simp [advance, hr, Pc.pos, Once.State.step]

theorem once_step (he : s.Enabled e) : (s.step e).once = s.once.step (s.onceEvent e) := by
  cases e with
  | hook _ _ | speakerChanged => exact once_begin_outside rfl s
  | ready => exact once_begin .lock s
  | advance i speaker answer =>
    obtain ⟨p, hp, -, -⟩ := he
    unfold onceEvent
    dsimp only
    rw [hp, Option.getD_some]
    cases p with
    | lock | check | publish | mark | unlock => exact once_inside hp nofun
    | testSpeaker => exact once_testSpeaker hp
    | testChanged => exact once_testChanged hp
    | acquire _ _ | testReady _ =>
      refine once_outside hp rfl ?_
      unfold advance
      dsimp only
      split_ifs <;> rfl
    | assign _ _ | setup _ _ | ret | setParams | announce | done => exact once_outside hp rfl rfl

theorem once_enabled (he : s.Enabled e) : s.once.Enabled (s.onceEvent e) := by
  cases e with
  | hook _ _ | speakerChanged => trivial
  | ready => exact once_pos_length s
  | advance i speaker answer =>
    obtain ⟨p, hp, -, hlock⟩ := he
    have hpos := once_pos hp
    unfold onceEvent
    dsimp only
    rw [hp, Option.getD_some]
    cases p with
    | testSpeaker => cases speaker with
      | true => exact hpos
      | false => trivial
    | testChanged =>
      dsimp only
      split_ifs
      · trivial
      · exact hpos
    | lock => exact fun _ => hlock rfl
    | check | publish | mark | unlock => exact fun h => nomatch hpos.symm.trans h
    | acquire _ _ | assign _ _ | setup _ _ | testReady _ | ret | setParams | announce | done => trivial

theorem once_simulates (timeout : Int) :
    (machine timeout).Simulates (Once.machine ℕ) once onceEvent where
  start := rfl
  enabled _ _ he := once_enabled he
  step _ _ he := once_step he

theorem once_guarded (hr : (machine timeout).Reachable s) : s.once.Guarded :=
  Once.guarded_of_reachable ((once_simulates timeout).reachable hr)

/-! ### `speaker_change` -/

theorem getElem?_step (hp : s.calls[i]? = some p) (j : ℕ) :
    (s.step (.advance i speaker answer)).calls[j]? =
      if j = i then some (s.advance i speaker answer p).1 else s.calls[j]? := by
  obtain ⟨hi, -⟩ := List.getElem?_eq_some_iff.1 hp
  rw [step_advance hp]
  show (s.calls.set i _)[j]? = _
  split_ifs with hj
  · rw [hj, List.getElem?_set_self hi]
  · rw [List.getElem?_set_ne fun h => hj h.symm]

/-- A call before `speaker_change` has found the flag set, and `ready` comes first. -/
structure Told (s : Shim) : Prop where
  announce : ∀ i : ℕ, s.calls[i]? = some Pc.announce → s.ready = true
  first : ∀ pre post l, s.published = pre ++ .speakerChange l :: post → ∃ l', .ready l' ∈ pre

theorem told_init (timeout : Int) : Told (init timeout) := by
  refine ⟨nofun, fun pre post l h => ?_⟩
  exact absurd h.symm (List.append_ne_nil_of_right_ne_nil pre (List.cons_ne_nil _ _))

theorem Told.begin (h : Told s) (hp : p ≠ .announce) : Told (s.begin p) := by
  refine ⟨fun i hi => ?_, h.first⟩
  change (s.calls ++ [p])[i]? = some Pc.announce at hi
  rcases List.mem_append.1 (List.mem_of_getElem? hi) with hmem | hmem
  · obtain ⟨j, hj⟩ := List.mem_iff_getElem?.1 hmem
    exact h.announce j hj
  · exact absurd (List.mem_singleton.1 hmem).symm hp

theorem first_snoc {l : List Notice} {m : Notice}
    (h : ∀ pre post x, l = pre ++ .speakerChange x :: post → ∃ l', .ready l' ∈ pre)
    (hm : ∀ x, m = .speakerChange x → ∃ l', .ready l' ∈ l) :
    ∀ pre post x, l ++ [m] = pre ++ .speakerChange x :: post → ∃ l', .ready l' ∈ pre := by
  intro pre post x heq
  rcases List.eq_nil_or_concat post with rfl | ⟨post, m', rfl⟩
  · obtain ⟨rfl, hlast⟩ := List.append_inj' heq rfl
    exact hm x (List.singleton_inj.1 hlast)
  · rw [List.concat_eq_append, ← List.cons_append, ← List.append_assoc] at heq
    exact h pre post x (List.append_inj' heq rfl).1

variable (i speaker answer) in
/-- What a step does to the flag and to the messages. -/
theorem advance_published (s : Shim) (p : Pc) :
    (s.ready = true → (s.advance i speaker answer p).2.ready = true) ∧
      ((s.advance i speaker answer p).2.published = s.published ∨
        ∃ m, (s.advance i speaker answer p).2.published = s.published ++ [m] ∧
          ∀ x, m = .speakerChange x → p = .announce) := by
  cases p with
  | setup hook engine =>
    refine ⟨fun h => (ready_setDefaultParams _).trans h, .inr ⟨.start, ?_, nofun⟩⟩
    exact congrArg (· ++ [Notice.start]) (published_setDefaultParams _)
  | setParams =>
    exact ⟨fun h => (ready_setDefaultParams s).trans h, .inl (published_setDefaultParams s)⟩
  | publish => exact ⟨id, .inr ⟨_, rfl, nofun⟩⟩
  | announce => exact ⟨id, .inr ⟨_, rfl, fun _ _ => rfl⟩⟩
  | mark => exact ⟨fun _ => rfl, .inl rfl⟩
  | acquire _ _ | assign _ _ | testReady _ | testSpeaker | lock | check | unlock | ret | testChanged
  | done => exact ⟨id, .inl rfl⟩

/-- A call comes before `speaker_change` only from a test of the flag. -/
theorem advance_announce (h : (s.advance i speaker answer p).1 = .announce) : s.ready = true := by
  unfold advance at h
  cases p with
  | testChanged =>
    dsimp only at h
    by_contra hr
    rw [if_neg hr] at h
    cases h
  | acquire _ _ | testReady _ | testSpeaker | check =>
    dsimp only at h
    split_ifs at h
  | assign _ _ | setup _ _ | lock | publish | mark | unlock | ret | setParams | announce | done =>
    cases h

theorem Told.step (hs : s.once.Guarded) (h : Told s) (he : s.Enabled e) : Told (s.step e) := by
  cases e with
  | hook _ _ | ready | speakerChanged => exact h.begin nofun
  | advance i speaker answer =>
    obtain ⟨p, hp, -, -⟩ := he
    obtain ⟨hready, hpublished⟩ := advance_published i speaker answer s p
    refine ⟨fun j hj => ?_, ?_⟩
    · rw [getElem?_step hp] at hj
      rw [step_advance hp]
      refine hready ?_
      split_ifs at hj
      · exact advance_announce (Option.some.inj hj)
      · exact h.announce j hj
    · rw [step_advance hp]
      show ∀ pre post l, (s.advance i speaker answer p).2.published = _ → _
      rcases hpublished with hsame | ⟨m, hm, hlast⟩
      · rw [hsame]
        exact h.first
      · rw [hm]
        refine first_snoc h.first fun x hx => ?_
        obtain rfl := hlast x hx
        -- the flag is set, so `ready` was published
        have hlen : s.readies.length = 1 := hs.once.2.1 (h.announce i hp)
        obtain ⟨l', hl'⟩ := List.exists_mem_of_length_pos (hlen ▸ Nat.one_pos)
        obtain ⟨m', hmem, hm'⟩ := List.mem_filterMap.1 hl'
        cases m' with
        | ready l => exact ⟨l, hmem⟩
        | start | speakerChange _ => cases hm'

/-! ### Every call comes to its end -/

theorem left_eq_zero : p.left = 0 ↔ p = .done := by
  cases p <;> simp [Pc.left]

def work (s : Shim) : ℕ := (s.calls.map Pc.left).sum

theorem work_eq_zero : s.work = 0 ↔ ∀ p ∈ s.calls, p = .done := by
  unfold work
  rw [List.sum_eq_zero_iff_forall_eq_nat]
  simp [left_eq_zero]

theorem sum_set_lt {α : Type*} {f : α → ℕ} {l : List α} {i : ℕ} {a b : α} (ha : l[i]? = some a)
    (hb : f b < f a) : ((l.set i b).map f).sum < (l.map f).sum := by
  induction l generalizing i with
  | nil => cases ha
  | cons c l ih =>
    cases i with
    | zero =>
      obtain rfl := Option.some.inj ha
      simpa using hb
    | succ i => simpa using ih ha

theorem left_advance (hp : p ≠ .done) : (s.advance i speaker answer p).1.left < p.left := by
  unfold advance
  cases p with
  | done => exact absurd rfl hp
  | acquire _ _ | testReady _ | testSpeaker | check | testChanged =>
    dsimp only
    split_ifs <;> simp [Pc.left]
  | assign _ _ | setup _ _ | lock | publish | mark | unlock | ret | setParams | announce =>
    simp [Pc.left]

/-- Some call can take a step, if one is not done. -/
theorem exists_enabled (hs : s.once.Guarded) (hp : p ∈ s.calls) (hne : p ≠ .done) :
    ∃ (j : ℕ) (q : Pc), s.calls[j]? = some q ∧ q ≠ .done ∧ (q = .lock → s.readyLock = none) := by
  obtain ⟨i, hi⟩ := List.mem_iff_getElem?.1 hp
  by_cases hlock : p = .lock
  · -- the one who holds the lock can go on
    have hpos : s.once.pos i ≠ .outside := by
      rw [once_pos hi, hlock]
      nofun
    obtain ⟨j, hj, henabled⟩ := hs.progress hpos
    cases hq : s.calls[j]? with
    | none =>
      refine absurd ?_ hj
      show (s.calls[j]?.getD .done).pos = .outside
      rw [hq]
      rfl
    | some q =>
      have hqpos := once_pos hq
      refine ⟨j, q, hq, ?_, ?_⟩
      · rintro rfl
        exact hj hqpos
      · rintro rfl
        exact henabled hqpos
  · exact ⟨i, p, hi, hne, fun h => absurd h hlock⟩

/-- **`ready` is told once.**  Whatever the calls that are under way do, in any order of their steps:
`ready` is published at most once, and was published if the flag is set; when nobody is in
`draconity_ready` it was published just when the flag is set; `speaker_change` is published only
after it; and all calls can be brought to their end. -/
theorem ready_once (hr : (machine timeout).Run (machine timeout).start es) :
    let s := (machine timeout).exec (machine timeout).start es
    s.readies.length ≤ 1 ∧ (s.ready = true → s.readies.length = 1) ∧
      (s.readyLock = none → (s.ready = true ↔ s.readies.length = 1)) ∧
      (∀ pre post l, s.published = pre ++ .speakerChange l :: post → ∃ l', .ready l' ∈ pre) ∧
      ∃ fs, (∀ e ∈ fs, ∃ i speaker answer, e = .advance i speaker answer) ∧
        (machine timeout).Run s fs ∧ ∀ p ∈ ((machine timeout).exec s fs).calls, p = .done := by
  intro s
  have hs : (machine timeout).Reachable s := hr.reachable
  obtain ⟨hle, hdone, hiff⟩ := (once_guarded hs).once
  have htold : Told s := by
    refine (Machine.invariant (I := fun s => (machine timeout).Reachable s ∧ Told s)
      ⟨⟨[], trivial, rfl⟩, told_init timeout⟩ (fun s e ⟨hr, h⟩ he => ?_) hs).2
    exact ⟨hr.step he, h.step (once_guarded hr) he⟩
  refine ⟨hle, hdone, hiff, htold.first, ?_⟩
  -- some call can go on, and has fewer steps left then
  have hnext : ∀ s, (machine timeout).Reachable s → s.work ≠ 0 →
      ∃ e, (∃ i speaker answer, e = .advance i speaker answer) ∧ (machine timeout).enabled s e ∧
        (machine timeout).Reachable ((machine timeout).step s e) ∧
        ((machine timeout).step s e).work < s.work := by
    intro s hr hw
    obtain ⟨p, hp, hne⟩ : ∃ p ∈ s.calls, p ≠ .done := by
      by_contra hnone
      refine hw (work_eq_zero.2 fun p hp => ?_)
      by_contra hne
      exact hnone ⟨p, hp, hne⟩
    obtain ⟨j, q, hq, hne, hlock⟩ := exists_enabled (once_guarded hr) hp hne
    have he : (machine timeout).enabled s (.advance j false 0) := ⟨q, hq, hne, hlock⟩
    refine ⟨_, ⟨j, false, 0, rfl⟩, he, hr.step he, ?_⟩
    show (s.step _).work < s.work
    rw [step_advance hq]
    exact sum_set_lt hq (left_advance hne)
  obtain ⟨fs, hfs, hrun, -, hzero⟩ := Machine.finishes hnext hs
  exact ⟨fs, hfs, hrun, work_eq_zero.1 hzero⟩

/-- A request for `ready` and a change of the speaker race for the lock. -/
def twoReady : List ShimEvent :=
  [.hook .new (some 1), .ready, .speakerChanged, .advance 2 true 0, .advance 2 true 0, .advance 1 true 0,
    .advance 1 true 0]

theorem ready_once_two :
    let s := (machine 80).exec (machine 80).start twoReady
    s.readies.length ≤ 1 ∧ (s.ready = true → s.readies.length = 1) ∧
      (s.readyLock = none → (s.ready = true ↔ s.readies.length = 1)) ∧
      (∀ pre post l, s.published = pre ++ .speakerChange l :: post → ∃ l', .ready l' ∈ pre) ∧
      ∃ fs, (∀ e ∈ fs, ∃ i speaker answer, e = .advance i speaker answer) ∧
        (machine 80).Run s fs ∧ ∀ p ∈ ((machine 80).exec s fs).calls, p = .done :=
  ready_once (by decide)

end Shim

end Draconity
