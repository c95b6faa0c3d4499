import Draconity.Shim
import Mathlib.Data.List.Basic
import Mathlib.Tactic.SplitIfs

/-!
`engine_acquire` has no lock: two calls that find no engine both set one up.  It also keeps a null
pointer, after which the next call finds no engine again.  These are the only ways for `start` to be
published twice, for callbacks to be registered on two engines, or for `DSXEngine_New` to return
different engines.
-/

namespace Draconity

open Lib

/-- The engine a call has brought with it. -/
def Pc.given : Pc → Option Engine
  | .acquire _ engine | .assign _ engine | .setup _ engine => some engine
  | _ => none

namespace Shim

variable {timeout : Int} {s s' : Shim} {e : ShimEvent} {i j : ℕ} {p q : Pc} {speaker : Bool}
  {answer : Int} {es : List ShimEvent}

/-! ### How often the engine is set -/

/-- A call is about to set `draconity->engine`. -/
def assigning : Pc → Bool
  | .assign _ _ => true
  | _ => false

/-- A call is about to set up the engine it has set. -/
def setting : Pc → Bool
  | .setup _ _ => true
  | _ => false

/-- A call is past `engine_acquire`'s first `if`. -/
def Late (p : Pc) : Prop := p = .ret ∨ ∃ hook, p = .testReady hook

/-- How often `draconity->engine` was set: `start` was published, or is about to be. -/
def assigned (s : Shim) : ℕ := s.published.count .start + s.calls.countP setting

/-- It was set at most once, also with what the calls are about to do. -/
def AtMostOnce (s : Shim) : Prop := s.assigned + s.calls.countP assigning ≤ 1

/-- A call finds no engine while another is about to set one. -/
def Overlaps (s : Shim) (e : ShimEvent) : Prop :=
  ∃ i speaker answer hook engine, e = .advance i speaker answer ∧
    s.calls[i]? = some (Pc.acquire hook engine) ∧ s.engine = none ∧ ∃ p ∈ s.calls, assigning p = true

/-- A call finds no engine though one was set, which was null. -/
def FindsNull (s : Shim) (e : ShimEvent) : Prop :=
  ∃ i speaker answer hook engine, e = .advance i speaker answer ∧
    s.calls[i]? = some (Pc.acquire hook engine) ∧ s.engine = none ∧
    (.start ∈ s.published ∨ ∃ p ∈ s.calls, setting p = true)

theorem assigned_eq_zero :
    s.assigned = 0 ↔ ¬ (.start ∈ s.published ∨ ∃ p ∈ s.calls, setting p = true) := by
  unfold assigned
  rw [Nat.add_eq_zero_iff, List.count_eq_zero, List.countP_eq_zero, not_or, not_exists]
  simp only [not_and]

theorem assigned_ne_zero_of_mem {hook : Hook} {x : Engine} (h : Pc.setup hook x ∈ s.calls) :
    s.assigned ≠ 0 := fun hzero => assigned_eq_zero.1 hzero (.inr ⟨_, h, rfl⟩)

/-- While it is set at most once, a call that is about to set it is the first. -/
theorem AtMostOnce.first (h : s.AtMostOnce) {hook : Hook} {x : Engine}
    (hmem : Pc.assign hook x ∈ s.calls) : s.assigned = 0 := by
  have hpos : 0 < s.calls.countP assigning := List.countP_pos_iff.2 ⟨_, hmem, rfl⟩
  unfold AtMostOnce at h
  omega

theorem countP_set_of {f : Pc → Bool} {l : List Pc} (hp : l[i]? = some p) (q : Pc) :
    (l.set i q).countP f + (f p).toNat = l.countP f + (f q).toNat := by
  obtain ⟨hi, hp⟩ := List.getElem?_eq_some_iff.1 hp
  have hpos : f p = true → 0 < l.countP f := fun h =>
    List.countP_pos_iff.2 ⟨p, hp ▸ List.getElem_mem hi, h⟩
  rw [List.countP_set hi, hp]
  cases hfp : f p with
  | false => cases f q <;> simp
  | true =>
    have := hpos hfp
    cases f q <;> simp <;> omega

/-! ### What a step does to the engine -/

section Advance

variable (i speaker answer)

theorem setting_advance (s : Shim) (p : Pc) :
    setting (s.advance i speaker answer p).1 = assigning p := by
  unfold advance
  cases p with
  | acquire _ _ | testReady _ | testSpeaker | check | testChanged =>
    dsimp only
    split_ifs <;> rfl
  | assign _ _ | setup _ _ | lock | publish | mark | unlock | ret | setParams | announce | done => rfl

theorem assigning_advance (s : Shim) (p : Pc) :
    assigning (s.advance i speaker answer p).1 = true ↔
      (∃ hook x, p = .acquire hook x) ∧ s.engine = none := by
  unfold advance
  cases p with
  | acquire hook x => cases s.engine <;> simp [assigning]
  | testReady _ | testSpeaker | check | testChanged =>
    dsimp only
    split_ifs <;> simp [assigning]
  | assign _ _ | setup _ _ | lock | publish | mark | unlock | ret | setParams | announce | done =>
    simp [assigning]

theorem start_advance (s : Shim) (p : Pc) :
    (s.advance i speaker answer p).2.published.count .start =
      s.published.count .start + (setting p).toNat := by
  cases p with
  | setup hook x =>
    have hpublished : (s.advance i speaker answer (.setup hook x)).2.published =
        s.published ++ [.start] := congrArg (· ++ [Notice.start]) (published_setDefaultParams _)
    rw [hpublished, List.count_append, List.count_singleton_self]
    rfl
  | setParams => exact congrArg _ (published_setDefaultParams s)
  | publish | announce => simp [advance, publish, setting]
  | acquire _ _ | assign _ _ | testReady _ | testSpeaker | lock | check | mark | unlock | ret
  | testChanged | done => rfl

theorem engine_advance (s : Shim) (hp : assigning p = false) :
    (s.advance i speaker answer p).2.engine = s.engine := by
  cases p with
  | assign _ _ => cases hp
  | setup _ _ => exact engine_setDefaultParams _
  | setParams => exact engine_setDefaultParams s
  | acquire _ _ | testReady _ | testSpeaker | lock | check | publish | mark | unlock | ret
  | testChanged | announce | done => rfl

variable {i speaker answer}

theorem mem_log_advance {c : EngineCall} (hc : c ∈ (s.advance i speaker answer p).2.log) :
    c ∈ s.log ∨ (c.engine = s.engine ∧ s.engine ≠ none) ∨ ∃ hook, p = .setup hook c.engine := by
  cases p with
  | setup hook x =>
    rcases mem_log_setDefaultParams hc with hc | hc
    · rcases List.mem_append.1 hc with hc | hc
      · exact .inl hc
      · simp only [List.mem_cons, List.not_mem_nil, or_false] at hc
        rcases hc with rfl | rfl | rfl <;> exact .inr (.inr ⟨hook, rfl⟩)
    · exact .inr (.inl hc)
  | setParams => exact (mem_log_setDefaultParams hc).imp_right .inl
  | acquire _ _ | assign _ _ | testReady _ | testSpeaker | lock | check | publish | mark | unlock
  | ret | testChanged | announce | done => exact .inl hc

theorem mem_returned_advance {o : Engine} (ho : o ∈ (s.advance i speaker answer p).2.returned) :
    o ∈ s.returned ∨ p = .ret ∧ o = s.engine := by
  cases p with
  | ret => exact (List.mem_append.1 ho).imp_right fun ho => ⟨rfl, List.mem_singleton.1 ho⟩
  | setup hook x =>
    have hreturned : (s.advance i speaker answer (.setup hook x)).2.returned = s.returned :=
      returned_setDefaultParams _
    exact .inl (hreturned ▸ ho)
  | setParams => exact .inl (returned_setDefaultParams s ▸ ho)
  | acquire _ _ | assign _ _ | testReady _ | testSpeaker | lock | check | publish | mark | unlock
  | testChanged | announce | done => exact .inl ho

/-- A call gets past the first `if` when it has found an engine, or has set one up. -/
theorem late_advance (h : Late (s.advance i speaker answer p).1) :
    s.engine ≠ none ∨ (∃ hook x, p = .setup hook x) ∨ Late p := by
  unfold advance at h
  cases p with
  | acquire hook x =>
    left
    intro hnone
    rw [hnone] at h
    rcases h with h | ⟨_, h⟩ <;> cases h
  | setup hook x => exact .inr (.inl ⟨hook, x, rfl⟩)
  | testReady hook => exact .inr (.inr (.inr ⟨hook, rfl⟩))
  | testSpeaker | check | testChanged =>
    dsimp only at h
    split_ifs at h <;> rcases h with h | ⟨_, h⟩ <;> cases h
  | assign _ _ | lock | publish | mark | unlock | ret | setParams | announce | done =>
    rcases h with h | ⟨_, h⟩ <;> cases h

theorem given_advance (x : Engine) (h : (s.advance i speaker answer p).1.given = some x) :
    p.given = some x := by
  unfold advance at h
  cases p with
  | acquire _ _ | testReady _ | testSpeaker | check | testChanged =>
    dsimp only at h
    split_ifs at h
    all_goals first | exact h | cases h
  | assign _ _ => exact h
  | setup _ _ | lock | publish | mark | unlock | ret | setParams | announce | done => cases h

end Advance

section Step

variable (hp : s.calls[i]? = some p)

include hp

theorem mem_step {r : Pc} (hr : r ∈ (s.step (.advance i speaker answer)).calls) :
    r ∈ s.calls ∨ r = (s.advance i speaker answer p).1 := by
  rw [step_advance hp] at hr
  exact List.mem_or_eq_of_mem_set hr

variable (speaker answer) in
theorem assigned_step :
    (s.step (.advance i speaker answer)).assigned = s.assigned + (assigning p).toNat := by
  have hsetting := countP_set_of (f := setting) hp (s.advance i speaker answer p).1
  rw [setting_advance] at hsetting
  rw [step_advance hp]
  unfold assigned
  dsimp only
  rw [start_advance]
  omega

/-- The engine is still set at most once unless a call finds none that is not the first. -/
theorem atMostOnce_step : (s.step (.advance i speaker answer)).AtMostOnce ↔ s.AtMostOnce ∧
    (assigning (s.advance i speaker answer p).1 = true →
      s.assigned = 0 ∧ ∀ r ∈ s.calls, assigning r = false) := by
  have hassigned := assigned_step speaker answer hp
  have hassigning := countP_set_of (f := assigning) hp (s.advance i speaker answer p).1
  have hcalls : (s.step (.advance i speaker answer)).calls =
      s.calls.set i (s.advance i speaker answer p).1 := by rw [step_advance hp]
  have hcount : (∀ r ∈ s.calls, assigning r = false) ↔ s.calls.countP assigning = 0 := by
    rw [List.countP_eq_zero]
    simp
  rw [hcount]
  unfold AtMostOnce
  rw [hassigned, hcalls]
  cases hnew : assigning (s.advance i speaker answer p).1 with
  | false =>
    rw [hnew, Bool.toNat_false] at hassigning
    simp only [Bool.false_eq_true, false_imp_iff, and_true]
    omega
  | true =>
    rw [hnew, Bool.toNat_true] at hassigning
    simp only [true_imp_iff]
    omega

end Step

/-! ### What holds in every state -/

/-- What holds of the engine in every state. -/
structure Engaged (s : Shim) : Prop where
  fresh : s.assigned = 0 → s.engine = none ∧ s.log = [] ∧ s.returned = []
  acquired : ∀ p ∈ s.calls, Late p → s.assigned ≠ 0
  log : s.AtMostOnce → ∀ c ∈ s.log, c.engine = s.engine
  returned : s.AtMostOnce → ∀ o ∈ s.returned, o = s.engine
  setup : s.AtMostOnce → ∀ hook x, Pc.setup hook x ∈ s.calls → x = s.engine

theorem engaged_init (timeout : Int) : Engaged (init timeout) where
  fresh _ := ⟨rfl, rfl, rfl⟩
  acquired _ h := absurd h List.not_mem_nil
  log _ _ h := absurd h List.not_mem_nil
  returned _ _ h := absurd h List.not_mem_nil
  setup _ _ _ h := absurd h List.not_mem_nil

section Engine

variable (h : Engaged s)

include h

theorem Engaged.begin (hassign : assigning p = false) (hset : setting p = false) (hlate : ¬ Late p) :
    Engaged (s.begin p) ∧ ((s.begin p).AtMostOnce ↔ s.AtMostOnce) := by
  have hassigned : (s.begin p).assigned = s.assigned := by
    show _ + (s.calls ++ [p]).countP setting = _
    rw [List.countP_append, List.countP_singleton, hset]
    rfl
  have honce : (s.begin p).AtMostOnce ↔ s.AtMostOnce := by
    unfold AtMostOnce
    rw [hassigned]
    show _ + (s.calls ++ [p]).countP assigning ≤ 1 ↔ _
    rw [List.countP_append, List.countP_singleton, hassign]
    rfl
  have hmem : ∀ {r}, r ∈ (s.begin p).calls → r ≠ p → r ∈ s.calls := fun hr hne =>
    (List.mem_append.1 hr).resolve_right fun h => hne (List.mem_singleton.1 h)
  refine ⟨⟨fun hzero => h.fresh (hassigned ▸ hzero), fun r hr hlate' => ?_, fun ho => h.log (honce.1 ho),
    fun ho => h.returned (honce.1 ho), fun ho hook x hx => h.setup (honce.1 ho) hook x (hmem hx ?_)⟩,
    honce⟩
  · rw [hassigned]
    refine h.acquired r (hmem hr ?_) hlate'
    rintro rfl
    exact hlate hlate'
  · rintro rfl
    cases hset

variable (hp : s.calls[i]? = some p)

include hp

/-- A call that gets past the first `if` has an engine behind it. -/
theorem Engaged.late (hlate : Late (s.advance i speaker answer p).1) : s.assigned ≠ 0 := by
  rcases late_advance hlate with hne | ⟨hook, x, rfl⟩ | hlate
  · exact fun hzero => hne (h.fresh hzero).1
  · exact assigned_ne_zero_of_mem (List.mem_of_getElem? hp)
  · exact h.acquired p (List.mem_of_getElem? hp) hlate

variable (speaker answer) in
/-- A call sets the engine.  If it is set at most once, nothing was done with an engine before. -/
theorem Engaged.assign {hook : Hook} {x : Engine} (hassign : p = .assign hook x) :
    Engaged (s.step (.advance i speaker answer)) := by
  subst hassign
  have hmem := List.mem_of_getElem? hp
  have hassigned : (s.step (.advance i speaker answer)).assigned = s.assigned + 1 :=
    assigned_step speaker answer hp
  have hfirst : (s.step (.advance i speaker answer)).AtMostOnce → s.assigned = 0 := fun ho =>
    ((atMostOnce_step hp).1 ho).1.first hmem
  refine ⟨fun hzero => ?_, fun _ _ _ => ?_, fun ho c hc => ?_, fun ho o hm => ?_,
    fun ho hook' y hy => ?_⟩
  · rw [hassigned] at hzero
    cases hzero
  · rw [hassigned]
    exact Nat.succ_ne_zero _
  · rw [step_advance hp] at hc
    have hlog : c ∈ s.log := hc
    rw [(h.fresh (hfirst ho)).2.1] at hlog
    cases hlog
  · rw [step_advance hp] at hm
    have hreturned : o ∈ s.returned := hm
    rw [(h.fresh (hfirst ho)).2.2] at hreturned
    cases hreturned
  · rcases mem_step hp hy with hold | hnew
    · exact absurd (hfirst ho) (assigned_ne_zero_of_mem hold)
    · obtain ⟨-, rfl⟩ := Pc.setup.inj hnew
      rw [step_advance hp]
      rfl

variable (speaker answer) in
theorem Engaged.other (hassign : assigning p = false) :
    Engaged (s.step (.advance i speaker answer)) := by
  have hmem := List.mem_of_getElem? hp
  have hassigned : (s.step (.advance i speaker answer)).assigned = s.assigned := by
    rw [assigned_step speaker answer hp, hassign]
    rfl
  have hengine : (s.step (.advance i speaker answer)).engine = s.engine := by
    rw [step_advance hp]
    exact engine_advance i speaker answer s hassign
  have hlog : ∀ c ∈ (s.step (.advance i speaker answer)).log, c ∈ s.log ∨
      (c.engine = s.engine ∧ s.engine ≠ none) ∨ ∃ hook, p = .setup hook c.engine := by
    intro c hc
    rw [step_advance hp] at hc
    exact mem_log_advance hc
  have hreturned : ∀ o ∈ (s.step (.advance i speaker answer)).returned,
      o ∈ s.returned ∨ p = .ret ∧ o = s.engine := by
    intro o ho
    rw [step_advance hp] at ho
    exact mem_returned_advance ho
  have honce : (s.step (.advance i speaker answer)).AtMostOnce → s.AtMostOnce := fun ho =>
    ((atMostOnce_step hp).1 ho).1
  refine ⟨fun hzero => ?_, fun r hr hlate => ?_, fun ho c hc => ?_, fun ho o hm => ?_,
    fun ho hook x hx => ?_⟩
  · -- as long as no engine was set, nothing is called and nothing returned
    rw [hassigned] at hzero
    obtain ⟨hnone, hl, hr⟩ := h.fresh hzero
    refine ⟨hengine.trans hnone, List.eq_nil_iff_forall_not_mem.2 fun c hc => ?_,
      List.eq_nil_iff_forall_not_mem.2 fun o ho => ?_⟩
    · rcases hlog c hc with hc | ⟨-, hne⟩ | ⟨hook, hset⟩
      · rw [hl] at hc
        cases hc
      · exact hne hnone
      · exact assigned_ne_zero_of_mem (hset ▸ hmem) hzero
    · rcases hreturned o ho with ho | ⟨hret, -⟩
      · rw [hr] at ho
        cases ho
      · exact h.acquired p hmem (.inl hret) hzero
  · rw [hassigned]
    rcases mem_step hp hr with hr | rfl
    · exact h.acquired r hr hlate
    · exact h.late hp hlate
  · -- a new call of the engine is made on the one that is set
    rw [hengine]
    rcases hlog c hc with hc | ⟨hc, -⟩ | ⟨hook, hset⟩
    · exact h.log (honce ho) c hc
    · exact hc
    · exact h.setup (honce ho) hook _ (hset ▸ hmem)
  · -- which is also the one that is returned
    rw [hengine]
    rcases hreturned o hm with hm | ⟨-, hm⟩
    · exact h.returned (honce ho) o hm
    · exact hm
  · rw [hengine]
    rcases mem_step hp hx with hx | hx
    · exact h.setup (honce ho) hook x hx
    · have hsetting := setting_advance i speaker answer s p
      rw [← hx, hassign] at hsetting
      cases hsetting

end Engine

/-- **A step**, and whether the engine is still set at most once. -/
theorem Engaged.step (h : Engaged s) (he : s.Enabled e) :
    Engaged (s.step e) ∧ ((s.step e).AtMostOnce ↔ s.AtMostOnce ∧ ¬ (s.Overlaps e ∨ s.FindsNull e)) := by
  have hbegin : ∀ {p}, (∀ i speaker answer, e ≠ .advance i speaker answer) → s.step e = s.begin p →
      assigning p = false → setting p = false → ¬ Late p → Engaged (s.step e) ∧
        ((s.step e).AtMostOnce ↔ s.AtMostOnce ∧ ¬ (s.Overlaps e ∨ s.FindsNull e)) := by
    intro p hno hstep hassign hset hlate
    obtain ⟨hengaged, honce⟩ := h.begin hassign hset hlate
    rw [hstep]
    refine ⟨hengaged, honce.trans (and_iff_left ?_).symm⟩
    rintro (⟨_, _, _, _, _, heq, -⟩ | ⟨_, _, _, _, _, heq, -⟩) <;> exact hno _ _ _ heq
  cases e with
  | hook hook x =>
    exact hbegin (p := .acquire hook x) nofun rfl rfl rfl (by rintro (h | ⟨_, h⟩) <;> cases h)
  | ready => exact hbegin (p := .lock) nofun rfl rfl rfl (by rintro (h | ⟨_, h⟩) <;> cases h)
  | speakerChanged =>
    exact hbegin (p := .setParams) nofun rfl rfl rfl (by rintro (h | ⟨_, h⟩) <;> cases h)
  | advance i speaker answer =>
    obtain ⟨p, hp, -, -⟩ := he
    refine ⟨?_, (atMostOnce_step hp).trans (and_congr_right fun _ => ?_)⟩
    · cases hassign : assigning p with
      | false => exact h.other speaker answer hp hassign
      | true =>
        cases p with
        | assign hook x => exact h.assign speaker answer hp rfl
        | acquire _ _ | setup _ _ | testReady _ | testSpeaker | lock | check | publish | mark | unlock
        | ret | setParams | testChanged | announce | done => cases hassign
    · -- a call that finds no engine may do so only when none was set, and none is about to be
      rw [assigning_advance, assigned_eq_zero]
      constructor
      · rintro hfirst (⟨_, _, _, hook, x, ⟨⟩, hp', hnone, r, hr, hassign⟩ |
          ⟨_, _, _, hook, x, ⟨⟩, hp', hnone, hset⟩)
        · obtain rfl := Option.some.inj (hp.symm.trans hp')
          have hno := (hfirst ⟨⟨hook, x, rfl⟩, hnone⟩).2 r hr
          rw [hassign] at hno
          cases hno
        · obtain rfl := Option.some.inj (hp.symm.trans hp')
          exact (hfirst ⟨⟨hook, x, rfl⟩, hnone⟩).1 hset
      · rintro hno ⟨⟨hook, x, rfl⟩, hnone⟩
        refine ⟨fun hset => hno (.inr ⟨i, speaker, answer, hook, x, rfl, hp, hnone, hset⟩),
          fun r hr => ?_⟩
        by_contra hassign
        exact hno (.inl ⟨i, speaker, answer, hook, x, rfl, hp, hnone, r, hr,
          Bool.eq_true_of_not_eq_false hassign⟩)

/-! ### Engines that are not null -/

/-- No call has got a null engine, and none was kept, used or returned. -/
structure NonNull (s : Shim) : Prop where
  given : ∀ p ∈ s.calls, p.given ≠ some none
  engine : s.assigned ≠ 0 → s.engine ≠ none
  log : ∀ c ∈ s.log, c.engine ≠ none
  returned : ∀ o ∈ s.returned, o ≠ none

theorem nonNull_init (timeout : Int) : NonNull (init timeout) where
  given _ h := absurd h List.not_mem_nil
  engine h := absurd rfl h
  log _ h := absurd h List.not_mem_nil
  returned _ h := absurd h List.not_mem_nil

theorem NonNull.step (h : NonNull s) (hs : Engaged s) (he : s.Enabled e)
    (hhook : ∀ hook, e ≠ .hook hook none) : NonNull (s.step e) := by
  have hbegin : ∀ p : Pc, p.given ≠ some none → setting p = false → NonNull (s.begin p) := by
    intro p hgiven hset
    have hassigned : (s.begin p).assigned = s.assigned := by
      show _ + (s.calls ++ [p]).countP setting = _
      rw [List.countP_append, List.countP_singleton, hset]
      rfl
    refine ⟨fun r hr => ?_, fun hne => h.engine (hassigned ▸ hne), h.log, h.returned⟩
    rcases List.mem_append.1 hr with hr | hr
    · exact h.given r hr
    · rw [List.mem_singleton.1 hr]
      exact hgiven
  cases e with
  | hook hook x =>
    refine hbegin (.acquire hook x) (fun hx => ?_) rfl
    obtain rfl := Option.some.inj hx
    exact hhook hook rfl
  | ready => exact hbegin .lock nofun rfl
  | speakerChanged => exact hbegin .setParams nofun rfl
  | advance i speaker answer =>
    obtain ⟨p, hp, -, -⟩ := he
    have hmem := List.mem_of_getElem? hp
    refine ⟨fun r hr => ?_, fun hne => ?_, fun c hc => ?_, fun o ho => ?_⟩
    · rcases mem_step hp hr with hr | rfl
      · exact h.given r hr
      · exact fun hnull => h.given p hmem (given_advance none hnull)
    · -- only `assign` changes the engine, to the one the call has brought with it
      rw [assigned_step speaker answer hp] at hne
      rw [step_advance hp]
      cases hassign : assigning p with
      | false =>
        rw [hassign] at hne
        show (s.advance i speaker answer p).2.engine ≠ none
        rw [engine_advance i speaker answer s hassign]
        exact h.engine hne
      | true =>
        cases p with
        | assign hook x => exact fun hx => h.given _ hmem (congrArg some hx)
        | acquire _ _ | setup _ _ | testReady _ | testSpeaker | lock | check | publish | mark | unlock
        | ret | setParams | testChanged | announce | done => cases hassign
    · rw [step_advance hp] at hc
      rcases mem_log_advance hc with hc | ⟨hc, hne⟩ | ⟨hook, hset⟩
      · exact h.log c hc
      · exact hc ▸ hne
      · exact fun hnull => h.given p hmem (by rw [hset, hnull]; rfl)
    · -- a call returns behind `engine_acquire`, so an engine was set
      rw [step_advance hp] at ho
      rcases mem_returned_advance ho with ho | ⟨hret, ho⟩
      · exact h.returned o ho
      · exact ho ▸ h.engine (hs.acquired p hmem (.inl hret))

theorem NonNull.not_findsNull (h : NonNull s) : ¬ s.FindsNull e := by
  rintro ⟨-, -, -, -, -, -, -, hnone, hset⟩
  exact h.engine (fun hzero => assigned_eq_zero.1 hzero hset) hnone

/-- The hooks are called on two threads, and both find no engine. -/
def twoHooks : List ShimEvent :=
  [.hook .getMicState (some 1), .hook .loadGrammar (some 2), .advance 0 true 0, .advance 1 true 0,
    .advance 0 true 0, .advance 1 true 0, .advance 0 true 0, .advance 1 true 0, .advance 0 true 0,
    .advance 1 true 0, .advance 0 false 0, .advance 1 false 0]

example : ((machine 80).exec (machine 80).start twoHooks).published = [.start, .start] := by decide

/-- `DSXEngine_Create` fails, and `DSXEngine_New` is called after it. -/
def nullEngine : List ShimEvent :=
  [.hook .create none, .advance 0 false 0, .advance 0 false 0, .advance 0 false 0, .advance 0 false 0,
    .hook .new (some 1), .advance 1 false 0, .advance 1 false 0, .advance 1 false 0, .advance 1 false 0,
    .advance 1 false 0]

example : (machine 80).Run (machine 80).start nullEngine ∧
    ((machine 80).exec (machine 80).start nullEngine).published = [.start, .start] ∧
    ((machine 80).exec (machine 80).start nullEngine).returned = [some 1] := by decide

end Shim

end Draconity
