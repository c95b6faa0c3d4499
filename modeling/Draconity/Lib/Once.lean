import Draconity.Lib.Runs
import Mathlib.Logic.Function.Basic
import Mathlib.Data.Nat.Notation
import Mathlib.Tactic.SplitIfs

/-!
An action that is taken once, by whoever comes first.

A caller takes a lock, tests a flag, and if it is not set takes the action and sets the flag; then it
leaves the lock.  The callers take their steps in any order.  `Guarded` is the invariant: the one who
holds the lock is the only one inside, and the action was taken once if the flag is set or is about
to be.
-/

namespace Lib.Once

inductive Pos
  | outside
  /-- Before the lock. -/
  | waiting
  | testing
  | acting
  /-- The action was taken, the flag is about to be set. -/
  | marking
  | leaving
  deriving DecidableEq

/-- The caller holds the lock. -/
def Pos.Inside : Pos → Prop
  | .outside | .waiting => False
  | .testing | .acting | .marking | .leaving => True

/-- The lock, the flag, how often the action was taken, and the callers. -/
structure State (τ : Type*) where
  lock : Option τ
  done : Bool
  acts : ℕ
  pos : τ → Pos

inductive Event (τ : Type*)
  | arrive (t : τ)
  /-- The caller takes its next step. -/
  | advance (t : τ)
  /-- Something else. -/
  | other

variable {τ : Type*} [DecidableEq τ] {s : State τ} {t t' : τ} {e : Event τ}

namespace State

def move (t : τ) (p : Pos) (s : State τ) : State τ := { s with pos := Function.update s.pos t p }

def step (s : State τ) : Event τ → State τ
  | .arrive t => s.move t .waiting
  | .advance t =>
    match s.pos t with
    | .outside => s
    | .waiting => { s with lock := some t }.move t .testing
    | .testing => s.move t (if s.done then .leaving else .acting)
    | .acting => { s with acts := s.acts + 1 }.move t .marking
    | .marking => { s with done := true }.move t .leaving
    | .leaving => { s with lock := none }.move t .outside
  | .other => s

def Enabled (s : State τ) : Event τ → Prop
  | .arrive t => s.pos t = .outside
  | .advance t => s.pos t = .waiting → s.lock = none
  | .other => True

def init : State τ := ⟨none, false, 0, fun _ => .outside⟩

structure Guarded (s : State τ) : Prop where
  inside : ∀ t, (s.pos t).Inside ↔ s.lock = some t
  acting : ∀ t, s.pos t = .acting → s.done = false ∧ s.acts = 0
  marking : ∀ t, s.pos t = .marking → s.done = false ∧ s.acts = 1
  acted : (∀ t, s.pos t ≠ .marking) → s.acts = s.done.toNat

omit [DecidableEq τ] in
theorem guarded_init : Guarded (init : State τ) where
  inside _ := ⟨False.elim, nofun⟩
  acting _ h := nomatch h
  marking _ h := nomatch h
  acted _ := rfl

theorem pos_move (t' : τ) (p : Pos) :
    (s.move t p).pos t' = if t' = t then p else s.pos t' := Function.update_apply ..

omit [DecidableEq τ] in
/-- Only one caller is inside. -/
theorem Guarded.alone (h : Guarded s) (ht : (s.pos t).Inside) (ht' : (s.pos t').Inside) : t' = t :=
  Option.some.inj (((h.inside t').1 ht').symm.trans ((h.inside t).1 ht))

theorem Guarded.move_out (h : Guarded s) {p : Pos} (ht : ¬ (s.pos t).Inside) (hp : ¬ p.Inside) :
    Guarded (s.move t p) := by
  have other : ∀ {t' p'}, (s.move t p).pos t' = p' → p'.Inside → s.pos t' = p' := by
    intro t' p' h' hin
    rw [pos_move] at h'
    split_ifs at h' with heq
    · exact absurd (h' ▸ hin) hp
    · exact h'
  refine ⟨fun t' => ?_, fun t' h' => h.acting t' (other h' trivial),
    fun t' h' => h.marking t' (other h' trivial), fun hnone => h.acted fun t' h' => hnone t' ?_⟩
  · rw [pos_move]
    show _ ↔ s.lock = some t'
    rw [← h.inside t']
    split_ifs with heq
    · rw [heq]
      exact iff_of_false hp ht
    · exact Iff.rfl
  · rw [pos_move, if_neg, h']
    rintro rfl
    exact ht (h' ▸ trivial)

/-- The one who is to hold the lock next is the only one inside; the rest of the invariant is about
it alone. -/
theorem Guarded.move_in {s' : State τ} {p : Pos} (hpos : s'.pos = Function.update s.pos t p)
    (hlock : s'.lock = some t) (hp : p.Inside) (hout : ∀ t', t' ≠ t → ¬ (s.pos t').Inside)
    (acting : p = .acting → s'.done = false ∧ s'.acts = 0)
    (marking : p = .marking → s'.done = false ∧ s'.acts = 1)
    (acted : p ≠ .marking → s'.acts = s'.done.toNat) : Guarded s' := by
  have hupdate : ∀ t', s'.pos t' = if t' = t then p else s.pos t' := fun t' => by
    rw [hpos, Function.update_apply]
  have only : ∀ {t' p'}, s'.pos t' = p' → p'.Inside → p = p' := by
    intro t' p' h' hin
    rw [hupdate] at h'
    split_ifs at h' with heq
    · exact h'
    · exact absurd (h' ▸ hin) (hout t' heq)
  refine ⟨fun t' => ?_, fun t' h' => acting (only h' trivial), fun t' h' => marking (only h' trivial),
    fun hnone => acted fun h' => hnone t (by rw [hupdate, if_pos rfl, h'])⟩
  rw [hupdate, hlock]
  split_ifs with heq
  · exact iff_of_true hp (congrArg some heq.symm)
  · exact iff_of_false (hout t' heq) fun h' => heq (Option.some.inj h').symm

theorem Guarded.step (h : Guarded s) (he : s.Enabled e) : Guarded (s.step e) := by
  cases e with
  | other => exact h
  | arrive t => exact h.move_out (by rw [show s.pos t = .outside from he]; exact id) id
  | advance t =>
    -- when a caller inside moves on, nobody else is inside
    have hout : (s.pos t).Inside → ∀ t', t' ≠ t → ¬ (s.pos t').Inside := fun ht t' hne ht' =>
      hne (h.alone ht ht')
    have hnotMarking : ∀ {p : Pos}, s.pos t = p → p.Inside → p ≠ .marking →
        s.acts = s.done.toNat := by
      intro p hpos hp hne
      refine h.acted fun t' h' => ?_
      obtain rfl := h.alone (hpos ▸ hp) (h' ▸ trivial : (s.pos t').Inside)
      exact hne (hpos.symm.trans h')
    unfold State.step
    dsimp only
    split
    case h_1 hpos => exact h
    case h_2 hpos =>
      have hnobody : ∀ t', ¬ (s.pos t').Inside := fun t' ht' =>
        nomatch ((h.inside t').1 ht').symm.trans (he hpos)
      refine .move_in (s := s) rfl rfl trivial (fun t' _ => hnobody t') nofun nofun fun _ => ?_
      exact h.acted fun t' h' => hnobody t' (h' ▸ trivial)
    case h_3 hpos =>
      have hacts := hnotMarking hpos trivial nofun
      refine .move_in (s := s) rfl ((h.inside t).1 (hpos ▸ trivial)) ?_ (hout (hpos ▸ trivial))
        (fun hp => ?_) (fun hp => ?_) fun _ => hacts
      · split_ifs <;> trivial
      · cases hd : s.done with
        | false => exact ⟨hd, hacts.trans (congrArg Bool.toNat hd)⟩
        | true => simp [hd] at hp
      · split_ifs at hp
    case h_4 hpos =>
      obtain ⟨hdone, hacts⟩ := h.acting t hpos
      refine .move_in (s := s) rfl ((h.inside t).1 (hpos ▸ trivial)) trivial (hout (hpos ▸ trivial))
        nofun (fun _ => ⟨hdone, congrArg (· + 1) hacts⟩) fun hp => absurd rfl hp
    case h_5 hpos =>
      obtain ⟨-, hacts⟩ := h.marking t hpos
      exact .move_in (s := s) rfl ((h.inside t).1 (hpos ▸ trivial)) trivial (hout (hpos ▸ trivial))
        nofun nofun fun _ => hacts
    case h_6 hpos =>
      have hacts := hnotMarking hpos trivial nofun
      -- who leaves was the only one inside
      have hpos' : ∀ t', ¬ (({ s with lock := none }.move t .outside).pos t').Inside := by
        intro t'
        rw [pos_move]
        split_ifs with heq
        · exact id
        · exact hout (hpos ▸ trivial) t' heq
      exact ⟨fun t' => iff_of_false (hpos' t') nofun, fun t' h' => absurd (h' ▸ trivial) (hpos' t'),
        fun t' h' => absurd (h' ▸ trivial) (hpos' t'), fun _ => hacts⟩

omit [DecidableEq τ] in
/-- **Once.**  The action is not taken twice, it was taken if the flag is set, and when nobody holds
the lock it was taken just when the flag is set. -/
theorem Guarded.once (h : Guarded s) : s.acts ≤ 1 ∧ (s.done = true → s.acts = 1) ∧
    (s.lock = none → (s.done = true ↔ s.acts = 1)) := by
  by_cases hm : ∃ t, s.pos t = .marking
  · obtain ⟨t, ht⟩ := hm
    obtain ⟨hdone, hacts⟩ := h.marking t ht
    refine ⟨Nat.le_of_eq hacts, fun _ => hacts, fun hlock => ?_⟩
    exact nomatch ((h.inside t).1 (ht ▸ trivial)).symm.trans hlock
  · have hacts := h.acted (not_exists.1 hm)
    rw [hacts]
    cases s.done <;> simp

omit [DecidableEq τ] in
/-- **No deadlock.**  When a caller is not outside, one such caller can take a step. -/
theorem Guarded.progress (h : Guarded s) (ht : s.pos t ≠ .outside) :
    ∃ t', s.pos t' ≠ .outside ∧ s.Enabled (.advance t') := by
  cases hlock : s.lock with
  | none => exact ⟨t, ht, fun _ => hlock⟩
  | some t' =>
    have hin := (h.inside t').2 hlock
    refine ⟨t', fun h' => ?_, fun h' => ?_⟩
    all_goals
      rw [h'] at hin
      exact hin.elim

end State

def machine (τ : Type*) [DecidableEq τ] : Machine (State τ) (Event τ) where
  start := State.init
  enabled := State.Enabled
  step := State.step

theorem guarded_of_reachable (h : (machine τ).Reachable s) : s.Guarded :=
  Machine.invariant State.guarded_init (fun _ _ hs he => hs.step he) h

end Lib.Once
