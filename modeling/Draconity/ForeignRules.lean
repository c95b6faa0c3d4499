import Draconity.Types
import Draconity.Lib.Gate

/-!
Dragon's own rules, which Draconity keeps away from the engine while `dragon_enabled` is false.

`shim.cpp` stands between Dragon and its engine: it records which rules Dragon activates, and passes
the calls on while they are enabled; `set_dragon_enabled` activates or deactivates what is recorded.
The engine is a set of active pairs of a grammar and a rule.
-/

namespace Draconity

open Lib

/-! ### The engine -/

/-- `_DSXGrammar_Activate` and `_DSXGrammar_Deactivate`, also by their `orig_` names; the name of a
rule is `none` for the null pointer. -/
inductive RuleCall
  | activate (grammar : Handle) (unk1 unk2 : UInt64) (rule : Option CString)
  | deactivate (grammar : Handle) (unk1 : UInt64) (rule : Option CString)

/-- The rule a name stands for: a null pointer stands for the empty name. -/
def ruleOf (rule : Option CString) : CString := rule.getD (.lit "")

/-- What a call does to the active rules when it succeeds. -/
def RuleCall.effect (active : Finset (Handle × CString)) : RuleCall → Finset (Handle × CString)
  | .activate grammar _ _ rule => insert (grammar, ruleOf rule) active
  | .deactivate grammar _ rule => active.erase (grammar, ruleOf rule)

/-- The calls made so far with their return codes. -/
abbrev RuleLog := List (RuleCall × Int)

/-- `ForeignRule`: one activation of a rule of Dragon. -/
structure ForeignRule where
  grammar : Handle
  unk1 : UInt64
  unk2 : Bool
  rule : CString

/-- The fields of `Draconity` for Dragon's own rules, and the engine. -/
structure DragonRules where
  dragonRules : List ForeignRule
  dragonEnabled : Bool
  log : RuleLog
  active : Finset (Handle × CString)

/-- No rules, and not enabled. -/
def DragonRules.init : DragonRules := ⟨[], false, [], ∅⟩

/-- A call of the engine, which fails without an effect. -/
def DragonRules.call (rc : RuleLog → RuleCall → Int) (s : DragonRules) (c : RuleCall) :
    Int × DragonRules :=
  let r := rc s.log c
  (r, { s with log := s.log ++ [(c, r)], active := if r = 0 then c.effect s.active else s.active })

/-! ### `foreign_rule.cpp` -/

/-- The constructor of `ForeignRule`, whose `unk2` is a `bool`. -/
def ForeignRule.new (grammar : Handle) (unk1 unk2 : UInt64) (rule : Option CString) : ForeignRule where
  grammar := grammar
  unk1 := unk1
  unk2 := unk2 ≠ 0
  rule := ruleOf rule

def ForeignRule.matches (r : ForeignRule) (otherGrammar : Handle) (otherRule : Option CString) : Bool :=
  r.grammar = otherGrammar ∧ r.rule = ruleOf otherRule

/-- The name `ForeignRule::activate` and `deactivate` pass on. -/
def ForeignRule.ruleName (r : ForeignRule) : Option CString :=
  if r.rule.bytes.length > 0 then some r.rule else none

def ForeignRule.activate (rc : RuleLog → RuleCall → Int) (r : ForeignRule) (s : DragonRules) :
    Int × DragonRules :=
  s.call rc (.activate r.grammar r.unk1 (if r.unk2 then 1 else 0) r.ruleName)

def ForeignRule.deactivate (rc : RuleLog → RuleCall → Int) (r : ForeignRule) (s : DragonRules) :
    Int × DragonRules :=
  s.call rc (.deactivate r.grammar r.unk1 r.ruleName)

/-! ### `shim.cpp` and `set_dragon_enabled` -/

def dsxGrammarActivate (rc : RuleLog → RuleCall → Int) (grammar : Handle) (unk1 unk2 : UInt64)
    (ruleName : Option CString) (s : DragonRules) : Int × DragonRules :=
  let s := { s with dragonRules := s.dragonRules ++ [ForeignRule.new grammar unk1 unk2 ruleName] }
  if s.dragonEnabled then s.call rc (.activate grammar unk1 unk2 ruleName) else (0, s)

/-- `DSXGrammar_Deactivate`: of the rules that match, the first is removed. -/
def dsxGrammarDeactivate (rc : RuleLog → RuleCall → Int) (grammar : Handle) (unk1 : UInt64)
    (ruleName : Option CString) (s : DragonRules) : Int × DragonRules :=
  let s := { s with dragonRules := s.dragonRules.eraseP (·.matches grammar ruleName) }
  if s.dragonEnabled then s.call rc (.deactivate grammar unk1 ruleName) else (0, s)

/-- The loop of `set_dragon_enabled`, which stops at an error. -/
def setRules (rc : RuleLog → RuleCall → Int) (enabled : Bool) : List ForeignRule → DragonRules →
    DragonRules
  | [], s => s
  | r :: rs, s =>
    let res := if enabled then r.activate rc s else r.deactivate rc s
    if res.1 ≠ 0 then res.2 else setRules rc enabled rs res.2

/-- `Draconity::set_dragon_enabled`, whose result is always the empty string. -/
def setDragonEnabled (rc : RuleLog → RuleCall → Int) (enabled : Bool) (s : DragonRules) :
    String × DragonRules :=
  if enabled ≠ s.dragonEnabled then
    ("", { setRules rc enabled s.dragonRules s with dragonEnabled := enabled })
  else ("", s)

/-! ### Sequences of calls -/

inductive RuleEvent
  | activate (grammar : Handle) (unk1 unk2 : UInt64) (ruleName : Option CString)
  | deactivate (grammar : Handle) (unk1 : UInt64) (ruleName : Option CString)
  | setEnabled (enabled : Bool)

def DragonRules.step (rc : RuleLog → RuleCall → Int) (s : DragonRules) : RuleEvent → DragonRules
  | .activate grammar unk1 unk2 ruleName => (dsxGrammarActivate rc grammar unk1 unk2 ruleName s).2
  | .deactivate grammar unk1 ruleName => (dsxGrammarDeactivate rc grammar unk1 ruleName s).2
  | .setEnabled enabled => (setDragonEnabled rc enabled s).2

def rulesAfter (rc : RuleLog → RuleCall → Int) (es : List RuleEvent) : DragonRules :=
  es.foldl (DragonRules.step rc) .init

/-- What Dragon does without Draconity. -/
def RuleEvent.own (active : Finset (Handle × CString)) : RuleEvent → Finset (Handle × CString)
  | .activate grammar unk1 unk2 ruleName =>
    (RuleCall.activate grammar unk1 unk2 ruleName).effect active
  | .deactivate grammar unk1 ruleName => (RuleCall.deactivate grammar unk1 ruleName).effect active
  | .setEnabled _ => active

/-- The rules that Dragon's own calls alone would have left active. -/
def ownActive (es : List RuleEvent) : Finset (Handle × CString) := es.foldl RuleEvent.own ∅

def DragonRules.recorded (s : DragonRules) : List (Handle × CString) :=
  s.dragonRules.map fun r => (r.grammar, r.rule)

/-- Enabled, Dragon's rules are active as without Draconity, and as recorded; else none is. -/
structure Gated (s : DragonRules) (own : Finset (Handle × CString)) : Prop where
  own : s.dragonEnabled = true → s.active = own
  recorded : s.dragonEnabled = true → s.active = s.recorded.toFinset
  disabled : s.dragonEnabled = false → s.active = ∅

/-! ### As a gate -/

/-- What the functions do to the pairs. -/
def DragonRules.gate (s : DragonRules) : Gate.State (Handle × CString) :=
  ⟨s.dragonEnabled, s.recorded, s.active⟩

/-- The call as an operation on the gate. -/
def RuleEvent.op : RuleEvent → Gate.Op (Handle × CString)
  | .activate grammar _ _ ruleName => .add (grammar, ruleOf ruleName)
  | .deactivate grammar _ ruleName => .remove (grammar, ruleOf ruleName)
  | .setEnabled enabled => .set enabled

variable {rc : RuleLog → RuleCall → Int} {s : DragonRules} {e : RuleEvent} {es : List RuleEvent}

@[simp] theorem ForeignRule.ruleOf_ruleName (r : ForeignRule) : ruleOf r.ruleName = r.rule := by
  obtain ⟨grammar, unk1, unk2, ⟨bytes, noNul⟩⟩ := r
  cases bytes with
  | nil => rfl
  | cons b bs => rfl

theorem DragonRules.call_of_zero (hrc : ∀ log c, rc log c = 0) (s : DragonRules) (c : RuleCall) :
    s.call rc c = (0, { s with log := s.log ++ [(c, 0)], active := c.effect s.active }) := by
  simp [DragonRules.call, hrc]

/-- The loop goes over all of the rules. -/
theorem setRules_gate (hrc : ∀ log c, rc log c = 0) (enabled : Bool) (rs : List ForeignRule)
    (s : DragonRules) :
    (setRules rc enabled rs s).gate = { s.gate with
      live := if enabled then
          (rs.map fun r => (r.grammar, r.rule)).foldl (fun live a => insert a live) s.active
        else (rs.map fun r => (r.grammar, r.rule)).foldl Finset.erase s.active } := by
  induction rs generalizing s with
  | nil =>
    cases enabled <;> rfl
  | cons r rs ih =>
    rw [setRules]
    cases enabled with
    | true =>
      simp only [if_true, ForeignRule.activate, DragonRules.call_of_zero hrc, ne_eq,
        not_true_eq_false, if_false, ih]
      simp [DragonRules.gate, DragonRules.recorded, RuleCall.effect]
    | false =>
      simp only [Bool.false_eq_true, if_false, ForeignRule.deactivate,
        DragonRules.call_of_zero hrc, ne_eq, not_true_eq_false, ih]
      simp [DragonRules.gate, DragonRules.recorded, RuleCall.effect]

theorem ForeignRule.matches_iff (r : ForeignRule) (grammar : Handle) (ruleName : Option CString) :
    r.matches grammar ruleName = true ↔ (r.grammar, r.rule) = (grammar, ruleOf ruleName) := by
  simp [ForeignRule.matches]

/-- **Each call is one operation on the gate.** -/
theorem step_gate (hrc : ∀ log c, rc log c = 0) (s : DragonRules) (e : RuleEvent) :
    (s.step rc e).gate = Gate.step s.gate e.op := by
  cases e with
  | activate grammar unk1 unk2 ruleName =>
    simp only [DragonRules.step, dsxGrammarActivate, DragonRules.call_of_zero hrc]
    cases h : s.dragonEnabled <;>
      simp [DragonRules.gate, DragonRules.recorded, Gate.step, RuleEvent.op, RuleCall.effect, h,
        ForeignRule.new]
  | deactivate grammar unk1 ruleName =>
    simp only [DragonRules.step, dsxGrammarDeactivate, DragonRules.call_of_zero hrc]
    cases h : s.dragonEnabled <;>
      simp [DragonRules.gate, DragonRules.recorded, Gate.step, RuleEvent.op, RuleCall.effect, h,
        Gate.map_eraseP _ (ForeignRule.matches_iff · grammar ruleName)]
  | setEnabled enabled =>
    have hloop := setRules_gate hrc enabled s.dragonRules s
    show ((setDragonEnabled rc enabled s).2).gate = Gate.step s.gate (.set enabled)
    unfold setDragonEnabled Gate.step
    dsimp only
    by_cases h : enabled = s.dragonEnabled
    · have hgate : enabled = s.gate.opened := h
      rw [if_neg (not_not.2 h), if_pos hgate]
    · have hgate : ¬ enabled = s.gate.opened := h
      rw [if_pos h, if_neg hgate]
      show { (setRules rc enabled s.dragonRules s).gate with opened := enabled } = _
      rw [hloop]
      rfl

/-! ### Any sequence of calls -/

theorem rulesAfter_gate (hrc : ∀ log c, rc log c = 0) (es : List RuleEvent) :
    (rulesAfter rc es).gate = Gate.after (es.map RuleEvent.op) := by
  unfold rulesAfter Gate.after
  rw [List.foldl_map]
  exact (List.foldl_hom DragonRules.gate fun s e => (step_gate hrc s e).symm).symm

theorem ownActive_eq (es : List RuleEvent) : ownActive es = Gate.own (es.map RuleEvent.op) := by
  unfold ownActive Gate.own
  rw [List.foldl_map]
  congr 1
  funext active e
  cases e <;> rfl

theorem gated_iff (hrc : ∀ log c, rc log c = 0) (es : List RuleEvent) :
    Gated (rulesAfter rc es) (ownActive es) ↔ Gate.Transparent (es.map RuleEvent.op) := by
  rw [ownActive_eq]
  have hgate := rulesAfter_gate hrc es
  constructor
  · rintro ⟨hown, hrecorded, hdisabled⟩
    exact ⟨by rw [← hgate]; exact hown, by rw [← hgate]; exact hrecorded,
      by rw [← hgate]; exact hdisabled⟩
  · rintro ⟨hown, hrecord, hclosed⟩
    rw [← hgate] at hown hrecord hclosed
    exact ⟨hown, hrecord, hclosed⟩

/-- **When the gating of Dragon's rules is transparent.**  When all calls of the engine return `0`, for
every sequence of calls: just when, each time Dragon's rules are enabled, the rules that Dragon's own
calls leave inactive have been deactivated as often as they were activated. -/
theorem dragonRules_gated_iff (hrc : ∀ log c, rc log c = 0) (es : List RuleEvent) :
    (∀ fs, fs <+: es → Gated (rulesAfter rc fs) (ownActive fs)) ↔
      ∀ fs, fs <+: es → Gate.isOpen (fs.map RuleEvent.op) = true →
        ∀ p ∉ ownActive fs, Gate.outstanding p (fs.map RuleEvent.op) = 0 := by
  have hmap : ∀ P : List (Gate.Op (Handle × CString)) → Prop,
      (∀ fs, fs <+: es → P (fs.map RuleEvent.op)) ↔
        ∀ gs, gs <+: es.map RuleEvent.op → P gs := by
    intro P
    constructor
    · intro h gs hgs
      obtain ⟨fs, hfs, rfl⟩ := List.prefix_map_iff.1 hgs
      exact h fs hfs
    · intro h fs hfs
      exact h _ (hfs.map _)
  calc (∀ fs, fs <+: es → Gated (rulesAfter rc fs) (ownActive fs))
      ↔ ∀ fs, fs <+: es → Gate.Transparent (fs.map RuleEvent.op) :=
        forall₂_congr fun fs _ => gated_iff hrc fs
    _ ↔ ∀ fs, fs <+: es → Gate.isOpen (fs.map RuleEvent.op) = true →
          Gate.Balanced (fs.map RuleEvent.op) := by
        rw [hmap, Gate.transparent_iff, ← hmap fun ops => Gate.isOpen ops = true → Gate.Balanced ops]
    _ ↔ _ := by
        simp only [Gate.Balanced, ownActive_eq]

/-- A rule that is activated, deactivated while it is disabled, and activated again. -/
def reactivation : List RuleEvent :=
  [.activate 1 0 0 none, .deactivate 1 0 (some (.lit "")), .setEnabled true, .activate 1 0 0 none]

theorem dragonRules_gated_iff_reactivation :
    Gated (rulesAfter (fun _ _ => 0) reactivation) (ownActive reactivation) := by
  refine (dragonRules_gated_iff (fun _ _ => rfl) reactivation).2 ?_ _ List.prefix_rfl
  have hall : ∀ fs ∈ reactivation.inits, Gate.isOpen (fs.map RuleEvent.op) = true →
      Gate.own (fs.map RuleEvent.op) = (Gate.after (fs.map RuleEvent.op)).record.toFinset := by
    decide
  intro fs hfs ho
  rw [ownActive_eq]
  exact Gate.balanced_iff.2 (hall fs ((List.mem_inits _ _).2 hfs) ho)

/-- A rule that is activated twice and deactivated once stays recorded. -/
theorem dragonRules_gated_fails : ¬ ∀ (rc : RuleLog → RuleCall → Int) (es : List RuleEvent),
    (∀ log c, rc log c = 0) → ∀ fs, fs <+: es → Gated (rulesAfter rc fs) (ownActive fs) := by
  intro h
  have hgated := h (fun _ _ => 0) [.setEnabled true, .activate 1 0 0 none, .activate 1 0 0 none,
    .deactivate 1 0 none] (fun _ _ => rfl) _ List.prefix_rfl
  exact absurd (hgated.recorded rfl) (by decide)

end Draconity
