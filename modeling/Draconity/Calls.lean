import Draconity.SyncGrammar
import Draconity.State

/-!
Which calls of the engine a function makes.

`Calls E P d d'` says that calls that satisfy `P` lead from `d` to `d'`.  The functions that sync a
grammar make calls on that grammar only, and those that sync the words make calls on words only, so
neither touches what the other is about, and neither resumes Dragon.
-/

namespace Draconity

open Lib

variable {E : Env}

/-- Calls that satisfy `P` lead from one engine to another. -/
inductive Calls (E : Env) (P : Call → Prop) : Dragon → Dragon → Prop
  | refl (d : Dragon) : Calls E P d d
  | snoc {d d' : Dragon} (c : Call) : Calls E P d d' → P c → Calls E P d (d'.call E c).2

namespace Calls

variable {P : Call → Prop} {d d' d'' : Dragon}

theorem one (c : Call) (hc : P c) (d : Dragon) : Calls E P d (d.call E c).2 := .snoc c (.refl d) hc

theorem trans (h : Calls E P d d') (h' : Calls E P d' d'') : Calls E P d d'' := by
  induction h' with
  | refl => exact h
  | snoc c _ hc ih => exact .snoc c ih hc

theorem keeps {π : Type*} (view : Dragon → π)
    (hv : ∀ d c, P c → view (d.call E c).2 = view d) (h : Calls E P d d') : view d' = view d := by
  induction h with
  | refl => rfl
  | snoc c _ hc ih => exact (hv _ c hc).trans ih

theorem next_le (h : Calls E P d d') : d.next ≤ d'.next := by
  induction h with
  | refl => exact le_rfl
  | snoc c _ _ ih => exact ih.trans (Dragon.next_le_call _ c)

theorem fresh (h : Calls E P d d') (hd : d.Fresh) : d'.Fresh := by
  induction h with
  | refl => exact hd
  | snoc c _ _ ih => exact ih.call c

end Calls

def Call.OnGrammar (name : CString) (c : Call) : Prop := ∃ op, c = .grammar name op

def Call.OnWord (c : Call) : Prop :=
  ∃ w, c = .validateWord w ∨ c = .addTemporaryWord w ∨ c = .deleteWord w

/-! ### What calls of a kind keep -/

theorem Dragon.effect_of_onWord {c : Call} (hc : c.OnWord) (d : Dragon) :
    (d.effect c).loaded = d.loaded ∧ (d.effect c).next = d.next := by
  obtain ⟨w, rfl | rfl | rfl⟩ := hc <;> exact ⟨rfl, rfl⟩

theorem Calls.loaded_next {d d' : Dragon} (h : Calls E Call.OnWord d d') :
    d'.loaded = d.loaded ∧ d'.next = d.next := by
  have := h.keeps (fun d => (d.loaded, d.next)) fun d c hc => by
    obtain ⟨h₁, h₂⟩ := Dragon.effect_of_onWord hc d
    simp [Dragon.loaded_call, Dragon.next_call, h₁, h₂]
  exact ⟨congrArg Prod.fst this, congrArg Prod.snd this⟩

theorem Dragon.effect_of_onGrammar {name : CString} {c : Call} (hc : c.OnGrammar name)
    (d : Dragon) : (d.effect c).words = d.words := by
  obtain ⟨op, rfl⟩ := hc
  cases op <;> rfl

theorem Calls.words {name : CString} {d d' : Dragon} (h : Calls E (Call.OnGrammar name) d d') :
    d'.words = d.words :=
  h.keeps (fun d => d.words) fun d c hc => by
    simp [Dragon.words_call, Dragon.effect_of_onGrammar hc]

/-! ### Grammars -/

/-- A step on a live grammar that makes calls on this grammar only. -/
def OnlyGrammar (E : Env) (p q : Grammar × Dragon) : Prop :=
  q.1.name = p.1.name ∧ Calls E (Call.OnGrammar p.1.name) p.2 q.2

theorem OnlyGrammar.refl (p : Grammar × Dragon) : OnlyGrammar E p p := ⟨rfl, .refl _⟩

theorem OnlyGrammar.trans {p q r : Grammar × Dragon} (h : OnlyGrammar E p q)
    (h' : OnlyGrammar E q r) : OnlyGrammar E p r :=
  ⟨h'.1.trans h.1, h.2.trans (h.1 ▸ h'.2)⟩

theorem OnlyGrammar.one (p : Grammar × Dragon) (op : GrammarOp) {g : Grammar}
    (hg : g.name = p.1.name) :
    OnlyGrammar E p (g, (p.2.call E (.grammar p.1.name op)).2) := ⟨hg, .one _ ⟨op, rfl⟩ _⟩

theorem unloadGrammar_only (g : Grammar) (d : Dragon) :
    OnlyGrammar E (g, d) (unloadGrammar E g d).2 := by
  have step : ∀ (g' : Grammar) (op : GrammarOp) (d' : Dragon), g'.name = g.name →
      OnlyGrammar E (g, d') (g', (d'.call E (.grammar g.name op)).2) :=
    fun g' op d' h => OnlyGrammar.one (g, d') op h
  unfold unloadGrammar
  dsimp only
  split_ifs
  · exact step g _ _ rfl
  · exact (step g _ _ rfl).trans (step g _ _ rfl)
  · exact ((step g _ _ rfl).trans (step g _ _ rfl)).trans (step g _ _ rfl)
  · exact (((step g _ _ rfl).trans (step g _ _ rfl)).trans (step g _ _ rfl)).trans (step g _ _ rfl)
  · exact (((step g _ _ rfl).trans (step g _ _ rfl)).trans (step g _ _ rfl)).trans
      (step g.cleared _ _ rfl)

theorem unloadIfEnabled_only (g : Grammar) (d : Dragon) :
    OnlyGrammar E (g, d) (unloadIfEnabled E g d) := by
  unfold unloadIfEnabled
  split_ifs
  · exact unloadGrammar_only g d
  · exact .refl _

theorem loadGrammar_only (g : Grammar) (blob : List UInt8) (d : Dragon) :
    OnlyGrammar E (g, d) (loadGrammar E g blob d).2 := by
  refine ⟨loadGrammar_name g blob d, ?_⟩
  have one : ∀ (op : GrammarOp) (d' : Dragon),
      Calls E (Call.OnGrammar g.name) d' (d'.call E (.grammar g.name op)).2 :=
    fun op d' => .one _ ⟨op, rfl⟩ _
  unfold loadGrammar
  dsimp only
  split_ifs
  · exact one _ _
  · exact (one _ _).trans (one _ _)
  · exact ((one _ _).trans (one _ _)).trans (one _ _)
  · exact (((one _ _).trans (one _ _)).trans (one _ _)).trans (one _ _)
  · exact (((one _ _).trans (one _ _)).trans (one _ _)).trans (one _ _)

theorem foldl_only {α : Type*} {f : Grammar × Dragon → α → Grammar × Dragon}
    (hf : ∀ p a, OnlyGrammar E p (f p a)) (l : List α) (p : Grammar × Dragon) :
    OnlyGrammar E p (l.foldl f p) := Keyed.foldl_rel .refl .trans hf l p

theorem syncContents_only (g : Grammar) (shadow : GrammarState) (d : Dragon) :
    OnlyGrammar E (g, d) (syncContents E g shadow d) := by
  have ha : ∀ p r, OnlyGrammar E p (activateRule E p r) := by
    intro p r
    unfold activateRule; dsimp only; split_ifs <;> exact .one p _ rfl
  have hd : ∀ p r, OnlyGrammar E p (deactivateRule E p r) := by
    intro p r
    unfold deactivateRule; dsimp only; split_ifs <;> exact .one p _ rfl
  have hl : ∀ p e, OnlyGrammar E p (syncList E p e) := by
    intro p e
    unfold syncList setList
    dsimp only
    split_ifs
    · exact .one p _ rfl
    · exact .one p _ rfl
    · exact .refl p
  have hr : OnlyGrammar E (g, d) (syncRulesIfChanged E g shadow d) := by
    unfold syncRulesIfChanged syncRules
    split_ifs
    · exact (foldl_only ha _ _).trans (foldl_only hd _ _)
    · exact .refl _
  exact hr.trans (foldl_only hl _ _)

theorem syncGrammar_only (g : Grammar) (shadow : GrammarState) (d : Dragon) :
    OnlyGrammar E (g, d) (syncGrammar E g shadow d) := by
  have hu := unloadIfEnabled_only (E := E) { g with errors := [] } d
  rw [syncGrammar_eq]
  dsimp only
  split_ifs
  · exact hu.trans (loadGrammar_only _ _ _)
  · exact (hu.trans (loadGrammar_only _ _ _)).trans (syncContents_only _ _ _)
  · exact syncContents_only { g with errors := [] } shadow d

/-! ### Words -/

theorem addWord_calls (v : Vocabulary) (w : CString) :
    Calls E Call.OnWord v.dragon (addWord E v w).dragon := by
  have hv : Calls E Call.OnWord v.dragon (v.dragon.call E (.validateWord w)).2 :=
    .one _ ⟨w, .inl rfl⟩ _
  have ha : ∀ d : Dragon, Calls E Call.OnWord d (d.call E (.addTemporaryWord w)).2 :=
    fun d => .one _ ⟨w, .inr (.inl rfl)⟩ _
  unfold addWord
  dsimp only
  split_ifs
  · exact hv
  · exact hv
  · exact hv.trans (ha _)
  · exact hv.trans (ha _)

theorem removeWord_calls (v : Vocabulary) (w : CString) :
    Calls E Call.OnWord v.dragon (removeWord E v w).dragon := by
  unfold removeWord
  dsimp only
  split_ifs <;> exact .one _ ⟨w, .inr (.inr rfl)⟩ _

theorem setWords_calls (ws : OrdSet CString) (v : Vocabulary) :
    Calls E Call.OnWord v.dragon (setWords E ws v).dragon := by
  have fold : ∀ {f : Vocabulary → CString → Vocabulary},
      (∀ v w, Calls E Call.OnWord v.dragon (f v w).dragon) → ∀ (l : List CString) (v : Vocabulary),
      Calls E Call.OnWord v.dragon (l.foldl f v).dragon := fun hf l v =>
    Keyed.foldl_rel (R := fun a b : Vocabulary => Calls E Call.OnWord a.dragon b.dragon)
      (fun _ => .refl _) Calls.trans hf l v
  exact (fold addWord_calls _ _).trans (fold removeWord_calls _ _)

end Draconity
