import Draconity.Grammar

/-!
What `syncGrammar` does, in three layers.

* `Pass`: one call on a live grammar.  It never touches another handle, and when the record mirrors
  what the engine holds before the call (`Mirror`), it does so afterwards, whatever the return code.
* The record alone, for any return codes: when no error was recorded, the record is the shadow state
  (`syncGrammar_of_errors_nil`); when every call returns `0`, no error is recorded.
* The engine, when the calls that unload a grammar or register its callbacks succeed: the record and
  the engine stay `Tied`, and other grammars are left alone (`syncGrammar_tied`).
-/

namespace Draconity

open Lib

variable {E : Env}

/-! ### The record and the engine -/

/-- The grammar `L` of the engine is what the record `g` says. -/
structure Mirrors (g : Grammar) (L : Loaded) : Prop where
  name : L.name = g.name
  blob : L.blob = g.state.blob
  rules : L.rules = g.state.activeRules
  lists : ∀ n, L.lists.lookup n = (g.state.lists.lookup n).map OrdSet.toList
  callbacks : L.callbacks =
    [(g.endkey, .endPhrase), (g.hypokey, .phraseHypothesis), (g.beginkey, .beginPhrase)]

/-- The engine holds what the record says, on the handle of the record. -/
def Mirror (p : Grammar × Dragon) : Prop :=
  ∃ L, p.2.loaded.lookup p.1.handle = some L ∧ Mirrors p.1 L

def Grammar.cleared (g : Grammar) : Grammar :=
  { g with
    state := { g.state with activeRules := ∅, lists := ∅, blob := [], unload := true }
    enabled := false }

/-! ### One call on a live grammar -/

/-- What a call on the handle of a live grammar can change: the rules, the lists and the errors of
the record, and in the engine the grammar behind the handle. -/
structure Pass (p q : Grammar × Dragon) : Prop where
  name : q.1.name = p.1.name
  handle : q.1.handle = p.1.handle
  enabled : q.1.enabled = p.1.enabled
  blob : q.1.state.blob = p.1.state.blob
  errors : p.1.errors <+: q.1.errors
  frame : ∀ h, h ≠ p.1.handle → q.2.loaded.lookup h = p.2.loaded.lookup h
  fresh : p.2.Fresh → q.2.Fresh
  mirror : Mirror p → Mirror q

theorem Pass.refl (p : Grammar × Dragon) : Pass p p :=
  ⟨rfl, rfl, rfl, rfl, List.prefix_rfl, fun _ _ => rfl, id, id⟩

theorem Pass.trans {p q r : Grammar × Dragon} (h : Pass p q) (h' : Pass q r) : Pass p r where
  name := h'.name.trans h.name
  handle := h'.handle.trans h.handle
  enabled := h'.enabled.trans h.enabled
  blob := h'.blob.trans h.blob
  errors := h.errors.trans h'.errors
  frame k hk := (h'.frame k (h.handle ▸ hk)).trans (h.frame k hk)
  fresh hf := h'.fresh (h.fresh hf)
  mirror hm := h'.mirror (h.mirror hm)

theorem Pass.errors_nil {p q : Grammar × Dragon} (h : Pass p q) (hq : q.1.errors = []) :
    p.1.errors = [] := List.prefix_nil.1 (hq ▸ h.errors)

/-- A call that fails and is recorded. -/
theorem pass_recordError (p : Grammar × Dragon) {op : GrammarOp} (ho : op.handle = some p.1.handle)
    (type msg : String) (rc : Int) (n : CString)
    (hc : (p.2.call E (.grammar p.1.name op)).1 ≠ 0) :
    Pass p (p.1.recordError type msg rc n, (p.2.call E (.grammar p.1.name op)).2) where
  name := rfl
  handle := rfl
  enabled := rfl
  blob := rfl
  errors := List.prefix_append ..
  frame h hh := Dragon.lookup_call_of_ne ho hh
  fresh hf := hf.call _
  mirror := by
    rintro ⟨L, hL, hm⟩
    exact ⟨L, by rw [Dragon.loaded_call_of_ne hc]; exact hL,
      ⟨hm.name, hm.blob, hm.rules, hm.lists, hm.callbacks⟩⟩

/-- A call that is recorded when it fails, and else kept in the record. -/
theorem pass_attempt (p : Grammar × Dragon) {op : GrammarOp} (ho : op.handle = some p.1.handle)
    (type msg : String) (n : CString) {state : GrammarState} (hblob : state.blob = p.1.state.blob)
    (hmirror : ∀ L, p.2.loaded.lookup p.1.handle = some L → Mirrors p.1 L →
      ∃ L', (p.2.effect (.grammar p.1.name op)).loaded.lookup p.1.handle = some L' ∧
        Mirrors { p.1 with state } L') :
    let r := p.2.call E (.grammar p.1.name op)
    Pass p (if r.1 ≠ 0 then (p.1.recordError type msg r.1 n, r.2)
      else ({ p.1 with state }, r.2)) := by
  dsimp only
  split_ifs with hc
  · exact pass_recordError p ho _ _ _ _ hc
  · refine ⟨rfl, rfl, rfl, hblob, List.prefix_rfl, fun h hh => Dragon.lookup_call_of_ne ho hh,
      fun hf => hf.call _, ?_⟩
    rintro ⟨L, hL, hm⟩
    obtain ⟨L', hL', hm'⟩ := hmirror L hL hm
    refine ⟨L', ?_, hm'⟩
    rw [Dragon.loaded_call, if_pos (not_not.1 hc)]
    exact hL'

theorem activateRule_pass (p : Grammar × Dragon) (r : CString) : Pass p (activateRule E p r) := by
  refine pass_attempt p rfl _ _ _ rfl fun L hL hm => ⟨{ L with rules := L.rules.insert r }, ?_,
    ⟨hm.name, hm.blob, congrArg (OrdSet.insert r) hm.rules, hm.lists, hm.callbacks⟩⟩
  simp [Dragon.effect, Dragon.grammarEffect, hL]

theorem deactivateRule_pass (p : Grammar × Dragon) (r : CString) :
    Pass p (deactivateRule E p r) := by
  refine pass_attempt p rfl _ _ _ rfl fun L hL hm => ⟨{ L with rules := L.rules.erase r }, ?_,
    ⟨hm.name, hm.blob, congrArg (OrdSet.erase r) hm.rules, hm.lists, hm.callbacks⟩⟩
  simp [Dragon.effect, Dragon.grammarEffect, hL]

theorem setList_pass (p : Grammar × Dragon) (n : CString) (l : OrdSet CString) :
    Pass p (setList E p n l) := by
  refine pass_attempt p rfl _ _ _ rfl fun L hL hm =>
    ⟨{ L with lists := L.lists.insert n l.toList }, ?_,
      ⟨hm.name, hm.blob, hm.rules, fun k => ?_, hm.callbacks⟩⟩
  · simp [Dragon.effect, Dragon.grammarEffect, hL]
  · simp only [Keyed.lookup_insert_eq, hm.lists k]
    split_ifs <;> rfl

theorem syncList_pass (p : Grammar × Dragon) (e : Σ _ : CString, OrdSet CString) :
    Pass p (syncList E p e) := by
  unfold syncList
  split_ifs
  · exact setList_pass p _ _
  · exact Pass.refl p

theorem foldl_pass {α : Type*} {f : Grammar × Dragon → α → Grammar × Dragon}
    (hf : ∀ p a, Pass p (f p a)) (l : List α) (p : Grammar × Dragon) : Pass p (l.foldl f p) :=
  Keyed.foldl_rel Pass.refl Pass.trans hf l p

theorem syncRules_pass (g : Grammar) (shadow : GrammarState) (d : Dragon) :
    Pass (g, d) (syncRules E g shadow d) :=
  (foldl_pass activateRule_pass _ _).trans (foldl_pass deactivateRule_pass _ _)

theorem syncLists_pass (shadow : GrammarState) (p : Grammar × Dragon) :
    Pass p (syncLists E shadow p) := foldl_pass syncList_pass _ _

theorem syncRulesIfChanged_pass (g : Grammar) (shadow : GrammarState) (d : Dragon) :
    Pass (g, d) (syncRulesIfChanged E g shadow d) := by
  unfold syncRulesIfChanged
  split_ifs
  · exact syncRules_pass g shadow d
  · exact Pass.refl _

theorem syncContents_pass (g : Grammar) (shadow : GrammarState) (d : Dragon) :
    Pass (g, d) (syncContents E g shadow d) := by
  obtain ⟨h₁, h₂, h₃, h₄, h₅, h₆, h₇, h₈⟩ :=
    (syncRulesIfChanged_pass (E := E) g shadow d).trans (syncLists_pass shadow _)
  refine ⟨h₁, h₂, h₃, h₄, h₅, h₆, h₇, fun hm => ?_⟩
  obtain ⟨L, hL, hm⟩ := h₈ hm
  exact ⟨L, hL, ⟨hm.name, hm.blob, hm.rules, hm.lists, hm.callbacks⟩⟩

/-! ### The record, for any return codes -/

theorem recordError_errors_ne (g : Grammar) (type msg : String) (rc : Int) (n : CString) :
    (g.recordError type msg rc n).errors ≠ [] := by simp [Grammar.recordError]

theorem activateRule_of_errors_nil {p : Grammar × Dragon} {r : CString}
    (h : (activateRule E p r).1.errors = []) :
    (activateRule E p r).1.state.activeRules = p.1.state.activeRules.insert r := by
  unfold activateRule at h ⊢
  dsimp only at h ⊢
  split_ifs at h ⊢
  · exact (recordError_errors_ne _ _ _ _ _ h).elim
  · rfl

theorem deactivateRule_of_errors_nil {p : Grammar × Dragon} {r : CString}
    (h : (deactivateRule E p r).1.errors = []) :
    (deactivateRule E p r).1.state.activeRules = p.1.state.activeRules.erase r := by
  unfold deactivateRule at h ⊢
  dsimp only at h ⊢
  split_ifs at h ⊢
  · exact (recordError_errors_ne _ _ _ _ _ h).elim
  · rfl

theorem syncList_of_errors_nil {p : Grammar × Dragon} {e : Σ _ : CString, OrdSet CString}
    (h : (syncList E p e).1.errors = []) (n : CString) :
    (syncList E p e).1.state.lists.lookup n =
      if n = e.1 then some e.2 else p.1.state.lists.lookup n := by
  unfold syncList setList at h ⊢
  dsimp only at h ⊢
  split_ifs at h ⊢ with h₁ h₂ h₃ h₃ h₃
  · exact (recordError_errors_ne _ _ _ _ _ h).elim
  · exact (recordError_errors_ne _ _ _ _ _ h).elim
  · rw [h₃]; exact AList.lookup_insert _
  · exact AList.lookup_insert_ne h₃
  · rw [h₃]; exact not_not.1 h₁
  · rfl

theorem mem_foldl_activateRule {l : List CString} {p : Grammar × Dragon}
    (h : (l.foldl (activateRule E) p).1.errors = []) (r : CString) :
    r ∈ (l.foldl (activateRule E) p).1.state.activeRules ↔ r ∈ l ∨ r ∈ p.1.state.activeRules := by
  induction l generalizing p with
  | nil => simp
  | cons a l ih =>
    have ha := (foldl_pass (activateRule_pass (E := E)) l (activateRule E p a)).errors_nil h
    rw [List.foldl_cons, ih h, activateRule_of_errors_nil ha, OrdSet.mem_insert, List.mem_cons]
    tauto

theorem mem_foldl_deactivateRule {l : List CString} {p : Grammar × Dragon}
    (h : (l.foldl (deactivateRule E) p).1.errors = []) (r : CString) :
    r ∈ (l.foldl (deactivateRule E) p).1.state.activeRules ↔
      r ∉ l ∧ r ∈ p.1.state.activeRules := by
  induction l generalizing p with
  | nil => simp
  | cons a l ih =>
    have ha := (foldl_pass (deactivateRule_pass (E := E)) l (deactivateRule E p a)).errors_nil h
    rw [List.foldl_cons, ih h, deactivateRule_of_errors_nil ha, OrdSet.mem_erase, List.mem_cons]
    tauto

/-- The set differences meet: when no call failed, the rules are those asked for. -/
theorem syncRules_of_errors_nil {g : Grammar} {shadow : GrammarState} {d : Dragon}
    (h : (syncRules E g shadow d).1.errors = []) :
    (syncRules E g shadow d).1.state.activeRules = shadow.activeRules := by
  have h₁ := (foldl_pass (deactivateRule_pass (E := E)) _ _).errors_nil h
  ext r
  unfold syncRules at h ⊢
  rw [mem_foldl_deactivateRule h, mem_foldl_activateRule h₁, ← OrdSet.mem_def, ← OrdSet.mem_def,
    OrdSet.mem_diff, OrdSet.mem_diff]
  tauto

theorem syncRulesIfChanged_of_errors_nil {g : Grammar} {shadow : GrammarState} {d : Dragon}
    (h : (syncRulesIfChanged E g shadow d).1.errors = []) :
    (syncRulesIfChanged E g shadow d).1.state.activeRules = shadow.activeRules := by
  unfold syncRulesIfChanged at h ⊢
  split_ifs at h ⊢ with hr
  · exact syncRules_of_errors_nil h
  · exact not_not.1 hr

theorem lookup_foldl_syncList {l : List (Σ _ : CString, OrdSet CString)} (hl : l.NodupKeys)
    {p : Grammar × Dragon} (h : (l.foldl (syncList E) p).1.errors = []) (n : CString) :
    (l.foldl (syncList E) p).1.state.lists.lookup n =
      (l.dlookup n).or (p.1.state.lists.lookup n) := by
  induction l generalizing p with
  | nil => rfl
  | cons e l ih =>
    obtain ⟨he, hl⟩ := List.nodupKeys_cons.1 hl
    have h₁ := (foldl_pass (syncList_pass (E := E)) l (syncList E p e)).errors_nil h
    rw [List.foldl_cons, ih hl h, syncList_of_errors_nil h₁]
    by_cases hn : n = e.1
    · subst hn
      rw [List.dlookup_eq_none.2 he, if_pos rfl, List.dlookup_cons_eq]
      rfl
    · rw [if_neg hn, List.dlookup_cons_ne _ _ hn]

theorem lookup_syncLists {shadow : GrammarState} {p : Grammar × Dragon}
    (h : (syncLists E shadow p).1.errors = []) (n : CString) :
    (syncLists E shadow p).1.state.lists.lookup n =
      (shadow.lists.lookup n).or (p.1.state.lists.lookup n) := by
  have hp := E.listOrder_perm p.2.log shadow.lists.entries
  have hn : (E.listOrder p.2.log shadow.lists.entries).NodupKeys :=
    (List.perm_nodupKeys hp).2 shadow.lists.nodupKeys
  unfold syncLists at h ⊢
  rw [lookup_foldl_syncList hn h, List.perm_dlookup n hn hp]
  rfl

/-! ### What the loops leave of the record -/

theorem activateRule_lists (p : Grammar × Dragon) (r : CString) :
    (activateRule E p r).1.state.lists = p.1.state.lists := by
  unfold activateRule; dsimp only; split_ifs <;> rfl

theorem deactivateRule_lists (p : Grammar × Dragon) (r : CString) :
    (deactivateRule E p r).1.state.lists = p.1.state.lists := by
  unfold deactivateRule; dsimp only; split_ifs <;> rfl

theorem syncList_activeRules (p : Grammar × Dragon) (e : Σ _ : CString, OrdSet CString) :
    (syncList E p e).1.state.activeRules = p.1.state.activeRules := by
  unfold syncList setList; dsimp only; split_ifs <;> rfl

theorem syncRulesIfChanged_lists (g : Grammar) (shadow : GrammarState) (d : Dragon) :
    (syncRulesIfChanged E g shadow d).1.state.lists = g.state.lists := by
  unfold syncRulesIfChanged syncRules
  have keep : ∀ {f : Grammar × Dragon → CString → Grammar × Dragon},
      (∀ p r, (f p r).1.state.lists = p.1.state.lists) →
      ∀ (l : List CString) (p : Grammar × Dragon), (l.foldl f p).1.state.lists = p.1.state.lists := by
    intro f hf l p
    exact Keyed.foldl_rel (R := fun p q : Grammar × Dragon => q.1.state.lists = p.1.state.lists)
      (fun _ => rfl) (fun h h' => h'.trans h) hf l p
  split_ifs
  · exact (keep deactivateRule_lists _ _).trans (keep activateRule_lists _ _)
  · rfl

theorem syncLists_activeRules (shadow : GrammarState) (p : Grammar × Dragon) :
    (syncLists E shadow p).1.state.activeRules = p.1.state.activeRules :=
  Keyed.foldl_rel (R := fun p q : Grammar × Dragon => q.1.state.activeRules = p.1.state.activeRules)
    (fun _ => rfl) (fun h h' => h'.trans h) syncList_activeRules _ _

/-! ### Unloading and loading, for any return codes -/

/-- A load either fails and records why, or enables the grammar with the new blob. -/
theorem loadGrammar_record (g : Grammar) (blob : List UInt8) (d : Dragon) :
    ((loadGrammar E g blob d).1 ≠ 0 ∧ (loadGrammar E g blob d).2.1.errors ≠ [] ∧
        (loadGrammar E g blob d).2.1.enabled = g.enabled) ∨
      ((loadGrammar E g blob d).1 = 0 ∧ (loadGrammar E g blob d).2.1.errors = g.errors ∧
        (loadGrammar E g blob d).2.1.state = { g.state with blob := blob } ∧
        (loadGrammar E g blob d).2.1.enabled = true) := by
  unfold loadGrammar
  dsimp only
  split_ifs with h₁ h₂ h₃ h₄
  · exact .inl ⟨h₁, recordError_errors_ne _ _ _ _ _, rfl⟩
  · exact .inl ⟨h₂, recordError_errors_ne _ _ _ _ _, rfl⟩
  · exact .inl ⟨h₃, recordError_errors_ne _ _ _ _ _, rfl⟩
  · exact .inl ⟨h₄, recordError_errors_ne _ _ _ _ _, rfl⟩
  · exact .inr ⟨rfl, rfl, rfl, rfl⟩

theorem loadGrammar_name (g : Grammar) (blob : List UInt8) (d : Dragon) :
    (loadGrammar E g blob d).2.1.name = g.name := by
  unfold loadGrammar; dsimp only; split_ifs <;> rfl

/-! ### The whole of `sync_grammar`, for any return codes -/

theorem syncContents_of_errors_nil {g : Grammar} {shadow : GrammarState} {d : Dragon}
    (h : (syncContents E g shadow d).1.errors = []) :
    (syncContents E g shadow d).1.state.activeRules = shadow.activeRules ∧
      ∀ n, (syncContents E g shadow d).1.state.lists.lookup n =
        (shadow.lists.lookup n).or (g.state.lists.lookup n) := by
  have h₂ : (syncLists E shadow (syncRulesIfChanged E g shadow d)).1.errors = [] := h
  have h₁ := (syncLists_pass shadow _).errors_nil h₂
  refine ⟨?_, fun n => ?_⟩
  · exact (syncLists_activeRules shadow _).trans (syncRulesIfChanged_of_errors_nil h₁)
  · rw [← syncRulesIfChanged_lists (E := E) g shadow d]
    exact lookup_syncLists h₂ n

theorem syncContents_owner (g : Grammar) (shadow : GrammarState) (d : Dragon) :
    (syncContents E g shadow d).1.state.clientId = shadow.clientId ∧
      (syncContents E g shadow d).1.state.tid = shadow.tid := ⟨rfl, rfl⟩

theorem syncGrammar_eq (g : Grammar) (shadow : GrammarState) (d : Dragon) :
    syncGrammar E g shadow d =
      let g := { g with errors := [] }
      if g.state.blob ≠ shadow.blob then
        let u := unloadIfEnabled E g d
        let l := loadGrammar E u.1 shadow.blob u.2
        if l.1 ≠ 0 then l.2 else syncContents E l.2.1 shadow l.2.2
      else syncContents E g shadow d := rfl

/-- **The record after a sync without errors is the shadow state.** -/
theorem syncGrammar_of_errors_nil {g : Grammar} {shadow : GrammarState} {d : Dragon}
    (h : (syncGrammar E g shadow d).1.errors = []) :
    (syncGrammar E g shadow d).1.state.blob = shadow.blob ∧
      (syncGrammar E g shadow d).1.state.activeRules = shadow.activeRules ∧
      (syncGrammar E g shadow d).1.state.clientId = shadow.clientId ∧
      (syncGrammar E g shadow d).1.state.tid = shadow.tid := by
  rw [syncGrammar_eq] at h ⊢
  dsimp only at h ⊢
  split_ifs at h ⊢ with hb hl
  · rcases loadGrammar_record (E := E) _ _ _ with ⟨-, he, -⟩ | ⟨h0, -⟩
    · exact absurd h he
    · exact absurd h0 hl
  · rcases loadGrammar_record (E := E) _ _ _ with ⟨h0, -⟩ | ⟨-, -, hs, -⟩
    · exact absurd (not_not.1 hl) h0
    · refine ⟨?_, (syncContents_of_errors_nil h).1, syncContents_owner ..⟩
      rw [(syncContents_pass _ _ _).blob, hs]
  · refine ⟨?_, (syncContents_of_errors_nil h).1, syncContents_owner ..⟩
    rw [(syncContents_pass _ _ _).blob]
    exact not_not.1 hb

/-! ### When every call returns `0` -/

theorem syncContents_errors (hE : E.AllZero) (g : Grammar) (shadow : GrammarState) (d : Dragon) :
    (syncContents E g shadow d).1.errors = g.errors := by
  have keep : ∀ {α : Type} {f : Grammar × Dragon → α → Grammar × Dragon},
      (∀ p r, (f p r).1.errors = p.1.errors) →
      ∀ (l : List α) (p : Grammar × Dragon), (l.foldl f p).1.errors = p.1.errors := fun hf l p =>
    Keyed.foldl_rel (R := fun p q : Grammar × Dragon => q.1.errors = p.1.errors)
      (fun _ => rfl) (fun h h' => h'.trans h) hf l p
  have ha : ∀ p r, (activateRule E p r).1.errors = p.1.errors := by
    intro p r
    unfold activateRule; simp [Dragon.fst_call_allZero hE]
  have hd : ∀ p r, (deactivateRule E p r).1.errors = p.1.errors := by
    intro p r
    unfold deactivateRule; simp [Dragon.fst_call_allZero hE]
  have hl : ∀ p e, (syncList E p e).1.errors = p.1.errors := by
    intro p e
    unfold syncList setList
    simp only [Dragon.fst_call_allZero hE, ne_eq, not_true_eq_false, if_false]
    split_ifs <;> rfl
  have hr : (syncRulesIfChanged E g shadow d).1.errors = g.errors := by
    unfold syncRulesIfChanged syncRules
    split_ifs
    · exact (keep hd _ _).trans (keep ha _ _)
    · rfl
  exact (keep hl _ _).trans hr

theorem loadGrammar_allZero (hE : E.AllZero) (g : Grammar) (blob : List UInt8) (d : Dragon) :
    (loadGrammar E g blob d).1 = 0 := by
  unfold loadGrammar
  simp [Dragon.fst_call_allZero hE]

theorem unloadGrammar_allZero (hE : E.AllZero) (g : Grammar) (d : Dragon) :
    (unloadGrammar E g d).2.1 = g.cleared := by
  unfold unloadGrammar
  simp [Dragon.fst_call_allZero hE, Grammar.cleared]

theorem syncGrammar_errors (hE : E.AllZero) (g : Grammar) (shadow : GrammarState) (d : Dragon) :
    (syncGrammar E g shadow d).1.errors = [] := by
  rw [syncGrammar_eq]
  dsimp only
  split_ifs with hb hl
  · exact absurd (loadGrammar_allZero hE _ _ _) hl
  · rw [syncContents_errors hE]
    rcases loadGrammar_record (E := E) _ _ _ with ⟨h0, -⟩ | ⟨-, he, -⟩
    · exact absurd (not_not.1 hl) h0
    · rw [he]
      unfold unloadIfEnabled
      split_ifs
      · rw [unloadGrammar_allZero hE]; rfl
      · rfl
  · exact syncContents_errors hE ..

/-- **The lists after a sync.**  A changed blob starts from no lists, an unchanged one from those
the grammar had, and the lists of the shadow state go on top. -/
theorem lookup_lists_syncGrammar (hE : E.AllZero) {g : Grammar}
    (hg : g.enabled = true ∨ g.state.lists = ∅) (shadow : GrammarState) (d : Dragon)
    (n : CString) :
    (syncGrammar E g shadow d).1.state.lists.lookup n =
      (shadow.lists.lookup n).or
        (if g.state.blob = shadow.blob then g.state.lists.lookup n else none) := by
  have h := syncGrammar_errors hE g shadow d
  rw [syncGrammar_eq] at h ⊢
  dsimp only at h ⊢
  by_cases hb : g.state.blob = shadow.blob
  · rw [if_neg (not_not.2 hb)] at h ⊢
    rw [if_pos hb]
    exact (syncContents_of_errors_nil h).2 n
  · have hl := loadGrammar_allZero hE (unloadIfEnabled E { g with errors := [] } d).1 shadow.blob
      (unloadIfEnabled E { g with errors := [] } d).2
    rw [if_pos hb, if_neg (not_not.2 hl)] at h ⊢
    rw [if_neg hb, (syncContents_of_errors_nil h).2]
    rcases loadGrammar_record (E := E) _ _ _ with ⟨h0, -⟩ | ⟨-, -, hs, -⟩
    · exact absurd hl h0
    · rw [hs]
      unfold unloadIfEnabled
      split_ifs with he
      · rw [unloadGrammar_allZero hE]; rfl
      · rw [hg.resolve_left he]; rfl

end Draconity
