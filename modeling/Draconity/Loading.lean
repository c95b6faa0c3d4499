import Draconity.SyncGrammar

/-!
What `unload_grammar` and `load_grammar` leave behind, at whichever of their calls they end.

Both are chains of calls with a return after each.  `UnloadEnds` and `LoadEnds` list their outcomes,
each with the calls that were made, with what became of the record, and with what the engine then
holds on each handle.
-/

namespace Draconity

open Lib

variable {E : Env}

def Call.unloads : Call → Bool
  | .grammar _ (.unregister _ _) | .grammar _ (.destroy _) => true
  | _ => false

def Call.registers : Call → Bool
  | .grammar _ (.register _ _) => true
  | _ => false

/-- The entries `new` of the log lead from `d` to `d'`, and they are for the grammar of a name. -/
structure Made (E : Env) (name : CString) (d d' : Dragon) (new : Log) : Prop where
  log : d'.log = d.log ++ new
  on : ∀ c ∈ new, (∃ op, c.1 = .grammar name op) ∧ ∃ log, c.2 = E.rc log c.1

section Made

variable {name : CString} {d d' d'' : Dragon} {new new' : Log}

theorem Made.refl (name : CString) (d : Dragon) : Made E name d d [] :=
  ⟨(List.append_nil _).symm, nofun⟩

theorem Made.trans (h : Made E name d d' new) (h' : Made E name d' d'' new') :
    Made E name d d'' (new ++ new') where
  log := by rw [h'.log, h.log, List.append_assoc]
  on c hc := (List.mem_append.1 hc).elim (h.on c) (h'.on c)

theorem made_call (name : CString) (op : GrammarOp) (d : Dragon) :
    Made E name d (d.call E (.grammar name op)).2
      [(.grammar name op, (d.call E (.grammar name op)).1)] where
  log := rfl
  on c hc := by
    rw [List.mem_singleton.1 hc]
    exact ⟨⟨op, rfl⟩, d.log, rfl⟩

/-- A reliable engine does not fail to unload a grammar or to register its callbacks. -/
theorem Made.reliable (h : Made E name d d' new) (hE : E.Reliable) {c : Call × Int} (hc : c ∈ new)
    (hk : c.1.unloads = true ∨ c.1.registers = true) : c.2 = 0 := by
  obtain ⟨⟨op, hop⟩, log, hrc⟩ := h.on c hc
  rw [hop] at hk hrc
  rw [hrc]
  cases op with
  | unregister k key => exact hE.unregister ..
  | destroy k => exact hE.destroy ..
  | register cb k => exact hE.register ..
  | loadGrammar blob | activate k r | deactivate k r | setList k n l =>
    simp [Call.unloads, Call.registers] at hk

end Made

/-! ### Whose handle it is -/

namespace Dragon

variable {d : Dragon} {name : CString} {op : GrammarOp} {h : Handle}

def nameOf (d : Dragon) (h : Handle) : Option CString := (d.loaded.lookup h).map Loaded.name

theorem nameOf_eq_some : d.nameOf h = some name ↔
    ∃ L, d.loaded.lookup h = some L ∧ L.name = name := Option.map_eq_some_iff

theorem nameOf_call (hl : ∀ blob, op ≠ .loadGrammar blob) (hd : ∀ h, op ≠ .destroy h) :
    (d.call E (.grammar name op)).2.nameOf = d.nameOf := by
  have hupdate : ∀ (k : Handle) (f : Loaded → Loaded), (∀ L, (f L).name = L.name) →
      ∀ h, (if h = k then (d.loaded.lookup k).bind fun L => some (f L) else d.loaded.lookup h).map
        Loaded.name = (d.loaded.lookup h).map Loaded.name := by
    intro k f hf h
    split_ifs with hh
    · subst hh
      cases d.loaded.lookup h with
      | none => rfl
      | some L => exact congrArg some (hf L)
    · rfl
  funext h
  unfold nameOf
  rw [loaded_call]
  split_ifs
  · cases op with
    | loadGrammar blob => exact absurd rfl (hl blob)
    | destroy k => exact absurd rfl (hd k)
    | register cb k | unregister k key | activate k r | deactivate k r | setList k n l =>
      simp only [effect, grammarEffect, lookup_update]
      apply hupdate
      intro L
      rfl
  · rfl

theorem Fresh.nameOf_lt (hd : d.Fresh) (hn : d.nameOf h = some name) : h < d.next := by
  obtain ⟨L, hL, -⟩ := nameOf_eq_some.1 hn
  exact hd h L hL

end Dragon

/-! ### Unloading -/

inductive UnloadEnds (E : Env) (g : Grammar) (d : Dragon) (r : Int × Grammar × Dragon) : Prop
  /-- A call fails: the record stays, and the handle stays loaded. -/
  | failed (new : Log) (made : Made E g.name d r.2.2 new) (kind : ∀ c ∈ new, c.1.unloads = true)
      (fails : ∃ c ∈ new, c.2 ≠ 0) (rc : r.1 ≠ 0) (record : r.2.1 = g)
      (names : r.2.2.nameOf = d.nameOf)
  /-- All calls succeed: the record is cleared, and nothing is loaded on the handle. -/
  | done (new : Log) (made : Made E g.name d r.2.2 new) (kind : ∀ c ∈ new, c.1.unloads = true)
      (succeed : ∀ c ∈ new, c.2 = 0) (rc : r.1 = 0) (record : r.2.1 = g.cleared)
      (loaded : ∀ h, r.2.2.loaded.lookup h = if h = g.handle then none else d.loaded.lookup h)

theorem unloadGrammar_ends (E : Env) (g : Grammar) (d : Dragon) :
    UnloadEnds E g d (unloadGrammar E g d) := by
  have hnames : ∀ (d : Dragon) key,
      (d.call E (.grammar g.name (.unregister g.handle key))).2.nameOf = d.nameOf :=
    fun d key => Dragon.nameOf_call nofun nofun
  unfold unloadGrammar
  dsimp only
  have m₁ := made_call (E := E) g.name (.unregister g.handle g.endkey) d
  have n₁ := hnames d g.endkey
  generalize hr₁ : d.call E (.grammar g.name (.unregister g.handle g.endkey)) = r₁ at m₁ n₁ ⊢
  have m₂ := m₁.trans (made_call (E := E) g.name (.unregister g.handle g.hypokey) r₁.2)
  have n₂ := (hnames r₁.2 g.hypokey).trans n₁
  generalize hr₂ : r₁.2.call E (.grammar g.name (.unregister g.handle g.hypokey)) = r₂ at m₂ n₂ ⊢
  have m₃ := m₂.trans (made_call (E := E) g.name (.unregister g.handle g.beginkey) r₂.2)
  have n₃ := (hnames r₂.2 g.beginkey).trans n₂
  generalize hr₃ : r₂.2.call E (.grammar g.name (.unregister g.handle g.beginkey)) = r₃ at m₃ n₃ ⊢
  have m₄ := m₃.trans (made_call (E := E) g.name (.destroy g.handle) r₃.2)
  -- the first call that fails ends the unload, and the grammar stays loaded
  split_ifs with h₁ h₂ h₃ h₄
  · exact .failed _ m₁ (by simp [Call.unloads]) ⟨_, List.mem_singleton_self _, h₁⟩ h₁ rfl n₁
  · exact .failed _ m₂ (by simp [Call.unloads]) ⟨_, List.mem_append_right _
      (List.mem_singleton_self _), h₂⟩ h₂ rfl n₂
  · exact .failed _ m₃ (by simp [Call.unloads]) ⟨_, List.mem_append_right _
      (List.mem_singleton_self _), h₃⟩ h₃ rfl n₃
  · refine .failed _ m₄ (by simp [Call.unloads]) ⟨_, List.mem_append_right _
      (List.mem_singleton_self _), h₄⟩ h₄ rfl ?_
    rw [← n₃]
    unfold Dragon.nameOf
    rw [Dragon.loaded_call_of_ne h₄]
  · rw [not_not] at h₁ h₂ h₃ h₄
    refine .done _ m₄ (by simp [Call.unloads]) (by simp [h₁, h₂, h₃, h₄]) rfl rfl fun h => ?_
    rw [Dragon.loaded_call, if_pos h₄]
    subst hr₁ hr₂ hr₃
    simp only [Dragon.loaded_call, h₁, h₂, h₃, if_true, Dragon.effect, Dragon.grammarEffect,
      Dragon.lookup_update]
    by_cases hh : h = g.handle <;> simp [hh]

/-! ### Loading -/

inductive LoadEnds (E : Env) (g : Grammar) (blob : List UInt8) (d : Dragon)
    (r : Int × Grammar × Dragon) : Prop
  /-- The engine refuses the blob, and nothing changed but the errors. -/
  | refused (new : Log) (made : Made E g.name d r.2.2 new)
      (kind : ∀ c ∈ new, c.1.unloads = false ∧ c.1.registers = false) (rc : r.1 ≠ 0)
      (errors : r.2.1.errors ≠ []) (name : r.2.1.name = g.name) (handle : r.2.1.handle = g.handle)
      (enabled : r.2.1.enabled = g.enabled) (state : r.2.1.state = g.state)
      (loaded : r.2.2.loaded = d.loaded)
  /-- A callback is not registered: the record has the new handle, and does not become enabled. -/
  | stuck (new : Log) (made : Made E g.name d r.2.2 new) (kind : ∀ c ∈ new, c.1.unloads = false)
      (fails : ∃ c ∈ new, c.1.registers = true ∧ c.2 ≠ 0) (rc : r.1 ≠ 0)
      (errors : r.2.1.errors ≠ []) (name : r.2.1.name = g.name) (handle : r.2.1.handle = d.next)
      (enabled : r.2.1.enabled = g.enabled)
      (names : ∀ h, r.2.2.nameOf h = if h = d.next then some g.name else d.nameOf h)
      (frame : ∀ h, h ≠ d.next → r.2.2.loaded.lookup h = d.loaded.lookup h)
  /-- The blob is loaded on a new handle, with its three callbacks. -/
  | loaded (new : Log) (made : Made E g.name d r.2.2 new) (kind : ∀ c ∈ new, c.1.unloads = false)
      (succeed : ∀ c ∈ new, c.2 = 0) (rc : r.1 = 0) (errors : r.2.1.errors = g.errors)
      (name : r.2.1.name = g.name) (handle : r.2.1.handle = d.next)
      (enabled : r.2.1.enabled = true) (state : r.2.1.state = { g.state with blob := blob })
      (L : Loaded) (hname : L.name = g.name) (hblob : L.blob = blob) (hrules : L.rules = ∅)
      (hlists : L.lists = ∅)
      (hcallbacks : L.callbacks = [(r.2.1.endkey, .endPhrase), (r.2.1.hypokey, .phraseHypothesis),
        (r.2.1.beginkey, .beginPhrase)])
      (lookup : ∀ h, r.2.2.loaded.lookup h = if h = d.next then some L else d.loaded.lookup h)

/-- The blob was loaded from `d` on, and some callbacks were registered since. -/
structure Loads (E : Env) (g : Grammar) (d d' : Dragon) (new : Log) : Prop where
  made : Made E g.name d d' new
  kind : ∀ c ∈ new, c.1.unloads = false
  names : ∀ h, d'.nameOf h = if h = d.next then some g.name else d.nameOf h
  frame : ∀ h, h ≠ d.next → d'.loaded.lookup h = d.loaded.lookup h

theorem Loads.register {g : Grammar} {d d' : Dragon} {new : Log} (h : Loads E g d d' new)
    (cb : Callback) : Loads E g d (d'.call E (.grammar g.name (.register cb d.next))).2
      (new ++ [(.grammar g.name (.register cb d.next),
        (d'.call E (.grammar g.name (.register cb d.next))).1)]) := by
  constructor
  · exact h.made.trans (made_call (E := E) g.name (.register cb d.next) d')
  · intro c hc
    rcases List.mem_append.1 hc with hc | hc
    · exact h.kind c hc
    · rw [List.mem_singleton.1 hc]
      rfl
  · intro k
    have hnames : (d'.call E (.grammar g.name (.register cb d.next))).2.nameOf = d'.nameOf :=
      Dragon.nameOf_call nofun nofun
    rw [hnames]
    exact h.names k
  · intro k hk
    exact (Dragon.lookup_call_of_ne rfl hk).trans (h.frame k hk)

theorem loadGrammar_ends (E : Env) (g : Grammar) (blob : List UInt8) (d : Dragon) :
    LoadEnds E g blob d (loadGrammar E g blob d) := by
  have last : ∀ (l : Log) (c : Call × Int), c ∈ l ++ [c] := fun l c =>
    List.mem_append_right _ (List.mem_singleton_self _)
  unfold loadGrammar
  dsimp only
  have m₁ := made_call (E := E) g.name (.loadGrammar blob) d
  generalize hr₁ : d.call E (.grammar g.name (.loadGrammar blob)) = r₁ at m₁ ⊢
  by_cases h₁ : r₁.1 = 0
  · -- the blob is loaded, on the handle `d.next`
    have loaded : r₁.2.loaded = d.loaded.insert d.next ⟨g.name, blob, ∅, ∅, []⟩ := by
      rw [← hr₁, Dragon.loaded_call, if_pos (by rw [hr₁]; exact h₁)]
      rfl
    have l₁ : Loads E g d r₁.2 [(.grammar g.name (.loadGrammar blob), r₁.1)] := by
      refine ⟨m₁, by simp [Call.unloads], fun h => ?_, fun h hh => ?_⟩
      · unfold Dragon.nameOf
        rw [loaded, Keyed.lookup_insert_eq]
        split_ifs <;> rfl
      · rw [loaded, AList.lookup_insert_ne hh]
    have l₂ := l₁.register .endPhrase
    generalize hr₂ : r₁.2.call E (.grammar g.name (.register .endPhrase d.next)) = r₂ at l₂ ⊢
    have l₃ := l₂.register .phraseHypothesis
    generalize hr₃ : r₂.2.call E (.grammar g.name (.register .phraseHypothesis d.next)) = r₃
      at l₃ ⊢
    have l₄ := l₃.register .beginPhrase
    generalize hr₄ : r₃.2.call E (.grammar g.name (.register .beginPhrase d.next)) = r₄ at l₄ ⊢
    rw [if_neg (not_not.2 h₁)]
    -- the first callback that is refused ends the function
    split_ifs with h₂ h₃ h₄
    · exact .stuck _ l₂.made l₂.kind ⟨_, last _ _, rfl, h₂⟩ h₂ (recordError_errors_ne _ _ _ _ _)
        rfl rfl rfl l₂.names l₂.frame
    · exact .stuck _ l₃.made l₃.kind ⟨_, last _ _, rfl, h₃⟩ h₃ (recordError_errors_ne _ _ _ _ _)
        rfl rfl rfl l₃.names l₃.frame
    · exact .stuck _ l₄.made l₄.kind ⟨_, last _ _, rfl, h₄⟩ h₄ (recordError_errors_ne _ _ _ _ _)
        rfl rfl rfl l₄.names l₄.frame
    · rw [not_not] at h₂ h₃ h₄
      refine .loaded _ l₄.made l₄.kind (by simp [h₁, h₂, h₃, h₄]) rfl rfl rfl rfl rfl
        rfl ⟨g.name, blob, ∅, ∅, _⟩ rfl rfl rfl rfl rfl fun h => ?_
      split_ifs with hh
      · subst hr₂ hr₃ hr₄ hh
        simp only [Dragon.loaded_call, h₂, h₃, h₄, if_true, Dragon.effect, Dragon.grammarEffect,
          Dragon.lookup_update, loaded, AList.lookup_insert, Option.bind_some]
        rfl
      · exact l₄.frame h hh
  · -- the blob is refused
    rw [if_pos h₁]
    refine .refused _ m₁ (by simp [Call.unloads, Call.registers]) h₁
      (recordError_errors_ne _ _ _ _ _) rfl rfl rfl rfl ?_
    rw [← hr₁]
    exact Dragon.loaded_call_of_ne (by rw [hr₁]; exact h₁)

end Draconity
