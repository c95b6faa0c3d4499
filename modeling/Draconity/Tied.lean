import Draconity.Calls
import Draconity.Loading

/-!
The record of a grammar and the engine agree, as long as the calls that unload a grammar or
register its callbacks succeed (`Env.Reliable`); every other call may fail.

`Tied g d` says that an enabled grammar is mirrored on its handle, that a grammar that is not
enabled has an empty record, and that the engine holds nothing else for its name.  Each function
keeps it and leaves what the engine holds for other names (`Dragon.heldFor`).
-/

namespace Draconity

open Lib

variable {E : Env}

/-- What the engine holds for a name. -/
def Dragon.heldFor (d : Dragon) (name : CString) (h : Handle) : Option Loaded :=
  (d.loaded.lookup h).filter fun L => decide (L.name = name)

theorem Dragon.heldFor_eq_some {d : Dragon} {name : CString} {h : Handle} {L : Loaded} :
    d.heldFor name h = some L ↔ d.loaded.lookup h = some L ∧ L.name = name := by
  simp [Dragon.heldFor, Option.filter_eq_some_iff]

theorem Dragon.heldFor_eq_none {d : Dragon} {name : CString} {h : Handle} :
    d.heldFor name h = none ↔ ∀ L, d.loaded.lookup h = some L → L.name ≠ name := by
  simp [Dragon.heldFor, Option.filter_eq_none_iff]

/-- The record of a grammar agrees with what the engine holds for its name. -/
structure Tied (g : Grammar) (d : Dragon) : Prop where
  live : g.enabled = true → Mirror (g, d)
  dead : g.enabled = false → g.state.blob = [] ∧ g.state.activeRules = ∅ ∧ g.state.lists = ∅
  only : ∀ h L, d.heldFor g.name h = some L → g.enabled = true ∧ h = g.handle

/-- A grammar that was just made, when the engine holds nothing for its name. -/
theorem tied_new {name : CString} {d : Dragon} (h : ∀ k, d.heldFor name k = none) :
    Tied (Grammar.new name) d where
  live := by simp [Grammar.new]
  dead _ := ⟨rfl, rfl, rfl⟩
  only k L hL := by
    rw [show (Grammar.new name).name = name from rfl, h k] at hL
    cases hL

/-- Of a grammar that is not enabled, the engine holds nothing. -/
theorem Tied.heldFor_none {g : Grammar} {d : Dragon} (ht : Tied g d) (hg : g.enabled = false)
    (h : Handle) : d.heldFor g.name h = none := by
  cases hL : d.heldFor g.name h with
  | none => rfl
  | some L => simpa [hg] using (ht.only h L hL).1

theorem Mirror.name_of_held {p : Grammar × Dragon} (hm : Mirror p) {L : Loaded}
    (hL : p.2.loaded.lookup p.1.handle = some L) : L.name = p.1.name := by
  obtain ⟨L', hL', hm⟩ := hm
  rw [hL', Option.some.injEq] at hL
  exact hL ▸ hm.name

theorem Tied.setErrors {g : Grammar} {d : Dragon} (h : Tied g d) (es : List GrammarError) :
    Tied { g with errors := es } d where
  live hg := by
    obtain ⟨L, hL, hm⟩ := h.live hg
    exact ⟨L, hL, ⟨hm.name, hm.blob, hm.rules, hm.lists, hm.callbacks⟩⟩
  dead := h.dead
  only := h.only

/-- Being tied is about what the engine holds for the name. -/
theorem Tied.congr {g : Grammar} {d d' : Dragon} (ht : Tied g d)
    (h : d'.heldFor g.name = d.heldFor g.name) : Tied g d' where
  live hg := by
    obtain ⟨L, hL, hm⟩ := ht.live hg
    have hheld : d'.heldFor g.name g.handle = some L := by
      rw [h]; exact Dragon.heldFor_eq_some.2 ⟨hL, hm.name⟩
    exact ⟨L, (Dragon.heldFor_eq_some.1 hheld).1, hm⟩
  dead := ht.dead
  only k L hL := ht.only k L (by rw [← h]; exact hL)

/-! ### Calls on a live grammar -/

theorem Pass.heldFor {p q : Grammar × Dragon} (h : Pass p q) (hm : Mirror p) {name : CString}
    (hn : name ≠ p.1.name) : q.2.heldFor name = p.2.heldFor name := by
  funext k
  by_cases hk : k = p.1.handle
  · have hq := h.mirror hm
    rw [Dragon.heldFor_eq_none.2 fun L hL => ?_, Dragon.heldFor_eq_none.2 fun L hL => ?_]
    · rw [hm.name_of_held (hk ▸ hL)]; exact hn.symm
    · rw [hq.name_of_held (by rw [h.handle, ← hk]; exact hL), h.name]; exact hn.symm
  · unfold Dragon.heldFor
    rw [h.frame k hk]

theorem Pass.tied {p q : Grammar × Dragon} (h : Pass p q) (hp : Tied p.1 p.2)
    (he : p.1.enabled = true) : Tied q.1 q.2 where
  live _ := h.mirror (hp.live he)
  dead hq := by rw [h.enabled, he] at hq; cases hq
  only k L hL := by
    rw [h.enabled, h.handle]
    by_cases hk : k = p.1.handle
    · exact ⟨he, hk⟩
    · rw [Dragon.heldFor_eq_some, h.frame k hk, h.name, ← Dragon.heldFor_eq_some] at hL
      exact hp.only k L hL

/-! ### Unloading -/

theorem unloadGrammar_of_zero {g : Grammar} {d : Dragon} (h0 : (unloadGrammar E g d).1 = 0) :
    (unloadGrammar E g d).2.1 = g.cleared ∧
      ∀ h, (unloadGrammar E g d).2.2.loaded.lookup h =
        if h = g.handle then none else d.loaded.lookup h := by
  cases unloadGrammar_ends E g d with
  | failed new made kind fails rc => exact absurd h0 rc
  | done new made kind succeed rc record loaded => exact ⟨record, loaded⟩

theorem unloadGrammar_reliable (hE : E.Reliable) (g : Grammar) (d : Dragon) :
    (unloadGrammar E g d).1 = 0 := by
  cases unloadGrammar_ends E g d with
  | failed new made kind fails rc =>
    obtain ⟨c, hc, hne⟩ := fails
    exact absurd (made.reliable hE hc (.inl (kind c hc))) hne
  | done new made kind succeed rc => exact rc

theorem unloadGrammar_tied {g : Grammar} {d : Dragon} (h0 : (unloadGrammar E g d).1 = 0)
    (ht : Tied g d) : Tied (unloadGrammar E g d).2.1 (unloadGrammar E g d).2.2 := by
  obtain ⟨hr, hl⟩ := unloadGrammar_of_zero h0
  rw [hr]
  refine ⟨fun h => (Bool.false_ne_true h).elim, fun _ => ⟨rfl, rfl, rfl⟩, fun h L hL => ?_⟩
  rw [Dragon.heldFor_eq_some, hl] at hL
  obtain ⟨hL, hn⟩ := hL
  split_ifs at hL with hh
  exact absurd (ht.only h L (Dragon.heldFor_eq_some.2 ⟨hL, hn⟩)).2 hh

theorem unloadGrammar_heldFor {g : Grammar} {d : Dragon} (h0 : (unloadGrammar E g d).1 = 0)
    (ht : Tied g d) (hg : g.enabled = true) {name : CString} (hn : name ≠ g.name) :
    (unloadGrammar E g d).2.2.heldFor name = d.heldFor name := by
  funext h
  by_cases hh : h = g.handle
  · rw [Dragon.heldFor_eq_none.2 fun L hL => ?_, Dragon.heldFor_eq_none.2 fun L hL => ?_]
    · rw [(ht.live hg).name_of_held (hh ▸ hL)]; exact hn.symm
    · rw [(unloadGrammar_of_zero h0).2, if_pos hh] at hL
      cases hL
  · unfold Dragon.heldFor
    rw [(unloadGrammar_of_zero h0).2, if_neg hh]

/-! ### Loading -/

/-- A load that succeeds ties the record to its new handle. -/
theorem loadGrammar_tied {g : Grammar} {blob : List UInt8} {d : Dragon}
    (h0 : (loadGrammar E g blob d).1 = 0) (ht : Tied g d) (hg : g.enabled = false) :
    Tied (loadGrammar E g blob d).2.1 (loadGrammar E g blob d).2.2 := by
  cases loadGrammar_ends E g blob d with
  | refused new made kind rc => exact absurd h0 rc
  | stuck new made kind fails rc => exact absurd h0 rc
  | loaded new made kind succeed rc errors name handle enabled state L h1 h2 h3 h4 h5 lookup =>
    refine ⟨fun _ => ⟨L, by rw [handle, lookup, if_pos rfl], ?_⟩, fun h => ?_,
      fun h K hK => ⟨enabled, ?_⟩⟩
    · obtain ⟨-, d2, d3⟩ := ht.dead hg
      refine ⟨h1.trans name.symm, ?_, ?_, fun n => ?_, h5⟩
      · rw [state]; exact h2
      · rw [state]; exact h3.trans d2.symm
      · rw [state, h4]
        show _ = (g.state.lists.lookup n).map _
        rw [d3]
        rfl
    · rw [enabled] at h; cases h
    · by_contra hne
      rw [name, Dragon.heldFor_eq_some, lookup, if_neg (handle ▸ hne), ← Dragon.heldFor_eq_some,
        ht.heldFor_none hg] at hK
      cases hK

theorem loadGrammar_heldFor (g : Grammar) (blob : List UInt8) {d : Dragon} (hd : d.Fresh)
    {name : CString} (hn : name ≠ g.name) :
    (loadGrammar E g blob d).2.2.heldFor name = d.heldFor name := by
  have other : ∀ d' : Dragon, (d'.nameOf d.next = some g.name) →
      (∀ h, h ≠ d.next → d'.loaded.lookup h = d.loaded.lookup h) →
      d'.heldFor name = d.heldFor name := by
    intro d' hnext hframe
    funext h
    by_cases hh : h = d.next
    · subst hh
      rw [Dragon.heldFor_eq_none.2 fun K hK => ?_, Dragon.heldFor_eq_none.2 fun K hK => ?_]
      · rw [hd.lookup_next] at hK; cases hK
      · obtain ⟨L, hL, hname⟩ := Dragon.nameOf_eq_some.1 hnext
        rw [hL, Option.some.injEq] at hK
        rw [← hK, hname]
        exact hn.symm
    · unfold Dragon.heldFor
      rw [hframe h hh]
  cases loadGrammar_ends E g blob d with
  | refused new made kind rc errors name handle enabled state loaded =>
    unfold Dragon.heldFor
    rw [loaded]
  | stuck new made kind fails rc errors name handle enabled names frame =>
    exact other _ ((names _).trans (if_pos rfl)) frame
  | loaded new made kind succeed rc errors name handle enabled state L h1 h2 h3 h4 h5 lookup =>
    refine other _ (Dragon.nameOf_eq_some.2 ⟨L, (lookup _).trans (if_pos rfl), h1⟩) fun h hh => ?_
    rw [lookup, if_neg hh]

/-! ### The whole of `sync_grammar` -/

/-- The grammar of a name and the engine after a step from `d` that keeps them tied and leaves
other names alone. -/
structure Keeps (n : CString) (d : Dragon) (p : Grammar × Dragon) : Prop where
  name : p.1.name = n
  tied : Tied p.1 p.2
  fresh : p.2.Fresh
  frame : ∀ k, k ≠ n → p.2.heldFor k = d.heldFor k

theorem Keeps.trans {n : CString} {d : Dragon} {p q : Grammar × Dragon} (h : Keeps n d p)
    (h' : Keeps p.1.name p.2 q) : Keeps n d q where
  name := h'.name.trans h.name
  tied := h'.tied
  fresh := h'.fresh
  frame k hk := (h'.frame k (h.name ▸ hk)).trans (h.frame k hk)

theorem unloadIfEnabled_keeps {g : Grammar} {d : Dragon}
    (h0 : g.enabled = true → (unloadGrammar E g d).1 = 0) (ht : Tied g d) (hd : d.Fresh) :
    Keeps g.name d (unloadIfEnabled E g d) ∧ (unloadIfEnabled E g d).1.enabled = false := by
  unfold unloadIfEnabled
  split_ifs with hg
  · have hr := (unloadGrammar_of_zero (h0 hg)).1
    exact ⟨⟨by rw [hr]; rfl, unloadGrammar_tied (h0 hg) ht, (unloadGrammar_only g d).2.fresh hd,
      fun n hn => unloadGrammar_heldFor (h0 hg) ht hg hn⟩, by rw [hr]; rfl⟩
  · exact ⟨⟨rfl, ht, hd, fun _ _ => rfl⟩, by simpa using hg⟩

theorem loadGrammar_keeps {g : Grammar} {blob : List UInt8} {d : Dragon}
    (h0 : (loadGrammar E g blob d).1 = 0) (ht : Tied g d) (hd : d.Fresh) (hg : g.enabled = false) :
    Keeps g.name d (loadGrammar E g blob d).2 :=
  ⟨loadGrammar_name .., loadGrammar_tied h0 ht hg, (loadGrammar_only g blob d).2.fresh hd,
    fun _ hn => loadGrammar_heldFor g blob hd hn⟩

/-- With reliable registrations, a load that fails leaves the record empty and the engine alone. -/
theorem loadGrammar_keeps_of_ne (hE : E.Reliable) {g : Grammar} {blob : List UInt8} {d : Dragon}
    (h0 : (loadGrammar E g blob d).1 ≠ 0) (ht : Tied g d) (hd : d.Fresh) (hg : g.enabled = false) :
    Keeps g.name d (loadGrammar E g blob d).2 := by
  refine ⟨loadGrammar_name .., ?_, (loadGrammar_only g blob d).2.fresh hd,
    fun _ hn => loadGrammar_heldFor g blob hd hn⟩
  cases loadGrammar_ends E g blob d with
  | refused new made kind rc errors name handle enabled state loaded =>
    refine ⟨fun h => ?_, fun _ => state ▸ ht.dead hg, fun h L hL => ?_⟩
    · rw [enabled, hg] at h; cases h
    · rw [name, Dragon.heldFor_eq_some, loaded, ← Dragon.heldFor_eq_some, ht.heldFor_none hg] at hL
      cases hL
  | stuck new made kind fails rc =>
    obtain ⟨c, hc, hr, hne⟩ := fails
    exact absurd (made.reliable hE hc (.inr hr)) hne
  | loaded new made kind succeed rc => exact absurd rc h0

theorem syncContents_keeps {g : Grammar} {d : Dragon} (ht : Tied g d) (hd : d.Fresh)
    (hg : g.enabled = true) (shadow : GrammarState) :
    Keeps g.name d (syncContents E g shadow d) ∧ (syncContents E g shadow d).1.enabled = true := by
  have h := syncContents_pass (E := E) g shadow d
  exact ⟨⟨h.name, h.tied ht hg, h.fresh hd, fun _ hn => h.heldFor (ht.live hg) hn⟩,
    h.enabled.trans hg⟩

/-- **The record and the engine after a sync of one grammar.**  They stay tied, other names are left
alone, and a sync without errors leaves an enabled grammar. -/
theorem syncGrammar_keeps (hE : E.Reliable) {g : Grammar} {d : Dragon} (ht : Tied g d)
    (hd : d.Fresh) {shadow : GrammarState} (hs : shadow.blob ≠ []) :
    Keeps g.name d (syncGrammar E g shadow d) ∧
      ((syncGrammar E g shadow d).1.errors = [] →
        (syncGrammar E g shadow d).1.enabled = true) := by
  have ht' := ht.setErrors []
  have hu0 : ∀ g d, (unloadGrammar E g d).1 = 0 := fun g d => unloadGrammar_reliable hE g d
  rw [syncGrammar_eq]
  dsimp only
  split_ifs with hb hl
  · obtain ⟨hu, hue⟩ := unloadIfEnabled_keeps (fun _ => hu0 _ _) ht' hd
    refine ⟨hu.trans (loadGrammar_keeps_of_ne hE hl hu.tied hu.fresh hue), fun he => ?_⟩
    rcases loadGrammar_record (E := E) _ _ _ with ⟨-, hne, -⟩ | ⟨h0, -⟩
    · exact absurd he hne
    · exact absurd h0 hl
  · obtain ⟨hu, hue⟩ := unloadIfEnabled_keeps (fun _ => hu0 _ _) ht' hd
    have hk := loadGrammar_keeps (not_not.1 hl) hu.tied hu.fresh hue
    rcases loadGrammar_record (E := E) _ _ _ with ⟨h0, -⟩ | ⟨-, -, -, he⟩
    · exact absurd (not_not.1 hl) h0
    · obtain ⟨hc, hce⟩ := syncContents_keeps (E := E) hk.tied hk.fresh he shadow
      exact ⟨(hu.trans hk).trans hc, fun _ => hce⟩
  · have hg : g.enabled = true := by
      by_contra hne
      exact hs ((not_not.1 hb).symm.trans (ht.dead (by simpa using hne)).1)
    obtain ⟨hc, hce⟩ := syncContents_keeps (E := E) ht' hd hg shadow
    exact ⟨hc, fun _ => hce⟩

end Draconity
