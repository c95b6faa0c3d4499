import Draconity.Shadow

/-!
The live grammars and the engine, over all runs of the store, when the calls that unload a grammar
or register its callbacks succeed.

`Sound` says that every live grammar is enabled and tied to the engine, and that the engine holds
nothing for any other name.  Every operation keeps it, and it makes a sync all-or-nothing for each
name.
-/

namespace Draconity

open Lib

variable {E : Env} {s s' : State} {n : CString} {shadow : GrammarState}

/-- The live grammars are what the engine holds. -/
structure Sound (s : State) : Prop where
  fresh : s.dragon.Fresh
  name : ∀ n g, s.grammars.lookup n = some g → g.name = n
  enabled : ∀ n g, s.grammars.lookup n = some g → g.enabled = true
  tied : ∀ n g, s.grammars.lookup n = some g → Tied g s.dragon
  absent : ∀ n, s.grammars.lookup n = none → ∀ h, s.dragon.heldFor n h = none

/-- A pending set has a blob. -/
def PendingBlobs (s : State) : Prop :=
  ∀ n sh, s.shadowGrammars.lookup n = some sh → sh.unload = false → sh.blob ≠ []

theorem Dragon.heldFor_congr {d d' : Dragon} (h : d'.loaded = d.loaded) (n : CString) :
    d'.heldFor n = d.heldFor n := by
  unfold Dragon.heldFor
  rw [h]

theorem pendingBlobs_init (t : UInt64) : PendingBlobs (State.init t) := fun _ _ h => nomatch h

theorem sound_init (t : UInt64) : Sound (State.init t) where
  fresh := Dragon.fresh_init
  name _ _ h := nomatch h
  enabled _ _ h := nomatch h
  tied _ _ h := nomatch h
  absent _ _ _ := rfl

theorem Sound.congr (hs : Sound s) (hg : s'.grammars = s.grammars)
    (hl : s'.dragon.loaded = s.dragon.loaded) (hn : s'.dragon.next = s.dragon.next) :
    Sound s' where
  fresh k L hL := by
    rw [hn]
    exact hs.fresh k L (hl ▸ hL)
  name n g h := hs.name n g (hg ▸ h)
  enabled n g h := hs.enabled n g (hg ▸ h)
  tied n g h := (hs.tied n g (hg ▸ h)).congr (Dragon.heldFor_congr hl _)
  absent n h k := by
    rw [Dragon.heldFor_congr hl]
    exact hs.absent n (hg ▸ h) k

theorem Sound.sameGrammars (hs : Sound s) (h : SameGrammars s s') : Sound s' :=
  hs.congr h.grammars h.loaded h.next

/-- The live grammar of a name, or the one a sync would make, is tied to the engine. -/
theorem Sound.grammarFor (hs : Sound s) (n : CString) :
    (s.grammarFor n).name = n ∧ Tied (s.grammarFor n) s.dragon := by
  unfold State.grammarFor
  cases hg : s.grammars.lookup n with
  | none => exact ⟨rfl, tied_new (hs.absent n hg)⟩
  | some g => exact ⟨hs.name n g hg, hs.tied n g hg⟩

/-- The grammar of one name is replaced, by one that is enabled or by none. -/
theorem Sound.replace (hs : Sound s) {g : Grammar} (hk : Keeps n s.dragon (g, s'.dragon))
    (frame : ∀ k, k ≠ n → s'.grammars.lookup k = s.grammars.lookup k)
    (h : s'.grammars.lookup n = some g ∧ g.enabled = true ∨
      s'.grammars.lookup n = none ∧ g.enabled = false) : Sound s' := by
  have other : ∀ k g', k ≠ n → s'.grammars.lookup k = some g' →
      g'.name = k ∧ g'.enabled = true ∧ Tied g' s'.dragon := by
    intro k g' hkn hg'
    rw [frame k hkn] at hg'
    have hname := hs.name k g' hg'
    exact ⟨hname, hs.enabled k g' hg', (hs.tied k g' hg').congr (hk.frame _ (hname ▸ hkn))⟩
  have own : ∀ g', s'.grammars.lookup n = some g' →
      g'.name = n ∧ g'.enabled = true ∧ Tied g' s'.dragon := by
    intro g' hg'
    rcases h with ⟨hg, he⟩ | ⟨hg, -⟩
    · rw [hg, Option.some.injEq] at hg'
      subst hg'
      exact ⟨hk.name, he, hk.tied⟩
    · rw [hg] at hg'; cases hg'
  have all : ∀ k g', s'.grammars.lookup k = some g' →
      g'.name = k ∧ g'.enabled = true ∧ Tied g' s'.dragon := by
    intro k g' hg'
    by_cases hkn : k = n
    · subst hkn; exact own g' hg'
    · exact other k g' hkn hg'
  refine ⟨hk.fresh, fun k g' hg' => (all k g' hg').1, fun k g' hg' => (all k g' hg').2.1,
    fun k g' hg' => (all k g' hg').2.2, fun k hg' j => ?_⟩
  by_cases hkn : k = n
  · subst hkn
    -- without a record nothing is held for the name, since the unload was complete
    rcases h with ⟨hg, -⟩ | ⟨-, he⟩
    · rw [hg] at hg'; cases hg'
    · have := hk.tied.heldFor_none he j
      rwa [hk.name] at this
  · rw [hk.frame k hkn]
    exact hs.absent k (frame k hkn ▸ hg') j

/-! ### One pass, and the loop -/

/-- A pass keeps the live grammars and the engine together, and leaves what the engine holds for
other names. -/
theorem syncEntry_sound (hE : E.Reliable) (hs : Sound s)
    (hb : shadow.unload = false → shadow.blob ≠ []) :
    Sound (syncEntry E s ⟨n, shadow⟩) ∧
      ∀ k, k ≠ n → (syncEntry E s ⟨n, shadow⟩).dragon.heldFor k = s.dragon.heldFor k := by
  have frame : ∀ k, k ≠ n → (syncEntry E s ⟨n, shadow⟩).grammars.lookup k = s.grammars.lookup k :=
    fun k hk => (syncEntry_of_ne s hk).1
  obtain ⟨hname, htied⟩ := hs.grammarFor n
  cases hu : shadow.unload with
  | true =>
    obtain ⟨hl, hd, -⟩ := syncEntry_unload (E := E) (n := n) hu s
    obtain ⟨hk, he⟩ := unloadIfEnabled_keeps
      (fun _ => unloadGrammar_reliable hE _ _) htied hs.fresh
    rw [hname] at hk
    rw [hd]
    refine ⟨hs.replace (g := (unloadIfEnabled E (s.grammarFor n) s.dragon).1) ?_ frame
      (.inr ⟨hl, he⟩), hk.frame⟩
    rw [hd]; exact hk
  | false =>
    obtain ⟨hk, hen⟩ := syncGrammar_keeps (E := E) hE htied hs.fresh (hb hu)
    rw [hname] at hk
    by_cases he : (syncGrammar E (s.grammarFor n) shadow s.dragon).1.errors = []
    · obtain ⟨hl, hd, -⟩ := syncEntry_set hu s he
      rw [hd]
      refine ⟨hs.replace (g := { (syncGrammar E (s.grammarFor n) shadow s.dragon).1 with
        errors := [] }) ?_ frame (.inl ⟨hl, hen he⟩), hk.frame⟩
      rw [hd]; exact ⟨hk.name, hk.tied.setErrors [], hk.fresh, hk.frame⟩
    · obtain ⟨hl, hd, -⟩ := syncEntry_set_error hu s he
      obtain ⟨hk', he'⟩ := unloadIfEnabled_keeps
        (fun _ => unloadGrammar_reliable hE _ _) hk.tied hk.fresh
      have hk'' := hk.trans hk'
      rw [hd]
      refine ⟨hs.replace (g := (unloadIfEnabled E
        (syncGrammar E (s.grammarFor n) shadow s.dragon).1
        (syncGrammar E (s.grammarFor n) shadow s.dragon).2).1) ?_ frame (.inr ⟨hl, he'⟩),
        hk''.frame⟩
      rw [hd]; exact hk''

/-- A sync keeps the live grammars and the engine together. -/
theorem syncState_sound (hE : E.Reliable) (hs : Sound s) (hb : PendingBlobs s) :
    Sound (syncState E s) := by
  obtain ⟨m, hm, heq⟩ := syncState_keeps (E := E) (hs.sameGrammars (syncWords_sameGrammars s))
    fun m n sh hn hm => (syncEntry_sound hE hm (hb n sh hn)).1
  rw [heq]
  exact hm.congr rfl rfl rfl

/-- What a sync does to a name with a pending update: the pass for it, from a sound state that shows
the name as it was. -/
theorem syncState_record_sound (hE : E.Reliable) (hs : Sound s) (hb : PendingBlobs s)
    (hn : s.shadowGrammars.lookup n = some shadow) :
    ∃ m : State, Sound m ∧ m.record n = s.record n ∧
      (syncState E s).record n = (syncEntry E m ⟨n, shadow⟩).record n := by
  have hw := syncWords_sameGrammars (E := E) s
  have hn' : (syncWords E s).shadowGrammars.lookup n = some shadow := by
    rw [hw.shadowGrammars]; exact hn
  obtain ⟨m, hm, hv, hv'⟩ := syncGrammars_record (E := E) (I := Sound)
    (fun m k sh hk hm => (syncEntry_sound hE hm (hb k sh (hw.shadowGrammars ▸ hk))).1)
    (hs.sameGrammars hw) hn'
  exact ⟨m, hm, hv.trans (Prod.ext (congrArg (AList.lookup n) hw.grammars) (hw.gset n)), hv'⟩

/-! ### Over all runs -/

theorem pendingBlobs_step (hs : PendingBlobs s) {op : Op} (ho : op.Enabled s) :
    PendingBlobs (op.apply E s) := by
  intro k sh hk
  cases op with
  | setGrammar n shadow =>
    rw [Op.apply, lookup_setShadowGrammar] at hk
    split_ifs at hk
    · cases hk; exact ho
    · exact hs k sh hk
  | setWords c tid ws =>
    exact hs k sh ((setShadowWords_sameGrammars c tid ws s).shadowGrammars ▸ hk)
  | disconnect c stack =>
    obtain ⟨h₁, h₂⟩ := lookup_clearClientState c stack s k
    by_cases ho : s.Owns c k
    · rw [Op.apply, h₁ ho] at hk
      cases hk
      exact fun h => nomatch h
    · exact hs k sh ((h₂ ho).symm.trans hk)
  | sync => cases hk
  | other s' => exact hs k sh (ho.shadowGrammars ▸ hk)

theorem sound_step (hE : E.Reliable) (hs : Sound s) (hb : PendingBlobs s) {op : Op}
    (ho : op.Enabled s) : Sound (op.apply E s) := by
  cases op with
  | setGrammar n shadow =>
    obtain ⟨hg, hd, -⟩ := setShadowGrammar_live n shadow s
    exact hs.congr hg (congrArg Dragon.loaded hd) (congrArg Dragon.next hd)
  | setWords c tid ws => exact hs.sameGrammars (setShadowWords_sameGrammars c tid ws s)
  | disconnect c stack => exact hs.congr rfl rfl rfl
  | sync => exact syncState_sound hE hs hb
  | other s' => exact hs.sameGrammars ho.sameGrammars

theorem pendingBlobs_of_reachable (h : (store E).Reachable s) : PendingBlobs s :=
  Machine.invariant (I := PendingBlobs) (pendingBlobs_init 0)
    (fun _ _ hs ho => pendingBlobs_step hs ho) h

/-- **The live grammars are what the engine holds**, after any history of the store. -/
theorem sound_of_reachable (hE : E.Reliable) (h : (store E).Reachable s) : Sound s :=
  (Machine.invariant (I := fun s => Sound s ∧ PendingBlobs s) ⟨sound_init 0, pendingBlobs_init 0⟩
    (fun _ _ hs ho => ⟨sound_step hE hs.1 hs.2 ho, pendingBlobs_step hs.2 ho⟩) h).1

end Draconity
