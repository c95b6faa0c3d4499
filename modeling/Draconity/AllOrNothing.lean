import Draconity.Sound

/-!
A sync is all-or-nothing for each name: an update is in force as a whole, or nothing is left of the
name, in the records and in the engine, and its client is told which.
-/

namespace Draconity

open Lib

variable {E : Env} {s s' : State} {n : CString} {shadow : GrammarState} {r : Answer GrammarError}

/-- No grammar is live under the name, and the engine holds none for it. -/
def State.Gone (s : State) (n : CString) : Prop :=
  s.grammars.lookup n = none ∧ ∀ h L, s.dragon.loaded.lookup h = some L → L.name ≠ n

/-- The set is in force, on the record and in the engine, and answered with success. -/
structure Applied (s : State) (n : CString) (shadow : GrammarState) (r : Answer GrammarError) :
    Prop where
  set : shadow.unload = false
  success : r.status = .success
  live : ∃ g, s.grammars.lookup n = some g ∧ g.enabled = true ∧ g.state.blob = shadow.blob ∧
    g.state.clientId = shadow.clientId ∧ g.state.tid = shadow.tid ∧
    g.state.activeRules = shadow.activeRules ∧
    ∃ L, s.dragon.loaded.lookup g.handle = some L ∧ L.name = n ∧ L.rules = g.state.activeRules

/-- The set failed: it is answered with its errors, and nothing is left of the name. -/
structure Rejected (s : State) (n : CString) (shadow : GrammarState) (r : Answer GrammarError) :
    Prop where
  set : shadow.unload = false
  error : r.status = .error
  errors : r.errors ≠ []
  gone : s.Gone n

/-- The unload is done and answered with success, and nothing is left of the name. -/
structure Unloaded (s : State) (n : CString) (shadow : GrammarState) (r : Answer GrammarError) :
    Prop where
  unload : shadow.unload = true
  success : r.status = .success
  gone : s.Gone n

theorem Sound.gone (hs : Sound s) (hn : s.grammars.lookup n = none) : s.Gone n :=
  ⟨hn, fun h => Dragon.heldFor_eq_none.1 (hs.absent n hn h)⟩

/-- A record that follows the shadow state is in force once the records and the engine agree. -/
theorem Sound.applied (hs : Sound s) {g : Grammar} (hn : s.grammars.lookup n = some g)
    (hf : Follows g shadow) (hu : shadow.unload = false) (hr : r.status = .success) :
    Applied s n shadow r := by
  obtain ⟨L, hL, hm⟩ := (hs.tied n g hn).live (hs.enabled n g hn)
  exact ⟨hu, hr, g, hn, hs.enabled n g hn, hf.blob, hf.clientId, hf.tid, hf.activeRules, L, hL,
    hm.name.trans (hs.name n g hn), hm.rules⟩

theorem Applied.not_rejected (h : Applied s n shadow r) : ¬ Rejected s n shadow r := fun h' =>
  absurd (h.success.symm.trans h'.error) nofun

theorem Applied.not_unloaded (h : Applied s n shadow r) : ¬ Unloaded s n shadow r := fun h' =>
  absurd (h.set.symm.trans h'.unload) nofun

theorem Rejected.not_unloaded (h : Rejected s n shadow r) : ¬ Unloaded s n shadow r := fun h' =>
  absurd (h.set.symm.trans h'.unload) nofun

/-- **A sync is all-or-nothing.**  After any history of updates, disconnects and syncs, with any
return codes of the calls that load, activate, deactivate and set lists, a sync answers each pending
update once, and exactly one of the three holds. -/
theorem syncState_allOrNothing (hE : E.Reliable) (hs : (store E).Reachable s)
    (hn : s.shadowGrammars.lookup n = some shadow) :
    ∃ r, gsetAnswers n (syncState E s) = gsetAnswers n s ++ [r] ∧
      r.clientId = shadow.clientId ∧ r.tid = shadow.tid ∧
      (Applied (syncState E s) n shadow r ∧ ¬ Rejected (syncState E s) n shadow r ∧
          ¬ Unloaded (syncState E s) n shadow r ∨
        ¬ Applied (syncState E s) n shadow r ∧ Rejected (syncState E s) n shadow r ∧
          ¬ Unloaded (syncState E s) n shadow r ∨
        ¬ Applied (syncState E s) n shadow r ∧ ¬ Rejected (syncState E s) n shadow r ∧
          Unloaded (syncState E s) n shadow r) := by
  have hafter := syncState_sound hE (sound_of_reachable hE hs) (pendingBlobs_of_reachable hs)
  obtain ⟨r, hans, hc, ht, h⟩ := syncState_pending (E := E) hn
  refine ⟨r, hans, hc, ht, ?_⟩
  cases h with
  | set g hu hr live follows =>
    have h := hafter.applied live follows hu hr
    exact .inl ⟨h, h.not_rejected, h.not_unloaded⟩
  | failed hu hr errors gone =>
    have h : Rejected (syncState E s) n shadow r := ⟨hu, hr, errors, hafter.gone gone⟩
    exact .inr (.inl ⟨fun h' => h'.not_rejected h, h, h.not_unloaded⟩)
  | unloaded hu hr gone =>
    have h : Unloaded (syncState E s) n shadow r := ⟨hu, hr, hafter.gone gone⟩
    exact .inr (.inr ⟨fun h' => h'.not_unloaded h, fun h' => h'.not_unloaded h, h⟩)

/-- A `g.set` of a client `3` is answered once by the sync that follows it. -/
theorem syncState_allOrNothing_set :
    ∃ r, gsetAnswers (.lit "g") (syncState .obliging
        (setShadowGrammar (.lit "g") ⟨[1], ∅, ∅, false, 3, 5⟩ (State.init 0))) = [r] ∧
      r.clientId = 3 ∧ r.tid = 5 := by
  have hs : (store .obliging).Reachable
      (setShadowGrammar (.lit "g") ⟨[1], ∅, ∅, false, 3, 5⟩ (State.init 0)) :=
    ⟨[.setGrammar (.lit "g") ⟨[1], ∅, ∅, false, 3, 5⟩], ⟨fun _ => List.cons_ne_nil _ _, trivial⟩, rfl⟩
  obtain ⟨r, h, hc, ht, -⟩ :=
    syncState_allOrNothing Env.obliging_allZero.reliable hs
      ((lookup_setShadowGrammar ..).trans (if_pos rfl))
  exact ⟨r, h, hc, ht⟩

end Draconity
