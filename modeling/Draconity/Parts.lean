import Draconity.Pause

/-!
What the events of the event loop are made of.

Each event is a sequence of syncs, of calls of the engine that are not on a grammar, and of changes
that touch neither the live grammars nor the engine.  So what relates the states before and after each
of these relates the states before and after an event (`step_parts`).
-/

namespace Draconity

open Lib

variable {E : Env} {R : State → State → Prop} {s : State} {c : ClientId} {tid : UInt32} {f : Fields}
  {cmd : CString}

def Call.OffGrammar (c : Call) : Prop := ∀ n op, c ≠ .grammar n op

/-- What relates the states before and after each part of an event. -/
structure Parts (E : Env) (R : State → State → Prop) : Prop where
  trans : ∀ {a b c}, R a b → R b c → R a c
  quiet : ∀ {s s' : State}, s'.grammars = s.grammars → s'.dragon = s.dragon → R s s'
  call : ∀ {s : State} {c : Call}, c.OffGrammar → R s { s with dragon := (s.dragon.call E c).2 }
  sync : ∀ s, R s (syncState E s)

section Parts

variable (hR : Parts E R)

include hR

theorem Parts.refl (s : State) : R s s := hR.quiet rfl rfl

theorem Parts.after {s s' m : State} (h : R m s') (hg : m.grammars = s.grammars)
    (hd : m.dragon = s.dragon) : R s s' := hR.trans (hR.quiet hg hd) h

theorem Parts.called {s s' : State} {c : Call} (hc : c.OffGrammar) (hg : s'.grammars = s.grammars)
    (hd : s'.dragon = (s.dragon.call E c).2) : R s s' :=
  hR.trans (hR.call hc) (hR.quiet hg hd)

theorem Parts.acceptGrammar (n : CString) (shadow : GrammarState) (s : State) :
    R s (acceptGrammar E n shadow s) := by
  obtain ⟨hg, hd, -⟩ := setShadowGrammar_live n shadow s
  rw [acceptGrammar_eq]
  split_ifs
  · exact hR.quiet hg hd
  · exact hR.after (hR.sync _) hg hd

theorem Parts.doUnpause (s : State) : R s (doUnpause E s) := by
  unfold Draconity.doUnpause
  split_ifs
  · exact hR.called (c := .resume s.pauseToken) nofun rfl rfl
  · exact hR.refl s

theorem Parts.clientUnpause (c : ClientId) (token : UInt64) (s : State) :
    R s (clientUnpause E c token s) := by
  unfold Draconity.clientUnpause
  dsimp only
  split_ifs
  · exact hR.after (hR.doUnpause _) rfl rfl
  · exact hR.quiet rfl rfl
  · exact hR.refl s

/-! ### Requests -/

theorem Parts.wCommand (found : Found) (s : State) : R s (wCommand E c tid cmd f found s).2 := by
  unfold Draconity.wCommand wSet
  split_ifs
  · exact hR.refl s
  · exact hR.refl s
  · exact hR.refl s
  · dsimp only
    split_ifs
    · exact hR.refl s
    · split
      · exact hR.refl s
      · split
        · exact hR.refl s
        · exact hR.quiet (setShadowWords_sameGrammars c tid _ s).grammars
            (setShadowWords_live tid _ s).2.1
  · exact hR.refl s

theorem Parts.gCommand (s : State) : R s (gCommand E c tid cmd f s).2 := by
  unfold Draconity.gCommand
  by_cases hr : s.ready = false
  · rw [if_pos hr]
    exact hR.refl s
  rw [if_neg hr]
  cases f.name with
  | none => exact hR.refl s
  | some name =>
    dsimp only
    by_cases hset : cmd = .lit "g.set"
    · rw [if_pos hset]
      cases gSetState c tid f with
      | error e => exact hR.refl s
      | ok shadow => exact hR.acceptGrammar name shadow s
    · rw [if_neg hset]
      split_ifs
      · exact hR.acceptGrammar name _ s
      · exact hR.refl s

theorem Parts.mimic (s : State) : R s (mimic E c tid f s).2 := by
  unfold Draconity.mimic
  split
  · exact hR.refl s
  split
  · exact hR.refl s
  split
  · exact hR.refl s
  split
  · exact hR.refl s
  split
  · exact hR.refl s
  dsimp only
  split <;> exact hR.called (c := .mimic _) nofun rfl rfl

theorem Parts.unpause (s : State) : R s (unpause E c f s).2 := by
  unfold Draconity.unpause
  split_ifs
  · exact hR.refl s
  · exact hR.clientUnpause ..

theorem Parts.draconityReady (s : State) : R s (draconityReady E s) := by
  unfold Draconity.draconityReady
  split_ifs <;> exact hR.quiet rfl rfl

theorem Parts.engineAcquire (found : Found) (s : State) : R s (engineAcquire E found s) :=
  engineAcquire_rel hR.refl hR.trans (fun _ _ => hR.quiet rfl rfl) hR.draconityReady found s

theorem Parts.micSetState (found : Found) (s : State) : R s (micSetState E f found s).2 := by
  unfold Draconity.micSetState
  split
  · exact hR.refl s
  · split
    · exact hR.refl s
    · dsimp only
      split_ifs <;> exact hR.trans (hR.engineAcquire found s) (hR.call nofun)

theorem Parts.dispatch (found : Found) (s : State) : R s (dispatch E c tid f found s).2 := by
  unfold Draconity.dispatch
  split
  · exact hR.refl s
  · split_ifs
    · exact hR.wCommand found s
    · exact hR.draconityReady s
    · exact hR.gCommand s
    · exact hR.micSetState found s
    · exact hR.unpause s
    · exact hR.refl s
    · exact hR.mimic s
    · exact hR.refl s

/-! ### Events -/

/-- **An event is made of parts.** -/
theorem step_parts (s : State) (e : Event) : R s (step E s e) := by
  cases e with
  | connect => exact hR.quiet rfl rfl
  | close c stack =>
    by_cases h0 : s.pauseToken = 0
    · rw [step, handleClose_of_not_paused h0]
      exact hR.quiet rfl rfl
    · rw [step, handleClose_of_paused h0]
      exact hR.trans (hR.after (hR.sync (clearClientState c stack (s.dropClient c))) rfl rfl)
        (hR.clientUnpause ..)
  | message c tid msg found =>
    cases msg with
    | none => exact hR.refl s
    | some root => exact hR.trans (hR.dispatch found s) (hR.quiet rfl rfl)
  | paused token =>
    have hafter : ∀ s, R s (afterPauseSync E token s) := by
      intro s
      unfold afterPauseSync
      split_ifs
      · exact hR.doUnpause s
      · exact hR.quiet rfl rfl
    exact hR.trans (hR.after (hR.sync { s with pauseToken := token }) rfl rfl) (hafter _)
  | timer => exact hR.after (hR.doUnpause { s with pauseTimer := false }) rfl rfl
  | ready => exact hR.draconityReady s
  | mimicDone stale =>
    show R s (draconityMimicDone stale s)
    unfold draconityMimicDone
    split <;> exact hR.quiet rfl rfl

end Parts

end Draconity
