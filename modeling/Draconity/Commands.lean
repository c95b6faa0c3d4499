import Draconity.Frame

/-!
What a request makes of the state, as one of a few steps.

`Handled` says which request leaves the store and the pause protocol alone; here the state itself is
given, so that whatever is kept by these steps is kept by every request.
-/

namespace Draconity

open Lib

variable {E : Env} {c : ClientId} {tid : UInt32} {f : Fields} {cmd : CString} {s : State}

/-- The steps of which a request takes one. -/
inductive Performs (E : Env) (c : ClientId) (tid : UInt32) (f : Fields) (s : State) : State → Prop
  | nothing : Performs E c tid f s s
  | ready (hcmd : f.cmd = some (.lit "ready")) : Performs E c tid f s (draconityReady E s)
  | words (ws : OrdSet CString) : Performs E c tid f s (setShadowWords c tid ws s)
  | grammar (name : CString) (shadow : GrammarState)
    (hcmd : f.cmd = some (.lit "g.set") ∨ f.cmd = some (.lit "g.unload"))
    (hn : f.name = some name) (hc : shadow.clientId = c) (ht : shadow.tid = tid)
    (hb : shadow.unload = false → shadow.blob ≠ []) :
    Performs E c tid f s (acceptGrammar E name shadow s)
  | setMicState (found : Found) (code : ℕ) (hcmd : f.cmd = some (.lit "mic.set_state")) :
    Performs E c tid f s { engineAcquire E found s with
      dragon := ((engineAcquire E found s).dragon.call E (.setMicState code)).2 }
  | unpause (hcmd : f.cmd = some (.lit "unpause")) :
    Performs E c tid f s (clientUnpause E c f.token s)
  | mimicFailed (phrase : List (List UInt8)) :
    Performs E c tid f s { s with dragon := (s.dragon.call E (.mimic phrase)).2 }
  | mimic (phrase : List (List UInt8)) :
    Performs E c tid f s { s with
      dragon := (s.dragon.call E (.mimic phrase)).2
      mimicQueue := s.mimicQueue ++ [(c, tid)] }

theorem wCommand_performs (found : Found) :
    Performs E c tid f s (wCommand E c tid cmd f found s).2 := by
  unfold wCommand wSet
  split_ifs
  · exact .nothing
  · exact .nothing
  · exact .nothing
  · dsimp only
    split_ifs
    · exact .nothing
    · split
      · exact .nothing
      · split
        · exact .nothing
        · exact .words _
  · exact .nothing

theorem gCommand_performs (hf : f.cmd = some cmd) :
    Performs E c tid f s (gCommand E c tid cmd f s).2 := by
  unfold gCommand
  by_cases hr : s.ready = false
  · rw [if_pos hr]
    exact .nothing
  rw [if_neg hr]
  cases hn : f.name with
  | none => exact .nothing
  | some name =>
    dsimp only
    by_cases hset : cmd = .lit "g.set"
    · rw [if_pos hset]
      cases hok : gSetState c tid f with
      | error e => exact .nothing
      | ok shadow =>
        obtain ⟨hclient, htid, hblob⟩ := gSetState_ok hok
        exact .grammar name shadow (.inl (hset ▸ hf)) hn hclient htid fun _ => hblob
    · rw [if_neg hset]
      split_ifs with hunload
      · exact .grammar name _ (.inr (hunload ▸ hf)) hn rfl rfl nofun
      · exact .nothing

theorem micSetState_performs (found : Found) (hf : f.cmd = some (.lit "mic.set_state")) :
    Performs E c tid f s (micSetState E f found s).2 := by
  unfold micSetState
  split
  · exact .nothing
  · split
    · exact .nothing
    · dsimp only
      split_ifs <;> exact .setMicState found _ hf

theorem mimic_performs : Performs E c tid f s (mimic E c tid f s).2 := by
  unfold mimic
  split
  · exact .nothing
  split
  · exact .nothing
  split
  · exact .nothing
  split
  · exact .nothing
  split
  · exact .nothing
  dsimp only
  split
  · exact .mimicFailed _
  · exact .mimic _

/-- **A request takes one of the steps.** -/
theorem dispatch_performs (E : Env) (c : ClientId) (tid : UInt32) (f : Fields) (found : Found)
    (s : State) : Performs E c tid f s (dispatch E c tid f found s).2 := by
  unfold dispatch
  cases hf : f.cmd with
  | none => exact .nothing
  | some cmd =>
    dsimp only
    split_ifs with hw hr hg hm hu
    · exact wCommand_performs found
    · exact .ready (hr ▸ hf)
    · exact gCommand_performs hf
    · exact micSetState_performs found (hm ▸ hf)
    · unfold unpause
      split_ifs
      · exact .nothing
      · exact .unpause (hu ▸ hf)
    · exact .nothing
    · exact mimic_performs
    · exact .nothing

end Draconity
