import Draconity.Calls
import Draconity.Tied
import Draconity.Store

/-!
What `sync_grammars` does to each name.

A pass of its loop touches one name only, so for each name the loop is the pass for its entry, taken
from a state that shows the name as it was at the start (`Lib.Keyed.foldl_view`).  This is used with
two views of a name: its record and its responses, for any return codes (`RecordView`), and with the
engine added, when unloads and registrations succeed (`EngineView`).
-/

namespace Draconity

open Lib

variable {E : Env} {s s' s'' s₀ : State} {n k : CString} {shadow : GrammarState}

/-! ### Frames -/

/-- Nothing of the words changed. -/
structure SameWords (s s' : State) : Prop where
  loadedWords : s'.loadedWords = s.loadedWords
  shadowWords : s'.shadowWords = s.shadowWords
  words : s'.dragon.words = s.dragon.words
  wset : ∀ c, wsetAnswers c s' = wsetAnswers c s

structure SameGrammars (s s' : State) : Prop where
  grammars : s'.grammars = s.grammars
  shadowGrammars : s'.shadowGrammars = s.shadowGrammars
  loaded : s'.dragon.loaded = s.dragon.loaded
  next : s'.dragon.next = s.dragon.next
  gset : ∀ n, gsetAnswers n s' = gsetAnswers n s

theorem SameStore.sameWords (h : SameStore s s') : SameWords s s' :=
  ⟨h.loadedWords, h.shadowWords, h.words, h.wset⟩

theorem SameStore.sameGrammars (h : SameStore s s') : SameGrammars s s' :=
  ⟨h.grammars, h.shadowGrammars, h.loaded, h.next, h.gset⟩

theorem SameWords.refl (s : State) : SameWords s s := ⟨rfl, rfl, rfl, fun _ => rfl⟩

theorem SameWords.trans (h : SameWords s s') (h' : SameWords s' s'') : SameWords s s'' :=
  ⟨h'.loadedWords.trans h.loadedWords, h'.shadowWords.trans h.shadowWords,
    h'.words.trans h.words, fun c => (h'.wset c).trans (h.wset c)⟩

theorem SameGrammars.trans (h : SameGrammars s s') (h' : SameGrammars s' s'') :
    SameGrammars s s'' :=
  ⟨h'.grammars.trans h.grammars, h'.shadowGrammars.trans h.shadowGrammars,
    h'.loaded.trans h.loaded, h'.next.trans h.next, fun n => (h'.gset n).trans (h.gset n)⟩

theorem removeGrammar_sameWords (g : Grammar) (s : State) :
    SameWords s (removeGrammar E n g s) :=
  ⟨rfl, rfl, (unloadIfEnabled_only g s.dragon).2.words, fun _ => rfl⟩

theorem sendGsetResponse_sameWords (c : ClientId) (tid : UInt32) (status : Status)
    (errors : List GrammarError) (s : State) :
    SameWords s (sendGsetResponse c tid n status errors s) :=
  ⟨rfl, rfl, rfl, fun c => by simp [sendGsetResponse, Issued.wset]⟩

theorem syncEntry_sameWords (s : State) (e : Σ _ : CString, GrammarState) :
    SameWords s (syncEntry E s e) := by
  unfold syncEntry syncUnload syncSet
  split_ifs with hu
  · dsimp only
    split
    · exact (removeGrammar_sameWords _ s).trans (sendGsetResponse_sameWords ..)
    · exact sendGsetResponse_sameWords ..
  · dsimp only
    generalize hg : (s.grammars.lookup e.1).getD (Grammar.new e.1) = g
    have h : SameWords s { s with
        grammars := s.grammars.insert e.1 { (syncGrammar E g e.2 s.dragon).1 with errors := [] }
        dragon := (syncGrammar E g e.2 s.dragon).2 } :=
      ⟨rfl, rfl, (syncGrammar_only g e.2 s.dragon).2.words, fun _ => rfl⟩
    split_ifs
    · exact h.trans (sendGsetResponse_sameWords ..)
    · exact (h.trans (removeGrammar_sameWords _ _)).trans (sendGsetResponse_sameWords ..)

theorem syncGrammars_sameWords (s : State) : SameWords s (syncGrammars E s) := by
  have h := Keyed.foldl_rel SameWords.refl SameWords.trans (syncEntry_sameWords (E := E))
    (E.grammarOrder s.syncs s.shadowGrammars.entries) s
  exact ⟨h.loadedWords, h.shadowWords, h.words, h.wset⟩

theorem handleWordFailures_sameGrammars (errors : List WordError) (s : State) :
    SameGrammars s (handleWordFailures E errors s) := by
  have hpass : ∀ s e, SameGrammars s (handleClientFailures errors s e) := fun s e =>
    ⟨rfl, rfl, rfl, rfl, fun n => by simp [handleClientFailures, sendWsetResponse, Issued.gset]; rfl⟩
  exact Keyed.foldl_rel (R := SameGrammars) (fun _ => ⟨rfl, rfl, rfl, rfl, fun _ => rfl⟩)
    SameGrammars.trans hpass _ s

theorem syncWords_sameGrammars (s : State) : SameGrammars s (syncWords E s) := by
  obtain ⟨hl, hn⟩ := (setWords_calls (E := E) (allShadowWords s)
    ⟨s.loadedWords, [], s.dragon⟩).loaded_next
  refine SameGrammars.trans ?_ (handleWordFailures_sameGrammars _ _)
  exact ⟨rfl, rfl, hl, hn, fun _ => rfl⟩

/-- What the loop of a sync goes through are the updates that were pending before it. -/
theorem mem_pending {e : Σ _ : CString, GrammarState} :
    e ∈ E.grammarOrder (syncWords E s).syncs (syncWords E s).shadowGrammars.entries ↔
      s.shadowGrammars.lookup e.1 = some e.2 := by
  rw [← (syncWords_sameGrammars (E := E) s).shadowGrammars]
  exact Keyed.mem_of_perm (E.grammarOrder_perm ..)

theorem handleWordFailures_syncs (errors : List WordError) (s : State) :
    (handleWordFailures E errors s).syncs = s.syncs :=
  Keyed.foldl_rel (f := handleClientFailures errors)
    (R := fun a b : State => b.syncs = a.syncs) (fun _ => rfl)
    (fun h h' => h'.trans h) (fun _ _ => rfl) _ s

theorem syncEntry_syncs (s : State) (e : Σ _ : CString, GrammarState) :
    (syncEntry E s e).syncs = s.syncs := by
  unfold syncEntry syncUnload syncSet
  dsimp only
  split_ifs
  · split <;> rfl
  · rfl
  · rfl

theorem syncState_syncs (s : State) : (syncState E s).syncs = s.syncs + 1 := by
  have hg : (syncGrammars E (syncWords E s)).syncs = (syncWords E s).syncs :=
    Keyed.foldl_rel (R := fun a b : State => b.syncs = a.syncs) (fun _ => rfl)
      (fun h h' => h'.trans h) syncEntry_syncs _ _
  exact congrArg (· + 1) (hg.trans (handleWordFailures_syncs _ _))

/-! ### One pass -/

def GrammarState.answer (shadow : GrammarState) (status : Status) (errors : List GrammarError) :
    Answer GrammarError := ⟨shadow.clientId, shadow.tid, status, errors⟩

/-- The live grammar of a name, or the one a sync would make. -/
def State.grammarFor (s : State) (n : CString) : Grammar :=
  (s.grammars.lookup n).getD (Grammar.new n)

theorem State.grammarFor_of_lookup {g : Grammar} (h : s.grammars.lookup n = some g) :
    s.grammarFor n = g := by
  unfold State.grammarFor
  rw [h]
  rfl

theorem gsetAnswers_send (c : ClientId) (tid : UInt32) (status : Status)
    (errors : List GrammarError) (s : State) :
    gsetAnswers k (sendGsetResponse c tid n status errors s) =
      gsetAnswers k s ++ if n = k then [⟨c, tid, status, errors⟩] else [] := by
  unfold sendGsetResponse
  rw [gsetAnswers_issue]
  simp only [Issued.gset]
  split_ifs <;> rfl

/-- The pass for an entry that unloads: the name is gone, and the client is told. -/
theorem syncEntry_unload (hu : shadow.unload = true) (s : State) :
    (syncEntry E s ⟨n, shadow⟩).grammars.lookup n = none ∧
      (syncEntry E s ⟨n, shadow⟩).dragon = (unloadIfEnabled E (s.grammarFor n) s.dragon).2 ∧
      gsetAnswers n (syncEntry E s ⟨n, shadow⟩) =
        gsetAnswers n s ++ [shadow.answer .success []] := by
  simp only [syncEntry, hu, if_true, syncUnload, State.grammarFor]
  rw [gsetAnswers_send, if_pos rfl]
  cases hg : s.grammars.lookup n with
  | none => exact ⟨hg, rfl, rfl⟩
  | some g => exact ⟨by simp [sendGsetResponse, State.issue, removeGrammar], rfl, rfl⟩

/-- The pass for an entry that sets: without an error, the synced record is live. -/
theorem syncEntry_set (hu : shadow.unload = false) (s : State)
    (he : (syncGrammar E (s.grammarFor n) shadow s.dragon).1.errors = []) :
    (syncEntry E s ⟨n, shadow⟩).grammars.lookup n =
        some { (syncGrammar E (s.grammarFor n) shadow s.dragon).1 with errors := [] } ∧
      (syncEntry E s ⟨n, shadow⟩).dragon = (syncGrammar E (s.grammarFor n) shadow s.dragon).2 ∧
      gsetAnswers n (syncEntry E s ⟨n, shadow⟩) =
        gsetAnswers n s ++ [shadow.answer .success []] := by
  unfold State.grammarFor at he ⊢
  simp only [syncEntry, hu, Bool.false_eq_true, if_false, syncSet, he, if_true]
  rw [gsetAnswers_send, if_pos rfl]
  exact ⟨by simp [sendGsetResponse, State.issue], rfl, rfl⟩

theorem syncEntry_set_error (hu : shadow.unload = false) (s : State)
    (he : (syncGrammar E (s.grammarFor n) shadow s.dragon).1.errors ≠ []) :
    (syncEntry E s ⟨n, shadow⟩).grammars.lookup n = none ∧
      (syncEntry E s ⟨n, shadow⟩).dragon =
        (unloadIfEnabled E (syncGrammar E (s.grammarFor n) shadow s.dragon).1
          (syncGrammar E (s.grammarFor n) shadow s.dragon).2).2 ∧
      gsetAnswers n (syncEntry E s ⟨n, shadow⟩) = gsetAnswers n s ++
        [shadow.answer .error (syncGrammar E (s.grammarFor n) shadow s.dragon).1.errors] := by
  unfold State.grammarFor at he ⊢
  simp only [syncEntry, hu, Bool.false_eq_true, if_false, syncSet, he]
  rw [gsetAnswers_send, if_pos rfl]
  exact ⟨by simp [sendGsetResponse, State.issue, removeGrammar], rfl, rfl⟩

theorem syncEntry_of_ne (s : State) {e : Σ _ : CString, GrammarState} (hk : k ≠ e.1) :
    (syncEntry E s e).grammars.lookup k = s.grammars.lookup k ∧
      gsetAnswers k (syncEntry E s e) = gsetAnswers k s := by
  have hk' : ¬ e.1 = k := fun h => hk h.symm
  unfold syncEntry syncUnload syncSet
  dsimp only
  split_ifs
  · rw [gsetAnswers_send, if_neg hk', List.append_nil]
    split
    · exact ⟨by simp [sendGsetResponse, State.issue, removeGrammar, hk], rfl⟩
    · exact ⟨rfl, rfl⟩
  · rw [gsetAnswers_send, if_neg hk', List.append_nil]
    exact ⟨by simp [sendGsetResponse, State.issue, hk], rfl⟩
  · rw [gsetAnswers_send, if_neg hk', List.append_nil]
    exact ⟨by simp [sendGsetResponse, State.issue, removeGrammar, hk], rfl⟩

/-! ### The loop, for any return codes -/

/-- What a state shows of a name: its record and its responses. -/
def State.record (n : CString) (s : State) : Option Grammar × List (Answer GrammarError) :=
  (s.grammars.lookup n, gsetAnswers n s)

/-- What the loop does to a name with an entry is what the pass for this entry does to it, with an
invariant `I` of the passes. -/
theorem syncGrammars_record {I : State → Prop}
    (hI : ∀ s n sh, s₀.shadowGrammars.lookup n = some sh → I s → I (syncEntry E s ⟨n, sh⟩))
    (h0 : I s₀) (hn : s₀.shadowGrammars.lookup n = some shadow) :
    ∃ m, I m ∧ m.record n = s₀.record n ∧
      (syncGrammars E s₀).record n = (syncEntry E m ⟨n, shadow⟩).record n := by
  have hp := E.grammarOrder_perm s₀.syncs s₀.shadowGrammars.entries
  exact Keyed.foldl_view Sigma.fst State.record
    (fun s e he hs => hI s e.1 e.2 ((Keyed.mem_of_perm hp).1 he) hs)
    (fun s e _ k _ hk => Prod.ext (syncEntry_of_ne s hk).1 (syncEntry_of_ne s hk).2)
    (Keyed.nodup_of_perm hp) h0 ((Keyed.mem_of_perm hp).2 hn)

/-- What the passes of a sync keep holds when they are done. -/
theorem syncState_keeps {I : State → Prop} (words : I (syncWords E s))
    (pass : ∀ m n sh, s.shadowGrammars.lookup n = some sh → I m → I (syncEntry E m ⟨n, sh⟩)) :
    ∃ m, I m ∧ syncState E s = { m with shadowGrammars := ∅, syncs := m.syncs + 1 } := by
  refine ⟨_, Keyed.foldl_inv (fun m e he hm => ?_) words, rfl⟩
  exact pass m e.1 e.2 (mem_pending.1 he) hm

/-- The same for what a state shows of a name: a sync does to it what the pass for it does. -/
theorem syncState_view {π : Type*} (view : CString → State → π) {I : State → Prop}
    (words : I (syncWords E s))
    (pass : ∀ m n sh, s.shadowGrammars.lookup n = some sh → I m → I (syncEntry E m ⟨n, sh⟩))
    (frame : ∀ m n sh k, s.shadowGrammars.lookup n = some sh → I m → k ≠ n →
      view k (syncEntry E m ⟨n, sh⟩) = view k m)
    (hn : s.shadowGrammars.lookup n = some shadow) :
    ∃ m m', I m ∧ I m' ∧ view n m = view n (syncWords E s) ∧
      view n m' = view n (syncEntry E m ⟨n, shadow⟩) ∧
      syncState E s = { m' with shadowGrammars := ∅, syncs := m'.syncs + 1 } := by
  have hp := E.grammarOrder_perm (syncWords E s).syncs (syncWords E s).shadowGrammars.entries
  have hI : ∀ m, ∀ e ∈ E.grammarOrder (syncWords E s).syncs (syncWords E s).shadowGrammars.entries,
      I m → I (syncEntry E m e) := fun m e he hm => pass m e.1 e.2 (mem_pending.1 he) hm
  have hmem : ⟨n, shadow⟩ ∈ E.grammarOrder (syncWords E s).syncs
      (syncWords E s).shadowGrammars.entries := mem_pending.2 hn
  obtain ⟨m, hm, hv, hv'⟩ := Keyed.foldl_view Sigma.fst view hI
    (fun m e he k hm hk => frame m e.1 e.2 k (mem_pending.1 he) hm hk) (Keyed.nodup_of_perm hp) words
    hmem
  exact ⟨m, _, hm, Keyed.foldl_inv hI words, hv, hv', rfl⟩

theorem syncState_view_of_none {π : Type*} (view : CString → State → π) {I : State → Prop}
    (words : I (syncWords E s))
    (pass : ∀ m n sh, s.shadowGrammars.lookup n = some sh → I m → I (syncEntry E m ⟨n, sh⟩))
    (frame : ∀ m n sh k, s.shadowGrammars.lookup n = some sh → I m → k ≠ n →
      view k (syncEntry E m ⟨n, sh⟩) = view k m)
    (hn : s.shadowGrammars.lookup n = none) :
    ∃ m, view n m = view n (syncWords E s) ∧
      syncState E s = { m with shadowGrammars := ∅, syncs := m.syncs + 1 } := by
  have hw := (syncWords_sameGrammars (E := E) s).shadowGrammars
  have hp := E.grammarOrder_perm (syncWords E s).syncs (syncWords E s).shadowGrammars.entries
  exact ⟨_, Keyed.foldl_view_of_notMem Sigma.fst view
    (fun m e he hm => pass m e.1 e.2 (mem_pending.1 he) hm)
    (fun m e he k hm hk => frame m e.1 e.2 k (mem_pending.1 he) hm hk) words
    (Keyed.notMem_of_perm hp (hw ▸ hn)), rfl⟩

theorem syncGrammars_record_of_none (hn : s.shadowGrammars.lookup n = none) :
    (syncGrammars E s).record n = s.record n := by
  have hp := E.grammarOrder_perm s.syncs s.shadowGrammars.entries
  exact Keyed.foldl_view_of_notMem Sigma.fst State.record (I := fun _ => True)
    (fun _ _ _ _ => trivial)
    (fun s e _ k _ hk => Prod.ext (syncEntry_of_ne s hk).1 (syncEntry_of_ne s hk).2) trivial
    (Keyed.notMem_of_perm hp hn)

end Draconity
