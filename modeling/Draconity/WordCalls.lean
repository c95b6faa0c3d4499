import Draconity.Commands
import Draconity.Logged

/-!
Which words Dragon is asked to add and to delete, over whole runs.

Whatever the calls return, no word is added that Dragon has or that it did not just find valid, and
none is deleted that it does not have.  What Dragon has is read off its log.
-/

namespace Draconity

open Lib

/-- A call that may follow the log: a word is added when it was just found valid and Dragon does not
have it, and deleted when Dragon has it. -/
structure WordCall (E : Env) (log : Log) (c : Call) : Prop where
  add : ∀ w, c = .addTemporaryWord w → ¬ InVocabulary log w ∧
    ∃ pre rc, log = pre ++ [(.validateWord w, rc)] ∧ E.valid pre w = true
  delete : ∀ w, c = .deleteWord w → InVocabulary log w

/-- Each call of the log may follow those before it. -/
def Asked (E : Env) (log : Log) : Prop := ∀ pre e post, log = pre ++ e :: post → WordCall E pre e.1

/-- The words are those Dragon has, its log says so, and each of its calls was one that may be made. -/
structure Careful (E : Env) (words : OrdSet CString) (d : Dragon) : Prop where
  knows : words = d.words
  logged : Logged d
  asked : Asked E d.log

variable {E : Env} {d d' : Dragon} {c : Call} {words : OrdSet CString} {v : Vocabulary}
  {l : List CString} {s s' : State} {a w : CString}

theorem careful_init : Careful E ∅ Dragon.init where
  knows := rfl
  logged a := by
    refine iff_of_false (OrdSet.notMem_empty a) ?_
    rintro ⟨pre, post, hlog, -⟩
    simp [Dragon.init] at hlog
  asked pre e post h := by simp [Dragon.init] at h

theorem Asked.snoc {log : Log} {rc : Int} (h : Asked E log) (hc : WordCall E log c) :
    Asked E (log ++ [(c, rc)]) := by
  intro pre e post hlog
  rcases List.eq_nil_or_concat' post with rfl | ⟨post, e', rfl⟩
  · obtain ⟨rfl, he⟩ := List.append_inj' hlog rfl
    rw [← List.singleton_inj.1 he]
    exact hc
  · rw [← List.cons_append, ← List.append_assoc] at hlog
    exact h pre e post (List.append_inj' hlog rfl).1

namespace Careful

theorem mem_iff (h : Careful E words d) : a ∈ words ↔ InVocabulary d.log a := by
  rw [h.knows]
  exact h.logged a

theorem call (h : Careful E words d) (hc : WordCall E d.log c) :
    Careful E (d.call E c).2.words (d.call E c).2 where
  knows := rfl
  logged := h.logged.call c
  asked := by
    rw [Dragon.log_call]
    exact h.asked.snoc hc

/-! ### Calls that are not on a word -/

theorem offWord (h : Careful E words d) (hc : ¬ c.OnWord) : Careful E words (d.call E c).2 := by
  have hwords : (d.call E c).2.words = words := by
    rw [Dragon.words_call, h.knows]
    split_ifs
    · cases c with
      | grammar n op => exact Dragon.effect_of_onGrammar ⟨op, rfl⟩ d
      | validateWord w | addTemporaryWord w | deleteWord w => exact absurd ⟨w, by simp⟩ hc
      | resume _ | mimic _ | setMicState _ => rfl
    · rfl
  have hcall := h.call (c := c)
    ⟨fun w hw => absurd ⟨w, .inr (.inl hw)⟩ hc, fun w hw => absurd ⟨w, .inr (.inr hw)⟩ hc⟩
  rwa [hwords] at hcall

theorem grammarCalls {n : CString} (h : Careful E words d) (hcalls : Calls E (Call.OnGrammar n) d d') :
    Careful E words d' := by
  induction hcalls with
  | refl => exact h
  | snoc c _ hc ih =>
    refine ih.offWord ?_
    rintro ⟨w, rfl | rfl | rfl⟩ <;> obtain ⟨op, hop⟩ := hc <;> cases hop

/-! ### The two loops of `set_words` -/

theorem addWord (h : Careful E v.loaded v.dragon) (hw : w ∉ v.loaded) :
    Careful E (addWord E v w).loaded (addWord E v w).dragon := by
  have hval := h.call (c := .validateWord w) ⟨nofun, nofun⟩
  have hsame : (v.dragon.call E (.validateWord w)).2.words = v.loaded := by
    rw [Dragon.words_call, h.knows]
    exact ite_self _
  have hmissing : ¬ InVocabulary (v.dragon.call E (.validateWord w)).2.log w := by
    rw [← hval.mem_iff, hsame]
    exact hw
  have hadd : E.valid v.dragon.log w = true →
      WordCall E (v.dragon.call E (.validateWord w)).2.log (.addTemporaryWord w) := fun hvalid =>
    ⟨fun w' hw' => by
      cases hw'
      exact ⟨hmissing, _, _, Dragon.log_call .., hvalid⟩, nofun⟩
  rw [addWord_knows (E := E) h.knows w]
  unfold Draconity.addWord
  dsimp only
  split_ifs with hinvalid
  · exact hval
  · exact hval
  · exact hval.call (hadd (by simpa using hinvalid))
  · exact hval.call (hadd (by simpa using hinvalid))

theorem removeWord (h : Careful E v.loaded v.dragon) (hw : w ∈ v.loaded) :
    Careful E (removeWord E v w).loaded (removeWord E v w).dragon := by
  have hcall := h.call (c := .deleteWord w) ⟨nofun, fun w' hw' => by
    cases hw'
    exact h.mem_iff.1 hw⟩
  have hdragon : (Draconity.removeWord E v w).dragon = (v.dragon.call E (.deleteWord w)).2 := by
    unfold Draconity.removeWord
    dsimp only
    split_ifs <;> rfl
  rw [removeWord_knows (E := E) h.knows w, hdragon]
  exact hcall

theorem addWords (h : Careful E v.loaded v.dragon) (hl : l.Nodup) (hnew : ∀ a ∈ l, a ∉ v.loaded) :
    Careful E (l.foldl (Draconity.addWord E) v).loaded (l.foldl (Draconity.addWord E) v).dragon := by
  induction l generalizing v with
  | nil => exact h
  | cons w l ih =>
    obtain ⟨hw, hl⟩ := List.nodup_cons.1 hl
    obtain ⟨calls, errs, hloop⟩ := addWord_loop (E := E) v w
    refine ih (h.addWord (hnew w (List.mem_cons_self ..))) hl fun a ha => ?_
    have hne : ¬ (a ∈ [w] ∧ (.addTemporaryWord a, 0) ∈ calls) := fun hc =>
      hw (List.mem_singleton.1 hc.1 ▸ ha)
    rw [hloop.loaded, if_neg hne]
    exact hnew a (List.mem_cons_of_mem _ ha)

theorem removeWords (h : Careful E v.loaded v.dragon) (hl : l.Nodup) (hold : ∀ a ∈ l, a ∈ v.loaded) :
    Careful E (l.foldl (Draconity.removeWord E) v).loaded
      (l.foldl (Draconity.removeWord E) v).dragon := by
  induction l generalizing v with
  | nil => exact h
  | cons w l ih =>
    obtain ⟨hw, hl⟩ := List.nodup_cons.1 hl
    obtain ⟨calls, errs, hloop⟩ := removeWord_loop (E := E) v w
    refine ih (h.removeWord (hold w (List.mem_cons_self ..))) hl fun a ha => ?_
    have hne : ¬ (a ∈ [w] ∧ (.deleteWord a, 0) ∈ calls) := fun hc =>
      hw (List.mem_singleton.1 hc.1 ▸ ha)
    rw [hloop.loaded, if_neg hne]
    exact hold a (List.mem_cons_of_mem _ ha)

/-- The second loop finds the words that the first one left. -/
theorem setWords (h : Careful E v.loaded v.dragon) (new : OrdSet CString) :
    Careful E (setWords E new v).loaded (setWords E new v).dragon := by
  have hadded := h.addWords (OrdSet.nodup (new.diff v.loaded))
    fun a ha => (OrdSet.mem_diff.1 (OrdSet.mem_def.2 ha)).2
  obtain ⟨calls, errs, hloop⟩ := wordLoop_foldl addTemporaryWord_injective (by simp)
    (addWord_loop (E := E)) (OrdSet.nodup (new.diff v.loaded)) v
  refine hadded.removeWords (OrdSet.nodup (v.loaded.diff new)) fun a ha => ?_
  rw [hloop.loaded, ite_prop_iff_and]
  exact ⟨fun _ => trivial, fun _ => (OrdSet.mem_diff.1 (OrdSet.mem_def.2 ha)).1⟩

/-! ### Syncs and events -/

theorem of_eq (h : Careful E s.loadedWords s.dragon) (hw : s'.loadedWords = s.loadedWords)
    (hd : s'.dragon = s.dragon) : Careful E s'.loadedWords s'.dragon := by
  rw [hw, hd]
  exact h

theorem syncEntry (h : Careful E s.loadedWords s.dragon) (e : Σ _ : CString, GrammarState) :
    Careful E (syncEntry E s e).loadedWords (syncEntry E s e).dragon := by
  unfold Draconity.syncEntry syncUnload syncSet
  split_ifs with hu
  · dsimp only
    split
    · exact h.grammarCalls (unloadIfEnabled_only _ s.dragon).2
    · exact h
  · dsimp only
    generalize (s.grammars.lookup e.1).getD (Grammar.new e.1) = g
    have hsync := h.grammarCalls (syncGrammar_only g e.2 s.dragon).2
    split_ifs
    · exact hsync
    · exact hsync.grammarCalls (unloadIfEnabled_only (syncGrammar E g e.2 s.dragon).1 _).2

theorem syncState (h : Careful E s.loadedWords s.dragon) :
    Careful E (syncState E s).loadedWords (syncState E s).dragon := by
  have hwords : Careful E (syncWords E s).loadedWords (syncWords E s).dragon := by
    rw [syncWords_loadedWords, syncWords_dragon]
    exact Careful.setWords (v := ⟨s.loadedWords, [], s.dragon⟩) h (allShadowWords s)
  exact Keyed.foldl_inv (I := fun s : State => Careful E s.loadedWords s.dragon)
    (fun s e _ h => h.syncEntry e) hwords

theorem acceptGrammar (h : Careful E s.loadedWords s.dragon) (name : CString)
    (shadow : GrammarState) :
    Careful E (acceptGrammar E name shadow s).loadedWords (acceptGrammar E name shadow s).dragon := by
  have hset := h.of_eq (setShadowGrammar_sameWords name shadow s).loadedWords
    (setShadowGrammar_live name shadow s).2.1
  rw [acceptGrammar_eq]
  split_ifs
  · exact hset
  · exact hset.syncState

theorem doUnpause (h : Careful E s.loadedWords s.dragon) :
    Careful E (doUnpause E s).loadedWords (doUnpause E s).dragon := by
  unfold Draconity.doUnpause
  split_ifs
  · exact h.offWord (c := .resume s.pauseToken) (by rintro ⟨w, hw | hw | hw⟩ <;> cases hw)
  · exact h

theorem clientUnpause (h : Careful E s.loadedWords s.dragon) (c : ClientId) (token : UInt64) :
    Careful E (clientUnpause E c token s).loadedWords (clientUnpause E c token s).dragon := by
  have herase : Careful E { s with pauseClients := s.pauseClients.erase c }.loadedWords s.dragon := h
  unfold Draconity.clientUnpause
  dsimp only
  split_ifs
  · exact herase.doUnpause
  · exact h
  · exact h

theorem draconityReady (h : Careful E s.loadedWords s.dragon) :
    Careful E (draconityReady E s).loadedWords (draconityReady E s).dragon := by
  unfold Draconity.draconityReady
  split_ifs <;> exact h

theorem dispatch (h : Careful E s.loadedWords s.dragon) (c : ClientId) (tid : UInt32) (f : Fields)
    (found : Found) : Careful E (dispatch E c tid f found s).2.loadedWords
      (dispatch E c tid f found s).2.dragon := by
  have hdone := dispatch_performs E c tid f found s
  generalize (Draconity.dispatch E c tid f found s).2 = s' at hdone
  cases hdone with
  | nothing => exact h
  | ready => exact h.draconityReady
  | words ws =>
    obtain ⟨hloaded, hdragon, -⟩ := setShadowWords_live (c := c) tid ws s
    exact h.of_eq hloaded hdragon
  | grammar name shadow => exact h.acceptGrammar name shadow
  | setMicState found code =>
    have hacquire : Careful E (engineAcquire E found s).loadedWords
        (engineAcquire E found s).dragon := by
      rw [(engineAcquire_same found s).1.loadedWords, engineAcquire_dragon]
      exact h
    exact hacquire.offWord (by rintro ⟨w, hw | hw | hw⟩ <;> cases hw)
  | mimicFailed phrase | mimic phrase =>
    exact h.offWord (by rintro ⟨w, hw | hw | hw⟩ <;> cases hw)
  | unpause => exact h.clientUnpause _ _

theorem step (h : Careful E s.loadedWords s.dragon) (e : Event) :
    Careful E (step E s e).loadedWords (step E s e).dragon := by
  cases e with
  | connect => exact h
  | close c stack =>
    have hcleared : Careful E (clearClientState c stack (s.dropClient c)).loadedWords s.dragon := h
    by_cases h0 : s.pauseToken = 0
    · rw [Draconity.step, handleClose_of_not_paused h0]
      exact hcleared
    · rw [Draconity.step, handleClose_of_paused h0]
      exact hcleared.syncState.clientUnpause _ _
  | message c tid msg found =>
    cases msg with
    | none => exact h
    | some root => exact h.dispatch c tid (.ofRoot root) found
  | paused token =>
    have hsync : Careful E (Draconity.syncState E { s with pauseToken := token }).loadedWords _ :=
      Careful.syncState (s := { s with pauseToken := token }) h
    show Careful E (handlePause E token s).loadedWords (handlePause E token s).dragon
    rw [handlePause_eq]
    unfold afterPauseSync
    split_ifs
    · exact hsync.doUnpause
    · exact hsync
  | timer => exact Careful.doUnpause (s := { s with pauseTimer := false }) h
  | ready => exact h.draconityReady
  | mimicDone stale =>
    show Careful E (draconityMimicDone stale s).loadedWords (draconityMimicDone stale s).dragon
    unfold draconityMimicDone
    split <;> exact h

end Careful

/-- **Dragon is asked to add only valid words it does not have, and to delete only words it has**, in
every run and whatever its calls return; and Draconity knows which these are. -/
theorem words_asked (hr : (eventLoop E).Reachable s) :
    (∀ a, a ∈ s.loadedWords ↔ InVocabulary s.dragon.log a) ∧
    (∀ pre post w rc, s.dragon.log = pre ++ (.addTemporaryWord w, rc) :: post →
      ¬ InVocabulary pre w ∧ ∃ pre' rc', pre = pre' ++ [(.validateWord w, rc')] ∧
        E.valid pre' w = true) ∧
    ∀ pre post w rc, s.dragon.log = pre ++ (.deleteWord w, rc) :: post → InVocabulary pre w := by
  have h : Careful E s.loadedWords s.dragon :=
    Machine.invariant (I := fun s : State => Careful E s.loadedWords s.dragon) careful_init
      (fun s e hs _ => hs.step e) hr
  exact ⟨fun a => h.mem_iff, fun pre post w rc hlog => (h.asked pre _ post hlog).add w rfl,
    fun pre post w rc hlog => (h.asked pre _ post hlog).delete w rfl⟩

def askedLog : Log :=
  ((eventLoop .obliging).exec (eventLoop .obliging).start (askAndLeave ++ [.paused 8])).dragon.log

theorem words_asked_leaving :
    ¬ InVocabulary (askedLog.take 1) (.lit "a") ∧ InVocabulary (askedLog.take 3) (.lit "a") := by
  have hadd : askedLog =
      askedLog.take 1 ++ (.addTemporaryWord (.lit "a"), 0) :: askedLog.drop 2 := by decide
  have hdelete : askedLog = askedLog.take 3 ++ (.deleteWord (.lit "a"), 0) :: askedLog.drop 4 := by
    decide
  obtain ⟨-, hadded, hdeleted⟩ := words_asked (E := .obliging)
    ⟨askAndLeave ++ [.paused 8], by decide, rfl⟩
  exact ⟨(hadded _ _ _ _ hadd).1, hdeleted _ _ _ _ hdelete⟩

end Draconity
