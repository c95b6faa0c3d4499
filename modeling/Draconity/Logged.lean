import Draconity.Parts
import Draconity.Vocabulary

/-!
The vocabulary of Dragon over whole runs.

Everything that happens to the engine is in its log, and each event only adds calls to it, so what
Dragon has is what was added and not deleted since.  Draconity knows exactly that, and a sync takes it
to the words that are wanted and those that could not be deleted.
-/

namespace Draconity

open Lib

variable {E : Env} {s s' : State} {a : CString}

/-! ### What Dragon has by its log -/

/-- The word was added, and it was not deleted since. -/
def InVocabulary (log : Log) (a : CString) : Prop :=
  ∃ pre post, log = pre ++ (.addTemporaryWord a, 0) :: post ∧ (.deleteWord a, 0) ∉ post

theorem inVocabulary_snoc (log : Log) (c : Call × Int) : InVocabulary (log ++ [c]) a ↔
    c = (.addTemporaryWord a, 0) ∨ InVocabulary log a ∧ c ≠ (.deleteWord a, 0) := by
  constructor
  · rintro ⟨pre, post, h, hpost⟩
    rcases List.eq_nil_or_concat' post with rfl | ⟨post, c', rfl⟩
    · obtain ⟨-, hc⟩ := List.append_inj' h rfl
      exact .inl (List.singleton_inj.1 hc)
    · rw [← List.cons_append, ← List.append_assoc] at h
      obtain ⟨hlog, hc⟩ := List.append_inj' h rfl
      obtain rfl := List.singleton_inj.1 hc
      refine .inr ⟨⟨pre, post, hlog, fun hd => hpost (List.mem_append_left _ hd)⟩, fun hd => hpost ?_⟩
      rw [hd]
      exact List.mem_append_right _ (List.mem_singleton_self _)
  · rintro (rfl | ⟨⟨pre, post, rfl, hpost⟩, hc⟩)
    · exact ⟨log, [], rfl, List.not_mem_nil⟩
    · refine ⟨pre, post ++ [c], by simp, fun hd => ?_⟩
      rcases List.mem_append.1 hd with hd | hd
      · exact hpost hd
      · exact hc (List.mem_singleton.1 hd).symm

/-- What Dragon has is what was added and not deleted since. -/
def Logged (d : Dragon) : Prop := ∀ a, a ∈ d.words ↔ InVocabulary d.log a

theorem Logged.call {d : Dragon} (h : Logged d) (c : Call) : Logged (d.call E c).2 := by
  intro a
  rw [Dragon.log_call, inVocabulary_snoc, Dragon.words_call, ← h a]
  generalize (d.call E c).1 = rc
  by_cases hrc : rc = 0
  · subst hrc
    rw [if_pos rfl]
    cases c with
    | addTemporaryWord w => simp [Dragon.effect, eq_comm]
    | deleteWord w => simp [Dragon.effect, eq_comm]
    | grammar n op => cases op <;> simp [Dragon.effect, Dragon.grammarEffect, Dragon.update]
    | validateWord _ | resume _ | mimic _ | setMicState _ => simp [Dragon.effect]
  · rw [if_neg hrc]
    simp [hrc]

/-! ### The calls of an event -/

abbrev AnyCalls (E : Env) (d d' : Dragon) : Prop := Calls E (fun _ => True) d d'

theorem Calls.any {P : Call → Prop} {d d' : Dragon} (h : Calls E P d d') : AnyCalls E d d' := by
  induction h with
  | refl => exact .refl _
  | snoc c _ _ ih => exact .snoc c ih trivial

theorem AnyCalls.one (c : Call) (d : Dragon) : AnyCalls E d (d.call E c).2 := Calls.one c trivial d

theorem AnyCalls.logged {d d' : Dragon} (h : AnyCalls E d d') (hd : Logged d) : Logged d' := by
  induction h with
  | refl => exact hd
  | snoc c _ _ ih => exact ih.call c

theorem syncEntry_calls (s : State) (e : Σ _ : CString, GrammarState) :
    AnyCalls E s.dragon (syncEntry E s e).dragon := by
  unfold syncEntry syncUnload syncSet
  split_ifs with hu
  · dsimp only
    split
    · exact (unloadIfEnabled_only _ s.dragon).2.any
    · exact .refl _
  · dsimp only
    generalize hg : (s.grammars.lookup e.1).getD (Grammar.new e.1) = g
    have hsync : AnyCalls E s.dragon (syncGrammar E g e.2 s.dragon).2 :=
      (syncGrammar_only g e.2 s.dragon).2.any
    split_ifs
    · exact hsync
    · exact hsync.trans (unloadIfEnabled_only (syncGrammar E g e.2 s.dragon).1 _).2.any

theorem syncState_calls (s : State) : AnyCalls E s.dragon (syncState E s).dragon := by
  have hwords : AnyCalls E s.dragon (syncWords E s).dragon := by
    rw [syncWords_dragon]
    exact (setWords_calls (allShadowWords s) ⟨s.loadedWords, [], s.dragon⟩).any
  exact hwords.trans (Keyed.foldl_rel (R := fun a b : State => AnyCalls E a.dragon b.dragon)
    (fun _ => .refl _) Calls.trans syncEntry_calls _ _)

theorem parts_calls : Parts E fun s s' => AnyCalls E s.dragon s'.dragon where
  trans := Calls.trans
  quiet _ hd := hd ▸ .refl _
  call _ := .one _ _
  sync := syncState_calls

/-- **An event only adds calls to the log.** -/
theorem step_calls (s : State) (e : Event) : AnyCalls E s.dragon (step E s e).dragon :=
  step_parts parts_calls s e

/-! ### What Draconity knows of the vocabulary -/

/-- The loaded words are those Dragon has. -/
def KnowsWords (s : State) : Prop := s.loadedWords = s.dragon.words

theorem addWord_knows {v : Vocabulary} (h : v.loaded = v.dragon.words) (w : CString) :
    (addWord E v w).loaded = (addWord E v w).dragon.words := by
  have hval : (v.dragon.call E (.validateWord w)).2.words = v.loaded := by
    rw [Dragon.words_call, h]
    exact ite_self _
  unfold addWord
  dsimp only
  split_ifs with hinvalid hrc hadd
  · exact hval.symm
  · exact hval.symm
  · rw [Dragon.words_call, if_neg hadd]
    exact hval.symm
  · rw [Dragon.words_call, if_pos (not_not.1 hadd)]
    exact (congrArg (OrdSet.insert w) hval).symm

theorem removeWord_knows {v : Vocabulary} (h : v.loaded = v.dragon.words) (w : CString) :
    (removeWord E v w).loaded = (removeWord E v w).dragon.words := by
  unfold removeWord
  dsimp only
  split_ifs with hrc
  · rw [Dragon.words_call, if_neg hrc]
    exact h
  · rw [Dragon.words_call, if_pos (not_not.1 hrc)]
    exact congrArg (OrdSet.erase w) h

theorem KnowsWords.syncWords (h : KnowsWords s) : KnowsWords (syncWords E s) := by
  unfold KnowsWords
  rw [syncWords_loadedWords, syncWords_dragon]
  have hadds : ∀ l : List CString, _ := fun l => Keyed.foldl_inv (l := l)
    (I := fun v : Vocabulary => v.loaded = v.dragon.words)
    (fun _ w _ hv => addWord_knows (E := E) hv w) (s := ⟨s.loadedWords, [], s.dragon⟩) h
  exact Keyed.foldl_inv (I := fun v : Vocabulary => v.loaded = v.dragon.words)
    (fun _ w _ hv => removeWord_knows (E := E) hv w) (hadds _)

theorem KnowsWords.sameWords (h : KnowsWords s) (hs : SameWords s s') : KnowsWords s' :=
  hs.loadedWords.trans (h.trans hs.words.symm)

theorem knowsWords_of_reachable (h : (eventLoop E).Reachable s) : KnowsWords s := by
  refine Machine.invariant (M := store E) (I := KnowsWords) rfl (fun s op hs ho => ?_)
    (reachable_store h)
  cases op with
  | setGrammar n shadow => exact hs.sameWords (setShadowGrammar_sameWords n shadow s)
  | setWords c tid ws =>
    obtain ⟨hloaded, hdragon, -⟩ := setShadowWords_live (c := c) tid ws s
    exact hloaded.trans (hs.trans (congrArg Dragon.words hdragon).symm)
  | disconnect c stack => exact hs
  | sync => exact hs.syncWords.sameWords (syncState_sameWords s)
  | other s' => exact hs.sameWords (SameStore.sameWords ho)

theorem logged_of_reachable (h : (eventLoop E).Reachable s) : Logged s.dragon := by
  refine Machine.invariant (I := fun s : State => Logged s.dragon) (fun a => ?_)
    (fun s e hs _ => (step_calls s e).logged hs) h
  refine iff_of_false (OrdSet.notMem_empty a) ?_
  rintro ⟨pre, post, hlog, -⟩
  exact absurd (congrArg List.length hlog) (by simp [State.init, Dragon.init, eventLoop])

/-! ### A sync reaches what is wanted -/

/-- What is wanted after a sync is what was and could be loaded. -/
theorem mem_allShadowWords_syncWords :
    a ∈ allShadowWords (syncWords E s) ↔ a ∈ (wordRound E s).pruned := by
  have hpruned : a ∈ (wordRound E s).pruned ↔ a ∈ allShadowWords s ∧ ¬ NotAdded E s a := by
    refine and_congr_right fun ha => not_congr ?_
    exact ⟨fun h => ⟨h.1.2, h.2⟩, fun h => ⟨⟨ha, h.1⟩, h.2⟩⟩
  have hkept : ∀ {w : WordState}, a ∈ allShadowWords s →
      (a ∈ (w.afterSync (syncedWords E s).errors).words ↔ a ∈ w.words ∧ ¬ NotAdded E s a) := by
    intro w ha
    refine mem_clientErrors.trans (and_congr_right fun _ => ?_)
    rw [← mem_errors_iff ha, List.mem_map, not_exists]
    exact forall_congr' fun e => not_and.symm
  rw [hpruned, mem_allShadowWords]
  constructor
  · rintro ⟨c, w', hc, ha⟩
    have hrec := congrArg Prod.fst (syncWords_record E s c)
    cases hw : s.shadowWords.lookup c with
    | none =>
      rw [hw] at hrec
      exact absurd (hc.symm.trans hrec) (Option.some_ne_none _)
    | some w =>
      rw [hw] at hrec
      obtain rfl := Option.some.inj (hc.symm.trans hrec)
      have hwanted := mem_allShadowWords.2 ⟨c, w, hw, (mem_clientErrors.1 ha).1⟩
      exact ⟨hwanted, ((hkept hwanted).1 ha).2⟩
  · rintro ⟨hwanted, hadded⟩
    obtain ⟨c, w, hw, ha⟩ := mem_allShadowWords.1 hwanted
    have hrec := congrArg Prod.fst (syncWords_record E s c)
    rw [hw] at hrec
    exact ⟨c, _, hrec, (hkept hwanted).2 ⟨ha, hadded⟩⟩

theorem mem_leftOver : a ∈ (wordRound E s).leftOver ↔ a ∈ deleteFailures E s := by
  refine ⟨fun h => h.2, fun h => ⟨?_, h⟩⟩
  obtain ⟨rc, -, hc⟩ := mem_deleteFailures.1 h
  exact (wordSync E s).deletes a rc hc

theorem mem_loadedWords_after :
    a ∈ (syncWords E s).loadedWords ↔ a ∈ (wordRound E s).after := by
  rw [syncWords_loadedWords]
  exact (wordSync E s).loaded a

/-- What is loaded after a sync is what is wanted, and what could not be deleted. -/
theorem mem_loadedWords_syncWords : a ∈ (syncWords E s).loadedWords ↔
    a ∈ allShadowWords (syncWords E s) ∨ a ∈ deleteFailures E s := by
  rw [mem_loadedWords_after, Reconcile.after_eq, mem_allShadowWords_syncWords, ← mem_leftOver]
  exact Iff.rfl

/-- **A sync takes the vocabulary to what the clients want.**  In every reachable state, with any
answers of the engine, after a sync of the words: the loaded words are those a client wants and,
disjoint from them, those that could not be deleted; they are exactly what was added to Dragon and not
deleted since; the sync deleted no word that a client wants; and the next sync, as long as nothing
changes what is wanted or loaded, only tries to delete the left over words again. -/
theorem vocabulary_synced (hr : (eventLoop E).Reachable s) :
    let s' := syncWords E s
    (∀ a, a ∈ s'.loadedWords ↔ a ∈ allShadowWords s' ∨ a ∈ deleteFailures E s) ∧
      (∀ a ∈ deleteFailures E s, a ∉ allShadowWords s') ∧
      (∀ a, a ∈ s'.loadedWords ↔ InVocabulary s'.dragon.log a) ∧
      (∀ a rc, (.deleteWord a, rc) ∈ wordCalls E s → a ∉ allShadowWords s') ∧
      ∀ t : State, t.shadowWords = s'.shadowWords → t.loadedWords = s'.loadedWords →
        (wordCalls E t).map Prod.fst = (deleteFailures E s).toList.map .deleteWord := by
  have hknows := (knowsWords_of_reachable hr).syncWords (E := E)
  have hlogged : Logged (syncWords E s).dragon := by
    refine AnyCalls.logged (E := E) ?_ (logged_of_reachable hr)
    rw [syncWords_dragon]
    exact (setWords_calls (allShadowWords s) ⟨s.loadedWords, [], s.dragon⟩).any
  have hdisjoint : ∀ a ∈ deleteFailures E s, a ∉ allShadowWords (syncWords E s) := by
    intro a ha
    rw [mem_allShadowWords_syncWords]
    exact (wordRound E s).disjoint_leftOver (mem_leftOver.2 ha)
  refine ⟨fun a => mem_loadedWords_syncWords, hdisjoint, fun a => ?_, fun a rc hc => ?_,
    fun t hshadow hwords => ?_⟩
  · rw [← hlogged a, show (syncWords E s).loadedWords = _ from hknows]
  · rw [mem_allShadowWords_syncWords]
    exact fun ha => ((wordSync E s).deletes a rc hc).2 ha.1
  · -- a second sync finds nothing but the words that could not be deleted
    have hwanted : allShadowWords t = allShadowWords (syncWords E s) := by
      unfold allShadowWords
      rw [hshadow]
    have hnext : (syncWords E s).loadedWords.diff (allShadowWords (syncWords E s)) =
        deleteFailures E s := by
      ext a
      rw [OrdSet.mem_diff, mem_loadedWords_after, mem_allShadowWords_syncWords, ← mem_leftOver,
        ← (wordRound E s).after_diff_pruned]
      exact Iff.rfl
    rw [(wordSync E t).surplus ?_, hwanted, hwords, hnext]
    rw [hwanted, hwords]
    exact fun a ha => mem_loadedWords_after.2
      ((wordRound E s).pruned_subset_after (mem_allShadowWords_syncWords.1 ha))

/-- A client asks for a word and leaves after a pause. -/
def askAndLeave : List Event :=
  [.connect, .ready,
    .message 0 1 (some [(.lit "cmd", .utf8 (ascii "w.set")),
      (.lit "words", .array 14 (some [(.lit "0", .utf8 (ascii "a"))]))]) .usual,
    .paused 7, .timer, .close 0 fun _ => 0]

theorem vocabulary_synced_keeps :
    let E : Env := { Env.obliging with rc := fun _ c => if c = .deleteWord (.lit "a") then 1 else 0 }
    InVocabulary (syncWords E ((eventLoop E).exec (eventLoop E).start askAndLeave)).dragon.log
        (.lit "a") ∧
      .lit "a" ∉ allShadowWords (syncWords E ((eventLoop E).exec (eventLoop E).start askAndLeave)) := by
  intro E
  have hr : (eventLoop E).Reachable ((eventLoop E).exec (eventLoop E).start askAndLeave) :=
    ⟨askAndLeave, by decide, rfl⟩
  obtain ⟨hunion, hdisjoint, hlog, -⟩ := vocabulary_synced (E := E) hr
  have hkept : .lit "a" ∈ deleteFailures E ((eventLoop E).exec (eventLoop E).start askAndLeave) := by
    decide
  exact ⟨(hlog _).1 ((hunion _).2 (.inr hkept)), hdisjoint _ hkept⟩

end Draconity
