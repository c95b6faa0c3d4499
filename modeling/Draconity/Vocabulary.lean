import Draconity.Lib.Reconcile
import Draconity.Words

/-!
What a sync of the words does to the vocabulary, with any answers of the engine.

`set_words` runs two loops: the first adds the words that are missing, and the second deletes those
that are left over.  Both are described by `WordLoop`: which calls they made, and that the words with
an error are exactly those whose call did not succeed.
-/

namespace Draconity

open Lib

variable {E : Env} {s s' : State} {v v' : Vocabulary} {l : List CString} {a w : CString}

/-! ### A loop over words -/

/-- A loop over the words of a list, from `v` to `v'`: the calls it made and the errors it recorded.
The call `op` decides about a word: where it returned `0` the word is loaded afterwards, or not, as
`on` says, and everywhere else there is an error and the word is as it was. -/
structure WordLoop (op : CString → Call) (on : Prop) (l : List CString) (v v' : Vocabulary)
    (calls : Log) (errs : List WordError) : Prop where
  log : v'.dragon.log = v.dragon.log ++ calls
  errors : v'.errors = v.errors ++ errs
  about : ∀ c ∈ calls, ∃ w ∈ l, c.1 = .validateWord w ∨ c.1 = op w
  failed : errs.map WordError.word = l.filter fun w => (op w, 0) ∉ calls
  loaded : ∀ a, a ∈ v'.loaded ↔ if a ∈ l ∧ (op a, 0) ∈ calls then on else a ∈ v.loaded

section WordLoop

variable {op : CString → Call} {on : Prop} {calls calls' : Log} {errs errs' : List WordError}

theorem WordLoop.mem_of_call (hop : Function.Injective op) (hval : ∀ w w', op w ≠ .validateWord w')
    (h : WordLoop op on l v v' calls errs) {rc : Int} (ha : (op a, rc) ∈ calls) : a ∈ l := by
  obtain ⟨w, hw, hval' | hop'⟩ := h.about _ ha
  · exact absurd hval' (hval a w)
  · exact hop hop' ▸ hw

/-- Two loops one after the other are one loop. -/
theorem WordLoop.cons (hop : Function.Injective op) (hval : ∀ w w', op w ≠ .validateWord w')
    {v'' : Vocabulary} (h : WordLoop op on [w] v v' calls errs)
    (h' : WordLoop op on l v' v'' calls' errs') (hw : w ∉ l) :
    WordLoop op on (w :: l) v v'' (calls ++ calls') (errs ++ errs') := by
  have hfirst : ∀ {a}, (op a, 0) ∈ calls → a = w := fun ha =>
    List.mem_singleton.1 (h.mem_of_call hop hval ha)
  have hrest : ∀ {a}, (op a, 0) ∈ calls' → a ∈ l := fun ha => h'.mem_of_call hop hval ha
  refine ⟨?_, ?_, fun c hc => ?_, ?_, fun a => ?_⟩
  · rw [h'.log, h.log, List.append_assoc]
  · rw [h'.errors, h.errors, List.append_assoc]
  · rcases List.mem_append.1 hc with hc | hc
    · obtain ⟨w', hw', hc⟩ := h.about c hc
      exact ⟨w, List.mem_cons_self .., List.mem_singleton.1 hw' ▸ hc⟩
    · obtain ⟨w', hw', hc⟩ := h'.about c hc
      exact ⟨w', List.mem_cons_of_mem _ hw', hc⟩
  · have hhead : ((op w, 0) ∈ calls ++ calls') ↔ (op w, 0) ∈ calls := by
      rw [List.mem_append]
      exact or_iff_left fun hm => hw (hrest hm)
    have htail : ∀ a ∈ l, ((op a, 0) ∈ calls ++ calls') ↔ (op a, 0) ∈ calls' := by
      intro a ha
      rw [List.mem_append]
      exact or_iff_right fun hm => hw (hfirst hm ▸ ha)
    have hl : l.filter (fun a => (op a, 0) ∉ calls ++ calls') =
        l.filter fun a => (op a, 0) ∉ calls' :=
      List.filter_congr fun a ha => decide_eq_decide.2 (not_congr (htail a ha))
    rw [List.map_append, h.failed, h'.failed, ← hl]
    by_cases hone : (op w, 0) ∈ calls
    · rw [List.filter_cons_of_neg (by simpa using hone),
        List.filter_cons_of_neg (by simpa only [decide_eq_true_eq, not_not] using hhead.2 hone)]
      rfl
    · rw [List.filter_cons_of_pos (by simpa using hone),
        List.filter_cons_of_pos (by simpa only [decide_eq_true_eq] using hhead.not.2 hone)]
      rfl
  · rw [h'.loaded, h.loaded]
    by_cases hrun : (op a, 0) ∈ calls'
    · have ha := hrest hrun
      rw [if_pos ⟨ha, hrun⟩, if_pos ⟨List.mem_cons_of_mem _ ha, List.mem_append_right _ hrun⟩]
    · rw [if_neg fun hc => hrun hc.2]
      by_cases hone : (op a, 0) ∈ calls
      · have ha := hfirst hone
        rw [if_pos ⟨List.mem_singleton.2 ha, hone⟩,
          if_pos ⟨ha ▸ List.mem_cons_self .., List.mem_append_left _ hone⟩]
      · rw [if_neg fun hc => hone hc.2,
          if_neg fun hc => (List.mem_append.1 hc.2).elim hone hrun]

theorem wordLoop_foldl (hop : Function.Injective op) (hval : ∀ w w', op w ≠ .validateWord w')
    {f : Vocabulary → CString → Vocabulary}
    (hf : ∀ v w, ∃ calls errs, WordLoop op on [w] v (f v w) calls errs) (hl : l.Nodup)
    (v : Vocabulary) : ∃ calls errs, WordLoop op on l v (l.foldl f v) calls errs := by
  induction l generalizing v with
  | nil => exact ⟨[], [], by simp, by simp, by simp, rfl, by simp⟩
  | cons w l ih =>
    obtain ⟨hw, hl⟩ := List.nodup_cons.1 hl
    obtain ⟨calls, errs, h⟩ := hf v w
    obtain ⟨calls', errs', h'⟩ := ih hl (f v w)
    exact ⟨_, _, h.cons hop hval h' hw⟩

theorem WordLoop.succeeded (hlog : v'.dragon.log = v.dragon.log ++ calls)
    (herr : v'.errors = v.errors) (habout : ∀ c ∈ calls, c.1 = .validateWord w ∨ c.1 = op w)
    (hc : (op w, 0) ∈ calls) (hon : ∀ a, a ∈ v'.loaded ↔ if a = w then on else a ∈ v.loaded) :
    WordLoop op on [w] v v' calls [] := by
  refine ⟨hlog, by rw [herr, List.append_nil], fun c h => ⟨w, List.mem_singleton_self w, habout c h⟩,
    ?_, fun a => ?_⟩
  · rw [List.filter_cons_of_neg (by simpa using hc)]
    rfl
  · rw [hon a]
    by_cases ha : a = w
    · subst ha
      rw [if_pos rfl, if_pos ⟨List.mem_singleton_self a, hc⟩]
    · rw [if_neg ha, if_neg fun h => ha (List.mem_singleton.1 h.1)]

theorem WordLoop.recorded (message : String) (hlog : v'.dragon.log = v.dragon.log ++ calls)
    (herr : v'.errors = v.errors ++ [⟨w, message⟩])
    (habout : ∀ c ∈ calls, c.1 = .validateWord w ∨ c.1 = op w) (hc : (op w, 0) ∉ calls)
    (hloaded : v'.loaded = v.loaded) : WordLoop op on [w] v v' calls [⟨w, message⟩] := by
  refine ⟨hlog, herr, fun c h => ⟨w, List.mem_singleton_self w, habout c h⟩, ?_, fun a => ?_⟩
  · rw [List.filter_cons_of_pos (by simpa using hc)]
    rfl
  · have hno : ¬ (a ∈ [w] ∧ (op a, 0) ∈ calls) := fun h => hc (List.mem_singleton.1 h.1 ▸ h.2)
    rw [hloaded, if_neg hno]

end WordLoop

/-! ### The two loops of `set_words` -/

theorem addTemporaryWord_injective : Function.Injective Call.addTemporaryWord :=
  fun _ _ h => Call.addTemporaryWord.inj h

theorem deleteWord_injective : Function.Injective Call.deleteWord :=
  fun _ _ h => Call.deleteWord.inj h

/-- Adding a word: it is validated, and a valid one is added. -/
theorem addWord_loop (v : Vocabulary) (w : CString) :
    ∃ calls errs, WordLoop .addTemporaryWord True [w] v (addWord E v w) calls errs := by
  unfold addWord
  dsimp only
  generalize hr : v.dragon.call E (.validateWord w) = r
  have hlog : r.2.log = v.dragon.log ++ [(.validateWord w, r.1)] := by rw [← hr]; rfl
  generalize ha : r.2.call E (.addTemporaryWord w) = a
  have hlog' : a.2.log = v.dragon.log ++ [(.validateWord w, r.1), (.addTemporaryWord w, a.1)] := by
    rw [← ha, Dragon.log_call, hlog, List.append_assoc]
    rfl
  split_ifs with hinvalid hrc hadd
  · exact ⟨_, _, .recorded _ hlog rfl (by simp) (by simp) rfl⟩
  · exact ⟨_, _, .recorded _ hlog rfl (by simp) (by simp) rfl⟩
  · exact ⟨_, _, .recorded _ hlog' rfl (by simp) (by simpa using Ne.symm hadd) rfl⟩
  · refine ⟨_, _, .succeeded hlog' rfl (by simp) (by simpa using (not_not.1 hadd).symm) fun x => ?_⟩
    rw [OrdSet.mem_insert]
    split_ifs with hx
    · exact iff_of_true (.inl hx) trivial
    · exact or_iff_right hx

theorem removeWord_loop (v : Vocabulary) (w : CString) :
    ∃ calls errs, WordLoop .deleteWord False [w] v (removeWord E v w) calls errs := by
  unfold removeWord
  dsimp only
  generalize hr : v.dragon.call E (.deleteWord w) = r
  have hlog : r.2.log = v.dragon.log ++ [(.deleteWord w, r.1)] := by rw [← hr]; rfl
  split_ifs with hrc
  · exact ⟨_, _, .recorded _ hlog rfl (by simp) (by simpa using Ne.symm hrc) rfl⟩
  · refine ⟨_, _, .succeeded hlog rfl (by simp) (by simpa using (not_not.1 hrc).symm) fun x => ?_⟩
    rw [OrdSet.mem_erase]
    split_ifs with hx
    · exact iff_of_false (fun h => h.2 hx) id
    · exact and_iff_left hx

/-- What is loaded after a loop that adds words and one that deletes others. -/
theorem WordLoop.loaded_two {l' : List CString} {v'' : Vocabulary} {calls calls' : Log}
    {errs errs' : List WordError} (h : WordLoop .addTemporaryWord True l v v' calls errs)
    (h' : WordLoop .deleteWord False l' v' v'' calls' errs') (a : CString) :
    a ∈ v''.loaded ↔ (a ∈ v.loaded ∨ a ∈ l ∧ (.addTemporaryWord a, 0) ∈ calls) ∧
      ¬ (a ∈ l' ∧ (.deleteWord a, 0) ∈ calls') := by
  rw [h'.loaded, h.loaded]
  by_cases hdel : a ∈ l' ∧ (.deleteWord a, 0) ∈ calls'
  · rw [if_pos hdel]
    exact iff_of_false id fun hc => hc.2 hdel
  · rw [if_neg hdel, and_iff_left hdel]
    by_cases hadd : a ∈ l ∧ (.addTemporaryWord a, 0) ∈ calls
    · rw [if_pos hadd]
      exact iff_of_true trivial (.inr hadd)
    · rw [if_neg hadd, or_iff_left hadd]

theorem removeWords_calls (l : List CString) (v : Vocabulary) :
    ∃ calls : Log, (l.foldl (removeWord E) v).dragon.log = v.dragon.log ++ calls ∧
      calls.map Prod.fst = l.map .deleteWord := by
  induction l generalizing v with
  | nil => exact ⟨[], by simp, rfl⟩
  | cons w l ih =>
    obtain ⟨calls, hlog, hcalls⟩ := ih (removeWord E v w)
    have hone : (removeWord E v w).dragon.log =
        v.dragon.log ++ [(.deleteWord w, (v.dragon.call E (.deleteWord w)).1)] := by
      unfold removeWord
      dsimp only
      split_ifs <;> rfl
    refine ⟨(.deleteWord w, (v.dragon.call E (.deleteWord w)).1) :: calls, ?_, ?_⟩
    · rw [List.foldl_cons, hlog, hone, List.append_assoc]
      rfl
    · rw [List.map_cons, List.map_cons, hcalls]

/-! ### A sync of the words -/

def wordCalls (E : Env) (s : State) : Log := (syncedWords E s).dragon.log.drop s.dragon.log.length

def deleteFailures (E : Env) (s : State) : OrdSet CString :=
  .ofList ((wordCalls E s).filterMap fun c => match c with
    | (.deleteWord w, rc) => if rc ≠ 0 then some w else none
    | _ => none)

/-- The word is not loaded before a sync, and the sync did not add it. -/
def NotAdded (E : Env) (s : State) (a : CString) : Prop :=
  a ∉ s.loadedWords ∧ (.addTemporaryWord a, 0) ∉ wordCalls E s

theorem mem_deleteFailures : a ∈ deleteFailures E s ↔
    ∃ rc, rc ≠ 0 ∧ (.deleteWord a, rc) ∈ wordCalls E s := by
  unfold deleteFailures
  rw [OrdSet.mem_ofList, List.mem_filterMap]
  constructor
  · rintro ⟨⟨c, rc⟩, hc, h⟩
    cases c with
    | deleteWord w =>
      dsimp only at h
      split_ifs at h with hrc
      cases h
      exact ⟨rc, hrc, hc⟩
    | grammar _ _ | validateWord _ | addTemporaryWord _ | resume _ | mimic _ | setMicState _ =>
      cases h
  · rintro ⟨rc, hrc, hc⟩
    exact ⟨_, hc, if_pos hrc⟩

/-- A sync of the words as a round of bringing them in line. -/
def wordRound (E : Env) (s : State) : Reconcile CString where
  loaded := {a | a ∈ s.loadedWords}
  wanted := {a | a ∈ allShadowWords s}
  addFailed := {a | (.addTemporaryWord a, 0) ∉ wordCalls E s}
  deleteFailed := {a | a ∈ deleteFailures E s}

/-- What `set_words` does in a sync. -/
structure WordSync (E : Env) (s : State) : Prop where
  log : (syncedWords E s).dragon.log = s.dragon.log ++ wordCalls E s
  loaded : ∀ a, a ∈ (syncedWords E s).loaded ↔ a ∈ (wordRound E s).after
  nodup : ((syncedWords E s).errors.map WordError.word).Nodup
  errors : ∀ a, a ∈ (syncedWords E s).errors.map WordError.word ↔
    a ∈ allShadowWords s ∧ NotAdded E s a ∨ a ∈ deleteFailures E s
  deletes : ∀ a rc, (.deleteWord a, rc) ∈ wordCalls E s → a ∈ s.loadedWords ∧ a ∉ allShadowWords s
  /-- Where nothing is missing, it deletes what is left over. -/
  surplus : (∀ a ∈ allShadowWords s, a ∈ s.loadedWords) →
    (wordCalls E s).map Prod.fst = (s.loadedWords.diff (allShadowWords s)).toList.map .deleteWord

/-- The two loops of `set_words` in a sync: what they called, and their errors. -/
structure WordLoops (E : Env) (s : State) (calls calls' : Log) (errs errs' : List WordError) :
    Prop where
  adds : WordLoop .addTemporaryWord True ((allShadowWords s).diff s.loadedWords).toList
    ⟨s.loadedWords, [], s.dragon⟩
    (((allShadowWords s).diff s.loadedWords).toList.foldl (addWord E) ⟨s.loadedWords, [], s.dragon⟩)
    calls errs
  deletes : WordLoop .deleteWord False (s.loadedWords.diff (allShadowWords s)).toList
    (((allShadowWords s).diff s.loadedWords).toList.foldl (addWord E) ⟨s.loadedWords, [], s.dragon⟩)
    (syncedWords E s) calls' errs'
  each : calls'.map Prod.fst = (s.loadedWords.diff (allShadowWords s)).toList.map .deleteWord

theorem wordLoops (E : Env) (s : State) : ∃ calls calls' errs errs',
    WordLoops E s calls calls' errs errs' := by
  obtain ⟨calls, errs, h⟩ := wordLoop_foldl addTemporaryWord_injective (by simp)
    (addWord_loop (E := E)) (OrdSet.nodup ((allShadowWords s).diff s.loadedWords))
    ⟨s.loadedWords, [], s.dragon⟩
  obtain ⟨calls', errs', h'⟩ := wordLoop_foldl deleteWord_injective (by simp)
    (removeWord_loop (E := E)) (OrdSet.nodup (s.loadedWords.diff (allShadowWords s)))
    (((allShadowWords s).diff s.loadedWords).toList.foldl (addWord E) ⟨s.loadedWords, [], s.dragon⟩)
  obtain ⟨calls'', hlog, hfst⟩ := removeWords_calls (E := E)
    (s.loadedWords.diff (allShadowWords s)).toList
    (((allShadowWords s).diff s.loadedWords).toList.foldl (addWord E) ⟨s.loadedWords, [], s.dragon⟩)
  obtain rfl : calls' = calls'' := List.append_cancel_left (h'.log.symm.trans hlog)
  exact ⟨calls, calls', errs, errs', h, h', hfst⟩

namespace WordLoops

variable {calls calls' : Log} {errs errs' : List WordError} {rc : Int}

theorem log (h : WordLoops E s calls calls' errs errs') :
    (syncedWords E s).dragon.log = s.dragon.log ++ (calls ++ calls') := by
  rw [h.deletes.log, h.adds.log, List.append_assoc]

theorem wordCalls_eq (h : WordLoops E s calls calls' errs errs') :
    wordCalls E s = calls ++ calls' := by
  rw [wordCalls, h.log, List.drop_left]

theorem mem_add (h : WordLoops E s calls calls' errs errs') :
    (.addTemporaryWord a, rc) ∈ wordCalls E s ↔ (.addTemporaryWord a, rc) ∈ calls := by
  rw [h.wordCalls_eq, List.mem_append]
  refine or_iff_left fun hc => ?_
  obtain ⟨w, -, hw | hw⟩ := h.deletes.about _ hc <;> cases hw

theorem mem_delete (h : WordLoops E s calls calls' errs errs') :
    (.deleteWord a, rc) ∈ wordCalls E s ↔ (.deleteWord a, rc) ∈ calls' := by
  rw [h.wordCalls_eq, List.mem_append]
  refine or_iff_right fun hc => ?_
  obtain ⟨w, -, hw | hw⟩ := h.adds.about _ hc <;> cases hw

/-- The words that could not be deleted are those the second loop records an error for. -/
theorem mem_failures (h : WordLoops E s calls calls' errs errs') : a ∈ deleteFailures E s ↔
    a ∈ s.loadedWords.diff (allShadowWords s) ∧ (.deleteWord a, 0) ∉ calls' := by
  rw [mem_deleteFailures]
  constructor
  · rintro ⟨rc, hrc, hc⟩
    rw [h.mem_delete] at hc
    refine ⟨h.deletes.mem_of_call deleteWord_injective (by simp) hc, fun h0 => hrc ?_⟩
    have hnodup : (calls'.map Prod.fst).Nodup := by
      rw [h.each]
      exact (OrdSet.nodup _).map deleteWord_injective
    exact congrArg Prod.snd (List.inj_on_of_nodup_map hnodup hc h0 rfl)
  · rintro ⟨ha, h0⟩
    have hmem : Call.deleteWord a ∈ calls'.map Prod.fst := by
      rw [h.each]
      exact List.mem_map_of_mem ha
    obtain ⟨⟨c, rc⟩, hc, rfl⟩ := List.mem_map.1 hmem
    exact ⟨rc, fun hrc => h0 (hrc ▸ hc), h.mem_delete.2 hc⟩

theorem mem_loaded (h : WordLoops E s calls calls' errs errs') :
    a ∈ (syncedWords E s).loaded ↔ a ∈ (wordRound E s).after := by
  have hadd : (a ∈ (allShadowWords s).diff s.loadedWords ∧ (.addTemporaryWord a, 0) ∈ calls) ↔
      (a ∈ allShadowWords s ∧ a ∉ s.loadedWords) ∧ ¬ (.addTemporaryWord a, 0) ∉ wordCalls E s := by
    rw [OrdSet.mem_diff, not_not, h.mem_add]
  have hdelete : (a ∈ s.loadedWords.diff (allShadowWords s) ∧ (.deleteWord a, 0) ∈ calls') ↔
      (a ∈ s.loadedWords ∧ a ∉ allShadowWords s) ∧ a ∉ deleteFailures E s := by
    rw [h.mem_failures, ← OrdSet.mem_diff, not_and_not_right]
    exact and_congr_right fun ha => ⟨fun hc _ => hc, fun hc => hc ha⟩
  exact (h.adds.loaded_two h.deletes a).trans
    (and_congr (or_congr Iff.rfl hadd) (not_congr hdelete))

theorem errors (h : WordLoops E s calls calls' errs errs') :
    (syncedWords E s).errors.map WordError.word =
      ((allShadowWords s).diff s.loadedWords).toList.filter
          (fun w => (.addTemporaryWord w, 0) ∉ calls) ++
        (s.loadedWords.diff (allShadowWords s)).toList.filter
          (fun w => (.deleteWord w, 0) ∉ calls') := by
  rw [h.deletes.errors, h.adds.errors, List.nil_append, List.map_append, h.adds.failed,
    h.deletes.failed]

end WordLoops

/-- **What `set_words` does in a sync**, with any answers of the engine. -/
theorem wordSync (E : Env) (s : State) : WordSync E s := by
  obtain ⟨calls, calls', errs, errs', h⟩ := wordLoops E s
  refine ⟨by rw [h.wordCalls_eq, h.log], fun a => h.mem_loaded, ?_, fun a => ?_, fun a rc hc => ?_,
    fun hsub => ?_⟩
  · rw [h.errors, List.nodup_append']
    refine ⟨(OrdSet.nodup _).filter _, (OrdSet.nodup _).filter _, fun a ha ha' => ?_⟩
    have hadd := OrdSet.mem_diff.1 (List.mem_filter.1 ha).1
    have hdelete := OrdSet.mem_diff.1 (List.mem_filter.1 ha').1
    exact hadd.2 hdelete.1
  · rw [h.errors, List.mem_append, List.mem_filter, List.mem_filter, decide_eq_true_eq,
      decide_eq_true_eq, h.mem_failures, NotAdded, h.mem_add, ← and_assoc, ← OrdSet.mem_diff]
    exact Iff.rfl
  · exact OrdSet.mem_diff.1 (h.deletes.mem_of_call deleteWord_injective (by simp) (h.mem_delete.1 hc))
  · have hnone : calls = [] := List.eq_nil_iff_forall_not_mem.2 fun c hc => by
      obtain ⟨w, hw, -⟩ := h.adds.about c hc
      obtain ⟨hw, hnot⟩ := OrdSet.mem_diff.1 (OrdSet.mem_def.2 hw)
      exact hnot (hsub w hw)
    rw [h.wordCalls_eq, hnone, List.nil_append, h.each]

/-! ### The errors a client gets -/

/-- A client gets the errors for its words, when no word has two. -/
theorem clientErrors_errors {ws : OrdSet CString} {errors : List WordError}
    (h : (errors.map WordError.word).Nodup) :
    (clientErrors ws errors).2 = errors.filter fun e => e.word ∈ ws := by
  have fold : ∀ (errors : List WordError) (p : OrdSet CString × List WordError),
      (errors.map WordError.word).Nodup → (errors.foldl (fun p e =>
        if e.word ∈ p.1 then (p.1.erase e.word, p.2 ++ [e]) else p) p).2 =
        p.2 ++ errors.filter fun e => e.word ∈ p.1 := by
    intro errors
    induction errors with
    | nil => simp
    | cons e errors ih =>
      intro p hnodup
      obtain ⟨he, hnodup⟩ := List.nodup_cons.1 hnodup
      rw [List.foldl_cons, ih _ hnodup]
      by_cases hmem : e.word ∈ p.1
      · have hrest : errors.filter (fun e' => e'.word ∈ p.1.erase e.word) =
            errors.filter fun e' => e'.word ∈ p.1 := by
          refine List.filter_congr fun e' he' => decide_eq_decide.2 ?_
          rw [OrdSet.mem_erase]
          exact and_iff_left fun heq => he (heq ▸ List.mem_map_of_mem he')
        rw [if_pos hmem, List.filter_cons_of_pos (by simpa using hmem), hrest, List.append_assoc]
        rfl
      · rw [if_neg hmem, List.filter_cons_of_neg (by simpa using hmem)]
  exact fold errors (ws, []) h

theorem notMem_deleteFailures (ha : a ∈ allShadowWords s) : a ∉ deleteFailures E s := by
  intro hd
  obtain ⟨rc, -, hc⟩ := mem_deleteFailures.1 hd
  exact ((wordSync E s).deletes a rc hc).2 ha

/-- A word that is wanted has an error just when it was not added. -/
theorem mem_errors_iff (ha : a ∈ allShadowWords s) :
    a ∈ (syncedWords E s).errors.map WordError.word ↔ NotAdded E s a := by
  rw [(wordSync E s).errors a, or_iff_left (notMem_deleteFailures ha), and_iff_right ha]

/-- **Word errors reach exactly the clients that asked for the word.**  In any state, with any answers
of the engine: a sync sends each client with words one response; its errors are one for each word of
the client that was not added, its status says whether there are any, and these words are dropped and
no others. -/
theorem word_errors_exact (E : Env) (s : State) {c : ClientId} {w : WordState}
    (hc : s.shadowWords.lookup c = some w) :
    ∃ r w', wsetAnswers c (syncWords E s) = wsetAnswers c s ++ [r] ∧
      (syncWords E s).shadowWords.lookup c = some w' ∧
      r.clientId = c ∧ r.tid = w.lastTid.toUInt32 ∧
      (r.status = .error ∨ r.status = .success) ∧
      (r.status = .error ↔ ∃ a ∈ w.words, NotAdded E s a) ∧
      (r.errors.map WordError.word).Nodup ∧
      (∀ a, a ∈ r.errors.map WordError.word ↔ a ∈ w.words ∧ NotAdded E s a) ∧
      ∀ a, a ∈ w'.words ↔ a ∈ w.words ∧ ¬ NotAdded E s a := by
  have hrec := syncWords_record E s c
  rw [hc] at hrec
  have hwanted : ∀ {a}, a ∈ w.words → a ∈ allShadowWords s := fun ha =>
    mem_allShadowWords.2 ⟨c, w, hc, ha⟩
  have herrs : (clientErrors w.words (syncedWords E s).errors).2 = _ :=
    clientErrors_errors (wordSync E s).nodup
  have hmem : ∀ a, a ∈ (clientErrors w.words (syncedWords E s).errors).2.map WordError.word ↔
      a ∈ w.words ∧ NotAdded E s a := by
    intro a
    rw [herrs, List.mem_map]
    constructor
    · -- an error that maps to the client is for a word it asked for
      rintro ⟨e, he, rfl⟩
      obtain ⟨he, hw⟩ := List.mem_filter.1 he
      have hw := of_decide_eq_true hw
      exact ⟨hw, (mem_errors_iff (hwanted hw)).1 (List.mem_map_of_mem he)⟩
    · -- a word that was not added has an error, which maps to all who asked for it
      rintro ⟨hw, hnot⟩
      obtain ⟨e, he, rfl⟩ := List.mem_map.1 ((mem_errors_iff (hwanted hw)).2 hnot)
      exact ⟨e, List.mem_filter.2 ⟨he, decide_eq_true hw⟩, rfl⟩
  have hnil : (clientErrors w.words (syncedWords E s).errors).2 = [] ↔
      ¬ ∃ a ∈ w.words, NotAdded E s a := by
    rw [← List.map_eq_nil_iff (f := WordError.word), List.eq_nil_iff_forall_not_mem, not_exists]
    exact forall_congr' fun a => not_congr (hmem a)
  refine ⟨_, _, congrArg Prod.snd hrec, congrArg Prod.fst hrec, rfl, rfl, ?_, ?_, ?_, hmem,
    fun a => ?_⟩
  · show (if _ then _ else _) = _ ∨ (if _ then _ else _) = _
    split_ifs
    · exact .inr rfl
    · exact .inl rfl
  · show (if _ then _ else _) = _ ↔ _
    by_cases h : ∃ a ∈ w.words, NotAdded E s a
    · rw [if_neg fun h0 => hnil.1 h0 h]
      exact iff_of_true rfl h
    · rw [if_pos (hnil.2 h)]
      exact iff_of_false (fun h' => nomatch h') h
  · show ((clientErrors w.words (syncedWords E s).errors).2.map WordError.word).Nodup
    rw [herrs]
    exact (wordSync E s).nodup.sublist (List.filter_sublist.map _)
  · show a ∈ (clientErrors w.words (syncedWords E s).errors).1 ↔ _
    rw [mem_clientErrors]
    refine and_congr_right fun ha => ?_
    rw [← mem_errors_iff (hwanted ha), List.mem_map]
    simp

instance (E : Env) (s : State) : DecidablePred (NotAdded E s) :=
  fun _ => inferInstanceAs (Decidable (_ ∧ _))

/-- An engine to which no word is valid, and a client that asks for one. -/
theorem word_errors_exact_invalid :
    ∃ r, wsetAnswers 0 (syncWords { Env.obliging with valid := fun _ _ => false }
        { State.init 0 with shadowWords := AList.singleton 0 ⟨.ofList [.lit "on"], 1, false⟩ }) = [r] ∧
      r.status = .error := by
  obtain ⟨r, -, hans, -, -, -, -, hstatus, -⟩ := word_errors_exact
    { Env.obliging with valid := fun _ _ => false }
    { State.init 0 with shadowWords := AList.singleton 0 ⟨.ofList [.lit "on"], 1, false⟩ }
    (c := 0) (w := ⟨.ofList [.lit "on"], 1, false⟩) rfl
  exact ⟨r, hans, hstatus.2 ⟨.lit "on", by decide, by decide⟩⟩

end Draconity
