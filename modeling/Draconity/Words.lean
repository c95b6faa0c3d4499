import Draconity.Shadow

/-!
What `sync_words` does: to the loaded words, and to each client.

Every sync walks every client that ever set words, marks its words as synced, drops those that could
not be loaded, and sends it a response.
-/

namespace Draconity

open Lib

variable {E : Env} {s s' : State} {b c : ClientId} {w : WordState}

/-! ### The words of a client -/

theorem mem_clientErrors {ws : OrdSet CString} {errors : List WordError} {a : CString} :
    a ∈ (clientErrors ws errors).1 ↔ a ∈ ws ∧ ∀ e ∈ errors, e.word ≠ a := by
  have fold : ∀ (errors : List WordError) (p : OrdSet CString × List WordError),
      a ∈ (errors.foldl (fun p e =>
        if e.word ∈ p.1 then (p.1.erase e.word, p.2 ++ [e]) else p) p).1 ↔
        a ∈ p.1 ∧ ∀ e ∈ errors, e.word ≠ a := by
    intro errors
    induction errors with
    | nil => simp
    | cons e errors ih =>
      intro p
      rw [List.foldl_cons, ih, List.forall_mem_cons]
      split_ifs with h
      · rw [OrdSet.mem_erase]
        tauto
      · refine ⟨fun ⟨h₁, h₂⟩ => ⟨h₁, ?_, h₂⟩, fun ⟨h₁, _, h₂⟩ => ⟨h₁, h₂⟩⟩
        rintro rfl
        exact h h₁
  exact fold errors (ws, [])

/-- The words of a sync, before the failures are handled. -/
def syncedWords (E : Env) (s : State) : Vocabulary :=
  setWords E (allShadowWords s) ⟨s.loadedWords, [], s.dragon⟩

theorem mem_allShadowWords {a : CString} :
    a ∈ allShadowWords s ↔ ∃ c w, s.shadowWords.lookup c = some w ∧ a ∈ w.words := by
  unfold allShadowWords
  rw [OrdSet.mem_ofList, List.mem_flatMap]
  constructor
  · rintro ⟨⟨c, w⟩, he, ha⟩
    exact ⟨c, w, AList.mem_lookup_iff.2 he, ha⟩
  · rintro ⟨c, w, hc, ha⟩
    exact ⟨⟨c, w⟩, AList.mem_lookup_iff.1 hc, ha⟩

/-- What a state shows of a client: its words and its responses. -/
def State.wordRecord (c : ClientId) (s : State) : Option WordState × List (Answer WordError) :=
  (s.shadowWords.lookup c, wsetAnswers c s)

/-- What a sync leaves of the words of a client, with `errors` from the engine. -/
def WordState.afterSync (w : WordState) (errors : List WordError) : WordState :=
  { w with synced := true, words := (clientErrors w.words errors).1 }

def WordState.answer (c : ClientId) (w : WordState) (errors : List WordError) : Answer WordError :=
  let p := clientErrors w.words errors
  ⟨c, w.lastTid.toUInt32, if p.2 = [] then .success else .error, p.2⟩

theorem handleClientFailures_record (errors : List WordError) (s : State)
    (e : Σ _ : ClientId, WordState) (k : ClientId) :
    (handleClientFailures errors s e).wordRecord k =
      if k = e.1 then
        (some { e.2 with words := (clientErrors e.2.words errors).1 },
          wsetAnswers k s ++ [e.2.answer e.1 errors])
      else s.wordRecord k := by
  have hans := wsetAnswers_send (b := k) (c := e.1) e.2.lastTid.toUInt32
    (if (clientErrors e.2.words errors).2 = [] then .success else .error)
    (clientErrors e.2.words errors).2
    { s with shadowWords :=
        s.shadowWords.insert e.1 { e.2 with words := (clientErrors e.2.words errors).1 } }
  have hlook := Keyed.lookup_insert_eq e.1 k
    { e.2 with words := (clientErrors e.2.words errors).1 } s.shadowWords
  by_cases hk : k = e.1
  · rw [if_pos hk] at hlook ⊢
    rw [if_pos hk.symm] at hans
    exact Prod.ext hlook hans
  · rw [if_neg hk] at hlook ⊢
    rw [if_neg (Ne.symm hk), List.append_nil] at hans
    exact Prod.ext hlook hans

/-- **A sync answers every client with words**, whether or not they changed since the last one. -/
theorem syncWords_record (E : Env) (s : State) (c : ClientId) :
    (syncWords E s).wordRecord c = match s.shadowWords.lookup c with
      | none => (none, wsetAnswers c s)
      | some w => (some (w.afterSync (syncedWords E s).errors),
          wsetAnswers c s ++ [w.answer c (syncedWords E s).errors]) := by
  generalize hm : ({ s with
    shadowWords := Keyed.mapValues (fun w => { w with synced := true }) s.shadowWords
    loadedWords := (syncedWords E s).loaded
    dragon := (syncedWords E s).dragon } : State) = m
  have hlook : ∀ k, m.shadowWords.lookup k =
      (s.shadowWords.lookup k).map fun w => { w with synced := true } := by
    intro k
    rw [← hm]; exact Keyed.lookup_mapValues ..
  have hans : ∀ k, wsetAnswers k m = wsetAnswers k s := fun k => by rw [← hm]; rfl
  have hsync : syncWords E s = handleWordFailures E (syncedWords E s).errors m := by
    rw [← hm]; rfl
  have hp := E.wordOrder_perm m.syncs m.shadowWords.entries
  have frame : ∀ s', ∀ e ∈ E.wordOrder m.syncs m.shadowWords.entries, ∀ k, True → k ≠ e.1 →
      (handleClientFailures (syncedWords E s).errors s' e).wordRecord k = s'.wordRecord k :=
    fun s' e _ k _ hk => (handleClientFailures_record ..).trans (if_neg hk)
  rw [hsync]
  cases hc : s.shadowWords.lookup c with
  | none =>
    have hnone : m.shadowWords.lookup c = none := by rw [hlook, hc]; rfl
    refine (Keyed.foldl_view_of_notMem Sigma.fst State.wordRecord
      (I := fun _ => True) (fun _ _ _ _ => trivial) frame trivial
      (Keyed.notMem_of_perm hp hnone)).trans ?_
    exact Prod.ext hnone (hans c)
  | some w =>
    have hsome : m.shadowWords.lookup c = some { w with synced := true } := by rw [hlook, hc]; rfl
    obtain ⟨m', -, hm', hv⟩ := Keyed.foldl_view Sigma.fst State.wordRecord
      (I := fun _ => True) (fun _ _ _ _ => trivial) frame (Keyed.nodup_of_perm hp) trivial
      ((Keyed.mem_of_perm hp).2 hsome)
    refine hv.trans ((handleClientFailures_record ..).trans ((if_pos rfl).trans ?_))
    have hold : wsetAnswers c m' = wsetAnswers c s := (congrArg Prod.snd hm').trans (hans c)
    rw [hold]
    rfl

theorem syncWords_loadedWords (E : Env) (s : State) :
    (syncWords E s).loadedWords = (syncedWords E s).loaded :=
  Keyed.foldl_rel (f := handleClientFailures (syncedWords E s).errors)
    (R := fun a b : State => b.loadedWords = a.loadedWords) (fun _ => rfl)
    (fun h h' => h'.trans h) (fun _ _ => rfl) _ _

theorem syncWords_dragon (E : Env) (s : State) :
    (syncWords E s).dragon = (syncedWords E s).dragon :=
  Keyed.foldl_rel (f := handleClientFailures (syncedWords E s).errors)
    (R := fun a b : State => b.dragon = a.dragon) (fun _ => rfl)
    (fun h h' => h'.trans h) (fun _ _ => rfl) _ _

theorem syncState_sameWords (s : State) : SameWords (syncWords E s) (syncState E s) := by
  have h := syncGrammars_sameWords (E := E) (syncWords E s)
  exact ⟨h.loadedWords, h.shadowWords, h.words, h.wset⟩

theorem syncState_wordRecord (E : Env) (s : State) (c : ClientId) :
    (syncState E s).wordRecord c = (syncWords E s).wordRecord c := by
  have h := syncState_sameWords (E := E) s
  exact Prod.ext (congrArg (AList.lookup c) h.shadowWords) (h.wset c)

/-! ### The loaded words, when every call returns `0` -/

/-- What holds between additions: nothing is loaded that was not loaded or asked for, and a word
with an error is not loaded. -/
structure Adding (new : OrdSet CString) (rest : List CString) (v : Vocabulary) : Prop where
  loaded : ∀ a ∈ v.loaded, a ∉ rest
  errors : ∀ e ∈ v.errors, e.word ∉ v.loaded ∧ e.word ∉ rest ∧ e.word ∈ new

theorem adding_foldl (hE : E.AllZero) {new : OrdSet CString} {l : List CString} (hl : l.Nodup)
    (hnew : ∀ a ∈ l, a ∈ new) {v : Vocabulary} (hv : Adding new l v) :
    Adding new [] (l.foldl (addWord E) v) ∧
      ∀ a ∈ (l.foldl (addWord E) v).loaded, a ∈ v.loaded ∨ a ∈ new := by
  induction l generalizing v with
  | nil => exact ⟨hv, fun a ha => .inl ha⟩
  | cons a l ih =>
    obtain ⟨hal, hl⟩ := List.nodup_cons.1 hl
    have hrc : ∀ d c, (Dragon.call E d c).1 = 0 := fun d c => Dragon.fst_call_allZero hE d c
    have hword : Adding new l (addWord E v a) ∧
        ∀ x ∈ (addWord E v a).loaded, x ∈ v.loaded ∨ x = a := by
      unfold addWord
      simp only [hrc, ne_eq, not_true_eq_false, if_false, if_true]
      split_ifs
      · refine ⟨⟨fun x hx hxl => hv.loaded x hx (List.mem_cons_of_mem _ hxl), fun e he => ?_⟩,
          fun x hx => .inl hx⟩
        rcases List.mem_append.1 he with he | he
        · obtain ⟨h₁, h₂, h₃⟩ := hv.errors e he
          exact ⟨h₁, fun h => h₂ (List.mem_cons_of_mem _ h), h₃⟩
        · rw [List.mem_singleton.1 he]
          exact ⟨fun h => hv.loaded a h (List.mem_cons_self ..), hal, hnew a (List.mem_cons_self ..)⟩
      · refine ⟨⟨fun x hx hxl => ?_, fun e he => ?_⟩, fun x hx => (OrdSet.mem_insert.1 hx).symm⟩
        · rcases OrdSet.mem_insert.1 hx with rfl | hx
          · exact hal hxl
          · exact hv.loaded x hx (List.mem_cons_of_mem _ hxl)
        · obtain ⟨h₁, h₂, h₃⟩ := hv.errors e he
          refine ⟨fun h => ?_, fun h => h₂ (List.mem_cons_of_mem _ h), h₃⟩
          rcases OrdSet.mem_insert.1 h with h | h
          · exact h₂ (h ▸ List.mem_cons_self ..)
          · exact h₁ h
    obtain ⟨h₁, h₂⟩ := ih hl (fun x hx => hnew x (List.mem_cons_of_mem _ hx)) hword.1
    refine ⟨h₁, fun x hx => ?_⟩
    rcases h₂ x hx with h | h
    · rcases hword.2 x h with h | rfl
      · exact .inl h
      · exact .inr (hnew x (List.mem_cons_self ..))
    · exact .inr h

theorem removing_foldl (hE : E.AllZero) (l : List CString) (v : Vocabulary) :
    (l.foldl (removeWord E) v).errors = v.errors ∧
      ∀ a, a ∈ (l.foldl (removeWord E) v).loaded ↔ a ∈ v.loaded ∧ a ∉ l := by
  induction l generalizing v with
  | nil => simp
  | cons b l ih =>
    have hrc : ∀ d c, (Dragon.call E d c).1 = 0 := fun d c => Dragon.fst_call_allZero hE d c
    have hone : (removeWord E v b).errors = v.errors ∧
        (removeWord E v b).loaded = v.loaded.erase b := by
      unfold removeWord
      simp [hrc]
    obtain ⟨h₁, h₂⟩ := ih (removeWord E v b)
    refine ⟨h₁.trans hone.1, fun a => ?_⟩
    rw [List.foldl_cons, h₂, hone.2, OrdSet.mem_erase, List.mem_cons]
    tauto

/-- Only words that were asked for are loaded after a sync, and none with an error. -/
theorem syncedWords_loaded (hE : E.AllZero) (s : State) {a : CString}
    (ha : a ∈ (syncedWords E s).loaded) :
    a ∈ allShadowWords s ∧ ∀ e ∈ (syncedWords E s).errors, e.word ≠ a := by
  let v₀ : Vocabulary := ⟨s.loadedWords, [], s.dragon⟩
  have hadd := adding_foldl (E := E) (v := v₀) hE
    (OrdSet.nodup ((allShadowWords s).diff s.loadedWords))
    (fun a ha => (OrdSet.mem_diff.1 (OrdSet.mem_def.2 ha)).1)
    ⟨fun a ha hl => (OrdSet.mem_diff.1 (OrdSet.mem_def.2 hl)).2 ha, fun e he => nomatch he⟩
  obtain ⟨herr, hloaded⟩ := removing_foldl hE (s.loadedWords.diff (allShadowWords s)).toList
    (((allShadowWords s).diff s.loadedWords).toList.foldl (addWord E) v₀)
  obtain ⟨h₁, h₂⟩ := (hloaded a).1 ha
  refine ⟨?_, fun e he => ?_⟩
  · by_contra hno
    exact h₂ (OrdSet.mem_def.1 (OrdSet.mem_diff.2 ⟨(hadd.2 a h₁).resolve_right hno, hno⟩))
  · rintro rfl
    exact (hadd.1.errors e (herr ▸ he)).1 h₁

/-- **Loaded words are wanted.**  After a sync in which every call returns `0`, each loaded word is
in the words of a client that had it before. -/
theorem syncState_loaded (hE : E.AllZero) (s : State) {a : CString}
    (ha : a ∈ (syncState E s).loadedWords) :
    ∃ c w w', s.shadowWords.lookup c = some w ∧ a ∈ w.words ∧
      (syncState E s).shadowWords.lookup c = some w' ∧ a ∈ w'.words := by
  rw [(syncState_sameWords s).loadedWords, syncWords_loadedWords] at ha
  obtain ⟨hall, herr⟩ := syncedWords_loaded hE s ha
  obtain ⟨c, w, hc, hw⟩ := mem_allShadowWords.1 hall
  have hrec := (syncState_wordRecord E s c).trans (syncWords_record E s c)
  rw [hc] at hrec
  exact ⟨c, w, _, hc, hw, congrArg Prod.fst hrec, mem_clientErrors.2 ⟨hw, herr⟩⟩

end Draconity
