import Draconity.SyncGrammars

/-!
What the updates do to the shadow state: `set_shadow_grammar`, `set_shadow_words` and
`clear_client_state`, and what a sync leaves of it.
-/

namespace Draconity

open Lib

variable {E : Env} {s : State} {n k : CString} {shadow : GrammarState} {c b : ClientId}

/-! ### An accepted `g.set` or `g.unload` -/

theorem lookup_setShadowGrammar (n k : CString) (shadow : GrammarState) (s : State) :
    (setShadowGrammar n shadow s).shadowGrammars.lookup k =
      if k = n then some shadow else s.shadowGrammars.lookup k := by
  unfold setShadowGrammar
  cases s.shadowGrammars.lookup n <;> exact Keyed.lookup_insert_eq ..

/-- The update that is replaced is answered `skipped`. -/
theorem gsetAnswers_setShadowGrammar (n k : CString) (shadow : GrammarState) (s : State) :
    gsetAnswers k (setShadowGrammar n shadow s) = gsetAnswers k s ++
      if k = n then (s.shadowGrammars.lookup n).toList.map fun sh => sh.answer .skipped [] else [] := by
  unfold setShadowGrammar
  cases h : s.shadowGrammars.lookup n with
  | none => simp; rfl
  | some skipped =>
    show gsetAnswers k (sendGsetResponse skipped.clientId skipped.tid n .skipped [] s) = _
    rw [gsetAnswers_send]
    by_cases hk : k = n
    · subst hk; simp [GrammarState.answer]
    · simp [hk, Ne.symm hk]

theorem setShadowGrammar_sameWords (n : CString) (shadow : GrammarState) (s : State) :
    SameWords s (setShadowGrammar n shadow s) := by
  unfold setShadowGrammar
  cases s.shadowGrammars.lookup n with
  | none => exact ⟨rfl, rfl, rfl, fun _ => rfl⟩
  | some skipped =>
    exact (sendGsetResponse_sameWords (n := n) skipped.clientId skipped.tid .skipped [] s).trans
      ⟨rfl, rfl, rfl, fun _ => rfl⟩

theorem setShadowGrammar_live (n : CString) (shadow : GrammarState) (s : State) :
    (setShadowGrammar n shadow s).grammars = s.grammars ∧
      (setShadowGrammar n shadow s).dragon = s.dragon ∧
      (setShadowGrammar n shadow s).syncs = s.syncs := by
  unfold setShadowGrammar
  cases s.shadowGrammars.lookup n <;> exact ⟨rfl, rfl, rfl⟩

/-! ### An accepted `w.set` -/

theorem lookup_setShadowWords (tid : UInt32) (ws : OrdSet CString) (s : State) :
    (setShadowWords c tid ws s).shadowWords.lookup b =
      if b = c then some ⟨ws, tid.toInt32, false⟩ else s.shadowWords.lookup b := by
  have h : ∀ m : AList fun _ : ClientId => WordState,
      m = s.shadowWords → (m.insert c ⟨ws, tid.toInt32, false⟩).lookup b =
        if b = c then some ⟨ws, tid.toInt32, false⟩ else s.shadowWords.lookup b := by
    rintro m rfl
    exact Keyed.lookup_insert_eq ..
  unfold setShadowWords
  refine h _ ?_
  split
  · split_ifs <;> rfl
  · rfl

theorem wsetAnswers_send (tid : UInt32) (status : Status) (errors : List WordError) (s : State) :
    wsetAnswers b (sendWsetResponse c tid status errors s) =
      wsetAnswers b s ++ if c = b then [⟨c, tid, status, errors⟩] else [] := by
  unfold sendWsetResponse
  rw [wsetAnswers_issue]
  simp only [Issued.wset]
  split_ifs <;> rfl

/-- An update of the client that was not synced is answered `skipped`. -/
theorem wsetAnswers_setShadowWords (tid : UInt32) (ws : OrdSet CString) (s : State) :
    wsetAnswers b (setShadowWords c tid ws s) = wsetAnswers b s ++
      if b = c then ((s.shadowWords.lookup c).filter fun w => !w.synced).toList.map
        fun w => ⟨c, w.lastTid.toUInt32, .skipped, []⟩ else [] := by
  unfold setShadowWords
  cases h : s.shadowWords.lookup c with
  | none => simp; rfl
  | some w =>
    by_cases hw : w.synced = false
    · dsimp only
      rw [if_pos hw]
      show wsetAnswers b (sendWsetResponse c w.lastTid.toUInt32 .skipped [] s) = _
      rw [wsetAnswers_send]
      by_cases hb : b = c
      · subst hb; simp [Option.filter_some, hw]
      · simp [hb, Ne.symm hb]
    · dsimp only
      rw [if_neg hw]
      rw [Bool.not_eq_false] at hw
      simp only [Option.filter_some, hw, Bool.not_true, Bool.false_eq_true, if_false,
        Option.toList_none, List.map_nil, ite_self, List.append_nil]
      rfl

theorem setShadowWords_sameGrammars (c : ClientId) (tid : UInt32) (ws : OrdSet CString)
    (s : State) : SameGrammars s (setShadowWords c tid ws s) := by
  have h : ∀ w : WordState, SameGrammars s (sendWsetResponse c w.lastTid.toUInt32 .skipped [] s) :=
    fun w => ⟨rfl, rfl, rfl, rfl, fun n => by simp [sendWsetResponse, Issued.gset]⟩
  unfold setShadowWords
  cases s.shadowWords.lookup c with
  | none => exact ⟨rfl, rfl, rfl, rfl, fun _ => rfl⟩
  | some w =>
    dsimp only
    split_ifs
    · exact (h w).trans ⟨rfl, rfl, rfl, rfl, fun _ => rfl⟩
    · exact ⟨rfl, rfl, rfl, rfl, fun _ => rfl⟩

theorem setShadowWords_live (tid : UInt32) (ws : OrdSet CString) (s : State) :
    (setShadowWords c tid ws s).loadedWords = s.loadedWords ∧
      (setShadowWords c tid ws s).dragon = s.dragon ∧
      (setShadowWords c tid ws s).syncs = s.syncs := by
  unfold setShadowWords
  cases s.shadowWords.lookup c with
  | none => exact ⟨rfl, rfl, rfl⟩
  | some w => dsimp only; split_ifs <;> exact ⟨rfl, rfl, rfl⟩

/-! ### A disconnect -/

/-- The live grammar of the name is the client's. -/
def State.Owns (s : State) (c : ClientId) (n : CString) : Prop :=
  ∃ g, s.grammars.lookup n = some g ∧ g.state.clientId = c

/-- A disconnect queues an unload for exactly the names whose live grammar is the client's. -/
theorem lookup_clearClientState (c : ClientId) (stack : CString → UInt32) (s : State)
    (n : CString) :
    (s.Owns c n → (clearClientState c stack s).shadowGrammars.lookup n =
        some (unloadState c (stack n))) ∧
      (¬ s.Owns c n → (clearClientState c stack s).shadowGrammars.lookup n =
        s.shadowGrammars.lookup n) := by
  let f : (AList fun _ : CString => GrammarState) → (Σ _ : CString, Grammar) →
      AList fun _ : CString => GrammarState := fun m e =>
    if e.2.state.clientId = c then m.insert e.1 (unloadState c (stack e.1)) else m
  have hperm : s.grammars.entries.Perm s.grammars.entries := List.Perm.refl _
  -- the pass for a live grammar sets an entry of its own name only
  have frame : ∀ m, ∀ e ∈ s.grammars.entries, ∀ k, True → k ≠ e.1 →
      (f m e).lookup k = m.lookup k := by
    intro m e _ k _ hk
    show AList.lookup k (if _ then _ else _) = _
    split_ifs
    · rw [Keyed.lookup_insert_eq, if_neg hk]
    · rfl
  cases hg : s.grammars.lookup n with
  | none =>
    refine ⟨fun ⟨g, h, _⟩ => absurd (hg.symm.trans h) nofun, fun _ => ?_⟩
    exact Keyed.foldl_view_of_notMem (f := f) Sigma.fst (fun k m => AList.lookup k m)
      (I := fun _ => True) (fun _ _ _ _ => trivial) frame
      trivial (Keyed.notMem_of_perm hperm hg)
  | some g =>
    obtain ⟨m, -, hm, hv⟩ := Keyed.foldl_view (f := f) Sigma.fst (fun k m => AList.lookup k m)
      (I := fun _ => True) (fun _ _ _ _ => trivial) frame
      (Keyed.nodup_of_perm hperm) (s := s.shadowGrammars) trivial
      ((Keyed.mem_of_perm hperm).2 hg)
    refine ⟨?_, fun h => ?_⟩
    · rintro ⟨g', hg', hc⟩
      rw [hg, Option.some.injEq] at hg'
      subst hg'
      refine hv.trans ?_
      show AList.lookup n (if _ then _ else _) = _
      rw [if_pos hc, Keyed.lookup_insert_eq, if_pos rfl]
    · refine hv.trans (Eq.trans ?_ hm)
      show AList.lookup n (if _ then _ else _) = _
      rw [if_neg fun hc => h ⟨g, hg, hc⟩]

theorem lookup_shadowWords_clearClientState (stack : CString → UInt32) (s : State)
    (b : ClientId) :
    (clearClientState c stack s).shadowWords.lookup b =
      if b = c then (s.shadowWords.lookup c).map fun w => { w with words := ∅, synced := false }
      else s.shadowWords.lookup b := by
  unfold clearClientState
  dsimp only
  cases h : s.shadowWords.lookup c with
  | none =>
    split_ifs with hb
    · rw [hb]; exact h
    · rfl
  | some w => exact Keyed.lookup_insert_eq ..

/-! ### A sync -/

/-- What a sync does to a name with a pending update, for any return codes. -/
theorem syncState_record (hn : s.shadowGrammars.lookup n = some shadow) :
    ∃ m : State, m.record n = s.record n ∧
      (syncState E s).record n = (syncEntry E m ⟨n, shadow⟩).record n := by
  have hw := syncWords_sameGrammars (E := E) s
  have hn' : (syncWords E s).shadowGrammars.lookup n = some shadow := by
    rw [hw.shadowGrammars]; exact hn
  obtain ⟨m, -, hm, hv⟩ := syncGrammars_record (E := E) (I := fun _ => True)
    (fun _ _ _ _ _ => trivial) trivial hn'
  exact ⟨m, hm.trans (Prod.ext (congrArg (AList.lookup n) hw.grammars) (hw.gset n)), hv⟩

theorem syncState_record_of_none (hn : s.shadowGrammars.lookup n = none) :
    (syncState E s).record n = s.record n := by
  have hw := syncWords_sameGrammars (E := E) s
  have hn' : (syncWords E s).shadowGrammars.lookup n = none := by
    rw [hw.shadowGrammars]; exact hn
  exact (syncGrammars_record_of_none (E := E) hn').trans
    (Prod.ext (congrArg (AList.lookup n) hw.grammars) (hw.gset n))

/-- The record of a live grammar is what a shadow state asks for. -/
structure Follows (g : Grammar) (shadow : GrammarState) : Prop where
  blob : g.state.blob = shadow.blob
  activeRules : g.state.activeRules = shadow.activeRules
  clientId : g.state.clientId = shadow.clientId
  tid : g.state.tid = shadow.tid

/-- What a sync makes of a pending update, with the response it gets. -/
inductive Synced (s : State) (n : CString) (shadow : GrammarState) (r : Answer GrammarError) : Prop
  | unloaded (hu : shadow.unload = true) (hr : r.status = .success)
    (gone : s.grammars.lookup n = none)
  | set (g : Grammar) (hu : shadow.unload = false) (hr : r.status = .success)
    (live : s.grammars.lookup n = some g) (follows : Follows g shadow)
  | failed (hu : shadow.unload = false) (hr : r.status = .error) (errors : r.errors ≠ [])
    (gone : s.grammars.lookup n = none)

/-- **A sync answers each pending update once**, for any return codes. -/
theorem syncState_pending (hn : s.shadowGrammars.lookup n = some shadow) :
    ∃ r, gsetAnswers n (syncState E s) = gsetAnswers n s ++ [r] ∧
      r.clientId = shadow.clientId ∧ r.tid = shadow.tid ∧ Synced (syncState E s) n shadow r := by
  obtain ⟨m, hm, hv⟩ := syncState_record (E := E) hn
  have hold : gsetAnswers n m = gsetAnswers n s := congrArg Prod.snd hm
  have hlive : (syncState E s).grammars.lookup n = (syncEntry E m ⟨n, shadow⟩).grammars.lookup n :=
    congrArg Prod.fst hv
  have hans : gsetAnswers n (syncState E s) = gsetAnswers n (syncEntry E m ⟨n, shadow⟩) :=
    congrArg Prod.snd hv
  cases hu : shadow.unload with
  | true =>
    obtain ⟨h₁, -, h₂⟩ := syncEntry_unload (E := E) (n := n) hu m
    exact ⟨_, by rw [hans, h₂, hold], rfl, rfl, .unloaded hu rfl (hlive.trans h₁)⟩
  | false =>
    by_cases he : (syncGrammar E (m.grammarFor n) shadow m.dragon).1.errors = []
    · obtain ⟨h₁, -, h₂⟩ := syncEntry_set hu m he
      obtain ⟨e₁, e₂, e₃, e₄⟩ := syncGrammar_of_errors_nil he
      exact ⟨_, by rw [hans, h₂, hold], rfl, rfl,
        .set _ hu rfl (hlive.trans h₁) ⟨e₁, e₂, e₃, e₄⟩⟩
    · obtain ⟨h₁, -, h₂⟩ := syncEntry_set_error hu m he
      exact ⟨_, by rw [hans, h₂, hold], rfl, rfl, .failed hu rfl he (hlive.trans h₁)⟩

theorem Synced.not_skipped {r : Answer GrammarError} (h : Synced s n shadow r) :
    r.status ≠ .skipped := by
  cases h with
  | unloaded _ hr | set _ _ hr | failed _ hr => rw [hr]; exact nofun

/-- A pending set is in force after a sync in which every call returns `0`. -/
theorem syncState_set_allZero (hE : E.AllZero) (hn : s.shadowGrammars.lookup n = some shadow)
    (hu : shadow.unload = false) :
    ∃ g, (syncState E s).grammars.lookup n = some g ∧ Follows g shadow := by
  obtain ⟨m, -, hv⟩ := syncState_record (E := E) hn
  have he := syncGrammar_errors hE (m.grammarFor n) shadow m.dragon
  obtain ⟨e₁, e₂, e₃, e₄⟩ := syncGrammar_of_errors_nil he
  exact ⟨_, (congrArg Prod.fst hv).trans (syncEntry_set hu m he).1, ⟨e₁, e₂, e₃, e₄⟩⟩

end Draconity
