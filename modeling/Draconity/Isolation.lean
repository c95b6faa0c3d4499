import Draconity.AnyOrder
import Draconity.Commands
import Draconity.Paused

/-!
What is asked for other names, and for words, has no effect on a name.

Two runs of the event loop are compared, of which the second leaves out the requests that are not
about a name, do not unpause and cannot set `ready`.  The engine gives out other
handles and keys in it, so what the two runs show of the name is compared up to these, as for two
orders of a sync.
-/

namespace Draconity

open Lib Lib.Renaming

variable {E : Env} {s s' a b m m' : State} {n k : CString} {shadow : GrammarState}
  {ρ : ℕ → ℕ → Prop} {v v' : Shown} {N N' : ℕ} {c : ClientId} {tid : UInt32} {f : Fields}

/-! ### What a name shows, and calls that are not on a grammar -/

theorem Log.forNameFrom_offGrammar {new : Log} (h : ∀ c ∈ new, c.1.OffGrammar) :
    Log.forNameFrom n N new = [] := by
  induction new generalizing N with
  | nil => rfl
  | cons c new ih =>
    rw [Log.forNameFrom, ih fun c hc => h c (List.mem_cons_of_mem _ hc), List.append_nil]
    refine List.eq_nil_iff_forall_not_mem.2 fun gc hgc => ?_
    exact h c (List.mem_cons_self ..) n gc.op (Call.forName_eq hgc).1

theorem shown_congr (hg : s'.grammars = s.grammars) (hl : s'.dragon.loaded = s.dragon.loaded)
    {l : Log} (hlog : s'.dragon.log = s.dragon.log ++ l) (hoff : ∀ c ∈ l, c.1.OffGrammar) :
    s'.shown n = s.shown n := by
  have hcalls : Log.forName n s'.dragon.log = Log.forName n s.dragon.log := by
    unfold Log.forName
    rw [hlog, Log.forNameFrom_append, Log.forNameFrom_offGrammar hoff, List.append_nil]
  unfold State.shown
  rw [hg, Dragon.heldFor_congr hl, hcalls]

theorem shown_of_quiet (hg : s'.grammars = s.grammars) (hd : s'.dragon = s.dragon) :
    s'.shown n = s.shown n :=
  shown_congr hg (congrArg Dragon.loaded hd) (l := []) (by rw [hd, List.append_nil]) nofun

theorem shown_of_call {k : Call} (hoff : k.OffGrammar) (hg : s'.grammars = s.grammars)
    (hd : s'.dragon = (s.dragon.call E k).2) : s'.shown n = s.shown n := by
  refine shown_congr hg ?_ (l := [(k, (s.dragon.call E k).1)]) (by rw [hd, Dragon.log_call])
    fun c hc => List.mem_singleton.1 hc ▸ hoff
  have heffect : (s.dragon.effect k).loaded = s.dragon.loaded := by
    cases k with
    | grammar n op => exact absurd rfl (hoff n op)
    | validateWord _ | addTemporaryWord _ | deleteWord _ | resume _ | mimic _ | setMicState _ => rfl
  rw [hd, Dragon.loaded_call, heffect, ite_self]

theorem syncWords_shown (s : State) : (syncWords E s).shown n = s.shown n := by
  have hw := syncWords_sameGrammars (E := E) s
  obtain ⟨words, hlog, hwords⟩ := syncWords_log (E := E) s
  refine shown_congr hw.grammars hw.loaded hlog fun c hc m op h => ?_
  obtain ⟨w, h' | h' | h'⟩ := hwords c hc <;> (rw [h'] at h; cases h)

/-! ### What every state has, also between the parts of an event -/

/-- What the passes of a sync need of the state they start in. -/
structure Sane (s : State) : Prop where
  accounted : Accounted s
  numbered : Numbered s
  blobs : PendingBlobs s

theorem sane_of_reachable (hE : E.Local) (h : (eventLoop E).Reachable s) : Sane s :=
  ⟨accounted_of_reachable (reachable_store h), numbered_of_reachable hE h,
    pendingBlobs_of_reachable (reachable_store h)⟩

theorem Sane.quiet (hs : Sane s) (hg : s'.grammars = s.grammars) (hd : s'.dragon = s.dragon)
    (hb : PendingBlobs s') : Sane s' where
  accounted := hs.accounted.congr hg (by rw [hd]) (by rw [hd])
  numbered := hs.numbered.calls (E := Env.obliging) (P := fun _ => False) nofun hg (hd ▸ .refl _)
  blobs := hb

/-! ### One sync, for a name -/

/-- What a state shows of a name, and the responses for it. -/
def State.told (n : CString) (s : State) : Shown × List (Answer GrammarError) :=
  (s.shown n, gsetAnswers n s)

theorem syncEntry_told_of_ne (hm : Accounted m) (hb : shadow.unload = false → shadow.blob ≠ [])
    (hk : k ≠ n) : (syncEntry E m ⟨n, shadow⟩).told k = m.told k :=
  Prod.ext (syncEntry_shown_of_ne hm hb hk) (syncEntry_of_ne m hk).2

section Sync

variable (hE : E.Local) (hs : Sane s)

include hE hs

/-- What a sync does to a name with a pending update is what the pass for it does, from a state that
shows the same of it. -/
theorem syncState_told (hn : s.shadowGrammars.lookup n = some shadow) :
    ∃ m, Accounted m ∧ Numbered m ∧ m.told n = s.told n ∧
      (syncState E s).told n = (syncEntry E m ⟨n, shadow⟩).told n := by
  have hw := syncWords_sameGrammars (E := E) s
  have hstart : Accounted (syncWords E s) ∧ Numbered (syncWords E s) :=
    ⟨hs.accounted.congr hw.grammars hw.loaded hw.next, hs.numbered.syncWords⟩
  have hpass : ∀ m n sh, s.shadowGrammars.lookup n = some sh → Accounted m ∧ Numbered m →
      Accounted (syncEntry E m ⟨n, sh⟩) ∧ Numbered (syncEntry E m ⟨n, sh⟩) := by
    intro m n sh hpend hm
    obtain ⟨new, -, hpass, -⟩ := syncEntry_account (E := E) (n := n) hm.1 (hs.blobs n sh hpend)
    exact ⟨hpass.accounted, hm.2.syncEntry hE n sh⟩
  obtain ⟨m, m', ⟨hm, hnum⟩, -, hv, hv', heq⟩ := syncState_view (E := E) State.told hstart hpass
    (fun m n sh k hpend hm hk => syncEntry_told_of_ne hm.1 (hs.blobs n sh hpend) hk) hn
  refine ⟨m, hm, hnum, hv.trans (Prod.ext (syncWords_shown s) (hw.gset n)), ?_⟩
  rw [heq]
  exact hv'

omit hE in
/-- A sync leaves a name alone for which nothing is pending. -/
theorem syncState_told_of_none (hn : s.shadowGrammars.lookup n = none) :
    (syncState E s).told n = s.told n := by
  have hw := syncWords_sameGrammars (E := E) s
  obtain ⟨m, hm, heq⟩ := syncState_view_of_none (E := E) (I := Accounted) State.told
    (hs.accounted.congr hw.grammars hw.loaded hw.next)
    (fun m k sh hk hm => by
      obtain ⟨new, -, hpass, -⟩ := syncEntry_account (E := E) (n := k) hm (hs.blobs k sh hk)
      exact hpass.accounted)
    (fun m k sh j hk hm hj => syncEntry_told_of_ne hm (hs.blobs k sh hk) hj) hn
  have hwords : (syncWords E s).told n = s.told n := Prod.ext (syncWords_shown s) (hw.gset n)
  rw [heq]
  exact hm.trans hwords

end Sync

/-! ### Correspondences that go on -/

/-- A correspondence of what two names use goes on with what is given out next in both runs. -/
theorem Shown.Rel.extend (hρ : Renames ρ) (h : v.Rel ρ v') (hN : 0 < N) (hN' : 0 < N')
    (hv : ∀ i, v.Uses i → i < N) (hv' : ∀ i, v'.Uses i → i < N') :
    ∃ σ, Renames σ ∧ v.Rel σ v' ∧ ∀ i, σ (N + i) (N' + i) := by
  let σ : ℕ → ℕ → Prop := fun x y =>
    (ρ x y ∧ x < N ∧ y < N') ∨ ∃ i, x = N + i ∧ y = N' + i
  refine ⟨σ, ⟨⟨?_, ?_⟩, .inl ⟨hρ.null, hN, hN'⟩⟩, ?_, fun i => .inr ⟨i, rfl, rfl⟩⟩
  · rintro x y z (⟨hx, -, hlt⟩ | ⟨i, rfl, rfl⟩) (⟨hy, -, hlt'⟩ | ⟨j, rfl, hj⟩)
    · exact hρ.biUnique.1 hx hy
    all_goals omega
  · rintro x y z (⟨hx, hlt, -⟩ | ⟨i, rfl, rfl⟩) (⟨hy, hlt', -⟩ | ⟨j, hj, rfl⟩)
    · exact hρ.biUnique.2 hx hy
    all_goals omega
  · refine h.change (fun x y hx hy hxy => .inl ⟨hxy, hv x hx, hv' y hy⟩) ?_
    rintro x y hu (⟨hxy, -, -⟩ | ⟨i, rfl, rfl⟩)
    · exact hxy
    · rcases hu with hu | hu
      · have := hv _ hu
        omega
      · have := hv' _ hu
        omega

/-! ### Two runs -/

/-- Two states show the same of a name, but for handles and keys, have the same pending for it and
have given the same responses; and they agree on whether Dragon is paused, and for whom. -/
structure Alike (n : CString) (s s' : State) : Prop where
  shown : ∃ ρ, Renames ρ ∧ (s.shown n).Rel ρ (s'.shown n)
  pending : s'.shadowGrammars.lookup n = s.shadowGrammars.lookup n
  answers : gsetAnswers n s' = gsetAnswers n s
  ready : s'.ready = s.ready
  pause : SamePause s s'

/-- Nothing of that changed. -/
structure Unaffected (n : CString) (s s' : State) : Prop where
  shown : s'.shown n = s.shown n
  pending : s'.shadowGrammars.lookup n = s.shadowGrammars.lookup n
  answers : gsetAnswers n s' = gsetAnswers n s
  ready : s'.ready = s.ready
  pause : SamePause s s'

theorem SamePause.symm (h : SamePause s s') : SamePause s' s :=
  ⟨h.pauseToken.symm, h.pauseClients.symm, h.pauseTimer.symm, h.clients.symm, h.clientNonce.symm,
    h.resumes.symm⟩

theorem Unaffected.refl (s : State) : Unaffected n s s := ⟨rfl, rfl, rfl, rfl, .refl s⟩

theorem Unaffected.trans (h : Unaffected n s a) (h' : Unaffected n a b) : Unaffected n s b :=
  ⟨h'.shown.trans h.shown, h'.pending.trans h.pending, h'.answers.trans h.answers,
    h'.ready.trans h.ready, h.pause.trans h'.pause⟩

/-- What the store keeps of a step with one call that is not on a grammar. -/
theorem Unaffected.call {k : Call} (hoff : k.OffGrammar) (store : SameStore s s')
    (pause : SamePause s s') (hd : s'.dragon = (s.dragon.call E k).2)
    (hready : s'.ready = s.ready) : Unaffected n s s' :=
  ⟨shown_of_call hoff store.grammars hd, by rw [store.shadowGrammars], store.gset n, hready, pause⟩

theorem Unaffected.issue {i : Issued} (hi : i.gset n = none) (s : State) : Unaffected n s (s.issue i) :=
  ⟨rfl, rfl, by rw [gsetAnswers_issue, hi, Option.toList_none, List.append_nil], rfl,
    samePause_issue i s⟩

theorem Alike.unaffected (h : Alike n s s') (ha : Unaffected n s a) (hb : Unaffected n s' b) :
    Alike n a b where
  shown := by
    rw [ha.shown, hb.shown]
    exact h.shown
  pending := hb.pending.trans (h.pending.trans ha.pending.symm)
  answers := hb.answers.trans (h.answers.trans ha.answers.symm)
  ready := hb.ready.trans (h.ready.trans ha.ready.symm)
  pause := ha.pause.symm.trans (h.pause.trans hb.pause)

theorem Alike.unaffected_left (h : Alike n s s') (ha : Unaffected n s a) : Alike n a s' :=
  h.unaffected ha (.refl s')

/-! ### The parts of an event in both runs -/

theorem syncEntry_ready (s : State) (e : Σ _ : CString, GrammarState) :
    (syncEntry E s e).ready = s.ready := by
  unfold syncEntry syncUnload syncSet
  dsimp only
  split_ifs
  · cases s.grammars.lookup e.1 <;> rfl
  · rfl
  · rfl

theorem handleWordFailures_ready (errors : List WordError) (s : State) :
    (handleWordFailures E errors s).ready = s.ready :=
  Keyed.foldl_rel (f := handleClientFailures errors) (R := fun s s' : State => s'.ready = s.ready)
    (fun _ => rfl) (fun h h' => h'.trans h) (fun _ _ => rfl) _ s

theorem syncState_ready (s : State) : (syncState E s).ready = s.ready := by
  have hwords : (syncWords E s).ready = s.ready := handleWordFailures_ready _ _
  refine Eq.trans ?_ hwords
  exact Keyed.foldl_rel (R := fun s s' : State => s'.ready = s.ready) (fun _ => rfl)
    (fun h h' => h'.trans h) syncEntry_ready _ (syncWords E s)

theorem Unaffected.syncState (hs : Sane s) (hn : s.shadowGrammars.lookup n = none) :
    Unaffected n s (syncState E s) := by
  have htold := syncState_told_of_none (E := E) hs hn
  exact ⟨congrArg Prod.fst htold, hn.symm ▸ rfl, congrArg Prod.snd htold, syncState_ready s,
    syncState_samePause s⟩

/-- **A sync in both runs.** -/
theorem Alike.syncState (hE : E.Local) (hs : Sane s) (hs' : Sane s') (h : Alike n s s') :
    Alike n (syncState E s) (syncState E s') := by
  cases hn : s.shadowGrammars.lookup n with
  | none => exact h.unaffected (.syncState hs hn) (.syncState hs' (h.pending.trans hn))
  | some shadow =>
    obtain ⟨m, hm, hnum, hv, htold⟩ := syncState_told hE hs hn
    obtain ⟨m', -, hnum', hv', htold'⟩ := syncState_told hE hs' (h.pending.trans hn)
    obtain ⟨ρ, hρ, hrel⟩ := h.shown
    have hrel : (m.shown n).Rel ρ (m'.shown n) := by
      rw [show m.shown n = s.shown n from congrArg Prod.fst hv,
        show m'.shown n = s'.shown n from congrArg Prod.fst hv']
      exact hrel
    -- the correspondence grows by the handles and keys the pass may give out
    obtain ⟨σ, hσ, hrel, hnext⟩ := hrel.extend hρ hnum.dragon.pos hnum'.dragon.pos
      (fun _ => hnum.uses) fun _ => hnum'.uses
    obtain ⟨hshown, hresponse⟩ := syncEntry_rel hE hσ hm hnum hnum' hrel hnext shadow
    have hanswers : gsetAnswers n m' = gsetAnswers n m :=
      (congrArg Prod.snd hv').trans (h.answers.trans (congrArg Prod.snd hv).symm)
    refine ⟨⟨σ, hσ, ?_⟩, rfl, ?_, ?_, ?_⟩
    · rw [show (Draconity.syncState E s).shown n = _ from congrArg Prod.fst htold,
        show (Draconity.syncState E s').shown n = _ from congrArg Prod.fst htold']
      exact hshown
    · have hlast : ∀ m : State, gsetAnswers n (syncEntry E m ⟨n, shadow⟩) = gsetAnswers n m ++
          ((shadow.response n (passed E shadow (m.grammarFor n, m.dragon)).1).gset n).toList := by
        intro m
        obtain ⟨-, -, hissued⟩ := syncEntry_passed (E := E) m n shadow
        rw [← gsetAnswers_issue]
        exact congrArg (List.filterMap (Issued.gset n)) hissued
      rw [show gsetAnswers n (Draconity.syncState E s) = _ from congrArg Prod.snd htold,
        show gsetAnswers n (Draconity.syncState E s') = _ from congrArg Prod.snd htold']
      show gsetAnswers n (syncEntry E m' _) = gsetAnswers n (syncEntry E m _)
      rw [hlast, hlast, hanswers, hresponse]
    · rw [syncState_ready, syncState_ready, h.ready]
    · exact (syncState_samePause s).symm.trans (h.pause.trans (syncState_samePause s'))

theorem Alike.doUnpause (h : Alike n s s') : Alike n (doUnpause E s) (doUnpause E s') := by
  have hcall : ∀ s : State, (Draconity.doUnpause E s).shown n = s.shown n := by
    intro s
    unfold Draconity.doUnpause
    split_ifs
    · exact shown_of_call (k := .resume s.pauseToken) nofun rfl rfl
    · rfl
  refine ⟨?_, ?_, ?_, ?_, ?_⟩
  · rw [hcall, hcall]
    exact h.shown
  · rw [(doUnpause_sameStore s).shadowGrammars, (doUnpause_sameStore s').shadowGrammars]
    exact h.pending
  · rw [(doUnpause_sameStore s).gset, (doUnpause_sameStore s').gset]
    exact h.answers
  · have hready : ∀ s : State, (Draconity.doUnpause E s).ready = s.ready := by
      intro s
      unfold Draconity.doUnpause
      split_ifs <;> rfl
    rw [hready, hready, h.ready]
  · by_cases h0 : s.pauseToken = 0
    · rw [doUnpause_of_not_paused h0, doUnpause_of_not_paused (h.pause.pauseToken.trans h0)]
      exact h.pause
    · have h0' : s'.pauseToken ≠ 0 := h.pause.pauseToken ▸ h0
      have hresumes := resumes_doUnpause (E := E) h0
      have hresumes' := resumes_doUnpause (E := E) h0'
      unfold Draconity.doUnpause at hresumes hresumes' ⊢
      rw [if_pos (pauseToken_pos.2 h0)] at hresumes ⊢
      rw [if_pos (pauseToken_pos.2 h0')] at hresumes' ⊢
      refine ⟨rfl, rfl, rfl, h.pause.clients, h.pause.clientNonce, ?_⟩
      rw [hresumes, hresumes', h.pause.resumes, h.pause.pauseToken]

theorem Alike.mapPause (h : Alike n s s') (ha : SameStore s a) (hb : SameStore s' b)
    (hda : a.dragon = s.dragon) (hdb : b.dragon = s'.dragon) (hra : a.ready = s.ready)
    (hrb : b.ready = s'.ready) (hp : SamePause a b) : Alike n a b where
  shown := by
    rw [shown_of_quiet ha.grammars hda, shown_of_quiet hb.grammars hdb]
    exact h.shown
  pending := by
    rw [ha.shadowGrammars, hb.shadowGrammars]
    exact h.pending
  answers := by
    rw [ha.gset, hb.gset]
    exact h.answers
  ready := by rw [hra, hrb, h.ready]
  pause := hp

theorem Alike.clientUnpause (h : Alike n s s') (c : ClientId) {token token' : UInt64}
    (ht : token' = token) : Alike n (clientUnpause E c token s) (clientUnpause E c token' s') := by
  subst ht
  have herase : Alike n { s with pauseClients := s.pauseClients.erase c }
      { s' with pauseClients := s'.pauseClients.erase c } := by
    refine h.mapPause ⟨rfl, rfl, rfl, rfl, rfl, rfl, rfl, rfl, fun _ => rfl, fun _ => rfl⟩
      ⟨rfl, rfl, rfl, rfl, rfl, rfl, rfl, rfl, fun _ => rfl, fun _ => rfl⟩ rfl rfl rfl rfl
      ⟨h.pause.pauseToken, ?_, h.pause.pauseTimer, h.pause.clients, h.pause.clientNonce,
        h.pause.resumes⟩
    show s'.pauseClients.erase c = s.pauseClients.erase c
    rw [h.pause.pauseClients]
  unfold Draconity.clientUnpause
  dsimp only
  by_cases ht : s.pauseToken = token'
  · rw [if_pos ht, if_pos (h.pause.pauseToken.trans ht)]
    by_cases he : s.pauseClients.erase c = ∅
    · have he' : s'.pauseClients.erase c = ∅ := by rw [h.pause.pauseClients, he]
      rw [if_pos he, if_pos he']
      exact herase.doUnpause
    · have he' : s'.pauseClients.erase c ≠ ∅ := by rwa [h.pause.pauseClients]
      rw [if_neg he, if_neg he']
      exact herase
  · rw [if_neg ht, if_neg (h.pause.pauseToken ▸ ht)]
    exact h

theorem Sane.setShadowGrammar (hs : Sane s) (hb : shadow.unload = false → shadow.blob ≠ []) :
    Sane (setShadowGrammar n shadow s) := by
  obtain ⟨hg, hd, -⟩ := setShadowGrammar_live n shadow s
  have hblobs : PendingBlobs (Op.apply Env.obliging s (.setGrammar n shadow)) :=
    pendingBlobs_step hs.blobs hb
  exact hs.quiet hg hd hblobs

theorem Alike.setShadowGrammar (h : Alike n s s') (shadow : GrammarState) :
    Alike n (setShadowGrammar n shadow s) (setShadowGrammar n shadow s') := by
  obtain ⟨hg, hd, -⟩ := setShadowGrammar_live n shadow s
  obtain ⟨hg', hd', -⟩ := setShadowGrammar_live n shadow s'
  have hready : ∀ s : State, (Draconity.setShadowGrammar n shadow s).ready = s.ready := by
    intro s
    unfold Draconity.setShadowGrammar
    cases s.shadowGrammars.lookup n <;> rfl
  refine ⟨?_, ?_, ?_, ?_, ?_⟩
  · rw [shown_of_quiet hg hd, shown_of_quiet hg' hd']
    exact h.shown
  · rw [lookup_setShadowGrammar, lookup_setShadowGrammar, if_pos rfl, if_pos rfl]
  · rw [gsetAnswers_setShadowGrammar, gsetAnswers_setShadowGrammar, h.answers, h.pending]
  · rw [hready, hready, h.ready]
  · exact (setShadowGrammar_samePause n shadow s).symm.trans
      (h.pause.trans (setShadowGrammar_samePause n shadow s'))

theorem Unaffected.setShadowGrammar (hk : k ≠ n) (shadow : GrammarState) (s : State) :
    Unaffected n s (setShadowGrammar k shadow s) := by
  obtain ⟨hg, hd, -⟩ := setShadowGrammar_live k shadow s
  refine ⟨shown_of_quiet hg hd, ?_, ?_, ?_, setShadowGrammar_samePause k shadow s⟩
  · rw [lookup_setShadowGrammar, if_neg hk.symm]
  · rw [gsetAnswers_setShadowGrammar, if_neg hk.symm, List.append_nil]
  · unfold Draconity.setShadowGrammar
    cases s.shadowGrammars.lookup k <;> rfl

section Accept

variable (hs : Sane s) (hb : shadow.unload = false → shadow.blob ≠ [])

include hs hb

/-- **An update of the name in both runs.** -/
theorem Alike.acceptGrammar (hE : E.Local) (hs' : Sane s') (h : Alike n s s') :
    Alike n (acceptGrammar E n shadow s) (acceptGrammar E n shadow s') := by
  rw [acceptGrammar_eq, acceptGrammar_eq]
  have hset := h.setShadowGrammar shadow
  by_cases h0 : s.pauseToken = 0
  · rw [if_pos h0, if_pos (h.pause.pauseToken.trans h0)]
    exact hset
  · rw [if_neg h0, if_neg (h.pause.pauseToken ▸ h0)]
    exact hset.syncState hE (hs.setShadowGrammar hb) (hs'.setShadowGrammar hb)

/-- An update of another name in one run.  While Dragon is paused it syncs, but nothing is pending
for the name then. -/
theorem Unaffected.acceptGrammar (hp : PausedApplied s) (hk : k ≠ n) :
    Unaffected n s (acceptGrammar E k shadow s) := by
  rw [acceptGrammar_eq]
  have hset := Unaffected.setShadowGrammar hk shadow s
  split_ifs with h0
  · exact hset
  · refine hset.trans (.syncState (hs.setShadowGrammar hb) ?_)
    rw [hset.pending, hp h0]
    rfl

end Accept

theorem Alike.owns (h : Alike n s s') (c : ClientId) : s'.Owns c n ↔ s.Owns c n := by
  obtain ⟨ρ, -, hrel⟩ := h.shown
  have hrecord : Option.Rel (Grammar.Rel ρ) (s.grammars.lookup n) (s'.grammars.lookup n) :=
    hrel.record
  unfold State.Owns
  generalize s.grammars.lookup n = o at hrecord ⊢
  generalize s'.grammars.lookup n = o' at hrecord ⊢
  cases hrecord with
  | none => exact Iff.rfl
  | @some g g' hg => simp [hg.state]

theorem Sane.clearClientState (hs : Sane s) (c : ClientId) (stack : CString → UInt32) :
    Sane (clearClientState c stack s) := by
  have hblobs : PendingBlobs (Op.apply Env.obliging s (.disconnect c stack)) :=
    pendingBlobs_step hs.blobs trivial
  exact hs.quiet rfl rfl hblobs

/-- **The cleanup of a client in both runs.** -/
theorem Alike.clearClientState (h : Alike n s s') (c : ClientId) (stack : CString → UInt32) :
    Alike n (clearClientState c stack s) (clearClientState c stack s') where
  shown := h.shown
  pending := by
    obtain ⟨howned, hother⟩ := lookup_clearClientState c stack s n
    obtain ⟨howned', hother'⟩ := lookup_clearClientState c stack s' n
    by_cases ho : s.Owns c n
    · rw [howned ho, howned' ((h.owns c).2 ho)]
    · rw [hother ho, hother' fun h' => ho ((h.owns c).1 h')]
      exact h.pending
  answers := h.answers
  ready := h.ready
  pause := ⟨h.pause.pauseToken, h.pause.pauseClients, h.pause.pauseTimer, h.pause.clients,
    h.pause.clientNonce, h.pause.resumes⟩

theorem Alike.draconityReady (h : Alike n s s') :
    Alike n (draconityReady E s) (draconityReady E s') := by
  have hd := draconityReady_dragon (E := E) s
  have hd' := draconityReady_dragon (E := E) s'
  obtain ⟨hstore, hpause⟩ := draconityReady_same (E := E) s
  obtain ⟨hstore', hpause'⟩ := draconityReady_same (E := E) s'
  refine ⟨?_, ?_, ?_, ?_, hpause.symm.trans (h.pause.trans hpause')⟩
  · rw [shown_of_quiet hstore.grammars hd, shown_of_quiet hstore'.grammars hd']
    exact h.shown
  · rw [hstore.shadowGrammars, hstore'.shadowGrammars]
    exact h.pending
  · rw [hstore.gset, hstore'.gset]
    exact h.answers
  · rw [draconityReady_ready, draconityReady_ready]

theorem Alike.engineAcquire (h : Alike n s s') (found : Found) :
    Alike n (engineAcquire E found s) (engineAcquire E found s') := by
  have hstart : Alike n (if found.engine then s else s.issue (.publish .start))
      (if found.engine then s' else s'.issue (.publish .start)) := by
    split_ifs
    · exact h
    · exact h.unaffected (.issue rfl s) (.issue rfl s')
  unfold Draconity.engineAcquire
  dsimp only
  generalize (if found.engine then s else s.issue (.publish .start)) = m at hstart ⊢
  generalize (if found.engine then s' else s'.issue (.publish .start)) = m' at hstart ⊢
  rw [hstart.ready]
  split_ifs
  · exact hstart.draconityReady
  · exact hstart

/-! ### Requests -/

/-- The events that matter to a name: all but the ends of mimics and the requests that are neither
about it nor `unpause` nor one of the two that can set `ready`. -/
def Event.Concerns (n : CString) : Event → Prop
  | .message _ _ (some root) _ =>
    let f := Fields.ofRoot root
    f.cmd = some (.lit "ready") ∨ f.cmd = some (.lit "mic.set_state") ∨
      f.cmd = some (.lit "unpause") ∨
      (f.cmd = some (.lit "g.set") ∨ f.cmd = some (.lit "g.unload")) ∧ f.name = some n
  | .message _ _ none _ | .mimicDone _ => False
  | .connect | .close _ _ | .paused _ | .timer | .ready => True

instance (n : CString) : DecidablePred (Event.Concerns n)
  | .message _ _ (some _) _ => inferInstanceAs (Decidable (_ ∨ _ ∨ _ ∨ _ ∧ _))
  | .message _ _ none _ | .mimicDone _ => .isFalse id
  | .connect | .close _ _ | .paused _ | .timer | .ready => .isTrue trivial

theorem Unaffected.setShadowWords (ws : OrdSet CString) (s : State) :
    Unaffected n s (setShadowWords c tid ws s) := by
  have hw := setShadowWords_sameGrammars c tid ws s
  refine ⟨shown_of_quiet hw.grammars (setShadowWords_live tid ws s).2.1, by rw [hw.shadowGrammars],
    hw.gset n, ?_, setShadowWords_samePause tid ws s⟩
  unfold Draconity.setShadowWords
  cases s.shadowWords.lookup c with
  | none => rfl
  | some w => dsimp only; split_ifs <;> rfl

theorem Unaffected.dispatch (hs : Sane s) (hp : PausedApplied s) (found : Found)
    (hready : f.cmd ≠ some (.lit "ready")) (hmic : f.cmd ≠ some (.lit "mic.set_state"))
    (hunpause : f.cmd ≠ some (.lit "unpause"))
    (hn : f.cmd = some (.lit "g.set") ∨ f.cmd = some (.lit "g.unload") → f.name ≠ some n) :
    Unaffected n s (dispatch E c tid f found s).2 := by
  have hmimic : ∀ phrase, Unaffected n s { s with dragon := (s.dragon.call E (.mimic phrase)).2 } :=
    fun phrase => .call (k := .mimic phrase) nofun (sameStore_call (fun _ => rfl) s)
      (samePause_call rfl s) rfl rfl
  have hdone := dispatch_performs E c tid f found s
  generalize (Draconity.dispatch E c tid f found s).2 = s' at hdone
  cases hdone with
  | nothing => exact .refl s
  | ready hcmd => exact absurd hcmd hready
  | words ws => exact .setShadowWords ws s
  | grammar name shadow hcmd hname _ _ hb =>
    exact .acceptGrammar hs hb hp fun h => hn hcmd (h ▸ hname)
  | setMicState found code hcmd => exact absurd hcmd hmic
  | unpause hcmd => exact absurd hcmd hunpause
  | mimicFailed phrase => exact hmimic phrase
  | mimic phrase =>
    exact (hmimic phrase).trans ⟨rfl, rfl, rfl, rfl, ⟨rfl, rfl, rfl, rfl, rfl, rfl⟩⟩

theorem Alike.unpause (h : Alike n s s') :
    Alike n (unpause E c f s).2 (unpause E c f s').2 := by
  unfold Draconity.unpause
  by_cases ht : f.token = 0 ∨ f.token ≠ s.pauseToken
  · rw [if_pos ht, if_pos (h.pause.pauseToken ▸ ht)]
    exact h
  · rw [if_neg ht, if_neg (h.pause.pauseToken ▸ ht)]
    exact h.clientUnpause c rfl

/-- The codes the engine returns may differ in the two runs, but nothing that is kept is set by them. -/
theorem Alike.micSetState (h : Alike n s s') (found : Found) :
    Alike n (micSetState E f found s).2 (micSetState E f found s').2 := by
  have hcall : ∀ (s : State) (code : ℕ), Unaffected n s
      { s with dragon := (s.dragon.call E (.setMicState code)).2 } := fun s code =>
    .call (k := .setMicState code) nofun (sameStore_call (fun _ => rfl) s) (samePause_call rfl s)
      rfl rfl
  have hacquire := h.engineAcquire (E := E) found
  unfold Draconity.micSetState
  split
  · exact h
  · split
    · exact h
    · have hboth := hacquire.unaffected (hcall _ ‹ℕ›) (hcall _ ‹ℕ›)
      dsimp only
      split_ifs <;> exact hboth

/-- **A request for the name in both runs.** -/
theorem Alike.gCommand (hE : E.Local) (hs : Sane s) (hs' : Sane s') (h : Alike n s s')
    (hn : f.name = some n) (cmd : CString) :
    Alike n (gCommand E c tid cmd f s).2 (gCommand E c tid cmd f s').2 := by
  unfold Draconity.gCommand
  by_cases hr : s.ready = false
  · rw [if_pos hr, if_pos (h.ready.trans hr)]
    exact h
  rw [if_neg hr, if_neg (h.ready ▸ hr), hn]
  dsimp only
  split_ifs
  · cases hshadow : gSetState c tid f with
    | error e => exact h
    | ok shadow => exact h.acceptGrammar hs (fun _ => (gSetState_ok hshadow).2.2) hE hs'
  · exact h.acceptGrammar hs nofun hE hs'
  · exact h

theorem Alike.dispatch (hE : E.Local) (hs : Sane s) (hs' : Sane s') (h : Alike n s s')
    (found : Found) (hf : f.cmd = some (.lit "ready") ∨ f.cmd = some (.lit "mic.set_state") ∨
      f.cmd = some (.lit "unpause") ∨
      (f.cmd = some (.lit "g.set") ∨ f.cmd = some (.lit "g.unload")) ∧ f.name = some n) :
    Alike n (dispatch E c tid f found s).2 (dispatch E c tid f found s').2 := by
  have hdispatch : ∀ s, (f.cmd = some (.lit "ready") →
      (Draconity.dispatch E c tid f found s).2 = Draconity.draconityReady E s) ∧
      (f.cmd = some (.lit "mic.set_state") →
        (Draconity.dispatch E c tid f found s).2 = (Draconity.micSetState E f found s).2) ∧
      (f.cmd = some (.lit "unpause") →
        (Draconity.dispatch E c tid f found s).2 = (Draconity.unpause E c f s).2) ∧
      ∀ cmd, f.cmd = some cmd → cmd = .lit "g.set" ∨ cmd = .lit "g.unload" →
        (Draconity.dispatch E c tid f found s).2 = (Draconity.gCommand E c tid cmd f s).2 := by
    intro s
    unfold Draconity.dispatch
    refine ⟨fun hf => by rw [hf]; rfl, fun hf => by rw [hf]; rfl, fun hf => by rw [hf]; rfl,
      fun cmd hf hcmd => ?_⟩
    rw [hf]
    rcases hcmd with rfl | rfl <;> rfl
  obtain ⟨hready, hmic, hunpause, hg⟩ := hdispatch s
  obtain ⟨hready', hmic', hunpause', hg'⟩ := hdispatch s'
  rcases hf with hf | hf | hf | ⟨hf, hn⟩
  · rw [hready hf, hready' hf]
    exact h.draconityReady
  · rw [hmic hf, hmic' hf]
    exact h.micSetState found
  · rw [hunpause hf, hunpause' hf]
    exact h.unpause
  · obtain ⟨cmd, hcmd, hset⟩ : ∃ cmd, f.cmd = some cmd ∧
        (cmd = .lit "g.set" ∨ cmd = .lit "g.unload") := by
      rcases hf with hf | hf
      · exact ⟨_, hf, .inl rfl⟩
      · exact ⟨_, hf, .inr rfl⟩
    rw [hg cmd hcmd hset, hg' cmd hcmd hset]
    exact h.gCommand hE hs hs' hn cmd

/-! ### Events -/

/-- An event that does not concern the name, in one run. -/
theorem Unaffected.step (hs : Sane s) (hp : PausedApplied s) {e : Event} (he : ¬ e.Concerns n) :
    Unaffected n s (step E s e) := by
  cases e with
  | connect | close _ _ | paused _ | timer | ready => exact absurd trivial he
  | mimicDone stale =>
    show Unaffected n s (draconityMimicDone stale s)
    unfold draconityMimicDone
    split
    · exact .refl s
    · exact ⟨rfl, rfl, by rw [gsetAnswers_issue]; exact List.append_nil _, rfl,
        ⟨rfl, rfl, rfl, rfl, rfl, rfl⟩⟩
  | message c tid msg found =>
    cases msg with
    | none => exact .refl s
    | some root =>
      obtain ⟨hready, hrest⟩ := not_or.1 he
      obtain ⟨hmic, hrest⟩ := not_or.1 hrest
      obtain ⟨hunpause, hn⟩ := not_or.1 hrest
      have h : Unaffected n s (Draconity.dispatch E c tid (.ofRoot root) found s).2 :=
        .dispatch hs hp found hready hmic hunpause fun hf hname => hn ⟨hf, hname⟩
      exact h.trans (.issue rfl _)

theorem Alike.handleClose (hE : E.Local) (hs : Sane s) (hs' : Sane s') (h : Alike n s s')
    (c : ClientId) (stack : CString → UInt32) :
    Alike n (handleClose E c stack s) (handleClose E c stack s') := by
  have hdrop : Alike n (s.dropClient c) (s'.dropClient c) := by
    refine ⟨h.shown, h.pending, h.answers, h.ready, ⟨h.pause.pauseToken, h.pause.pauseClients,
      h.pause.pauseTimer, ?_, h.pause.clientNonce, h.pause.resumes⟩⟩
    exact congrArg (List.filter (· ≠ c)) h.pause.clients
  have hsane : ∀ {s : State}, Sane s → Sane (s.dropClient c) := fun hs => hs.quiet rfl rfl hs.blobs
  have hclear := hdrop.clearClientState c stack
  by_cases h0 : s.pauseToken = 0
  · rw [handleClose_of_not_paused h0, handleClose_of_not_paused (h.pause.pauseToken.trans h0)]
    exact hclear
  · rw [handleClose_of_paused h0, handleClose_of_paused (h.pause.pauseToken ▸ h0)]
    refine Alike.clientUnpause ?_ c h.pause.pauseToken
    exact hclear.syncState hE ((hsane hs).clearClientState c stack)
      ((hsane hs').clearClientState c stack)

theorem Alike.handlePause (hE : E.Local) (hs : Sane s) (hs' : Sane s') (h : Alike n s s')
    (token : UInt64) : Alike n (handlePause E token s) (handlePause E token s') := by
  have htoken : Alike n { s with pauseToken := token } { s' with pauseToken := token } :=
    ⟨h.shown, h.pending, h.answers, h.ready, ⟨rfl, h.pause.pauseClients, h.pause.pauseTimer,
      h.pause.clients, h.pause.clientNonce, h.pause.resumes⟩⟩
  have hsane : ∀ {s : State}, Sane s → Sane { s with pauseToken := token } := fun hs =>
    hs.quiet rfl rfl hs.blobs
  have hsync := htoken.syncState hE (hsane hs) (hsane hs')
  rw [handlePause_eq, handlePause_eq]
  generalize Draconity.syncState E { s with pauseToken := token } = a at hsync ⊢
  generalize Draconity.syncState E { s' with pauseToken := token } = b at hsync ⊢
  unfold afterPauseSync
  by_cases hc : a.clients = []
  · rw [if_pos hc, if_pos (hsync.pause.clients.trans hc)]
    exact hsync.doUnpause
  · rw [if_neg hc, if_neg (hsync.pause.clients ▸ hc)]
    refine ⟨hsync.shown, hsync.pending, ?_, hsync.ready, ⟨hsync.pause.pauseToken, ?_, rfl,
      hsync.pause.clients, hsync.pause.clientNonce, hsync.pause.resumes⟩⟩
    · show gsetAnswers n (State.issue _ _) = gsetAnswers n (State.issue _ _)
      rw [gsetAnswers_issue, gsetAnswers_issue]
      exact congrArg (· ++ _) hsync.answers
    · show b.clients.foldl _ b.pauseClients = a.clients.foldl _ a.pauseClients
      rw [hsync.pause.clients, hsync.pause.pauseClients]

/-- **An event that concerns the name, in both runs.** -/
theorem Alike.step (hE : E.Local) (hs : Sane s) (hs' : Sane s') (h : Alike n s s') {e : Event}
    (he : e.Concerns n) : Alike n (step E s e) (step E s' e) := by
  cases e with
  | connect =>
    refine ⟨h.shown, h.pending, h.answers, h.ready, ⟨h.pause.pauseToken, h.pause.pauseClients,
      h.pause.pauseTimer, ?_, ?_, h.pause.resumes⟩⟩
    · show s'.clients ++ [s'.clientNonce] = s.clients ++ [s.clientNonce]
      rw [h.pause.clients, h.pause.clientNonce]
    · exact congrArg (· + 1) h.pause.clientNonce
  | close c stack => exact h.handleClose hE hs hs' c stack
  | message c tid msg found =>
    cases msg with
    | none => exact he.elim
    | some root => exact (h.dispatch hE hs hs' found he).unaffected (.issue rfl _) (.issue rfl _)
  | paused token => exact h.handlePause hE hs hs' token
  | timer =>
    refine Alike.doUnpause ?_
    exact ⟨h.shown, h.pending, h.answers, h.ready, ⟨h.pause.pauseToken, h.pause.pauseClients, rfl,
      h.pause.clients, h.pause.clientNonce, h.pause.resumes⟩⟩
  | ready => exact h.draconityReady
  | mimicDone => exact he.elim

theorem Alike.enabled (h : Alike n s s') {e : Event} (he : Enabled s e) : Enabled s' e := by
  cases e with
  | connect => exact lt_of_eq_of_lt (congrArg (· + 1) h.pause.clientNonce) he
  | close c _ | message c _ _ _ =>
    show c ∈ s'.clients
    rw [h.pause.clients]
    exact he
  | paused token => exact he
  | timer => exact h.pause.pauseTimer.trans he
  | ready | mimicDone => trivial

/-- **No interference.**  Leave out of a run of the event loop every request that does not concern the
name, does not unpause and cannot set `ready`, and every end of a mimic: what is left is a run, Dragon is
resumed in it with the same tokens, and for the name it ends with the same record, pending update and
responses, with the same held by the engine, after the same calls, but for the handles and keys. -/
theorem name_isolated (hE : E.Local) (n : CString) {es : List Event}
    (hr : (eventLoop E).Run (eventLoop E).start es) :
    (eventLoop E).Run (eventLoop E).start (es.filter (Event.Concerns n)) ∧
      Alike n ((eventLoop E).exec (eventLoop E).start es)
        ((eventLoop E).exec (eventLoop E).start (es.filter (Event.Concerns n))) := by
  let R : State → State → Prop := fun s s' =>
    (eventLoop E).Reachable s ∧ (eventLoop E).Reachable s' ∧ Alike n s s'
  have hstart : R (eventLoop E).start (eventLoop E).start := by
    refine ⟨⟨[], trivial, rfl⟩, ⟨[], trivial, rfl⟩, ⟨Eq, renames_eq, .refl _⟩, rfl, rfl, rfl, .refl _⟩
  obtain ⟨hrun, -, -, halike⟩ := hr.purged (R := R) (K := Event.Concerns n)
    (fun s s' e ⟨hs, hs', h⟩ he hk => ⟨hs.step he, hs',
      h.unaffected_left (.step (sane_of_reachable hE hs) (pausedApplied_of_reachable hs) hk)⟩)
    (fun s s' e ⟨hs, hs', h⟩ he hk => ⟨h.enabled he, hs.step he, hs'.step (h.enabled he),
      h.step hE (sane_of_reachable hE hs) (sane_of_reachable hE hs') hk⟩) hstart
  exact ⟨hrun, halike⟩

/-- Two clients set a grammar each, of which the engine loads one, and one asks for words. -/
def twoSynced : List Event :=
  twoPending ++ [.paused 7, .message 0 3 (some wSetRequest) .usual, .timer]

theorem name_isolated_two :
    (eventLoop .refusing).Run (eventLoop .refusing).start
        (twoSynced.filter (Event.Concerns (.lit "g"))) ∧
      Alike (.lit "g") ((eventLoop .refusing).exec (eventLoop .refusing).start twoSynced)
        ((eventLoop .refusing).exec (eventLoop .refusing).start
          (twoSynced.filter (Event.Concerns (.lit "g")))) :=
  name_isolated Env.refusing_local _ (by decide)

end Draconity
