import Draconity.Shown

/-!
The order in which the pending grammars are synced does not matter.

A pass only changes what its name shows, and it changes it in the same way whenever it comes, except
that it is given other handles and keys (`syncEntry_rel`).  So each name ends alike in every order of
the loop, and since no two names share a handle or a key that was given out in the sync, one
correspondence of handles and keys will do for all of them.
-/

namespace Draconity

open Lib Lib.Renaming

variable {E : Env} {s m m' : State} {n k : CString} {shadow : GrammarState} {ρ : ℕ → ℕ → Prop}
  {N i : ℕ}

/-! ### One pass in both runs -/

theorem Made.forName_of_ne {d d' : Dragon} {new : Log} (h : Made E n d d' new) (hk : k ≠ n) :
    Log.forName k d'.log = Log.forName k d.log := by
  unfold Log.forName
  rw [h.log, Log.forNameFrom_append]
  refine (List.append_right_eq_self).2 (List.eq_nil_iff_forall_not_mem.2 fun c hc => ?_)
  obtain ⟨⟨op, hop⟩, -⟩ := h.on _ (Log.mem_forNameFrom hc).1
  exact hk (Call.grammar.inj hop).1

theorem syncEntry_shown_of_ne (hm : Accounted m) (hb : shadow.unload = false → shadow.blob ≠ [])
    (hk : k ≠ n) : (syncEntry E m ⟨n, shadow⟩).shown k = m.shown k := by
  obtain ⟨new, -, hpass, -⟩ := syncEntry_account (E := E) (n := n) hm hb
  unfold State.shown
  rw [hpass.records k hk, hpass.frame k hk, hpass.made.forName_of_ne hk]

/-- Runs in which a name shows the same but for handles and keys sync it alike. -/
theorem sim_of_shown (hρ : Renames ρ) (hm : Accounted m) (hnum : Numbered m) (hnum' : Numbered m')
    (h : (m.shown n).Rel ρ (m'.shown n)) (hnext : ∀ i, ρ (m.dragon.next + i) (m'.dragon.next + i)) :
    Sim ρ (m.grammarFor n, m.dragon) (m'.grammarFor n, m'.dragon) := by
  refine ⟨?_, ?_, hnum.grammarFor n⟩
  · have hrecord : Option.Rel (Grammar.Rel ρ) (m.grammars.lookup n) (m'.grammars.lookup n) :=
      h.record
    show (m.grammarFor n).Rel ρ (m'.grammarFor n)
    unfold State.grammarFor
    generalize m.grammars.lookup n = o at hrecord ⊢
    generalize m'.grammars.lookup n = o' at hrecord ⊢
    cases hrecord with
    | none => exact ⟨rfl, rfl, rfl, rfl, rfl, hρ.null, hρ.null, hρ.null, hρ.null⟩
    | some hrel => exact hrel
  · rw [(hm.grammarFor n).1]
    exact ⟨h.held, h.calls, hnext, hnum.dragon, hnum'.dragon.counted, hnum'.dragon.fresh⟩

/-- **One pass in both runs.** -/
theorem syncEntry_rel (hE : E.Local) (hρ : Renames ρ) (hm : Accounted m) (hnum : Numbered m)
    (hnum' : Numbered m') (h : (m.shown n).Rel ρ (m'.shown n))
    (hnext : ∀ i, ρ (m.dragon.next + i) (m'.dragon.next + i)) (shadow : GrammarState) :
    ((syncEntry E m ⟨n, shadow⟩).shown n).Rel ρ ((syncEntry E m' ⟨n, shadow⟩).shown n) ∧
      shadow.response n (passed E shadow (m.grammarFor n, m.dragon)).1 =
        shadow.response n (passed E shadow (m'.grammarFor n, m'.dragon)).1 := by
  have hsim := passed_sim hE hρ shadow (sim_of_shown hρ hm hnum hnum' h hnext)
  have hname : (passed E shadow (m.grammarFor n, m.dragon)).1.name = n :=
    (passed_only shadow _).1.trans (hm.grammarFor n).1
  -- whether the record stays, and the response, depend on its errors, which are the same
  rw [syncEntry_shown, syncEntry_shown]
  generalize passed E shadow (m.grammarFor n, m.dragon) = q at hsim hname ⊢
  generalize passed E shadow (m'.grammarFor n, m'.dragon) = q' at hsim ⊢
  have hg := hsim.grammar
  have hdragon := hsim.dragon
  rw [hname] at hdragon
  refine ⟨⟨?_, hdragon.held, hdragon.calls⟩, ?_⟩
  · unfold GrammarState.stays
    rw [hg.errors]
    split_ifs
    · exact .some ⟨hg.name, rfl, hg.state, hg.enabled, hg.priority, hg.handle, hg.endkey, hg.hypokey,
        hg.beginkey⟩
    · exact .none
  · unfold GrammarState.response
    rw [hg.errors]

/-- A pass uses handles and keys that its name used, null, and new ones. -/
theorem syncEntry_uses (hE : E.Local) (hm : Accounted m) (hnum : Numbered m)
    (hi : ((syncEntry E m ⟨n, shadow⟩).shown n).Uses i) :
    (m.shown n).Uses i ∨ i = 0 ∨ m.dragon.next ≤ i := by
  let ρ : ℕ → ℕ → Prop := fun a b =>
    a = b ∧ ((m.shown n).Uses a ∨ a = 0 ∨ m.dragon.next ≤ a)
  have hρ : Renames ρ :=
    ⟨⟨fun _ _ _ h h' => h.1.trans h'.1.symm, fun _ _ _ h h' => h.1.symm.trans h'.1⟩,
      rfl, .inr (.inl rfl)⟩
  have hself : (m.shown n).Rel ρ (m.shown n) :=
    .self (fun i hi => ⟨rfl, .inl hi⟩) fun a b _ hab => hab.1
  obtain ⟨hrel, -⟩ := syncEntry_rel hE hρ hm hnum hnum hself
    (fun i => ⟨rfl, .inr (.inr (Nat.le_add_right ..))⟩) shadow
  obtain ⟨j, -, hj⟩ := hrel.left hi
  exact hj

/-! ### The loop in two orders -/

/-- No two names use the same handle or key of those given out from `N` on. -/
def NoneShared (N : ℕ) (s : State) : Prop :=
  ∀ n k i, N ≤ i → (s.shown n).Uses i → (s.shown k).Uses i → n = k

/-- What the passes of a sync keep that started when `N` was the next handle. -/
structure Passing (N : ℕ) (s : State) : Prop where
  accounted : Accounted s
  numbered : Numbered s
  next : N ≤ s.dragon.next
  noneShared : NoneShared N s

theorem Passing.start (hs : Accounted s) (hnum : Numbered s) : Passing s.dragon.next s :=
  ⟨hs, hnum, le_rfl, fun _ _ _ hN hi _ => absurd (hnum.uses hi) (Nat.not_lt.2 hN)⟩

theorem Passing.syncEntry (hE : E.Local) (hN : 0 < N) (hm : Passing N m)
    (hb : shadow.unload = false → shadow.blob ≠ []) : Passing N (syncEntry E m ⟨n, shadow⟩) := by
  obtain ⟨new, -, hpass, -⟩ := syncEntry_account (E := E) (n := n) hm.accounted hb
  have hnext : m.dragon.next ≤ (Draconity.syncEntry E m ⟨n, shadow⟩).dragon.next := by
    rw [(syncEntry_passed m n shadow).1]
    exact (passed_only shadow (m.grammarFor n, m.dragon)).2.next_le
  refine ⟨hpass.accounted, hm.numbered.syncEntry hE n shadow, hm.next.trans hnext, ?_⟩
  -- a name other than `n` uses nothing that this pass gave out
  have other : ∀ k i, k ≠ n → N ≤ i → ((Draconity.syncEntry E m ⟨n, shadow⟩).shown n).Uses i →
      ¬ ((Draconity.syncEntry E m ⟨n, shadow⟩).shown k).Uses i := by
    intro k i hk hi hn hk'
    rw [syncEntry_shown_of_ne hm.accounted hb hk] at hk'
    rcases syncEntry_uses hE hm.accounted hm.numbered hn with hn | rfl | hnew
    · exact hk (hm.noneShared k n i hi hk' hn)
    · exact absurd hN (Nat.not_lt.2 hi)
    · exact absurd (hm.numbered.uses hk') (Nat.not_lt.2 hnew)
  intro k k' i hi hu hu'
  by_cases hk : k = n
  · subst hk
    by_contra hne
    exact other k' i (Ne.symm hne) hi hu hu'
  by_cases hk' : k' = n
  · subst hk'
    exact absurd hu (other k i hk hi hu')
  rw [syncEntry_shown_of_ne hm.accounted hb hk] at hu
  rw [syncEntry_shown_of_ne hm.accounted hb hk'] at hu'
  exact hm.noneShared k k' i hi hu hu'

/-- A name that shows what it showed at the start, in two passes for it. -/
theorem Passing.rel (hs : Numbered s) (hm : Passing s.dragon.next m) (hm' : Passing s.dragon.next m')
    (hv : m.shown n = s.shown n) (hv' : m'.shown n = s.shown n) :
    (m.shown n).Rel (Shift s.dragon.next m.dragon.next m'.dragon.next) (m'.shown n) := by
  rw [hv, hv']
  refine .self (fun i hi => shift_old (hs.uses hi) ..) fun a b hu hab => ?_
  rcases hab with ⟨rfl, -⟩ | ⟨i, rfl, rfl⟩
  · rfl
  · have hnext := hm.next
    have hnext' := hm'.next
    rcases hu with hu | hu
    · have := hs.uses hu
      omega
    · have := hs.uses hu
      omega

theorem Passing.renames (hs : Numbered s) (hm : Passing s.dragon.next m)
    (hm' : Passing s.dragon.next m') :
    Renames (Shift s.dragon.next m.dragon.next m'.dragon.next) :=
  ⟨biUnique_shift hm.next hm'.next, shift_old hs.dragon.pos ..⟩

/-- A pass that comes when its name shows what it showed at the start, in both runs. -/
theorem Passing.pass (hE : E.Local) (hs : Numbered s) (hm : Passing s.dragon.next m)
    (hm' : Passing s.dragon.next m') (hv : m.shown n = s.shown n) (hv' : m'.shown n = s.shown n)
    (shadow : GrammarState) :
    ((Draconity.syncEntry E m ⟨n, shadow⟩).shown n).Rel
        (Shift s.dragon.next m.dragon.next m'.dragon.next)
        ((Draconity.syncEntry E m' ⟨n, shadow⟩).shown n) ∧
      shadow.response n (passed E shadow (m.grammarFor n, m.dragon)).1 =
        shadow.response n (passed E shadow (m'.grammarFor n, m'.dragon)).1 :=
  syncEntry_rel hE (hm.renames hs hm') hm.accounted hm.numbered hm'.numbered (hm.rel hs hm' hv hv')
    (shift_new _ _ _) shadow

section Loop

variable {l l' : List (Σ _ : CString, GrammarState)} (hE : E.Local) (hs : Accounted s)
  (hnum : Numbered s) (hb : PendingBlobs s) (hl : l.Perm s.shadowGrammars.entries)

include hE hs hnum hb hl

omit hs in
theorem passing_loop (m : State) (e : Σ _ : CString, GrammarState) (he : e ∈ l)
    (hm : Passing s.dragon.next m) : Passing s.dragon.next (syncEntry E m e) :=
  hm.syncEntry hE hnum.dragon.pos (hb e.1 e.2 ((Keyed.mem_of_perm hl).1 he))

omit hE hs hnum in
theorem frame_loop (m : State) (e : Σ _ : CString, GrammarState) (he : e ∈ l) (k : CString)
    (hm : Passing s.dragon.next m) (hk : k ≠ e.1) : (syncEntry E m e).shown k = m.shown k :=
  syncEntry_shown_of_ne hm.accounted (hb e.1 e.2 ((Keyed.mem_of_perm hl).1 he)) hk

theorem loop_shift (hp : l.Perm l') (n : CString) : ∃ a b, s.dragon.next ≤ a ∧ s.dragon.next ≤ b ∧
    ((l.foldl (syncEntry E) s).shown n).Rel (Shift s.dragon.next a b)
      ((l'.foldl (syncEntry E) s).shown n) := by
  have hstart := Passing.start hs hnum
  refine Keyed.foldl_perm Sigma.fst State.shown
    (R := fun _ v v' => ∃ a b, s.dragon.next ≤ a ∧ s.dragon.next ≤ b ∧
      v.Rel (Shift s.dragon.next a b) v')
    hp (passing_loop hE hnum hb hl) (frame_loop hb hl) (Keyed.nodup_of_perm hl) hstart
    (fun k => ⟨_, _, le_rfl, le_rfl, hstart.rel hnum hstart rfl rfl⟩) (fun e _ m m' hm hm' hv hv' => ?_)
    n
  exact ⟨_, _, hm.next, hm'.next, (hm.pass hE hnum hm' hv hv' e.2).1⟩

/-- **All names end alike**, by one correspondence. -/
theorem loop_rel (hp : l.Perm l') : ∃ ρ, Relator.BiUnique ρ ∧
    ∀ n, ((l.foldl (syncEntry E) s).shown n).Rel ρ ((l'.foldl (syncEntry E) s).shown n) := by
  have hend : ∀ {l : List (Σ _ : CString, GrammarState)}, l.Perm s.shadowGrammars.entries →
      NoneShared s.dragon.next (l.foldl (syncEntry E) s) := fun hl =>
    (Keyed.foldl_inv (passing_loop hE hnum hb hl) (Passing.start hs hnum)).noneShared
  have hshared := hend hl
  have hshared' := hend (hp.symm.trans hl)
  choose a b ha hb' hrel using loop_shift hE hs hnum hb hl hp
  have hagree : Agree (fun n => Shift s.dragon.next (a n) (b n))
      (fun n => ((l.foldl (syncEntry E) s).shown n).Uses)
      (fun n => ((l'.foldl (syncEntry E) s).shown n).Uses) := by
    refine ⟨fun n => biUnique_shift (ha n) (hb' n), fun n k i j hi hk hij => ?_,
      fun n k i j hj hk hij => ?_⟩
    · rcases hij with ⟨rfl, hold⟩ | ⟨x, rfl, rfl⟩
      · exact shift_old hold _ _
      · obtain rfl := hshared n k _ ((ha n).trans (Nat.le_add_right ..)) hi hk
        exact shift_new _ _ _ x
    · rcases hij with ⟨rfl, hold⟩ | ⟨x, rfl, rfl⟩
      · exact shift_old hold _ _
      · obtain rfl := hshared' n k _ ((hb' n).trans (Nat.le_add_right ..)) hj hk
        exact shift_new _ _ _ x
  refine ⟨_, hagree.biUnique_join, fun n => (hrel n).change (fun i j hi hj hij => ⟨n, hi, hj, hij⟩) ?_⟩
  exact fun i j hu hij => hagree.of_join hij hu

/-- What the loop issues: for each entry, what a pass from the start issues for it. -/
theorem loop_issued : (l.foldl (syncEntry E) s).issued = s.issued ++
    l.map fun e => e.2.response e.1 (passed E e.2 (s.grammarFor e.1, s.dragon)).1 := by
  have hstart := Passing.start hs hnum
  refine Keyed.foldl_out Sigma.fst State.shown State.issued _ (passing_loop hE hnum hb hl)
    (frame_loop hb hl) (Keyed.nodup_of_perm hl) hstart fun e _ m hm hv => ?_
  obtain ⟨-, -, hissued⟩ := syncEntry_passed (E := E) m e.1 e.2
  exact hissued.trans (by rw [(hm.pass hE hnum hstart hv rfl e.2).2])

end Loop

/-! ### Every order -/

/-- A response to the entry, for its client and transaction. -/
def Answers (e : Σ _ : CString, GrammarState) (i : Issued) : Prop :=
  ∃ status errors, i = .send (.gset e.1 status errors) e.2.tid e.2.clientId

/-- The states `a` and `b` after two syncs of the grammars from `s` are alike: by one correspondence
of handles and keys, each name has the same record, the engine holds the same for it and was asked
the same of it; nothing is pending; and each entry got one response, the same in both. -/
structure EndsAlike (s a b : State) : Prop where
  shown : ∃ ρ, Relator.BiUnique ρ ∧ ∀ n, (a.shown n).Rel ρ (b.shown n)
  pending : a.shadowGrammars = ∅ ∧ b.shadowGrammars = ∅
  responses : ∃ response : (Σ _ : CString, GrammarState) → Issued, (∀ e, Answers e (response e)) ∧
    ∃ ra rb, a.issued = s.issued ++ ra ∧ b.issued = s.issued ++ rb ∧ ra.Perm rb ∧
      ra.Perm (s.shadowGrammars.entries.map response)

theorem response_answers (n : CString) (shadow : GrammarState) (g : Grammar) :
    Answers ⟨n, shadow⟩ (shadow.response n g) := by
  unfold GrammarState.response
  split_ifs
  · exact ⟨.success, [], rfl⟩
  · exact ⟨.error, g.errors, rfl⟩

theorem syncGrammars_endsAlike (hE : E.Local) (hs : Accounted s) (hnum : Numbered s)
    (hb : PendingBlobs s)
    (order : ℕ → List (Σ _ : CString, GrammarState) → List (Σ _ : CString, GrammarState))
    (hperm : ∀ n l, (order n l).Perm l) :
    EndsAlike s (syncGrammars E s)
      (syncGrammars { E with grammarOrder := order, grammarOrder_perm := hperm } s) := by
  have hl := E.grammarOrder_perm s.syncs s.shadowGrammars.entries
  have hl' := hperm s.syncs s.shadowGrammars.entries
  have hp := hl.trans hl'.symm
  have hissued := loop_issued hE hs hnum hb hl
  have hissued' := loop_issued hE hs hnum hb hl'
  -- the passes do not look at the order
  have hsame : syncEntry { E with grammarOrder := order, grammarOrder_perm := hperm } =
      syncEntry E := rfl
  refine ⟨?_, ⟨rfl, rfl⟩, _, fun e => response_answers e.1 e.2 _, _, _, hissued, ?_, hp.map _,
    hl.map _⟩
  · unfold syncGrammars
    rw [hsame]
    exact loop_rel hE hs hnum hb hl hp
  · unfold syncGrammars
    rw [hsame]
    exact hissued'

/-- **The order of the pending grammars does not matter.**  In every reachable state, and in the one a
sync leaves when it has synced the words, with any return codes for calls on a grammar that depend on
its name and the calls made for that name: `sync_grammars` ends alike in any two orders. -/
theorem syncGrammars_anyOrder (hE : E.Local) (hr : (eventLoop E).Reachable s)
    (order : ℕ → List (Σ _ : CString, GrammarState) → List (Σ _ : CString, GrammarState))
    (hperm : ∀ n l, (order n l).Perm l) :
    let F : Env := { E with grammarOrder := order, grammarOrder_perm := hperm }
    EndsAlike s (syncGrammars E s) (syncGrammars F s) ∧
      EndsAlike (syncWords E s) (syncGrammars E (syncWords E s)) (syncGrammars F (syncWords E s)) := by
  have hs := accounted_of_reachable (reachable_store hr)
  have hnum := numbered_of_reachable hE hr
  have hb := pendingBlobs_of_reachable (reachable_store hr)
  have hw := syncWords_sameGrammars (E := E) s
  refine ⟨syncGrammars_endsAlike hE hs hnum hb order hperm, ?_⟩
  refine syncGrammars_endsAlike hE (hs.congr hw.grammars hw.loaded hw.next) hnum.syncWords ?_ order
    hperm
  exact fun n sh hn => hb n sh (hw.shadowGrammars ▸ hn)

/-- An engine that loads no grammar of the name `"f"` and, for each name, knows the handles that it
gave out for it and no others. -/
def Env.refusing : Env := { Env.obliging with
  rc := fun log c => match c with
    | .grammar n op => match op.handle with
      | none => if n = .lit "f" then 1 else 0
      | some h => if h ∈ (Log.forName n log).filterMap GrammarCall.given then 0 else 2
    | _ => 0 }

theorem Env.refusing_local : Env.refusing.Local where
  rc n ρ hρ log log' op op' hcalls hop := by
    have hmem : ∀ {h h' : Handle}, ρ h h' →
        (h ∈ (Log.forName n log).filterMap GrammarCall.given ↔
          h' ∈ (Log.forName n log').filterMap GrammarCall.given) := fun hh =>
      List.rel_mem hρ.biUnique hh (List.rel_filterMap (fun _ _ hc => hc.given) hcalls)
    cases hop with
    | loadGrammar blob => rfl
    | register _ hh | unregister hh _ | destroy hh | activate _ hh | deactivate _ hh
    | setList _ _ hh => exact if_congr (hmem hh) rfl rfl
  listOrder _ _ _ := rfl

/-- Two grammars are pending, one of which the engine will not load. -/
def twoPending : List Event :=
  [.connect, .connect, .ready, .message 0 1 (some (gSetRequest "f" [1])) .usual,
    .message 1 2 (some (gSetRequest "g" [2])) .usual]

theorem syncGrammars_anyOrder_reverse :
    EndsAlike ((eventLoop .refusing).exec (eventLoop .refusing).start twoPending)
      (syncGrammars .refusing ((eventLoop .refusing).exec (eventLoop .refusing).start twoPending))
      (syncGrammars
        { Env.refusing with
          grammarOrder := fun _ l => l.reverse
          grammarOrder_perm := fun _ l => l.reverse_perm }
        ((eventLoop .refusing).exec (eventLoop .refusing).start twoPending)) :=
  (syncGrammars_anyOrder Env.refusing_local ⟨twoPending, by decide, rfl⟩ (fun _ l => l.reverse)
    fun _ l => l.reverse_perm).1

end Draconity
