import Draconity.Commands
import Draconity.Orphans
import Draconity.Parts

/-!
The engine is asked only for what it holds.

A handle that the engine is given is one it gave out for that grammar and did not destroy since,
whatever its calls return: so no call is made on a grammar that was destroyed, and none is destroyed
twice.  What the engine holds is read off its log, so that this is a property of the log.
-/

namespace Draconity

open Lib

/-! ### The engine as its log has it -/

def Dragon.record (d : Dragon) (e : Call × Int) : Dragon :=
  { (if e.2 = 0 then d.effect e.1 else d) with log := d.log ++ [e] }

def Dragon.after (log : Log) : Dragon := log.foldl Dragon.record .init

def Call.handle : Call → Option Handle
  | .grammar _ op => op.handle
  | .validateWord _ | .addTemporaryWord _ | .deleteWord _ | .resume _ | .mimic _ | .setMicState _ =>
    none

/-- The engine holds a grammar on the handle that a call is given, for the name the call is made
for. -/
def Dragon.Accepts (d : Dragon) (c : Call) : Prop :=
  ∀ name op h, c = .grammar name op → op.handle = some h → d.nameOf h = some name

/-- The engine is as its log has it, and each call of the log was one that it accepts. -/
structure Dragon.Proper (d : Dragon) : Prop where
  after : Dragon.after d.log = d
  accepts : ∀ pre e post, d.log = pre ++ e :: post → (Dragon.after pre).Accepts e.1

variable {E : Env} {d d' : Dragon} {c : Call} {g : Grammar} {s : State} {h : Handle}
  {p q r : Grammar × Dragon} {n : CString} {shadow : GrammarState}

theorem Dragon.after_snoc (log : Log) (e : Call × Int) :
    Dragon.after (log ++ [e]) = (Dragon.after log).record e := List.foldl_append

theorem Dragon.call_eq_record (E : Env) (d : Dragon) (c : Call) :
    (d.call E c).2 = d.record (c, (d.call E c).1) := rfl

theorem Dragon.proper_init : Dragon.init.Proper :=
  ⟨rfl, fun pre e post h => by simp [Dragon.init] at h⟩

theorem Dragon.Proper.call (hd : d.Proper) (hc : d.Accepts c) : (d.call E c).2.Proper := by
  refine ⟨?_, fun pre e post hlog => ?_⟩
  · rw [Dragon.call_eq_record]
    show Dragon.after (d.log ++ [_]) = _
    rw [Dragon.after_snoc, hd.after]
  · rw [Dragon.log_call] at hlog
    rcases List.eq_nil_or_concat post with rfl | ⟨post, e', rfl⟩
    · -- the call is the last one
      obtain ⟨rfl, h⟩ := List.append_inj' hlog rfl
      obtain rfl := (List.cons.inj h).1
      rw [hd.after]
      exact hc
    · rw [List.concat_eq_append, ← List.cons_append, ← List.append_assoc] at hlog
      exact hd.accepts pre e post (List.append_inj' hlog rfl).1

/-! ### Calls that no grammar is about -/

theorem Dragon.accepts_of_handle (hc : c.handle = none) : d.Accepts c := by
  rintro name op h rfl hop
  exact absurd (hc.symm.trans hop) nofun

theorem Dragon.Proper.calls {P : Call → Prop} (hP : ∀ c, P c → c.handle = none)
    (hd : d.Proper) (hcalls : Calls E P d d') : d'.Proper := by
  induction hcalls with
  | refl => exact hd
  | snoc c _ hc ih => exact ih.call (Dragon.accepts_of_handle (hP c hc))

theorem Call.OnWord.handle (hc : c.OnWord) : c.handle = none := by
  obtain ⟨w, rfl | rfl | rfl⟩ := hc <;> rfl

/-! ### Calls for a grammar -/

theorem Dragon.accepts_grammar {op : GrammarOp} (hop : op.handle = some h)
    (hn : d.nameOf h = some n) : d.Accepts (.grammar n op) := by
  rintro name op' h' hc hop'
  cases hc
  rw [hop, Option.some.injEq] at hop'
  exact hop' ▸ hn

/-- A call on a handle for the name of its grammar, that does not destroy it. -/
theorem Dragon.Proper.onHandle (hd : d.Proper) (op : GrammarOp) (hop : op.handle = some h)
    (hn : d.nameOf h = some n) (hdestroy : ∀ h, op ≠ .destroy h) :
    (d.call E (.grammar n op)).2.Proper ∧
      (d.call E (.grammar n op)).2.nameOf h = some n := by
  refine ⟨hd.call (Dragon.accepts_grammar hop hn), ?_⟩
  rw [Dragon.nameOf_call ?_ hdestroy]
  · exact hn
  · rintro blob rfl
    cases hop

theorem unloadGrammar_proper (hd : d.Proper) (hg : d.nameOf g.handle = some g.name) :
    (unloadGrammar E g d).2.2.Proper := by
  obtain ⟨h₁, n₁⟩ := hd.onHandle (E := E) (.unregister g.handle g.endkey) rfl hg nofun
  obtain ⟨h₂, n₂⟩ := h₁.onHandle (E := E) (.unregister g.handle g.hypokey) rfl n₁ nofun
  obtain ⟨h₃, n₃⟩ := h₂.onHandle (E := E) (.unregister g.handle g.beginkey) rfl n₂ nofun
  have hdestroy : Dragon.Accepts _ (.grammar g.name (.destroy g.handle)) :=
    Dragon.accepts_grammar rfl n₃
  have h₄ := h₃.call (E := E) hdestroy
  unfold unloadGrammar
  dsimp only
  split_ifs
  · exact h₁
  · exact h₂
  · exact h₃
  · exact h₄
  · exact h₄

theorem unloadIfEnabled_proper (hd : d.Proper) (hp : Held (g, d)) :
    (unloadIfEnabled E g d).2.Proper := by
  unfold unloadIfEnabled
  split_ifs with hg
  · exact unloadGrammar_proper hd (hp.loaded hg)
  · exact hd

theorem Dragon.nameOf_load (blob : List UInt8)
    (h0 : (d.call E (.grammar n (.loadGrammar blob))).1 = 0) :
    (d.call E (.grammar n (.loadGrammar blob))).2.nameOf d.next = some n := by
  unfold Dragon.nameOf
  rw [Dragon.loaded_call, if_pos h0]
  simp [Dragon.effect, Dragon.grammarEffect]

theorem loadGrammar_proper (blob : List UInt8) (hd : d.Proper) :
    (loadGrammar E g blob d).2.2.Proper := by
  have hload : d.Accepts (.grammar g.name (.loadGrammar blob)) := Dragon.accepts_of_handle rfl
  have h₁ := hd.call (E := E) hload
  unfold loadGrammar
  dsimp only
  by_cases hr₁ : (d.call E (.grammar g.name (.loadGrammar blob))).1 = 0
  · have n₁ := Dragon.nameOf_load blob hr₁
    obtain ⟨h₂, n₂⟩ := h₁.onHandle (E := E) (.register .endPhrase d.next) rfl n₁ nofun
    obtain ⟨h₃, n₃⟩ := h₂.onHandle (E := E) (.register .phraseHypothesis d.next) rfl n₂ nofun
    obtain ⟨h₄, -⟩ := h₃.onHandle (E := E) (.register .beginPhrase d.next) rfl n₃ nofun
    rw [if_neg (not_not.2 hr₁)]
    split_ifs
    · exact h₂
    · exact h₃
    · exact h₄
    · exact h₄
  · rw [if_pos hr₁]
    exact h₁

/-! ### The rules and the lists -/

/-- A step on a grammar of which the engine holds the handle keeps that, and the log proper. -/
structure KeepsProper (p q : Grammar × Dragon) : Prop where
  name : q.1.name = p.1.name
  handle : q.1.handle = p.1.handle
  proper : p.2.Proper → p.2.nameOf p.1.handle = some p.1.name →
    q.2.Proper ∧ q.2.nameOf p.1.handle = some p.1.name

theorem KeepsProper.refl (p : Grammar × Dragon) : KeepsProper p p :=
  ⟨rfl, rfl, fun hp hn => ⟨hp, hn⟩⟩

theorem KeepsProper.trans (h : KeepsProper p q) (h' : KeepsProper q r) : KeepsProper p r := by
  refine ⟨h'.name.trans h.name, h'.handle.trans h.handle, fun hp hn => ?_⟩
  obtain ⟨hq, hnq⟩ := h.proper hp hn
  have hr := h'.proper hq
  rw [h.name, h.handle] at hr
  exact hr hnq

theorem keepsProper_call (p : Grammar × Dragon) (op : GrammarOp)
    (hop : op.handle = some p.1.handle) (hdestroy : ∀ h, op ≠ .destroy h) {g : Grammar}
    (name : g.name = p.1.name) (handle : g.handle = p.1.handle) :
    KeepsProper p (g, (p.2.call E (.grammar p.1.name op)).2) :=
  ⟨name, handle, fun hp hn => hp.onHandle op hop hn hdestroy⟩

theorem activateRule_keepsProper (p : Grammar × Dragon) (rule : CString) :
    KeepsProper p (activateRule E p rule) := by
  unfold activateRule
  dsimp only
  split_ifs <;> exact keepsProper_call p (.activate p.1.handle rule) rfl nofun rfl rfl

theorem deactivateRule_keepsProper (p : Grammar × Dragon) (rule : CString) :
    KeepsProper p (deactivateRule E p rule) := by
  unfold deactivateRule
  dsimp only
  split_ifs <;> exact keepsProper_call p (.deactivate p.1.handle rule) rfl nofun rfl rfl

theorem syncList_keepsProper (p : Grammar × Dragon) (e : Σ _ : CString, OrdSet CString) :
    KeepsProper p (syncList E p e) := by
  unfold syncList setList
  dsimp only
  split_ifs
  · exact keepsProper_call p (.setList p.1.handle e.1 e.2.toList) rfl nofun rfl rfl
  · exact keepsProper_call p (.setList p.1.handle e.1 e.2.toList) rfl nofun rfl rfl
  · exact .refl p

theorem syncContents_proper (shadow : GrammarState) (hd : d.Proper)
    (hg : d.nameOf g.handle = some g.name) : (syncContents E g shadow d).2.Proper := by
  have fold : ∀ {α : Type} {f : Grammar × Dragon → α → Grammar × Dragon},
      (∀ p a, KeepsProper p (f p a)) → ∀ (l : List α) p, KeepsProper p (l.foldl f p) :=
    fun hf l p => Keyed.foldl_rel KeepsProper.refl KeepsProper.trans hf l p
  have hrules : KeepsProper (g, d) (syncRulesIfChanged E g shadow d) := by
    unfold syncRulesIfChanged syncRules
    split_ifs
    · exact (fold activateRule_keepsProper _ _).trans (fold deactivateRule_keepsProper _ _)
    · exact .refl _
  exact ((hrules.trans (fold syncList_keepsProper _ _)).proper hd hg).1

/-! ### A sync -/

theorem syncGrammar_proper (hd : d.Proper) (hp : Held (g, d))
    (hb : g.enabled = true ∨ g.state.blob ≠ shadow.blob) :
    (syncGrammar E g shadow d).2.Proper := by
  have hp' : Held ({ g with errors := [] }, d) := ⟨hp.fresh, hp.loaded⟩
  have hu := unloadIfEnabled_proper (E := E) hd hp'
  obtain ⟨new, hload⟩ := loadGrammar_syncAccount (E := E) shadow.blob hp'
  rw [syncGrammar_eq]
  dsimp only
  split_ifs with hreload hfail
  · exact loadGrammar_proper shadow.blob hu
  · have hl := loadGrammar_proper (g := (unloadIfEnabled E { g with errors := [] } d).1)
      (E := E) shadow.blob hu
    exact syncContents_proper shadow hl
      (hload.account.held.loaded (hload.enabled (not_not.1 hfail)))
  · exact syncContents_proper shadow hd (hp.loaded (hb.resolve_right hreload))

theorem syncEntry_proper (hs : Accounted s) (hb : shadow.unload = false → shadow.blob ≠ [])
    (hd : s.dragon.Proper) : (syncEntry E s ⟨n, shadow⟩).dragon.Proper := by
  obtain ⟨-, hheld, -⟩ := hs.grammarFor n
  cases hu : shadow.unload with
  | true =>
    rw [(syncEntry_unload (E := E) hu s).2.1]
    exact unloadIfEnabled_proper hd hheld
  | false =>
    have henabled := hs.enabledFor (hb hu) n
    have hsync := syncGrammar_proper (E := E) hd hheld henabled
    by_cases he : (syncGrammar E (s.grammarFor n) shadow s.dragon).1.errors = []
    · rw [(syncEntry_set hu s he).2.1]
      exact hsync
    · obtain ⟨new, haccount⟩ := syncGrammar_account (E := E) hheld henabled
      rw [(syncEntry_set_error hu s he).2.1]
      exact unloadIfEnabled_proper hsync haccount.account.held

theorem handleWordFailures_dragon (errors : List WordError) (s : State) :
    (handleWordFailures E errors s).dragon = s.dragon :=
  Keyed.foldl_rel (f := handleClientFailures errors)
    (R := fun a b : State => b.dragon = a.dragon) (fun _ => rfl)
    (fun h h' => h'.trans h) (fun _ _ => rfl) _ s

theorem syncState_proper (hs : Accounted s) (hb : PendingBlobs s) (hd : s.dragon.Proper) :
    (syncState E s).dragon.Proper := by
  have hw := syncWords_sameGrammars (E := E) s
  have hwords : (syncWords E s).dragon.Proper := by
    unfold syncWords
    rw [handleWordFailures_dragon]
    have hcalls := setWords_calls (E := E) (allShadowWords s) ⟨s.loadedWords, [], s.dragon⟩
    exact hd.calls (fun _ => Call.OnWord.handle) hcalls
  obtain ⟨m, ⟨-, hm⟩, heq⟩ := syncState_keeps (E := E)
    (I := fun m => Accounted m ∧ m.dragon.Proper)
    ⟨hs.congr hw.grammars hw.loaded hw.next, hwords⟩
    fun m n sh hn ⟨hm, hd⟩ => by
      obtain ⟨new, -, hpass, -⟩ := syncEntry_account (E := E) (n := n) hm (hb n sh hn)
      exact ⟨hpass.accounted, syncEntry_proper hm (hb n sh hn) hd⟩
  rw [heq]
  exact hm

/-! ### The event loop -/

theorem doUnpause_proper (hd : s.dragon.Proper) : (doUnpause E s).dragon.Proper := by
  unfold doUnpause
  split_ifs
  · exact hd.call (Dragon.accepts_of_handle rfl)
  · exact hd

theorem clientUnpause_proper (c : ClientId) (token : UInt64) (hd : s.dragon.Proper) :
    (clientUnpause E c token s).dragon.Proper := by
  unfold clientUnpause
  dsimp only
  split_ifs
  · exact doUnpause_proper hd
  · exact hd
  · exact hd

theorem draconityReady_proper (hd : s.dragon.Proper) : (draconityReady E s).dragon.Proper := by
  unfold draconityReady
  split_ifs <;> exact hd

/-- What a run of the store keeps, and the log with it. -/
structure Sober (s : State) : Prop where
  accounted : Accounted s
  blobs : PendingBlobs s
  proper : s.dragon.Proper

/-- An operation on the store that is not a sync makes no call. -/
theorem Sober.op (h : Sober s) {op : Op} (ho : op.Enabled s)
    (hdragon : (op.apply E s).dragon = s.dragon) : Sober (op.apply E s) :=
  ⟨accounted_step h.accounted h.blobs ho, pendingBlobs_step h.blobs ho, hdragon ▸ h.proper⟩

theorem Sober.sync (h : Sober s) : (syncState E s).dragon.Proper :=
  syncState_proper h.accounted h.blobs h.proper

theorem acceptGrammar_proper (h : Sober s) (name : CString)
    (hb : shadow.unload = false → shadow.blob ≠ []) :
    (acceptGrammar E name shadow s).dragon.Proper := by
  have hset : Sober (Op.apply E s (.setGrammar name shadow)) :=
    h.op hb (setShadowGrammar_live name shadow s).2.1
  rw [acceptGrammar_eq]
  split_ifs
  · exact hset.proper
  · exact hset.sync

theorem dispatch_proper (h : Sober s) (c : ClientId) (tid : UInt32) (f : Fields) (found : Found) :
    (dispatch E c tid f found s).2.dragon.Proper := by
  have hdone := dispatch_performs E c tid f found s
  generalize (dispatch E c tid f found s).2 = s' at hdone
  cases hdone with
  | nothing => exact h.proper
  | ready => exact draconityReady_proper h.proper
  | words ws => exact (setShadowWords_live tid ws s).2.1 ▸ h.proper
  | grammar name shadow _ _ _ _ hb => exact acceptGrammar_proper h name hb
  | setMicState found code =>
    have hdragon := engineAcquire_dragon (E := E) found s
    exact (hdragon.symm ▸ h.proper).call (Dragon.accepts_of_handle rfl)
  | mimicFailed phrase | mimic phrase => exact h.proper.call (Dragon.accepts_of_handle rfl)
  | unpause => exact clientUnpause_proper _ _ h.proper

theorem step_proper (h : Sober s) (e : Event) : (step E s e).dragon.Proper := by
  cases e with
  | connect => exact h.proper
  | close c stack =>
    have hclosed : Sober (s.dropClient c) :=
      ⟨h.accounted.congr rfl rfl rfl, h.blobs, h.proper⟩
    have hcleared : Sober (Op.apply E (s.dropClient c) (.disconnect c stack)) := hclosed.op trivial rfl
    -- while Dragon is paused, a sync comes before the call that may resume it
    by_cases h0 : s.pauseToken = 0
    · rw [step, handleClose_of_not_paused h0]
      exact hcleared.proper
    · rw [step, handleClose_of_paused h0]
      exact clientUnpause_proper _ _ hcleared.sync
  | message c tid msg found =>
    cases msg with
    | none => exact h.proper
    | some root => exact dispatch_proper h c tid (.ofRoot root) found
  | paused token =>
    have hp : Sober { s with pauseToken := token } :=
      ⟨h.accounted.congr rfl rfl rfl, h.blobs, h.proper⟩
    show (handlePause E token s).dragon.Proper
    rw [handlePause_eq]
    unfold afterPauseSync
    split_ifs
    · exact doUnpause_proper hp.sync
    · exact hp.sync
  | timer =>
    show (doUnpause E { s with pauseTimer := false }).dragon.Proper
    exact doUnpause_proper h.proper
  | ready => exact draconityReady_proper h.proper
  | mimicDone stale =>
    show (draconityMimicDone stale s).dragon.Proper
    unfold draconityMimicDone
    split <;> exact h.proper

theorem sober_of_reachable (h : (eventLoop E).Reachable s) : Sober s := by
  have hsober : ∀ s, (eventLoop E).Reachable s → s.dragon.Proper → Sober s := fun s hr hd =>
    ⟨accounted_of_reachable (reachable_store hr), pendingBlobs_of_reachable (reachable_store hr), hd⟩
  obtain ⟨es, hrun, rfl⟩ := id h
  refine hsober _ h (hrun.snoc_induction (P := fun es => ((eventLoop E).exec _ es).dragon.Proper)
    Dragon.proper_init fun es e hes _ ih => ?_)
  rw [Machine.exec_snoc]
  exact step_proper (hsober _ ⟨es, hes, rfl⟩ ih) e

/-! ### Handles that are gone -/

theorem Dragon.record_eq_call (d : Dragon) (e : Call × Int) :
    d.record e = (d.call (.answering e.2) e.1).2 := rfl

theorem Dragon.fresh_after (log : Log) : (Dragon.after log).Fresh := by
  induction log using List.reverseRecOn with
  | nil => exact Dragon.fresh_init
  | append_singleton log e ih =>
    rw [Dragon.after_snoc, Dragon.record_eq_call]
    exact ih.call _

/-- A handle that was given out, and is not loaded. -/
structure Dragon.Gone (d : Dragon) (h : Handle) : Prop where
  issued : h < d.next
  unloaded : d.loaded.lookup h = none

theorem Dragon.Gone.nameOf (hg : d.Gone h) : d.nameOf h = none :=
  congrArg (Option.map Loaded.name) hg.unloaded

/-- A handle is not given out again. -/
theorem Dragon.Gone.call (hg : d.Gone h) (c : Call) : (d.call E c).2.Gone h := by
  refine ⟨hg.issued.trans_le (Dragon.next_le_call d c), ?_⟩
  have hupdate : ∀ (k : Handle) (f : Loaded → Option Loaded),
      (if h = k then (d.loaded.lookup k).bind f else d.loaded.lookup h) = none := by
    intro k f
    split_ifs with hk
    · rw [← hk, hg.unloaded]
      rfl
    · exact hg.unloaded
  rw [Dragon.loaded_call]
  split_ifs
  · cases c with
    | grammar name op =>
      cases op with
      | loadGrammar blob =>
        simp only [Dragon.effect, Dragon.grammarEffect, Keyed.lookup_insert_eq]
        rw [if_neg hg.issued.ne]
        exact hg.unloaded
      | register cb k | unregister k key | destroy k | activate k r | deactivate k r
      | setList k n l =>
        simp only [Dragon.effect, Dragon.grammarEffect, Dragon.lookup_update]
        exact hupdate k _
    | validateWord _ | addTemporaryWord _ | deleteWord _ | resume _ | mimic _ | setMicState _ =>
      exact hg.unloaded
  · exact hg.unloaded

theorem Dragon.Gone.foldl (hg : d.Gone h) (log : Log) : (log.foldl Dragon.record d).Gone h := by
  induction log generalizing d with
  | nil => exact hg
  | cons e log ih =>
    rw [List.foldl_cons, Dragon.record_eq_call]
    exact ih (hg.call e.1)

theorem Dragon.gone_destroy (hd : d.Fresh) (hn : d.nameOf h = some n) :
    (d.record (.grammar n (.destroy h), 0)).Gone h := by
  refine ⟨hd.nameOf_lt hn, ?_⟩
  show (d.update h fun _ => none).loaded.lookup h = none
  rw [Dragon.lookup_update, if_pos rfl]
  cases d.loaded.lookup h <;> rfl

theorem Dragon.Proper.gone (hd : d.Proper) {pre post : Log}
    (hlog : d.log = pre ++ (.grammar n (.destroy h), 0) :: post) :
    ∀ e ∈ post, e.1.handle ≠ some h := by
  intro e he hhandle
  obtain ⟨mid, post, rfl⟩ := List.append_of_mem he
  have hn := hd.accepts pre _ _ hlog n _ h rfl rfl
  have hgone := (Dragon.gone_destroy (Dragon.fresh_after pre) hn).foldl mid
  have hafter : Dragon.after (pre ++ (.grammar n (.destroy h), 0) :: mid) =
      mid.foldl Dragon.record ((Dragon.after pre).record (.grammar n (.destroy h), 0)) := by
    unfold Dragon.after
    rw [List.foldl_append, List.foldl_cons]
  have haccepts := hd.accepts (pre ++ (.grammar n (.destroy h), 0) :: mid) e post
    (by rw [hlog, List.append_assoc, List.cons_append])
  rw [hafter] at haccepts
  obtain ⟨c, rc⟩ := e
  cases c with
  | grammar name op =>
    exact absurd (hgone.nameOf.symm.trans (haccepts name op h rfl hhandle)) nofun
  | validateWord _ | addTemporaryWord _ | deleteWord _ | resume _ | mimic _ | setMicState _ =>
    cases hhandle

/-! ### All runs -/

/-- **Draconity asks the engine only for what it holds.**  Whatever the calls return, a call on a
handle is made while the engine holds the handle, and for the name of the grammar that was loaded on
it; and a handle that was destroyed is not used again. -/
theorem handles_live (hr : (eventLoop E).Reachable s) :
    Dragon.after s.dragon.log = s.dragon ∧
    (∀ pre post name op rc h, s.dragon.log = pre ++ (.grammar name op, rc) :: post →
      op.handle = some h → (Dragon.after pre).nameOf h = some name) ∧
    ∀ pre post name h, s.dragon.log = pre ++ (.grammar name (.destroy h), 0) :: post →
      ∀ e ∈ post, e.1.handle ≠ some h := by
  have hproper := (sober_of_reachable hr).proper
  refine ⟨hproper.after, fun pre post name op rc h hlog hop => ?_, fun pre post name h hlog => ?_⟩
  · exact hproper.accepts pre _ post hlog name op h rfl hop
  · exact hproper.gone hlog

/-- A grammar is loaded, and replaced by another one while Dragon is paused. -/
def replaced : List Event :=
  [.connect, .ready, .message 0 1 (some (gSetRequest "g" [1])) .usual, .paused 7,
    .message 0 2 (some (gSetRequest "g" [2])) .usual]

/-- The calls of `replaced`, of which the eighth destroys the first grammar. -/
def replacedLog : Log := ((eventLoop .obliging).exec (eventLoop .obliging).start replaced).dragon.log

theorem handles_live_replaced :
    (Dragon.after (replacedLog.take 7)).nameOf 1 = some (.lit "g") ∧
      ∀ e ∈ replacedLog.drop 8, e.1.handle ≠ some 1 := by
  have hlog : replacedLog =
      replacedLog.take 7 ++ (.grammar (.lit "g") (.destroy 1), 0) :: replacedLog.drop 8 := by decide
  obtain ⟨-, hlive, hgone⟩ := handles_live (E := .obliging) ⟨replaced, by decide, rfl⟩
  exact ⟨hlive _ _ _ _ _ _ hlog rfl, hgone _ _ _ _ hlog⟩

end Draconity
