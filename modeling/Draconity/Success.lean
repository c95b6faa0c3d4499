import Draconity.Orphans

/-!
What a response `success` to a `g.set` or a `g.unload` says about the engine.

Every call that a sync makes for a name is recorded when it fails, but for those of the unload.  So
behind a `success` at most an unload has failed, and it has left an orphan.
-/

namespace Draconity

open Lib

variable {E : Env} {s : State} {n : CString} {shadow : GrammarState} {new : Log}

def Call.isFor (n : CString) : Call → Bool
  | .grammar m _ => m = n
  | _ => false

/-- The calls a sync made for a name, with their return codes. -/
def State.syncCallsFor (E : Env) (s : State) (n : CString) : Log :=
  (s.syncCalls E).filter fun c => c.1.isFor n

/-- A response `success` says the truth: no call for the name failed, and the rules asked for are
active on its only handle, or it has none. -/
structure Succeeded (E : Env) (s : State) (n : CString) (shadow : GrammarState) : Prop where
  calls : ∀ c ∈ s.syncCallsFor E n, c.2 = 0
  set : shadow.unload = false → ∃ g L, (syncState E s).grammars.lookup n = some g ∧
    (syncState E s).dragon.loaded.lookup g.handle = some L ∧ L.name = n ∧
    L.rules = shadow.activeRules ∧ ∀ h, (syncState E s).dragon.nameOf h = some n → h = g.handle
  unload : shadow.unload = true → ∀ h, (syncState E s).dragon.nameOf h ≠ some n

/-! ### The calls for a name -/

theorem Made.filter_isFor {d d' : Dragon} {m : CString} (h : Made E m d d' new) :
    d'.log.filter (fun c => c.1.isFor n) =
      d.log.filter (fun c => c.1.isFor n) ++ if m = n then new else [] := by
  rw [h.log, List.filter_append]
  congr 1
  split_ifs with hm
  · refine List.filter_eq_self.2 fun c hc => ?_
    obtain ⟨⟨op, hop⟩, -⟩ := h.on c hc
    rw [hop]
    exact decide_eq_true hm
  · refine List.filter_eq_nil_iff.2 fun c hc => ?_
    obtain ⟨⟨op, hop⟩, -⟩ := h.on c hc
    rw [hop]
    simpa [Call.isFor] using hm

/-- What a state shows of a name: its record and its responses, what the engine holds for it, and
the calls that were made for it. -/
def State.account (n : CString) (s : State) :
    (Option Grammar × List (Answer GrammarError)) × (Handle → Option Loaded) × Log :=
  (s.record n, s.dragon.heldFor n, s.dragon.log.filter fun c => c.1.isFor n)

theorem syncWords_account (s : State) : (syncWords E s).account n = s.account n := by
  have hw := syncWords_sameGrammars (E := E) s
  obtain ⟨words, hlog, hwords⟩ := syncWords_log (E := E) s
  refine Prod.ext (Prod.ext (congrArg (AList.lookup n) hw.grammars) (hw.gset n))
    (Prod.ext (Dragon.heldFor_congr hw.loaded n) ?_)
  show (syncWords E s).dragon.log.filter _ = s.dragon.log.filter _
  have hnil : words.filter (fun c => c.1.isFor n) = [] := by
    refine List.filter_eq_nil_iff.2 fun c hc => ?_
    obtain ⟨w, h | h | h⟩ := hwords c hc <;> (rw [h]; exact Bool.false_ne_true)
  rw [hlog, List.filter_append, hnil, List.append_nil]

/-- **What a sync does to a name with a pending update**: the pass for it, from a state that shows
the name as it was. -/
theorem syncState_account (hs : Accounted s) (hb : PendingBlobs s)
    (hn : s.shadowGrammars.lookup n = some shadow) :
    s.dragon.log <+: (syncState E s).dragon.log ∧ ∃ m, Accounted m ∧ m.account n = s.account n ∧
      (syncState E s).account n = (syncEntry E m ⟨n, shadow⟩).account n := by
  have hw := syncWords_sameGrammars (E := E) s
  obtain ⟨words, hlog, -⟩ := syncWords_log (E := E) s
  have hstart : Accounted (syncWords E s) ∧ s.dragon.log <+: (syncWords E s).dragon.log := by
    refine ⟨hs.congr hw.grammars hw.loaded hw.next, ?_⟩
    rw [hlog]
    exact List.prefix_append ..
  have hpass : ∀ m n sh, s.shadowGrammars.lookup n = some sh →
      Accounted m ∧ s.dragon.log <+: m.dragon.log →
      Accounted (syncEntry E m ⟨n, sh⟩) ∧ s.dragon.log <+: (syncEntry E m ⟨n, sh⟩).dragon.log := by
    rintro m n sh hpend ⟨hm, hlog⟩
    obtain ⟨new, -, hpass, -⟩ := syncEntry_account (E := E) (n := n) hm (hb n sh hpend)
    refine ⟨hpass.accounted, hlog.trans ?_⟩
    rw [hpass.made.log]
    exact List.prefix_append ..
  -- a pass leaves the other names alone, and its calls are for its own
  have hframe : ∀ m n sh k, s.shadowGrammars.lookup n = some sh →
      Accounted m ∧ s.dragon.log <+: m.dragon.log → k ≠ n →
      (syncEntry E m ⟨n, sh⟩).account k = m.account k := by
    rintro m n sh k hpend ⟨hm, -⟩ hk
    obtain ⟨new, -, hpass, -⟩ := syncEntry_account (E := E) (n := n) hm (hb n sh hpend)
    obtain ⟨hrec, hans⟩ := syncEntry_of_ne (E := E) m (e := ⟨n, sh⟩) hk
    have hcalls := hpass.made.filter_isFor (n := k)
    rw [if_neg fun h => hk h.symm, List.append_nil] at hcalls
    exact Prod.ext (Prod.ext hrec hans) (Prod.ext (hpass.frame k hk) hcalls)
  obtain ⟨m, m', ⟨hm, -⟩, ⟨-, hlog'⟩, hv, hv', heq⟩ :=
    syncState_view (E := E) State.account hstart hpass hframe hn
  rw [heq]
  exact ⟨hlog', m, hm, hv.trans (syncWords_account s), hv'⟩

/-! ### Behind a success -/

theorem syncCallsFor_eq {m : State} (hlog : s.dragon.log <+: (syncState E s).dragon.log)
    (hv : m.account n = s.account n)
    (hv' : (syncState E s).account n = (syncEntry E m ⟨n, shadow⟩).account n)
    (hmade : Made E n m.dragon (syncEntry E m ⟨n, shadow⟩).dragon new) :
    s.syncCallsFor E n = new := by
  obtain ⟨calls, hcalls⟩ := hlog
  have hdrop : s.syncCalls E = calls := by
    unfold State.syncCalls
    rw [← hcalls]
    exact List.drop_left
  have hbefore : s.dragon.log.filter (fun c => c.1.isFor n) =
      m.dragon.log.filter (fun c => c.1.isFor n) := (congrArg (fun a => a.2.2) hv).symm
  have hafter : (syncState E s).dragon.log.filter (fun c => c.1.isFor n) =
      (syncEntry E m ⟨n, shadow⟩).dragon.log.filter fun c => c.1.isFor n :=
    congrArg (fun a => a.2.2) hv'
  rw [hmade.filter_isFor, if_pos rfl, ← hbefore, ← hcalls, List.filter_append] at hafter
  unfold State.syncCallsFor
  rw [hdrop]
  exact List.append_cancel_left hafter

/-- After a success that says the truth, the engine holds no orphan. -/
theorem Succeeded.alone (h : Succeeded E s n shadow) (hafter : Accounted (syncState E s)) :
    (syncState E s).Alone n := by
  intro k hk
  rw [(hafter.grammarFor n).1] at hk
  cases hu : shadow.unload with
  | true => exact absurd hk (h.unload hu k)
  | false =>
    obtain ⟨g, L, hg, -, -, -, only⟩ := h.set hu
    rw [State.grammarFor_of_lookup hg]
    exact ⟨hafter.enabled n g hg, only k hk⟩

/-- Without an orphan, the engine holds what is live. -/
theorem Accounted.succeeded (hafter : Accounted (syncState E s))
    (hcalls : ∀ c ∈ s.syncCallsFor E n, c.2 = 0) (halone : (syncState E s).Alone n)
    (hunload : shadow.unload = true → (syncState E s).grammars.lookup n = none)
    (hset : shadow.unload = false → ∃ g, (syncState E s).grammars.lookup n = some g ∧
      g.state.activeRules = shadow.activeRules) : Succeeded E s n shadow := by
  have only : ∀ k, (syncState E s).dragon.nameOf k = some n →
      ((syncState E s).grammarFor n).enabled = true ∧
        k = ((syncState E s).grammarFor n).handle := by
    intro k hk
    exact halone k (by rw [(hafter.grammarFor n).1]; exact hk)
  refine ⟨hcalls, fun hu => ?_, fun hu k hk => ?_⟩
  · obtain ⟨g, hg, hrules⟩ := hset hu
    have hfor := State.grammarFor_of_lookup hg
    have htied := (hafter.grammarFor n).2.2 halone
    rw [hfor] at htied only
    obtain ⟨L, hL, hmir⟩ := htied.live (hafter.enabled n g hg)
    exact ⟨g, L, hg, hL, hmir.name.trans (hafter.name n g hg), hmir.rules.trans hrules,
      fun k hk => (only k hk).2⟩
  · have henabled := (only k hk).1
    unfold State.grammarFor at henabled
    rw [hunload hu] at henabled
    exact absurd henabled nofun

/-- **When `success` says the truth.**  In every state that a history of updates, disconnects and
syncs leads to, with any return codes: a sync answers each pending update once, and behind a
`success` no call for the name failed and the engine holds what was asked for, and nothing else for
the name, if and only if no call of this sync to unload the name failed, and the engine held nothing
for the name before but what its live grammar reaches. -/
theorem success_iff (hr : (store E).Reachable s) (hn : s.shadowGrammars.lookup n = some shadow) :
    ∃ r, gsetAnswers n (syncState E s) = gsetAnswers n s ++ [r] ∧
      r.clientId = shadow.clientId ∧ r.tid = shadow.tid ∧
      (r.status = .success → (Succeeded E s n shadow ↔
        (∀ c ∈ s.syncCallsFor E n, c.1.unloads = true → c.2 = 0) ∧ s.Alone n)) := by
  have hs := accounted_of_reachable hr
  have hb := pendingBlobs_of_reachable hr
  have hafter : Accounted (Op.apply E s .sync) := accounted_step hs hb trivial
  change Accounted (syncState E s) at hafter
  obtain ⟨hlog, m, hm, hv, hv'⟩ := syncState_account (E := E) hs hb hn
  obtain ⟨new, r, hpass, hans, hc, ht, hsuccess⟩ := syncEntry_account (E := E) hm (hb n shadow hn)
  -- what the pass did to the name is what the sync did to it
  have hrecord := congrArg Prod.fst hv
  have hrecord' := congrArg Prod.fst hv'
  have hheld : m.dragon.heldFor n = s.dragon.heldFor n := congrArg (fun a => a.2.1) hv
  have hheld' : (syncState E s).dragon.heldFor n = (syncEntry E m ⟨n, shadow⟩).dragon.heldFor n :=
    congrArg (fun a => a.2.1) hv'
  have hlive : (syncState E s).grammars.lookup n = (syncEntry E m ⟨n, shadow⟩).grammars.lookup n :=
    congrArg Prod.fst hrecord'
  have hbefore : m.Alone n ↔ s.Alone n :=
    hs.alone_congr (congrArg Prod.fst hrecord) hheld
  have hsame : (syncState E s).Alone n ↔ (syncEntry E m ⟨n, shadow⟩).Alone n :=
    hpass.accounted.alone_congr hlive hheld'
  have hcalls := syncCallsFor_eq hlog hv hv' hpass.made
  refine ⟨r, ?_, hc, ht, fun hr => ?_⟩
  · calc gsetAnswers n (syncState E s)
        = gsetAnswers n (syncEntry E m ⟨n, shadow⟩) := congrArg Prod.snd hrecord'
      _ = gsetAnswers n m ++ [r] := hans
      _ = gsetAnswers n s ++ [r] := congrArg (· ++ [r]) (congrArg Prod.snd hrecord)
  obtain ⟨hzero, halone, hunload, hset⟩ := hsuccess hr
  rw [hbefore, ← hsame, ← hcalls] at halone
  rw [← hlive] at hunload hset
  constructor
  · intro h
    exact ⟨fun c hc _ => h.calls c hc, (halone.1 (h.alone hafter)).1⟩
  · rintro ⟨calls, hal⟩
    refine hafter.succeeded ?_ (halone.2 ⟨hal, calls⟩) hunload hset
    rw [hcalls] at calls ⊢
    exact hzero calls

def Env.sticky : Env := { Env.obliging with rc := fun _ c => if c.unloads then 1 else 0 }

/-- A `g.set` that is live, and one with another blob. -/
def reload : List Op :=
  [.setGrammar (.lit "g") ⟨[1], ∅, ∅, false, 0, 1⟩, .sync,
    .setGrammar (.lit "g") ⟨[2], ∅, ∅, false, 0, 2⟩]

/-- The old handle was not unloaded, and the response is `success`. -/
theorem success_fails : ¬ ∀ (E : Env) (s : State) (n : CString) (shadow : GrammarState)
    (r : Answer GrammarError), (store E).Reachable s → s.shadowGrammars.lookup n = some shadow →
    gsetAnswers n (syncState E s) = gsetAnswers n s ++ [r] → r.status = .success →
    Succeeded E s n shadow := by
  intro h
  let s := (store .sticky).exec (store .sticky).start reload
  have hr : (store .sticky).Reachable s :=
    ⟨reload, ⟨fun _ => List.cons_ne_nil _ _, trivial, fun _ => List.cons_ne_nil _ _, trivial⟩, rfl⟩
  have hsuccess := h .sticky s (.lit "g") ⟨[2], ∅, ∅, false, 0, 2⟩ ⟨0, 2, .success, []⟩ hr rfl rfl rfl
  have hcalls : ¬ ∀ c ∈ s.syncCallsFor .sticky (.lit "g"), c.2 = 0 := by decide
  exact hcalls hsuccess.calls

/-- With an engine that does what it is asked, the reload leaves one handle, with the new blob. -/
theorem success_iff_obliging :
    Succeeded .obliging ((store .obliging).exec (store .obliging).start reload) (.lit "g")
      ⟨[2], ∅, ∅, false, 0, 2⟩ := by
  let s := (store .obliging).exec (store .obliging).start reload
  have hr : (store .obliging).Reachable s :=
    ⟨reload, ⟨fun _ => List.cons_ne_nil _ _, trivial, fun _ => List.cons_ne_nil _ _, trivial⟩, rfl⟩
  obtain ⟨r, hans, -, -, hiff⟩ := success_iff (n := .lit "g") hr rfl
  have hstatus : (gsetAnswers (.lit "g") (syncState .obliging s)).map Answer.status =
      (gsetAnswers (.lit "g") s).map Answer.status ++ [.success] := by decide
  rw [hans, List.map_append, List.append_cancel_left_eq, List.map_singleton,
    List.singleton_inj] at hstatus
  refine (hiff hstatus).2 ⟨by decide, fun h hh => ?_⟩
  obtain ⟨L, hL, -⟩ := Dragon.nameOf_eq_some.1 hh
  have hkeys : s.dragon.loaded.entries.map Sigma.fst = [1] := by decide
  have hmem := List.mem_map_of_mem (f := Sigma.fst) (AList.mem_lookup_iff.1 hL)
  rw [hkeys, List.mem_singleton] at hmem
  subst hmem
  decide

end Draconity
