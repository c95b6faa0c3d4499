import Draconity.Orphans

/-!
What a sync asks of the engine for one grammar.

When the blob of a live grammar stays, a sync activates the rules that are missing, deactivates those
that are left over and sets the lists that differ.  When all of these calls return `0` it asks for
nothing else, and otherwise it unloads the grammar; so an update that changes nothing costs no call.
-/

namespace Draconity

open Lib

/-! ### The calls for a name -/

/-- What a call asks for the grammar of a name. -/
def Call.opFor (n : CString) : Call → Option GrammarOp
  | .grammar name op => if name = n then some op else none
  | .validateWord _ | .addTemporaryWord _ | .deleteWord _ | .resume _ | .mimic _ | .setMicState _ =>
    none

/-- The calls of a log for the grammar of a name, with their return codes. -/
def Log.callsFor (n : CString) (log : Log) : List (GrammarOp × Int) :=
  log.filterMap fun c => (c.1.opFor n).map (·, c.2)

variable {E : Env} {n k : CString} {log new : Log} {p q r : Grammar × Dragon} {g : Grammar}
  {shadow : GrammarState} {d d' : Dragon} {s : State} {ops ops' : List GrammarOp}

theorem Log.callsFor_append (n : CString) (log new : Log) :
    (log ++ new : Log).callsFor n = log.callsFor n ++ new.callsFor n := List.filterMap_append

theorem Log.callsFor_eq_nil (h : ∀ c ∈ log, c.1.opFor n = none) : log.callsFor n = [] :=
  List.filterMap_eq_nil_iff.2 fun c hc => by rw [h c hc]; rfl

theorem Call.opFor_eq_some {c : Call} {op : GrammarOp} :
    c.opFor n = some op ↔ c = .grammar n op := by
  cases c with
  | grammar name op' => simp [Call.opFor]
  | validateWord _ | addTemporaryWord _ | deleteWord _ | resume _ | mimic _ | setMicState _ =>
    exact iff_of_false nofun nofun

theorem Log.mem_callsFor {c : GrammarOp × Int} :
    c ∈ log.callsFor n ↔ (.grammar n c.1, c.2) ∈ log := by
  unfold Log.callsFor
  rw [List.mem_filterMap]
  constructor
  · rintro ⟨⟨call, rc⟩, hmem, hfor⟩
    obtain ⟨op, hop, rfl⟩ := Option.map_eq_some_iff.1 hfor
    obtain rfl : call = .grammar n op := Call.opFor_eq_some.1 hop
    exact hmem
  · intro hmem
    exact ⟨_, hmem, Option.map_eq_some_iff.2 ⟨c.1, Call.opFor_eq_some.2 rfl, rfl⟩⟩

theorem Made.callsFor_of_ne {E : Env} (h : Made E n d d' new) (hk : k ≠ n) :
    d'.log.callsFor k = d.log.callsFor k := by
  have hnone : new.callsFor k = [] := Log.callsFor_eq_nil fun c hc => by
    obtain ⟨⟨op, hop⟩, -⟩ := h.on c hc
    rw [hop]
    exact if_neg (Ne.symm hk)
  rw [h.log, Log.callsFor_append, hnone, List.append_nil]

theorem syncWords_callsFor (s : State) (n : CString) :
    (syncWords E s).dragon.log.callsFor n = s.dragon.log.callsFor n := by
  obtain ⟨new, hlog, hwords⟩ := syncWords_log (E := E) s
  have hnone : new.callsFor n = [] := Log.callsFor_eq_nil fun c hc => by
    obtain ⟨w, hw | hw | hw⟩ := hwords c hc <;> rw [hw] <;> rfl
  rw [hlog, Log.callsFor_append, hnone, List.append_nil]

/-! ### The calls on a live grammar -/

/-- On the handle of a grammar these operations are asked for, in this order; an error is recorded
just when one of the calls fails. -/
structure Makes (p q : Grammar × Dragon) (ops : List GrammarOp) : Prop where
  name : q.1.name = p.1.name
  handle : q.1.handle = p.1.handle
  enabled : q.1.enabled = p.1.enabled
  calls : ∃ calls, calls.map Prod.fst = ops ∧
    q.2.log.callsFor p.1.name = p.2.log.callsFor p.1.name ++ calls ∧
    (q.1.errors = [] ↔ p.1.errors = [] ∧ ∀ c ∈ calls, c.2 = 0)

theorem Makes.refl (p : Grammar × Dragon) : Makes p p [] :=
  ⟨rfl, rfl, rfl, [], rfl, (List.append_nil _).symm, (and_iff_left nofun).symm⟩

theorem Makes.trans (h : Makes p q ops) (h' : Makes q r ops') : Makes p r (ops ++ ops') where
  name := h'.name.trans h.name
  handle := h'.handle.trans h.handle
  enabled := h'.enabled.trans h.enabled
  calls := by
    obtain ⟨calls, hops, hlog, herrors⟩ := h.calls
    obtain ⟨calls', hops', hlog', herrors'⟩ := h'.calls
    rw [h.name] at hlog'
    refine ⟨calls ++ calls', by rw [List.map_append, hops, hops'], ?_, ?_⟩
    · rw [hlog', hlog, List.append_assoc]
    · rw [herrors', herrors, List.forall_mem_append, and_assoc]

theorem makes_call (p : Grammar × Dragon) (op : GrammarOp) (type msg : String) (n : CString)
    (state : GrammarState) :
    let r := p.2.call E (.grammar p.1.name op)
    Makes p (if r.1 ≠ 0 then (p.1.recordError type msg r.1 n, r.2) else ({ p.1 with state }, r.2))
      [op] := by
  have hlog : (p.2.call E (.grammar p.1.name op)).2.log.callsFor p.1.name =
      p.2.log.callsFor p.1.name ++ [(op, (p.2.call E (.grammar p.1.name op)).1)] := by
    rw [Dragon.log_call, Log.callsFor_append]
    congr 1
    simp [Log.callsFor, Call.opFor]
  dsimp only
  split_ifs with hc
  · refine ⟨rfl, rfl, rfl, _, rfl, hlog, iff_of_false (recordError_errors_ne _ _ _ _ _) ?_⟩
    exact fun h => hc (h.2 _ (List.mem_singleton_self _))
  · refine ⟨rfl, rfl, rfl, _, rfl, hlog, (and_iff_left fun c hmem => ?_).symm⟩
    rw [List.mem_singleton.1 hmem]
    exact not_not.1 hc

theorem activateRule_makes (p : Grammar × Dragon) (rule : CString) :
    Makes p (activateRule E p rule) [.activate p.1.handle rule] := makes_call p _ _ _ _ _

theorem deactivateRule_makes (p : Grammar × Dragon) (rule : CString) :
    Makes p (deactivateRule E p rule) [.deactivate p.1.handle rule] := makes_call p _ _ _ _ _

theorem foldl_makes {f : Grammar × Dragon → CString → Grammar × Dragon}
    {op : Handle → CString → GrammarOp} (hf : ∀ p a, Makes p (f p a) [op p.1.handle a])
    (l : List CString) (p : Grammar × Dragon) : Makes p (l.foldl f p) (l.map (op p.1.handle)) := by
  induction l generalizing p with
  | nil => exact .refl p
  | cons a l ih =>
    have hrest := ih (f p a)
    rw [(hf p a).handle] at hrest
    exact (hf p a).trans hrest

/-! ### Lists -/

/-- What a list that differs takes. -/
def Grammar.listOps (g : Grammar) (e : Σ _ : CString, OrdSet CString) : List GrammarOp :=
  if g.state.lists.lookup e.1 ≠ some e.2 then [.setList g.handle e.1 e.2.toList] else []

theorem syncList_makes (p : Grammar × Dragon) (e : Σ _ : CString, OrdSet CString) :
    Makes p (syncList E p e) (p.1.listOps e) := by
  unfold syncList setList Grammar.listOps
  split_ifs
  · exact makes_call p _ _ _ _ _
  · exact .refl p

theorem syncList_lookup_of_ne (p : Grammar × Dragon) {e : Σ _ : CString, OrdSet CString}
    {k : CString} (hk : k ≠ e.1) :
    (syncList E p e).1.state.lists.lookup k = p.1.state.lists.lookup k := by
  unfold syncList setList
  dsimp only
  split_ifs
  · rfl
  · exact AList.lookup_insert_ne hk
  · rfl

theorem foldl_syncList_makes {l : List (Σ _ : CString, OrdSet CString)} (hl : l.NodupKeys)
    (p : Grammar × Dragon) : Makes p (l.foldl (syncList E) p) (l.flatMap p.1.listOps) := by
  induction l generalizing p with
  | nil => exact .refl p
  | cons e l ih =>
    obtain ⟨he, hl⟩ := List.nodupKeys_cons.1 hl
    have hfirst := syncList_makes (E := E) p e
    have hrest := ih hl (syncList E p e)
    have hsame : ∀ e' ∈ l, (syncList E p e).1.listOps e' = p.1.listOps e' := by
      intro e' he'
      have hne : e'.1 ≠ e.1 := fun h => he (h ▸ List.mem_keys_of_mem he')
      unfold Grammar.listOps
      rw [syncList_lookup_of_ne p hne, hfirst.handle]
    rw [List.flatMap_congr hsame] at hrest
    exact hfirst.trans hrest

/-! ### What differs -/

/-- What takes a live grammar to the shadow state, with the lists in an order. -/
def Grammar.delta (g : Grammar) (shadow : GrammarState)
    (lists : List (Σ _ : CString, OrdSet CString)) : List GrammarOp :=
  (shadow.activeRules.diff g.state.activeRules).toList.map (.activate g.handle) ++
    (g.state.activeRules.diff shadow.activeRules).toList.map (.deactivate g.handle) ++
    lists.flatMap g.listOps

theorem syncRulesIfChanged_makes (g : Grammar) (shadow : GrammarState) (d : Dragon) :
    Makes (g, d) (syncRulesIfChanged E g shadow d)
      ((shadow.activeRules.diff g.state.activeRules).toList.map (.activate g.handle) ++
        (g.state.activeRules.diff shadow.activeRules).toList.map (.deactivate g.handle)) := by
  unfold syncRulesIfChanged syncRules
  split_ifs with hrules
  · have hon := foldl_makes (activateRule_makes (E := E))
      (shadow.activeRules.diff g.state.activeRules).toList (g, d)
    have hoff := foldl_makes (deactivateRule_makes (E := E))
      (g.state.activeRules.diff shadow.activeRules).toList
      ((shadow.activeRules.diff g.state.activeRules).toList.foldl (activateRule E) (g, d))
    rw [hon.handle] at hoff
    exact hon.trans hoff
  · rw [not_not.1 hrules, OrdSet.diff_self]
    exact .refl _

theorem syncContents_makes (g : Grammar) (shadow : GrammarState) (d : Dragon) :
    ∃ l, l.Perm shadow.lists.entries ∧
      Makes (g, d) (syncContents E g shadow d) (g.delta shadow l) := by
  have hrules := syncRulesIfChanged_makes (E := E) g shadow d
  generalize hp : syncRulesIfChanged E g shadow d = p at hrules
  have hperm := E.listOrder_perm p.2.log shadow.lists.entries
  have hlists := foldl_syncList_makes (E := E) (p := p)
    ((List.perm_nodupKeys hperm).2 shadow.lists.nodupKeys)
  have hsame : p.1.listOps = g.listOps := by
    funext e
    unfold Grammar.listOps
    rw [hrules.handle, ← hp, syncRulesIfChanged_lists]
  rw [hsame] at hlists
  obtain ⟨name, handle, enabled, calls⟩ := hrules.trans hlists
  refine ⟨_, hperm, ?_⟩
  unfold syncContents syncLists
  dsimp only
  rw [hp]
  exact ⟨name, handle, enabled, calls⟩

/-- With the same blob nothing is loaded or unloaded, and a call that fails leaves an error. -/
theorem syncGrammar_makes (d : Dragon) (hblob : g.state.blob = shadow.blob) :
    ∃ l, l.Perm shadow.lists.entries ∧
      Makes ({ g with errors := [] }, d) (syncGrammar E g shadow d) (g.delta shadow l) := by
  obtain ⟨l, hl, hmakes⟩ := syncContents_makes (E := E) { g with errors := [] } shadow d
  refine ⟨l, hl, ?_⟩
  rw [syncGrammar_eq]
  dsimp only
  rw [if_neg (not_not.2 hblob)]
  exact hmakes

theorem log_lt_unloadGrammar (g : Grammar) (d : Dragon) :
    d.log.length < (unloadGrammar E g d).2.2.log.length := by
  unfold unloadGrammar
  dsimp only
  split_ifs <;> simp only [Dragon.log_call, List.length_append, List.length_singleton] <;> omega

/-- The unloading of a grammar asks for something. -/
theorem unloadIfEnabled_makes (hp : Held p) (he : p.1.enabled = true) :
    ∃ calls, calls ≠ [] ∧ (∀ c ∈ calls, (Call.grammar p.1.name c.1).unloads = true) ∧
      (unloadIfEnabled E p.1 p.2).2.log.callsFor p.1.name =
        p.2.log.callsFor p.1.name ++ calls := by
  obtain ⟨new, haccount, hkind, -⟩ := unloadIfEnabled_account (E := E) (g := p.1) (d := p.2) hp
  have hlog := haccount.made.log
  refine ⟨new.callsFor p.1.name, fun hnil => ?_, fun c hc => hkind _ (Log.mem_callsFor.1 hc), by
    rw [hlog, Log.callsFor_append]⟩
  have hlt : p.2.log.length < (unloadIfEnabled E p.1 p.2).2.log.length := by
    unfold unloadIfEnabled
    rw [if_pos he]
    exact log_lt_unloadGrammar p.1 p.2
  cases new with
  | nil =>
    rw [hlog, List.append_nil] at hlt
    exact lt_irrefl _ hlt
  | cons c new =>
    -- every call of the unloading is for this name
    obtain ⟨call, rc⟩ := c
    obtain ⟨⟨op, rfl⟩, -⟩ := haccount.made.on _ (List.mem_cons_self ..)
    have hmem : (op, rc) ∈ Log.callsFor p.1.name ((.grammar p.1.name op, rc) :: new) :=
      Log.mem_callsFor.2 (List.mem_cons_self ..)
    rw [hnil] at hmem
    cases hmem

/-! ### One pass -/

/-- What a pass asks for a live grammar of which the blob stays: what differs, and when one of these
calls fails, the unloading of the grammar, which is then gone. -/
theorem syncEntry_delta (hs : Accounted s) (hu : shadow.unload = false)
    (hg : s.grammars.lookup n = some g) (hblob : g.state.blob = shadow.blob) :
    ∃ l calls rest, l.Perm shadow.lists.entries ∧ calls.map Prod.fst = g.delta shadow l ∧
      (syncEntry E s ⟨n, shadow⟩).dragon.log.callsFor n = s.dragon.log.callsFor n ++ calls ++ rest ∧
      (∀ c ∈ rest, (Call.grammar n c.1).unloads = true) ∧
      ((∀ c ∈ calls, c.2 = 0) → rest = [] ∧
        ∃ g', (syncEntry E s ⟨n, shadow⟩).grammars.lookup n = some g' ∧ g'.handle = g.handle) ∧
      ((∃ c ∈ calls, c.2 ≠ 0) → rest ≠ [] ∧
        (syncEntry E s ⟨n, shadow⟩).grammars.lookup n = none) := by
  have hfor : s.grammarFor n = g := s.grammarFor_of_lookup hg
  have hname : g.name = n := hs.name n g hg
  have hlive : g.enabled = true := hs.enabled n g hg
  obtain ⟨-, hheld, -⟩ := hs.grammarFor n
  rw [hfor] at hheld
  obtain ⟨new, haccount⟩ : ∃ new, SyncAccount E _ (g, s.dragon) (syncGrammar E g shadow s.dragon) new :=
    syncGrammar_account hheld (.inl hlive)
  obtain ⟨l, hl, hname', hhandle, henabled, calls, hops, hlog, herrors⟩ :=
    syncGrammar_makes (E := E) s.dragon hblob
  dsimp only at hname' hhandle henabled hlog herrors
  rw [hname] at hname' hlog
  rw [and_iff_right rfl] at herrors
  by_cases he : ∀ c ∈ calls, c.2 = 0
  · -- nothing failed: the pass ends with the calls of the difference
    obtain ⟨hlook, hd, -⟩ := syncEntry_set hu s (hfor.symm ▸ herrors.2 he)
    rw [hfor] at hlook hd
    refine ⟨l, calls, [], hl, hops, ?_, nofun, fun _ => ⟨rfl, _, hlook, hhandle⟩, ?_⟩
    · rw [hd, hlog, List.append_nil]
    · rintro ⟨c, hc, hne⟩
      exact absurd (he c hc) hne
  · -- a call failed, its error is recorded, and the grammar is unloaded
    have hfailed : (syncGrammar E (s.grammarFor n) shadow s.dragon).1.errors ≠ [] := by
      rw [hfor]
      exact fun h => he (herrors.1 h)
    obtain ⟨hlook, hd, -⟩ := syncEntry_set_error hu s hfailed
    obtain ⟨rest, hne, hkind, hrest⟩ :=
      unloadIfEnabled_makes (E := E) haccount.account.held (henabled.trans hlive)
    rw [hname'] at hkind hrest
    refine ⟨l, calls, rest, hl, hops, ?_, hkind, fun hall => absurd hall he, fun _ => ⟨hne, hlook⟩⟩
    rw [hd, hfor, hrest, hlog]

/-- A pass for a grammar of which nothing differs makes no call: only the owner changes, which is told
of the success. -/
theorem syncEntry_same (hu : shadow.unload = false)
    (hg : s.grammars.lookup n = some g) (hblob : g.state.blob = shadow.blob)
    (hrules : g.state.activeRules = shadow.activeRules)
    (hlists : ∀ e ∈ shadow.lists.entries, g.state.lists.lookup e.1 = some e.2) :
    (syncEntry E s ⟨n, shadow⟩).dragon = s.dragon ∧
      (syncEntry E s ⟨n, shadow⟩).grammars.lookup n = some { g with
        errors := []
        state := { g.state with clientId := shadow.clientId, tid := shadow.tid } } ∧
      gsetAnswers n (syncEntry E s ⟨n, shadow⟩) =
        gsetAnswers n s ++ [shadow.answer .success []] := by
  have hfor : s.grammarFor n = g := s.grammarFor_of_lookup hg
  have hloop : ∀ (l : List (Σ _ : CString, OrdSet CString)) (p : Grammar × Dragon),
      (∀ e ∈ l, p.1.state.lists.lookup e.1 = some e.2) → l.foldl (syncList E) p = p := by
    intro l p hl
    induction l with
    | nil => rfl
    | cons e l ih =>
      have hfirst : syncList E p e = p := if_neg (not_not.2 (hl e (List.mem_cons_self ..)))
      rw [List.foldl_cons, hfirst]
      exact ih fun e' he' => hl e' (List.mem_cons_of_mem _ he')
  have hsync : syncGrammar E g shadow s.dragon = ({ g with
      errors := []
      state := { g.state with clientId := shadow.clientId, tid := shadow.tid } }, s.dragon) := by
    rw [syncGrammar_eq]
    dsimp only
    rw [if_neg (not_not.2 hblob)]
    unfold syncContents syncRulesIfChanged syncLists
    dsimp only
    rw [if_neg (not_not.2 hrules), hloop]
    intro e he
    exact hlists e ((E.listOrder_perm _ _).mem_iff.1 he)
  have hset := syncEntry_set (E := E) (n := n) hu s
  rw [hfor, hsync] at hset
  obtain ⟨hlook, hd, hans⟩ := hset rfl
  exact ⟨hd, hlook, hans⟩

/-! ### A sync -/

/-- What a state shows of a name: its record, what was asked for it, and its responses. -/
def State.traffic (n : CString) (s : State) :
    Option Grammar × List (GrammarOp × Int) × List (Answer GrammarError) :=
  (s.grammars.lookup n, s.dragon.log.callsFor n, gsetAnswers n s)

theorem syncWords_traffic (s : State) (n : CString) :
    (syncWords E s).traffic n = s.traffic n := by
  have hw := syncWords_sameGrammars (E := E) s
  unfold State.traffic
  rw [hw.grammars, hw.gset, syncWords_callsFor]

theorem syncEntry_traffic_of_ne (hs : Accounted s) (hb : shadow.unload = false → shadow.blob ≠ [])
    (hk : k ≠ n) : (syncEntry E s ⟨n, shadow⟩).traffic k = s.traffic k := by
  obtain ⟨new, -, hpass, -⟩ := syncEntry_account (E := E) (n := n) hs hb
  have hframe := syncEntry_of_ne (E := E) s (e := ⟨n, shadow⟩) hk
  unfold State.traffic
  rw [hframe.1, hframe.2, hpass.made.callsFor_of_ne hk]

theorem syncState_traffic_of_none (hs : Accounted s) (hb : PendingBlobs s)
    (hn : s.shadowGrammars.lookup n = none) : (syncState E s).traffic n = s.traffic n := by
  have hw := syncWords_sameGrammars (E := E) s
  obtain ⟨m, hm, heq⟩ := syncState_view_of_none (E := E) (I := Accounted)
    State.traffic (hs.congr hw.grammars hw.loaded hw.next)
    (fun m k sh hk hm => by
      obtain ⟨new, -, hpass, -⟩ := syncEntry_account (E := E) (n := k) hm (hb k sh hk)
      exact hpass.accounted)
    (fun m k sh j hk hm hj => syncEntry_traffic_of_ne hm (hb k sh hk) hj) hn
  rw [heq]
  exact hm.trans (syncWords_traffic s n)

/-- What a sync shows of a name with an entry is what the pass for it shows, from a state that shows
the name as it was. -/
theorem syncState_traffic (hs : Accounted s) (hb : PendingBlobs s)
    (hn : s.shadowGrammars.lookup n = some shadow) :
    ∃ m, Accounted m ∧ m.traffic n = s.traffic n ∧
      (syncState E s).traffic n = (syncEntry E m ⟨n, shadow⟩).traffic n := by
  have hw := syncWords_sameGrammars (E := E) s
  obtain ⟨m, m', hm, -, hv, hv', heq⟩ := syncState_view (E := E) (I := Accounted) State.traffic
    (hs.congr hw.grammars hw.loaded hw.next)
    (fun m k sh hk hm => by
      obtain ⟨new, -, hpass, -⟩ := syncEntry_account (E := E) (n := k) hm (hb k sh hk)
      exact hpass.accounted)
    (fun m k sh j hk hm hj => syncEntry_traffic_of_ne hm (hb k sh hk) hj) hn
  exact ⟨m, hm, hv.trans (syncWords_traffic s n), heq ▸ hv'⟩

/-- **A sync asks for what differs, and for nothing else.**  In every state the store reaches and
whatever the calls return, of the calls a sync makes for a name:
* there are none when no update is pending;
* when the blob of the live grammar stays, they activate the rules that are missing, deactivate those
  left over and set the lists that differ, each once; when all of these return `0`, there are no others
  and the grammar stays on its handle; when one fails, others unload the grammar, which is then gone;
* so there are none when nothing differs, and the update takes effect as a change of the owner. -/
theorem sync_delta (hr : (store E).Reachable s) (n : CString) :
    (s.shadowGrammars.lookup n = none →
      (syncState E s).dragon.log.callsFor n = s.dragon.log.callsFor n) ∧
    ∀ shadow g, s.shadowGrammars.lookup n = some shadow → shadow.unload = false →
      s.grammars.lookup n = some g → g.state.blob = shadow.blob →
      (∃ l calls rest, l.Perm shadow.lists.entries ∧ calls.map Prod.fst = g.delta shadow l ∧
        (syncState E s).dragon.log.callsFor n = s.dragon.log.callsFor n ++ calls ++ rest ∧
        (∀ c ∈ rest, (Call.grammar n c.1).unloads = true) ∧
        ((∀ c ∈ calls, c.2 = 0) → rest = [] ∧
          ∃ g', (syncState E s).grammars.lookup n = some g' ∧ g'.handle = g.handle) ∧
        ((∃ c ∈ calls, c.2 ≠ 0) → rest ≠ [] ∧ (syncState E s).grammars.lookup n = none)) ∧
      (g.state.activeRules = shadow.activeRules →
        (∀ e ∈ shadow.lists.entries, g.state.lists.lookup e.1 = some e.2) →
        (syncState E s).dragon.log.callsFor n = s.dragon.log.callsFor n ∧
        (syncState E s).grammars.lookup n = some { g with
          errors := []
          state := { g.state with clientId := shadow.clientId, tid := shadow.tid } } ∧
        gsetAnswers n (syncState E s) = gsetAnswers n s ++ [shadow.answer .success []]) := by
  have hs := accounted_of_reachable hr
  have hb := pendingBlobs_of_reachable hr
  refine ⟨fun hn => ?_, fun shadow g hn hu hg hblob => ?_⟩
  · exact congrArg (fun v => v.2.1) (syncState_traffic_of_none hs hb hn)
  · obtain ⟨m, hm, hsame, hview⟩ := syncState_traffic (E := E) hs hb hn
    simp only [State.traffic, Prod.mk.injEq] at hsame hview
    obtain ⟨hlook, hcalls, hans⟩ := hsame
    obtain ⟨hlook', hcalls', hans'⟩ := hview
    rw [hlook', hcalls', hans', ← hcalls, ← hans]
    have hg' := hlook.trans hg
    refine ⟨syncEntry_delta hm hu hg' hblob, fun hrules hlists => ?_⟩
    obtain ⟨hd, hl, ha⟩ := syncEntry_same (E := E) hu hg' hblob hrules hlists
    exact ⟨by rw [hd], hl, ha⟩

/-- A grammar that is live with one rule is asked for with another. -/
def changedRule : List Op :=
  [.setGrammar (.lit "g") ⟨[1], OrdSet.ofList [.lit "a"], ∅, false, 0, 1⟩, .sync,
    .setGrammar (.lit "g") ⟨[1], OrdSet.ofList [.lit "b"], ∅, false, 0, 2⟩]

theorem sync_delta_changed :
    let s := (store .obliging).exec (store .obliging).start changedRule
    (syncState .obliging s).dragon.log.callsFor (.lit "g") = s.dragon.log.callsFor (.lit "g") ++
      [(.activate 1 (.lit "b"), 0), (.deactivate 1 (.lit "a"), 0)] := by
  have hrun : (store .obliging).Run (store .obliging).start changedRule :=
    ⟨fun _ => List.cons_ne_nil _ _, trivial, fun _ => List.cons_ne_nil _ _, trivial⟩
  obtain ⟨⟨l, calls, rest, hl, hops, hlog, -, hzero, hfail⟩, -⟩ :=
    (sync_delta hrun.reachable (.lit "g")).2
    ⟨[1], OrdSet.ofList [.lit "b"], ∅, false, 0, 2⟩
    { Grammar.new (.lit "g") with
      state := ⟨[1], OrdSet.ofList [.lit "a"], ∅, false, 0, 1⟩
      handle := 1
      endkey := 2
      hypokey := 3
      beginkey := 4
      enabled := true } rfl rfl rfl rfl
  have hall : ∀ c ∈ calls, c.2 = 0 := by
    by_contra hsome
    simp only [not_forall] at hsome
    obtain ⟨c, hc, hne⟩ := hsome
    exact nomatch (hfail ⟨c, hc, hne⟩).2
  have hcalls : (calls.map Prod.fst).map (·, 0) = calls := by
    rw [List.map_map]
    refine (List.map_congr_left (g := id) fun c hc => ?_).trans (List.map_id calls)
    exact Prod.ext rfl (hall c hc).symm
  obtain rfl := hl.eq_nil
  rw [(hzero hall).1, List.append_nil, ← hcalls, hops] at hlog
  exact hlog

end Draconity
