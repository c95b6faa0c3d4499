import Draconity.Tied

/-!
Which handles the engine holds for a name, whatever its calls return.

A record that is enabled has its handle loaded (`Held`).  Other handles of its name are beyond its
reach: no call is made on them any more, so a record that is not `Alone` never becomes so again.  Each
function is described by the entries it adds to the log and by what becomes of `Alone`.
-/

namespace Draconity

open Lib

variable {E : Env} {p q r : Grammar × Dragon} {new new' : Log}

/-- The handle of an enabled record is loaded, for its name. -/
structure Held (p : Grammar × Dragon) : Prop where
  fresh : p.2.Fresh
  loaded : p.1.enabled = true → p.2.nameOf p.1.handle = some p.1.name

/-- The engine holds nothing for the name but what is on the handle of the enabled record. -/
def Alone (p : Grammar × Dragon) : Prop :=
  ∀ h, p.2.nameOf h = some p.1.name → p.1.enabled = true ∧ h = p.1.handle

/-- What every function does: it makes calls for its name, leaves what the engine holds for other
names, and frees no handle that is out of reach. -/
structure Account (E : Env) (p q : Grammar × Dragon) (new : Log) : Prop where
  made : Made E p.1.name p.2 q.2 new
  name : q.1.name = p.1.name
  held : Held q
  frame : ∀ k, k ≠ p.1.name → q.2.heldFor k = p.2.heldFor k
  alone : Alone q → Alone p

theorem Account.refl (hp : Held p) : Account E p p [] :=
  ⟨.refl _ _, rfl, hp, fun _ _ => rfl, id⟩

theorem Account.trans (h : Account E p q new) (h' : Account E q r new') :
    Account E p r (new ++ new') where
  made := h.made.trans (h.name ▸ h'.made)
  name := h'.name.trans h.name
  held := h'.held
  frame k hk := (h'.frame k (h.name ▸ hk)).trans (h.frame k hk)
  alone hr := h.alone (h'.alone hr)

theorem Account.of_setErrors {g : Grammar} {d : Dragon} {es : List GrammarError}
    (h : Account E ({ g with errors := es }, d) q new) : Account E (g, d) q new :=
  ⟨h.made, h.name, h.held, h.frame, h.alone⟩

theorem Call.not_registers {c : Call} (h : c.unloads = true) : c.registers = false := by
  unfold Call.unloads at h
  split at h
  · rfl
  · rfl
  · cases h

theorem Dragon.heldFor_of_ne {d : Dragon} {h : Handle} {m n : CString} (hn : d.nameOf h = some m)
    (hm : n ≠ m) : d.heldFor n h = none := by
  rw [Dragon.heldFor_eq_none]
  intro L hL hname
  obtain ⟨L', hL', rfl⟩ := Dragon.nameOf_eq_some.1 hn
  rw [hL, Option.some.injEq] at hL'
  exact hm (hL' ▸ hname.symm)

/-! ### Unloading -/

theorem unloadGrammar_frame {g : Grammar} {d : Dragon} {h : Handle} (hh : h ≠ g.handle) :
    (unloadGrammar E g d).2.2.loaded.lookup h = d.loaded.lookup h := by
  have step : ∀ (d : Dragon) (op : GrammarOp), op.handle = some g.handle →
      (d.call E (.grammar g.name op)).2.loaded.lookup h = d.loaded.lookup h :=
    fun d op ho => Dragon.lookup_call_of_ne ho hh
  unfold unloadGrammar
  dsimp only
  split_ifs <;> simp only [step _ (.unregister ..) rfl, step _ (.destroy _) rfl]

theorem unloadIfEnabled_account {g : Grammar} {d : Dragon} (hp : Held (g, d)) :
    ∃ new, Account E (g, d) (unloadIfEnabled E g d) new ∧ (∀ c ∈ new, c.1.unloads = true) ∧
      ((unloadIfEnabled E g d).1.enabled = false ↔ ∀ c ∈ new, c.2 = 0) ∧
      (Alone (g, d) → Alone (unloadIfEnabled E g d)) ∧
      ((unloadIfEnabled E g d).1.enabled = false → Tied g d →
        Tied (unloadIfEnabled E g d).1 (unloadIfEnabled E g d).2) := by
  unfold unloadIfEnabled
  by_cases hg : g.enabled = true
  · rw [if_pos hg]
    have hname : d.nameOf g.handle = some g.name := hp.loaded hg
    have frame : (∀ m, (unloadGrammar E g d).2.2.nameOf g.handle = some m → m = g.name) →
        ∀ k, k ≠ g.name → (unloadGrammar E g d).2.2.heldFor k = d.heldFor k := by
      intro hsame k hk
      funext h
      by_cases hh : h = g.handle
      · subst hh
        rw [Dragon.heldFor_of_ne hname hk, Dragon.heldFor_eq_none]
        intro L hL hL'
        exact hk (hL' ▸ hsame L.name (Dragon.nameOf_eq_some.2 ⟨L, hL, rfl⟩))
      · unfold Dragon.heldFor
        rw [unloadGrammar_frame hh]
    have hfresh := (unloadGrammar_only (E := E) g d).2.fresh hp.fresh
    cases unloadGrammar_ends E g d with
    | failed new made kind fails rc record names =>
      -- the grammar stays on its handle, and the record stays enabled
      refine ⟨new, ⟨made, by rw [record], ⟨hfresh, fun _ => ?_⟩, frame ?_, fun ha => ?_⟩, kind, ?_,
        fun ha => ?_, fun he => ?_⟩
      · show (unloadGrammar E g d).2.2.nameOf (unloadGrammar E g d).2.1.handle = _
        rw [names, record]
        exact hname
      · intro m hm
        rw [names, hname, Option.some.injEq] at hm
        exact hm.symm
      · intro h hh
        have := ha h
        rw [names, record] at this
        exact this hh
      · rw [record, hg]
        simp only [Bool.true_eq_false, false_iff]
        intro hall
        obtain ⟨c, hc, hne⟩ := fails
        exact hne (hall c hc)
      · intro h hh
        rw [record, names] at hh
        rw [record]
        exact ha h hh
      · rw [record, hg] at he
        cases he
    | done new made kind succeed rc record loaded =>
      have names : ∀ h, (unloadGrammar E g d).2.2.nameOf h =
          if h = g.handle then none else d.nameOf h := by
        intro h
        unfold Dragon.nameOf
        rw [loaded]
        split_ifs <;> rfl
      have hdisabled : (unloadGrammar E g d).2.1.enabled = false := by rw [record]; rfl
      refine ⟨new, ⟨made, by rw [record]; rfl, ⟨hfresh, fun h => ?_⟩, frame ?_, fun ha => ?_⟩, kind,
        ⟨fun _ => succeed, fun _ => hdisabled⟩, fun ha => ?_, fun _ => unloadGrammar_tied rc⟩
      · exact absurd (hdisabled.symm.trans h) nofun
      · intro m hm
        rw [names, if_pos rfl] at hm
        cases hm
      · intro h hh
        refine ⟨hg, ?_⟩
        by_contra hne
        have := (ha h (by rw [names, if_neg hne, record]; exact hh)).1
        exact absurd (hdisabled.symm.trans this) nofun
      · intro h hh
        rw [names, record] at hh
        split_ifs at hh with hne
        exact absurd (ha h hh).2 hne
  · -- a record that is not enabled takes no call
    rw [if_neg hg]
    exact ⟨[], .refl hp, nofun, by simpa using hg, id, fun _ => id⟩

/-! ### Loading -/

theorem alone_of_loaded {g g' : Grammar} {d d' : Dragon} (hp : Held (g, d))
    (name : g'.name = g.name) (handle : g'.handle = d.next)
    (names : ∀ h, d'.nameOf h = if h = d.next then some g.name else d.nameOf h) :
    (Alone (g', d') ↔ Alone (g, d) ∧ g.enabled = false ∧ g'.enabled = true) := by
  constructor
  · intro ha
    have hnext := ha d.next (by rw [names, if_pos rfl]; exact congrArg some name.symm)
    have old : ∀ h, ¬ d.nameOf h = some g.name := by
      intro h hh
      have hne : h ≠ d.next := ne_of_lt (hp.fresh.nameOf_lt hh)
      have := (ha h (by rw [names, if_neg hne, hh]; exact congrArg some name.symm)).2
      exact hne (this.trans handle)
    refine ⟨fun h hh => absurd hh (old h), ?_, hnext.1⟩
    by_contra hg
    exact old _ (hp.loaded (by simpa using hg))
  · rintro ⟨ha, hg, hg'⟩ h hh
    refine ⟨hg', ?_⟩
    rw [names] at hh
    split_ifs at hh with hnext
    · exact hnext.trans handle.symm
    · rw [show (g', d').1.name = g.name from name] at hh
      exact absurd (hg.symm.trans (ha h hh).1) nofun

theorem loadGrammar_account {g : Grammar} (blob : List UInt8) {d : Dragon} (hp : Held (g, d)) :
    ∃ new, Account E (g, d) (loadGrammar E g blob d).2 new ∧ (∀ c ∈ new, c.1.unloads = false) ∧
      ((loadGrammar E g blob d).1 = 0 → (∀ c ∈ new, c.2 = 0) ∧
        (Alone (loadGrammar E g blob d).2 ↔ Alone (g, d) ∧ g.enabled = false)) ∧
      (g.enabled = false → (Alone (loadGrammar E g blob d).2 ↔
        Alone (g, d) ∧ ∀ c ∈ new, c.1.registers = true → c.2 = 0)) := by
  have hfresh := (loadGrammar_only (E := E) g blob d).2.fresh hp.fresh
  have frame : ∀ k, k ≠ g.name → (loadGrammar E g blob d).2.2.heldFor k = d.heldFor k :=
    fun k hk => loadGrammar_heldFor g blob hp.fresh hk
  cases loadGrammar_ends E g blob d with
  | refused new made kind rc errors name handle enabled state loaded =>
    have names : (loadGrammar E g blob d).2.2.nameOf = d.nameOf := by
      funext h
      unfold Dragon.nameOf
      rw [loaded]
    have halone : Alone (loadGrammar E g blob d).2 ↔ Alone (g, d) := by
      unfold Alone
      rw [names, name, enabled, handle]
    refine ⟨new, ⟨made, name, ⟨hfresh, fun h => ?_⟩, frame, halone.1⟩, fun c hc => (kind c hc).1,
      fun h => absurd h rc, fun _ => ?_⟩
    · rw [names, handle, name]
      exact hp.loaded (enabled.symm.trans h)
    · rw [halone]
      refine ⟨fun h => ⟨h, fun c hc hr => ?_⟩, And.left⟩
      exact absurd ((kind c hc).2.symm.trans hr) nofun
  | stuck new made kind fails rc errors name handle enabled names =>
    -- a callback is refused: the blob stays loaded, and `enabled` is left as it was
    have halone := alone_of_loaded hp name handle names
    refine ⟨new, ⟨made, name, ⟨hfresh, fun h => ?_⟩, frame, fun h => (halone.1 h).1⟩, kind,
      fun h => absurd h rc, fun hg => ?_⟩
    · rw [names, handle, if_pos rfl, name]
    · refine ⟨fun h => ?_, fun h => ?_⟩
      · exact absurd (hg.symm.trans (enabled.symm.trans (halone.1 h).2.2)) nofun
      · obtain ⟨c, hc, hr, hne⟩ := fails
        exact absurd (h.2 c hc hr) hne
  | loaded new made kind succeed rc errors name handle enabled state L h1 h2 h3 h4 h5 lookup =>
    have names : ∀ h, (loadGrammar E g blob d).2.2.nameOf h =
        if h = d.next then some g.name else d.nameOf h := by
      intro h
      unfold Dragon.nameOf
      rw [lookup]
      split_ifs
      · exact congrArg some h1
      · rfl
    have halone := alone_of_loaded hp name handle names
    refine ⟨new, ⟨made, name, ⟨hfresh, fun h => ?_⟩, frame, fun h => (halone.1 h).1⟩, kind,
      fun _ => ⟨succeed, fun h => ?_, fun h => ?_⟩, fun hg => ⟨fun h => ?_, fun h => ?_⟩⟩
    · rw [names, handle, if_pos rfl, name]
    · exact ⟨(halone.1 h).1, (halone.1 h).2.1⟩
    · exact halone.2 ⟨h.1, h.2, enabled⟩
    · exact ⟨(halone.1 h).1, fun c hc _ => succeed c hc⟩
    · exact halone.2 ⟨h.1, hg, enabled⟩

/-! ### The contents -/

/-- Calls that neither load nor unload nor register, and record their errors. -/
structure Recorded (E : Env) (p q : Grammar × Dragon) : Prop where
  log : ∃ new, Made E p.1.name p.2 q.2 new ∧
    (∀ c ∈ new, c.1.unloads = false ∧ c.1.registers = false) ∧
    (q.1.errors = [] → ∀ c ∈ new, c.2 = 0)
  errors : p.1.errors <+: q.1.errors
  name : q.1.name = p.1.name
  names : q.2.nameOf = p.2.nameOf

theorem Recorded.refl (p : Grammar × Dragon) : Recorded E p p :=
  ⟨⟨[], .refl _ _, nofun, nofun⟩, List.prefix_rfl, rfl, rfl⟩

theorem Recorded.trans (h : Recorded E p q) (h' : Recorded E q r) : Recorded E p r := by
  obtain ⟨⟨new, made, kind, succeed⟩, errors, name, names⟩ := h
  obtain ⟨⟨new', made', kind', succeed'⟩, errors', name', names'⟩ := h'
  refine ⟨⟨new ++ new', made.trans (name ▸ made'), ?_, ?_⟩, errors.trans errors', name'.trans name,
    names'.trans names⟩
  · intro c hc
    exact (List.mem_append.1 hc).elim (kind c) (kind' c)
  · intro hr c hc
    rcases List.mem_append.1 hc with hc | hc
    · exact succeed (List.prefix_nil.1 (hr ▸ errors')) c hc
    · exact succeed' hr c hc

theorem recorded_call {g : Grammar} {op : GrammarOp} (hl : ∀ blob, op ≠ .loadGrammar blob)
    (hd : ∀ h, op ≠ .destroy h) (hk : (Call.grammar p.1.name op).unloads = false)
    (hr : (Call.grammar p.1.name op).registers = false) (errors : p.1.errors <+: g.errors)
    (name : g.name = p.1.name)
    (fails : g.errors = [] → (p.2.call E (.grammar p.1.name op)).1 = 0) :
    Recorded E p (g, (p.2.call E (.grammar p.1.name op)).2) := by
  refine ⟨⟨_, made_call _ _ _, fun c hc => ?_, fun h c hc => ?_⟩, errors, name,
    Dragon.nameOf_call hl hd⟩
  · rw [List.mem_singleton.1 hc]
    exact ⟨hk, hr⟩
  · rw [List.mem_singleton.1 hc]
    exact fails h

/-- A call that is recorded when it fails, and else kept in the record. -/
theorem recorded_attempt (p : Grammar × Dragon) {op : GrammarOp}
    (hl : ∀ blob, op ≠ .loadGrammar blob) (hd : ∀ h, op ≠ .destroy h)
    (hk : (Call.grammar p.1.name op).unloads = false)
    (hr : (Call.grammar p.1.name op).registers = false) (type msg : String) (n : CString)
    (state : GrammarState) :
    let r := p.2.call E (.grammar p.1.name op)
    Recorded E p (if r.1 ≠ 0 then (p.1.recordError type msg r.1 n, r.2)
      else ({ p.1 with state }, r.2)) := by
  dsimp only
  split_ifs with hc
  · exact recorded_call hl hd hk hr (List.prefix_append ..) rfl
      fun h => absurd h (recordError_errors_ne _ _ _ _ _)
  · exact recorded_call hl hd hk hr List.prefix_rfl rfl fun _ => not_not.1 hc

theorem activateRule_recorded (p : Grammar × Dragon) (rule : CString) :
    Recorded E p (activateRule E p rule) := by
  refine recorded_attempt p ?_ ?_ rfl rfl _ _ _ _
  · exact nofun
  · exact nofun

theorem deactivateRule_recorded (p : Grammar × Dragon) (rule : CString) :
    Recorded E p (deactivateRule E p rule) := by
  refine recorded_attempt p ?_ ?_ rfl rfl _ _ _ _
  · exact nofun
  · exact nofun

theorem syncList_recorded (p : Grammar × Dragon) (e : Σ _ : CString, OrdSet CString) :
    Recorded E p (syncList E p e) := by
  unfold syncList
  split_ifs
  · refine recorded_attempt p ?_ ?_ rfl rfl _ _ _ _
    · exact nofun
    · exact nofun
  · exact Recorded.refl p

theorem syncContents_recorded (g : Grammar) (shadow : GrammarState) (d : Dragon) :
    Recorded E (g, d) (syncContents E g shadow d) := by
  have fold : ∀ {α : Type} {f : Grammar × Dragon → α → Grammar × Dragon},
      (∀ p a, Recorded E p (f p a)) → ∀ (l : List α) p, Recorded E p (l.foldl f p) :=
    fun hf l p => Keyed.foldl_rel Recorded.refl Recorded.trans hf l p
  have hr : Recorded E (g, d) (syncRulesIfChanged E g shadow d) := by
    unfold syncRulesIfChanged syncRules
    split_ifs
    · exact (fold activateRule_recorded _ _).trans (fold deactivateRule_recorded _ _)
    · exact Recorded.refl _
  obtain ⟨log, errors, name, names⟩ := hr.trans (fold syncList_recorded _ _)
  exact ⟨log, errors, name, names⟩

theorem syncContents_account {g : Grammar} (shadow : GrammarState) {d : Dragon}
    (hp : Held (g, d)) (hg : g.enabled = true) :
    ∃ new, Account E (g, d) (syncContents E g shadow d) new ∧
      (∀ c ∈ new, c.1.unloads = false ∧ c.1.registers = false) ∧
      ((syncContents E g shadow d).1.errors = [] → ∀ c ∈ new, c.2 = 0) ∧
      (syncContents E g shadow d).1.enabled = true ∧
      (Alone (g, d) → Alone (syncContents E g shadow d)) := by
  obtain ⟨⟨new, made, kind, succeed⟩, -, name, names⟩ := syncContents_recorded (E := E) g shadow d
  have pass := syncContents_pass (E := E) g shadow d
  have halone : Alone (syncContents E g shadow d) ↔ Alone (g, d) := by
    unfold Alone
    rw [names, pass.name, pass.enabled, pass.handle]
  have hname : d.nameOf g.handle = some g.name := hp.loaded hg
  refine ⟨new, ⟨made, name, ⟨pass.fresh hp.fresh, fun h => ?_⟩, fun k hk => ?_, halone.1⟩, kind,
    succeed, pass.enabled.trans hg, halone.2⟩
  · rw [names, pass.handle, name]
    exact hname
  · funext h
    by_cases hh : h = g.handle
    · subst hh
      rw [Dragon.heldFor_of_ne hname hk, Dragon.heldFor_of_ne (names ▸ hname) hk]
    · unfold Dragon.heldFor
      rw [pass.frame h hh]

/-! ### The whole of `sync_grammar` -/

section Append

variable {q : Call → Bool}

/-- Only the calls of a kind count, and the second part has none. -/
theorem forall_append_left (h : ∀ c ∈ new', q c.1 = false) :
    (∀ c ∈ new ++ new', q c.1 = true → c.2 = 0) ↔ ∀ c ∈ new, q c.1 = true → c.2 = 0 := by
  constructor
  · intro hall c hc
    exact hall c (List.mem_append_left _ hc)
  · intro hall c hc hq
    rcases List.mem_append.1 hc with hc | hc
    · exact hall c hc hq
    · exact absurd ((h c hc).symm.trans hq) Bool.false_ne_true

/-- Only the calls of a kind count, and the first part has none. -/
theorem forall_append_right (h : ∀ c ∈ new, q c.1 = false) :
    (∀ c ∈ new ++ new', q c.1 = true → c.2 = 0) ↔ ∀ c ∈ new', q c.1 = true → c.2 = 0 := by
  constructor
  · intro hall c hc
    exact hall c (List.mem_append_right _ hc)
  · intro hall c hc hq
    rcases List.mem_append.1 hc with hc | hc
    · exact absurd ((h c hc).symm.trans hq) Bool.false_ne_true
    · exact hall c hc hq

end Append

/-- What a sync of one grammar does to the handles, and what the calls returned when it went well:
`ok` says that it did. -/
structure SyncAccount (E : Env) (ok : Prop) (p q : Grammar × Dragon) (new : Log) : Prop where
  account : Account E p q new
  enabled : ok → q.1.enabled = true
  succeed : ok → (∀ c ∈ new, c.1.unloads = true → c.2 = 0) → ∀ c ∈ new, c.2 = 0
  unloads : ok → (Alone q ↔ Alone p ∧ ∀ c ∈ new, c.1.unloads = true → c.2 = 0)
  tied : ok → Tied p.1 p.2 → Alone q → Tied q.1 q.2
  registers : (∀ c ∈ new, c.1.unloads = true → c.2 = 0) →
    (Alone q ↔ Alone p ∧ ∀ c ∈ new, c.1.registers = true → c.2 = 0)

theorem SyncAccount.refl (hp : Held p) (h : p.1.enabled = true) : SyncAccount E True p p [] :=
  ⟨.refl hp, fun _ => h, fun _ _ => nofun, fun _ => (and_iff_left nofun).symm, fun _ ht _ => ht,
    fun _ => (and_iff_left nofun).symm⟩

theorem SyncAccount.of_setErrors {ok : Prop} {g : Grammar} {d : Dragon} {es : List GrammarError}
    (h : SyncAccount E ok ({ g with errors := es }, d) q new) : SyncAccount E ok (g, d) q new :=
  ⟨h.account.of_setErrors, h.enabled, h.succeed, h.unloads,
    fun hok ht => h.tied hok (ht.setErrors es), h.registers⟩

theorem SyncAccount.of_not {ok ok' : Prop} (h : SyncAccount E ok p q new) (hno : ¬ ok') :
    SyncAccount E ok' p q new :=
  ⟨h.account, fun h' => absurd h' hno, fun h' => absurd h' hno, fun h' => absurd h' hno,
    fun h' => absurd h' hno, h.registers⟩

/-- The old blob is unloaded, if there is one, and the new one is loaded. -/
theorem loadGrammar_syncAccount {g : Grammar} {d : Dragon} (blob : List UInt8)
    (hp : Held (g, d)) : ∃ new, SyncAccount E
      ((loadGrammar E (unloadIfEnabled E g d).1 blob (unloadIfEnabled E g d).2).1 = 0) (g, d)
      (loadGrammar E (unloadIfEnabled E g d).1 blob (unloadIfEnabled E g d).2).2 new := by
  obtain ⟨new₁, a₁, k₁, e₁, h₁, t₁⟩ := unloadIfEnabled_account (E := E) hp
  generalize unloadIfEnabled E g d = u at a₁ e₁ h₁ t₁ ⊢
  obtain ⟨new₂, a₂, k₂, z₂, h₂⟩ := loadGrammar_account (E := E) blob a₁.held
  have hrecord := loadGrammar_record (E := E) u.1 blob u.2
  have t₂ : (loadGrammar E u.1 blob u.2).1 = 0 → Tied u.1 u.2 → u.1.enabled = false →
      Tied (loadGrammar E u.1 blob u.2).2.1 (loadGrammar E u.1 blob u.2).2.2 := loadGrammar_tied
  generalize loadGrammar E u.1 blob u.2 = l at a₂ z₂ h₂ hrecord t₂ ⊢
  have halone : Alone u ↔ Alone (g, d) := ⟨a₁.alone, h₁⟩
  have hunloads : (∀ c ∈ new₁ ++ new₂, c.1.unloads = true → c.2 = 0) ↔ ∀ c ∈ new₁, c.2 = 0 :=
    (forall_append_left k₂).trans (forall₂_congr fun c hc => by simp [k₁ c hc])
  refine ⟨new₁ ++ new₂, a₁.trans a₂, fun hload => ?_, fun hload hu c hc => ?_, fun hload => ?_,
    fun hload ht ha => ?_, fun hu => ?_⟩
  · rcases hrecord with ⟨h, -⟩ | ⟨-, -, -, h⟩
    · exact absurd hload h
    · exact h
  · rcases List.mem_append.1 hc with hc | hc
    · exact hunloads.1 hu c hc
    · exact (z₂ hload).1 c hc
  · rw [(z₂ hload).2, e₁, halone, hunloads]
  · have hdisabled := ((z₂ hload).2.1 ha).2
    exact t₂ hload (t₁ hdisabled ht) hdisabled
  · -- when the unload succeeds, the load starts from a record that is not enabled
    rw [h₂ (e₁.2 (hunloads.1 hu)), halone,
      forall_append_right fun c hc => Call.not_registers (k₁ c hc)]

theorem SyncAccount.contents {ok : Prop} {g : Grammar} {d : Dragon}
    (h : SyncAccount E ok p (g, d) new) (hok : ok) (shadow : GrammarState) :
    ∃ new', SyncAccount E ((syncContents E g shadow d).1.errors = []) p
      (syncContents E g shadow d) new' := by
  have hg : g.enabled = true := h.enabled hok
  obtain ⟨new', a, k, z, e, hkeep⟩ := syncContents_account (E := E) shadow h.account.held hg
  have halone : Alone (syncContents E g shadow d) ↔ Alone (g, d) := ⟨a.alone, hkeep⟩
  have hunloads : (∀ c ∈ new ++ new', c.1.unloads = true → c.2 = 0) ↔
      ∀ c ∈ new, c.1.unloads = true → c.2 = 0 := forall_append_left fun c hc => (k c hc).1
  have hregisters : (∀ c ∈ new ++ new', c.1.registers = true → c.2 = 0) ↔
      ∀ c ∈ new, c.1.registers = true → c.2 = 0 := forall_append_left fun c hc => (k c hc).2
  refine ⟨new ++ new', h.account.trans a, fun _ => e, fun he hu c hc => ?_, fun _ => ?_,
    fun _ ht ha => ?_, fun hu => ?_⟩
  · rcases List.mem_append.1 hc with hc | hc
    · exact h.succeed hok (hunloads.1 hu) c hc
    · exact z he c hc
  · rw [halone, h.unloads hok, hunloads]
  · exact (syncContents_keeps (h.tied hok ht (halone.1 ha)) h.account.held.fresh hg shadow).1.tied
  · rw [halone, h.registers (hunloads.1 hu), hregisters]

/-- What every sync of one grammar does to the handles; it goes well when it ends without errors. -/
theorem syncGrammar_account {g : Grammar} {shadow : GrammarState} {d : Dragon} (hp : Held (g, d))
    (hb : g.enabled = true ∨ g.state.blob ≠ shadow.blob) :
    ∃ new, SyncAccount E ((syncGrammar E g shadow d).1.errors = []) (g, d)
      (syncGrammar E g shadow d) new := by
  have hp' : Held ({ g with errors := [] }, d) := ⟨hp.fresh, hp.loaded⟩
  rw [syncGrammar_eq]
  dsimp only
  by_cases hreload : g.state.blob = shadow.blob
  · rw [if_neg (not_not.2 hreload)]
    have hg : g.enabled = true := hb.resolve_right (not_not.2 hreload)
    obtain ⟨new, h⟩ := (SyncAccount.refl (E := E) hp' hg).contents trivial shadow
    exact ⟨new, h.of_setErrors⟩
  · rw [if_pos hreload]
    have hrecord := loadGrammar_record (E := E)
      (unloadIfEnabled E { g with errors := [] } d).1 shadow.blob
      (unloadIfEnabled E { g with errors := [] } d).2
    obtain ⟨new, h⟩ := loadGrammar_syncAccount (E := E) shadow.blob hp'
    generalize loadGrammar E (unloadIfEnabled E { g with errors := [] } d).1 shadow.blob
      (unloadIfEnabled E { g with errors := [] } d).2 = l at h hrecord ⊢
    by_cases hload : l.1 = 0
    · rw [if_neg (not_not.2 hload)]
      obtain ⟨new', h'⟩ := h.contents hload shadow
      exact ⟨new', h'.of_setErrors⟩
    · rw [if_pos hload]
      have hno : l.2.1.errors ≠ [] := by
        rcases hrecord with ⟨-, herrors, -⟩ | ⟨hzero, -⟩
        · exact herrors
        · exact absurd hzero hload
      exact ⟨new, (h.of_not hno).of_setErrors⟩

end Draconity
