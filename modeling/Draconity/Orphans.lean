import Draconity.Handles
import Draconity.Sound

/-!
The handles the engine holds, over all runs of the store and for any return codes.

A live grammar always has its handle loaded.  What else the engine holds for its name are orphans:
handles that Draconity has forgotten, and that stay loaded for ever.  When unloads succeed, the only
way to leave one is a callback that is not registered.
-/

namespace Draconity

open Lib

variable {E : Env} {s s' : State} {n k : CString} {shadow : GrammarState} {new : Log}

/-- The engine holds no orphan for the name. -/
def State.Alone (s : State) (n : CString) : Prop := Draconity.Alone (s.grammarFor n, s.dragon)

/-- What holds of the handles after any history. -/
structure Accounted (s : State) : Prop where
  fresh : s.dragon.Fresh
  name : ∀ n g, s.grammars.lookup n = some g → g.name = n
  enabled : ∀ n g, s.grammars.lookup n = some g → g.enabled = true
  held : ∀ n g, s.grammars.lookup n = some g → s.dragon.nameOf g.handle = some n
  tied : ∀ n g, s.grammars.lookup n = some g → Draconity.Alone (g, s.dragon) → Tied g s.dragon

theorem accounted_init (t : UInt64) : Accounted (State.init t) where
  fresh := Dragon.fresh_init
  name _ _ h := nomatch h
  enabled _ _ h := nomatch h
  held _ _ h := nomatch h
  tied _ _ h := nomatch h

theorem Accounted.congr (hs : Accounted s) (hg : s'.grammars = s.grammars)
    (hl : s'.dragon.loaded = s.dragon.loaded) (hn : s'.dragon.next = s.dragon.next) :
    Accounted s' := by
  have hnames : s'.dragon.nameOf = s.dragon.nameOf := by
    unfold Dragon.nameOf
    rw [hl]
  refine ⟨fun h L hL => ?_, fun n g h => hs.name n g (hg ▸ h), fun n g h => hs.enabled n g (hg ▸ h),
    fun n g h => ?_, fun n g h ha => ?_⟩
  · rw [hn]
    exact hs.fresh h L (hl ▸ hL)
  · rw [hnames]
    exact hs.held n g (hg ▸ h)
  · refine (hs.tied n g (hg ▸ h) ?_).congr (Dragon.heldFor_congr hl _)
    unfold Draconity.Alone at ha ⊢
    rw [hnames] at ha
    exact ha

theorem State.Alone.congr (hg : s'.grammars = s.grammars)
    (hl : s'.dragon.loaded = s.dragon.loaded) : s'.Alone n ↔ s.Alone n := by
  unfold State.Alone Draconity.Alone State.grammarFor Dragon.nameOf
  rw [hg, hl]

/-- The live grammar of a name, or the one a sync would make. -/
theorem Accounted.grammarFor (hs : Accounted s) (n : CString) :
    (s.grammarFor n).name = n ∧ Held (s.grammarFor n, s.dragon) ∧
      (s.Alone n → Tied (s.grammarFor n) s.dragon) := by
  unfold State.Alone State.grammarFor
  cases hg : s.grammars.lookup n with
  | none =>
    refine ⟨rfl, ⟨hs.fresh, nofun⟩, fun ha => tied_new fun h => ?_⟩
    rw [Dragon.heldFor_eq_none]
    intro L hL hname
    exact absurd (ha h (Dragon.nameOf_eq_some.2 ⟨L, hL, hname⟩)).1 nofun
  | some g =>
    have hname := hs.name n g hg
    exact ⟨hname, ⟨hs.fresh, fun _ => hname.symm ▸ hs.held n g hg⟩, hs.tied n g hg⟩

/-! ### Other names -/

theorem Dragon.nameOf_iff_heldFor {d : Dragon} {h : Handle} :
    d.nameOf h = some n ↔ d.heldFor n h ≠ none := by
  rw [← Option.isSome_iff_ne_none, Option.isSome_iff_exists, Dragon.nameOf_eq_some]
  simp only [Dragon.heldFor_eq_some]

theorem alone_of_heldFor {g : Grammar} {d d' : Dragon} (h : d'.heldFor g.name = d.heldFor g.name) :
    Alone (g, d') ↔ Alone (g, d) := by
  unfold Alone
  simp only [Dragon.nameOf_iff_heldFor, h]

/-- When the record of a name is dropped, what is left alone is a record that was not enabled. -/
theorem alone_new {p : Grammar × Dragon} (hp : Held p) :
    Alone (Grammar.new p.1.name, p.2) ↔ Alone p ∧ p.1.enabled = false := by
  constructor
  · intro ha
    have none : ∀ h, ¬ p.2.nameOf h = some p.1.name := fun h hh => nomatch (ha h hh).1
    refine ⟨fun h hh => absurd hh (none h), ?_⟩
    by_contra he
    exact none _ (hp.loaded (by simpa using he))
  · rintro ⟨ha, he⟩ h hh
    exact absurd (he.symm.trans (ha h hh).1) nofun

/-! ### One pass -/

/-- What a pass for a name does to the handles. -/
structure PassAccount (E : Env) (s s' : State) (n : CString) (new : Log) : Prop where
  made : Made E n s.dragon s'.dragon new
  accounted : Accounted s'
  frame : ∀ k, k ≠ n → s'.dragon.heldFor k = s.dragon.heldFor k
  records : ∀ k, k ≠ n → s'.grammars.lookup k = s.grammars.lookup k
  alone : s'.Alone n → s.Alone n
  /-- With unloads that succeed, an orphan is left just when a callback is not registered. -/
  registers : (∀ c ∈ new, c.1.unloads = true → c.2 = 0) →
    (s'.Alone n ↔ s.Alone n ∧ ∀ c ∈ new, c.1.registers = true → c.2 = 0)

theorem Accounted.replace (hs : Accounted s) {q : Grammar × Dragon} (hd : s'.dragon = q.2)
    (ha : Account E (s.grammarFor n, s.dragon) q new)
    (frame : ∀ k, k ≠ n → s'.grammars.lookup k = s.grammars.lookup k)
    (h : ∀ g, s'.grammars.lookup n = some g → (∃ es, g = { q.1 with errors := es }) ∧
      q.1.enabled = true ∧ (Alone q → Tied q.1 q.2)) : Accounted s' := by
  obtain ⟨hname, -, -⟩ := hs.grammarFor n
  have frame' : ∀ k, k ≠ n → q.2.heldFor k = s.dragon.heldFor k := fun k hk =>
    ha.frame k (hname.symm ▸ hk)
  have all : ∀ k g, s'.grammars.lookup k = some g → g.name = k ∧ g.enabled = true ∧
      q.2.nameOf g.handle = some k ∧ (Alone (g, q.2) → Tied g q.2) := by
    intro k g hg
    by_cases hk : k = n
    · subst hk
      obtain ⟨⟨es, rfl⟩, he, ht⟩ := h g hg
      exact ⟨ha.name.trans hname, he, (ha.held.loaded he).trans (congrArg some (ha.name.trans hname)),
        fun h' => (ht h').setErrors es⟩
    · rw [frame k hk] at hg
      have hgname := hs.name k g hg
      have hheld := frame' g.name (hgname.symm ▸ hk)
      refine ⟨hgname, hs.enabled k g hg, ?_, fun h' => ?_⟩
      · rw [Dragon.nameOf_iff_heldFor, frame' k hk, ← Dragon.nameOf_iff_heldFor]
        exact hs.held k g hg
      · exact (hs.tied k g hg ((alone_of_heldFor hheld).1 h')).congr hheld
  refine ⟨hd ▸ ha.held.fresh, fun k g hg => (all k g hg).1, fun k g hg => (all k g hg).2.1,
    fun k g hg => ?_, fun k g hg => ?_⟩
  · rw [hd]
    exact (all k g hg).2.2.1
  · rw [hd]
    exact (all k g hg).2.2.2

/-- What is said of a pass that is answered with success. -/
structure SuccessAccount (s s' : State) (n : CString) (shadow : GrammarState) (new : Log) : Prop where
  succeed : (∀ c ∈ new, c.1.unloads = true → c.2 = 0) → ∀ c ∈ new, c.2 = 0
  unloads : s'.Alone n ↔ s.Alone n ∧ ∀ c ∈ new, c.1.unloads = true → c.2 = 0
  unload : shadow.unload = true → s'.grammars.lookup n = none
  set : shadow.unload = false → ∃ g, s'.grammars.lookup n = some g ∧
    g.state.activeRules = shadow.activeRules

/-- When a pass drops the record, the handle that it held is left too if it was not unloaded. -/
theorem alone_dropped {q : Grammar × Dragon} (hq : Held q) (hname : q.1.name = n)
    (hl : s'.grammars.lookup n = none) (hd : s'.dragon = q.2) :
    s'.Alone n ↔ Alone q ∧ q.1.enabled = false := by
  unfold State.Alone State.grammarFor
  rw [hl, hd, ← alone_new hq, hname]
  rfl

theorem Accounted.name_of_account (hs : Accounted s) {q : Grammar × Dragon}
    (ha : Account E (s.grammarFor n, s.dragon) q new) : q.1.name = n :=
  ha.name.trans (hs.grammarFor n).1

/-- A pass does what is done to the grammar of its name. -/
theorem Accounted.pass (hs : Accounted s) {q : Grammar × Dragon} (hd : s'.dragon = q.2)
    (ha : Account E (s.grammarFor n, s.dragon) q new)
    (records : ∀ k, k ≠ n → s'.grammars.lookup k = s.grammars.lookup k)
    (h : ∀ g, s'.grammars.lookup n = some g → (∃ es, g = { q.1 with errors := es }) ∧
      q.1.enabled = true ∧ (Alone q → Tied q.1 q.2))
    (alone : s'.Alone n → Draconity.Alone q)
    (registers : (∀ c ∈ new, c.1.unloads = true → c.2 = 0) →
      (s'.Alone n ↔ s.Alone n ∧ ∀ c ∈ new, c.1.registers = true → c.2 = 0)) :
    PassAccount E s s' n new := by
  obtain ⟨hname, -, -⟩ := hs.grammarFor n
  have hmade : Made E n s.dragon q.2 new := hname ▸ ha.made
  have hframe : ∀ k, k ≠ n → q.2.heldFor k = s.dragon.heldFor k := fun k hk =>
    ha.frame k (hname.symm ▸ hk)
  constructor
  · rw [hd]
    exact hmade
  · exact hs.replace hd ha records h
  · rw [hd]
    exact hframe
  · exact records
  · exact fun h => ha.alone (alone h)
  · exact registers

/-- What a sync sets a name by is enabled, or has another blob than the update. -/
theorem Accounted.enabledFor (hs : Accounted s) (hb : shadow.blob ≠ []) (n : CString) :
    (s.grammarFor n).enabled = true ∨ (s.grammarFor n).state.blob ≠ shadow.blob := by
  unfold State.grammarFor
  cases hg : s.grammars.lookup n with
  | none => exact .inr hb.symm
  | some g => exact .inl (hs.enabled n g hg)

theorem syncEntry_account (hs : Accounted s) (hb : shadow.unload = false → shadow.blob ≠ []) :
    ∃ new r, PassAccount E s (syncEntry E s ⟨n, shadow⟩) n new ∧
      gsetAnswers n (syncEntry E s ⟨n, shadow⟩) = gsetAnswers n s ++ [r] ∧
      r.clientId = shadow.clientId ∧ r.tid = shadow.tid ∧
      (r.status = .success → SuccessAccount s (syncEntry E s ⟨n, shadow⟩) n shadow new) := by
  have records : ∀ k, k ≠ n →
      (syncEntry E s ⟨n, shadow⟩).grammars.lookup k = s.grammars.lookup k :=
    fun k hk => (syncEntry_of_ne s hk).1
  obtain ⟨-, hheld, htied⟩ := hs.grammarFor n
  cases hu : shadow.unload with
  | true =>
    -- the record goes, whatever the engine answers
    obtain ⟨hl, hd, hans⟩ := syncEntry_unload (E := E) (n := n) hu s
    obtain ⟨new, a, k, e, h, -⟩ := unloadIfEnabled_account (E := E) hheld
    have hdropped := alone_dropped a.held (hs.name_of_account a) hl hd
    have halone : (syncEntry E s ⟨n, shadow⟩).Alone n ↔
        s.Alone n ∧ ∀ c ∈ new, c.1.unloads = true → c.2 = 0 := by
      rw [hdropped, e]
      exact and_congr ⟨a.alone, h⟩ (forall₂_congr fun c hc => by simp [k c hc])
    refine ⟨new, _, hs.pass hd a records (fun g hg => absurd (hl.symm.trans hg) nofun)
      (fun h' => (hdropped.1 h').1) (fun hu' => ?_), hans, rfl, rfl,
      fun _ => ⟨fun hu' c hc => hu' c hc (k c hc), halone, fun _ => hl, fun h' => ?_⟩⟩
    · rw [halone]
      refine and_congr_right fun _ => ⟨fun _ c hc hr => ?_, fun _ => hu'⟩
      exact absurd ((Call.not_registers (k c hc)).symm.trans hr) nofun
    · rw [hu] at h'
      cases h'
  | false =>
    obtain ⟨new, hsync⟩ := syncGrammar_account (E := E) hheld (hs.enabledFor (hb hu) n)
    by_cases he : (syncGrammar E (s.grammarFor n) shadow s.dragon).1.errors = []
    · -- no error: the record is what the pass made of it
      obtain ⟨hl, hd, hans⟩ := syncEntry_set hu s he
      have halone : (syncEntry E s ⟨n, shadow⟩).Alone n ↔
          Draconity.Alone (syncGrammar E (s.grammarFor n) shadow s.dragon) := by
        unfold State.Alone State.grammarFor
        rw [hl, hd]
        rfl
      refine ⟨new, _, hs.pass hd hsync.account records (fun g hg => ?_) halone.1
        (fun hu' => halone.trans (hsync.registers hu')), hans, rfl, rfl,
        fun _ => ⟨hsync.succeed he, halone.trans (hsync.unloads he), fun h => ?_,
          fun _ => ⟨_, hl, ?_⟩⟩⟩
      · rw [hl, Option.some.injEq] at hg
        exact ⟨⟨[], hg.symm⟩, hsync.enabled he,
          fun h => hsync.tied he (htied (hsync.account.alone h)) h⟩
      · rw [hu] at h
        cases h
      · exact (syncGrammar_of_errors_nil he).2.1
    · -- an error: what was synced is unloaded again
      obtain ⟨hl, hd, hans⟩ := syncEntry_set_error hu s he
      have a := hsync.account
      have hreg := hsync.registers
      clear hsync he
      generalize syncGrammar E (s.grammarFor n) shadow s.dragon = q at a hreg hd hans
      obtain ⟨new', a', k', e', h', -⟩ := unloadIfEnabled_account (E := E) (g := q.1) (d := q.2) a.held
      have hall := a.trans a'
      have hdropped := alone_dropped hall.held (hs.name_of_account hall) hl hd
      refine ⟨new ++ new', _, hs.pass hd hall records
        (fun g hg => absurd (hl.symm.trans hg) nofun) (fun h => (hdropped.1 h).1)
        (fun hu' => ?_), hans, rfl, rfl, nofun⟩
      have hdisabled := e'.2 fun c hc => hu' c (List.mem_append_right _ hc) (k' c hc)
      have hsame : Draconity.Alone (unloadIfEnabled E q.1 q.2) ↔ Draconity.Alone q :=
        ⟨a'.alone, h'⟩
      rw [hdropped, and_iff_left hdisabled, hsame,
        hreg fun c hc => hu' c (List.mem_append_left _ hc),
        forall_append_left fun c hc => Call.not_registers (k' c hc)]
      exact Iff.rfl

/-- Orphans of a name are a matter of its record and of what the engine holds for it. -/
theorem Accounted.alone_congr (hs : Accounted s)
    (hg : s'.grammars.lookup n = s.grammars.lookup n)
    (hd : s'.dragon.heldFor n = s.dragon.heldFor n) : s'.Alone n ↔ s.Alone n := by
  have hfor : s'.grammarFor n = s.grammarFor n := by
    unfold State.grammarFor
    rw [hg]
  unfold State.Alone
  rw [hfor]
  refine alone_of_heldFor ?_
  rw [(hs.grammarFor n).1]
  exact hd

theorem PassAccount.alone_of_ne (h : PassAccount E s s' n new) (hs : Accounted s) (hk : k ≠ n) :
    s'.Alone k ↔ s.Alone k := hs.alone_congr (h.records k hk) (h.frame k hk)

/-! ### A sync -/

def State.syncCalls (E : Env) (s : State) : Log := (syncState E s).dragon.log.drop s.dragon.log.length

theorem Calls.log {P : Call → Prop} {d d' : Dragon} (h : Calls E P d d') :
    ∃ new, d'.log = d.log ++ new ∧ ∀ c ∈ new, P c.1 := by
  induction h with
  | refl => exact ⟨[], (List.append_nil _).symm, nofun⟩
  | snoc c _ hc ih =>
    obtain ⟨new, hlog, hP⟩ := ih
    refine ⟨new ++ [_], by rw [Dragon.log_call, hlog, List.append_assoc], fun c' hc' => ?_⟩
    rcases List.mem_append.1 hc' with hc' | hc'
    · exact hP c' hc'
    · rw [List.mem_singleton.1 hc']
      exact hc

theorem handleWordFailures_log (errors : List WordError) (s : State) :
    (handleWordFailures E errors s).dragon.log = s.dragon.log :=
  Keyed.foldl_rel (f := handleClientFailures errors)
    (R := fun a b : State => b.dragon.log = a.dragon.log) (fun _ => rfl)
    (fun h h' => h'.trans h) (fun _ _ => rfl) _ s

/-- The words of a sync come first, and are no calls on grammars. -/
theorem syncWords_log (s : State) :
    ∃ new, (syncWords E s).dragon.log = s.dragon.log ++ new ∧ ∀ c ∈ new, c.1.OnWord := by
  obtain ⟨new, hlog, hP⟩ := (setWords_calls (E := E) (allShadowWords s)
    ⟨s.loadedWords, [], s.dragon⟩).log
  exact ⟨new, (handleWordFailures_log _ _).trans hlog, hP⟩

/-- The calls that unload a grammar return `0`. -/
structure Env.Unloads (E : Env) : Prop where
  unregister : ∀ log name h key, E.rc log (.grammar name (.unregister h key)) = 0
  destroy : ∀ log name h, E.rc log (.grammar name (.destroy h)) = 0

theorem Made.unloads {d d' : Dragon} (h : Made E n d d' new) (hE : E.Unloads) :
    ∀ c ∈ new, c.1.unloads = true → c.2 = 0 := by
  intro c hc hu
  obtain ⟨⟨op, hop⟩, log, hrc⟩ := h.on c hc
  rw [hop] at hu hrc
  rw [hrc]
  cases op with
  | unregister k key => exact hE.unregister ..
  | destroy k => exact hE.destroy ..
  | register cb k | loadGrammar blob | activate k r | deactivate k r | setList k n l => cases hu

/-- A callback is not registered in a sync. -/
def RegisterFails (E : Env) (s : State) : Op → Prop
  | .sync => ∃ c ∈ s.syncCalls E, c.1.registers = true ∧ c.2 ≠ 0
  | _ => False

/-- **What a sync does to the orphans** when unloads succeed: it leaves one just when a callback is
not registered. -/
theorem syncState_orphans (hE : E.Unloads) (hs : Accounted s) (hb : PendingBlobs s) :
    (∀ n, (syncState E s).Alone n) ↔ (∀ n, s.Alone n) ∧ ¬ RegisterFails E s .sync := by
  have hw := syncWords_sameGrammars (E := E) s
  obtain ⟨words, hwords, honWord⟩ := syncWords_log (E := E) s
  -- the sync so far has left an orphan just if one of its calls could not register a callback
  let I : State → Prop := fun s' => Accounted s' ∧ ∃ new, s'.dragon.log = s.dragon.log ++ new ∧
    ((∀ n, s'.Alone n) ↔ (∀ n, s.Alone n) ∧ ∀ c ∈ new, c.1.registers = true → c.2 = 0)
  have hstart : I (syncWords E s) := by
    refine ⟨hs.congr hw.grammars hw.loaded hw.next, words, hwords, ?_⟩
    rw [and_iff_left]
    · exact forall_congr' fun n => State.Alone.congr hw.grammars hw.loaded
    · intro c hc hr
      obtain ⟨w, h | h | h⟩ := honWord c hc <;> (rw [h] at hr; cases hr)
  have hpass : ∀ m n sh, s.shadowGrammars.lookup n = some sh → I m → I (syncEntry E m ⟨n, sh⟩) := by
    rintro m n sh hpend ⟨hacc, new, hlog, halone⟩
    obtain ⟨new', -, hpass, -⟩ := syncEntry_account (E := E) (n := n) hacc (hb n sh hpend)
    refine ⟨hpass.accounted, new ++ new', by rw [hpass.made.log, hlog, List.append_assoc], ?_⟩
    have hn := hpass.registers (hpass.made.unloads hE)
    calc (∀ k, (syncEntry E m ⟨n, sh⟩).Alone k)
        ↔ (∀ k, m.Alone k) ∧ ∀ c ∈ new', c.1.registers = true → c.2 = 0 := by
          constructor
          · intro h
            refine ⟨fun k => ?_, (hn.1 (h n)).2⟩
            by_cases hk : k = n
            · exact hk ▸ (hn.1 (h n)).1
            · exact (hpass.alone_of_ne hacc hk).1 (h k)
          · rintro ⟨h, hr⟩ k
            by_cases hk : k = n
            · exact hk ▸ hn.2 ⟨h n, hr⟩
            · exact (hpass.alone_of_ne hacc hk).2 (h k)
      _ ↔ (∀ k, s.Alone k) ∧ ∀ c ∈ new ++ new', c.1.registers = true → c.2 = 0 := by
          rw [halone, and_assoc]
          simp only [List.mem_append, or_imp, forall_and]
  obtain ⟨m, ⟨-, new, hlog, halone⟩, heq⟩ := syncState_keeps (E := E) hstart hpass
  have hcalls : s.syncCalls E = new := by
    unfold State.syncCalls
    rw [heq]
    show m.dragon.log.drop _ = new
    rw [hlog]
    exact List.drop_left
  unfold RegisterFails
  rw [hcalls]
  simp only [not_exists, not_and, not_not]
  rw [← halone, heq]
  exact forall_congr' fun n => State.Alone.congr rfl rfl

/-! ### Over all runs -/

theorem Op.live_of_ne {op : Op} (ho : op.Enabled s) (hne : op ≠ .sync) :
    (op.apply E s).grammars = s.grammars ∧ (op.apply E s).dragon.loaded = s.dragon.loaded ∧
      (op.apply E s).dragon.next = s.dragon.next := by
  cases op with
  | setGrammar n shadow =>
    obtain ⟨hg, hd, -⟩ := setShadowGrammar_live n shadow s
    exact ⟨hg, congrArg Dragon.loaded hd, congrArg Dragon.next hd⟩
  | setWords c tid ws =>
    have h := setShadowWords_sameGrammars c tid ws s
    exact ⟨h.grammars, h.loaded, h.next⟩
  | disconnect c stack => exact ⟨rfl, rfl, rfl⟩
  | sync => exact absurd rfl hne
  | other s' => exact ⟨ho.grammars, ho.loaded, ho.next⟩

/-- Every operation keeps the account, whatever its calls return. -/
theorem accounted_step (hs : Accounted s) (hb : PendingBlobs s) {op : Op} (ho : op.Enabled s) :
    Accounted (op.apply E s) := by
  by_cases hsync : op = .sync
  · subst hsync
    obtain ⟨m, hm, heq⟩ := syncState_keeps (E := E)
      (hs.congr (syncWords_sameGrammars s).grammars (syncWords_sameGrammars s).loaded
        (syncWords_sameGrammars s).next)
      fun m n sh hn hm => by
        obtain ⟨new, -, hpass, -⟩ := syncEntry_account (E := E) (n := n) hm (hb n sh hn)
        exact hpass.accounted
    show Accounted (syncState E s)
    rw [heq]
    exact hm.congr rfl rfl rfl
  · obtain ⟨hg, hl, hn⟩ := Op.live_of_ne (E := E) ho hsync
    exact hs.congr hg hl hn

theorem accounted_of_reachable (h : (store E).Reachable s) : Accounted s :=
  (Machine.invariant (I := fun s => Accounted s ∧ PendingBlobs s)
    ⟨accounted_init 0, pendingBlobs_init 0⟩
    (fun _ _ hs ho => ⟨accounted_step hs.1 hs.2 ho, pendingBlobs_step hs.2 ho⟩) h).1

theorem orphans_step (hE : E.Unloads) (hs : Accounted s) (hb : PendingBlobs s) {op : Op}
    (ho : op.Enabled s) :
    (∀ n, (op.apply E s).Alone n) ↔ (∀ n, s.Alone n) ∧ ¬ RegisterFails E s op := by
  by_cases hsync : op = .sync
  · subst hsync
    exact syncState_orphans hE hs hb
  · obtain ⟨hg, hl, -⟩ := Op.live_of_ne (E := E) ho hsync
    have hno : ¬ RegisterFails E s op := by
      cases op with
      | sync => exact absurd rfl hsync
      | setGrammar n shadow | setWords c tid ws | disconnect c stack | other s' => exact id
    rw [and_iff_left hno]
    exact forall_congr' fun n => State.Alone.congr hg hl

/-- The handles that are loaded are those of the live grammars, one each, with its callbacks. -/
structure NothingLeft (s : State) : Prop where
  loaded : ∀ h, (s.dragon.loaded.lookup h).isSome ↔
    ∃ n g, s.grammars.lookup n = some g ∧ g.handle = h
  one : ∀ n m g g', s.grammars.lookup n = some g → s.grammars.lookup m = some g' →
    g.handle = g'.handle → n = m
  callbacks : ∀ n g, s.grammars.lookup n = some g → ∃ L, s.dragon.loaded.lookup g.handle = some L ∧
    L.callbacks = [(g.endkey, .endPhrase), (g.hypokey, .phraseHypothesis),
      (g.beginkey, .beginPhrase)]

theorem Accounted.alone_iff (hs : Accounted s) : NothingLeft s ↔ ∀ n, s.Alone n := by
  constructor
  · intro h n k hk
    obtain ⟨hname, -, -⟩ := hs.grammarFor n
    rw [hname] at hk
    obtain ⟨L, hL, -⟩ := Dragon.nameOf_eq_some.1 hk
    obtain ⟨m, g, hg, rfl⟩ := (h.loaded k).1 (by rw [hL]; rfl)
    have hm := hs.held m g hg
    rw [hk, Option.some.injEq] at hm
    subst hm
    rw [State.grammarFor_of_lookup hg]
    exact ⟨hs.enabled n g hg, rfl⟩
  · intro h
    refine ⟨fun k => ⟨fun hk => ?_, ?_⟩, fun n m g g' hg hg' heq => ?_, fun n g hg => ?_⟩
    · obtain ⟨L, hL⟩ := Option.isSome_iff_exists.1 hk
      have hname := (hs.grammarFor L.name).1
      obtain ⟨he, rfl⟩ := h L.name k (hname.symm ▸ Dragon.nameOf_eq_some.2 ⟨L, hL, rfl⟩)
      cases hg : s.grammars.lookup L.name with
      | none =>
        unfold State.grammarFor at he
        rw [hg] at he
        cases he
      | some g => exact ⟨L.name, g, hg, by rw [State.grammarFor_of_lookup hg]⟩
    · rintro ⟨n, g, hg, rfl⟩
      obtain ⟨L, hL, -⟩ := Dragon.nameOf_eq_some.1 (hs.held n g hg)
      rw [hL]
      rfl
    · have hn := hs.held n g hg
      rw [heq, hs.held m g' hg', Option.some.injEq] at hn
      exact hn.symm
    · have ht := (hs.grammarFor n).2.2 (h n)
      rw [State.grammarFor_of_lookup hg] at ht
      obtain ⟨L, hL, hm⟩ := ht.live (hs.enabled n g hg)
      exact ⟨L, hL, hm.callbacks⟩

/-- **When a load leaves nothing behind.**  With unloads that succeed and any other return codes:
after any history of updates, disconnects and syncs, the loaded handles are those of the live
grammars, one each and with its three callbacks, if and only if in no sync a callback was not
registered. -/
theorem nothingLeft_iff (hE : E.Unloads) {ops : List Op}
    (hr : (store E).Run (store E).start ops) :
    NothingLeft ((store E).exec (store E).start ops) ↔
      ¬ (store E).Occurs (RegisterFails E) (store E).start ops := by
  have hgood := hr.good_iff (I := fun s => Accounted s ∧ PendingBlobs s)
    (G := fun s => ∀ n, s.Alone n)
    (fun _ _ hs ho => ⟨⟨accounted_step hs.1 hs.2 ho, pendingBlobs_step hs.2 ho⟩,
      orphans_step hE hs.1 hs.2 ho⟩) ⟨accounted_init 0, pendingBlobs_init 0⟩
  rw [(accounted_of_reachable hr.reachable).alone_iff, hgood]
  exact and_iff_right fun n h hh => nomatch hh

def Env.deaf : Env := { Env.obliging with rc := fun _ c => if c.registers then 1 else 0 }

/-- A first `g.set` and a sync. -/
def firstLoad : List Op := [.setGrammar (.lit "g") ⟨[1], ∅, ∅, false, 0, 1⟩, .sync]

/-- The grammar whose callback was not registered stays loaded. -/
theorem nothingLeft_fails : ¬ ∀ E : Env, E.Unloads → ∀ ops, (store E).Run (store E).start ops →
    NothingLeft ((store E).exec (store E).start ops) := by
  intro h
  have hleft := h .deaf ⟨fun _ _ _ _ => rfl, fun _ _ _ => rfl⟩ firstLoad
    ⟨fun _ => List.cons_ne_nil _ _, trivial, trivial⟩
  obtain ⟨n, g, hg, -⟩ := (hleft.loaded 1).1 (by decide)
  have hnone : ((store .deaf).exec (store .deaf).start firstLoad).grammars.entries = [] := by decide
  have hmem := AList.mem_lookup_iff.1 hg
  rw [hnone] at hmem
  cases hmem

theorem nothingLeft_iff_obliging :
    NothingLeft ((store .obliging).exec (store .obliging).start firstLoad) := by
  have hr : (store .obliging).Run (store .obliging).start firstLoad :=
    ⟨fun _ => List.cons_ne_nil _ _, trivial, trivial⟩
  refine (nothingLeft_iff ⟨fun _ _ _ _ => rfl, fun _ _ _ => rfl⟩ hr).2 ?_
  rintro (h | h | h)
  · exact h
  · obtain ⟨c, hc, -, hne⟩ := h
    revert c
    decide
  · exact h

end Draconity
