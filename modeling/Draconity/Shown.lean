import Draconity.Orphans
import Draconity.Parts
import Draconity.Renamed
import Draconity.Words

/-!
What a state shows of a name, and what a pass of a sync makes of it.

`Shown` is all that a name has: its record, what the engine holds for it, and the calls made for it.
Two of them are compared up to a correspondence of handles and keys, of which only the pairs that are
used matter (`Shown.Rel.change`).
-/

namespace Draconity

open Lib Lib.Renaming

variable {E : Env} {s s' m m' : State} {n k : CString} {shadow : GrammarState}
  {ρ σ : ℕ → ℕ → Prop} {i : ℕ} {g g' : Grammar} {d : Dragon} {p p' : Grammar × Dragon}

/-! ### What a state shows of a name -/

/-- The record of a name, what the engine holds for it, and the calls made for it. -/
structure Shown where
  record : Option Grammar
  held : Handle → Option Loaded
  calls : List GrammarCall

def State.shown (n : CString) (s : State) : Shown where
  record := s.grammars.lookup n
  held := s.dragon.heldFor n
  calls := Log.forName n s.dragon.log

inductive Shown.Uses (v : Shown) : ℕ → Prop
  | record {g : Grammar} {i : ℕ} (hg : v.record = some g) (hi : i ∈ g.ids) : Uses v i
  | held {h : Handle} {L : Loaded} (hL : v.held h = some L) : Uses v h
  | key {h : Handle} {L : Loaded} {c : ℕ × Callback} (hL : v.held h = some L)
    (hc : c ∈ L.callbacks) : Uses v c.1
  | call {c : GrammarCall} {i : ℕ} (hc : c ∈ v.calls) (hi : i ∈ c.ids) : Uses v i

/-- They are the same but for handles and keys. -/
structure Shown.Rel (ρ : ℕ → ℕ → Prop) (v v' : Shown) : Prop where
  record : Option.Rel (Grammar.Rel ρ) v.record v'.record
  held : Matches ρ (Loaded.Rel ρ) v.held v'.held
  calls : CallsRel ρ v.calls v'.calls

/-! ### Other correspondences -/

theorem Grammar.Rel.imp (hg : g.Rel ρ g') (h : ∀ a ∈ g.ids, ∀ b ∈ g'.ids, ρ a b → σ a b) :
    g.Rel σ g' where
  name := hg.name
  errors := hg.errors
  state := hg.state
  enabled := hg.enabled
  priority := hg.priority
  handle := h _ (by simp [Grammar.ids]) _ (by simp [Grammar.ids]) hg.handle
  endkey := h _ (by simp [Grammar.ids]) _ (by simp [Grammar.ids]) hg.endkey
  hypokey := h _ (by simp [Grammar.ids]) _ (by simp [Grammar.ids]) hg.hypokey
  beginkey := h _ (by simp [Grammar.ids]) _ (by simp [Grammar.ids]) hg.beginkey

theorem GrammarOp.Rel.imp {op op' : GrammarOp} (ho : op.Rel ρ op')
    (h : ∀ a ∈ op.ids, ∀ b ∈ op'.ids, ρ a b → σ a b) : op.Rel σ op' := by
  cases ho with
  | loadGrammar blob => exact .loadGrammar blob
  | register cb hh => exact .register cb (h _ (by simp [ids]) _ (by simp [ids]) hh)
  | unregister hh hk =>
    exact .unregister (h _ (by simp [ids]) _ (by simp [ids]) hh)
      (h _ (by simp [ids]) _ (by simp [ids]) hk)
  | destroy hh => exact .destroy (h _ (by simp [ids]) _ (by simp [ids]) hh)
  | activate rule hh => exact .activate rule (h _ (by simp [ids]) _ (by simp [ids]) hh)
  | deactivate rule hh => exact .deactivate rule (h _ (by simp [ids]) _ (by simp [ids]) hh)
  | setList name data hh => exact .setList name data (h _ (by simp [ids]) _ (by simp [ids]) hh)

theorem GrammarCall.Rel.imp {c c' : GrammarCall} (hc : c.Rel ρ c')
    (h : ∀ a ∈ c.ids, ∀ b ∈ c'.ids, ρ a b → σ a b) : c.Rel σ c' where
  op := hc.op.imp fun a ha b hb => h a (List.mem_append_left _ ha) b (List.mem_append_left _ hb)
  rc := hc.rc
  given := optionRel_imp_mem hc.given fun a b ha hb =>
    h a (by simp [ids, ha]) b (by simp [ids, hb])

/-- Only what is used of a correspondence matters. -/
theorem Shown.Rel.change {v v' : Shown} (h : v.Rel ρ v')
    (hσ : ∀ a b, v.Uses a → v'.Uses b → ρ a b → σ a b)
    (hρ : ∀ a b, v.Uses a ∨ v'.Uses b → σ a b → ρ a b) : v.Rel σ v' := by
  have used : ∀ {v : Shown} {a : Handle}, v.held a ≠ none → v.Uses a := by
    intro v a ha
    obtain ⟨L, hL⟩ := Option.ne_none_iff_exists'.1 ha
    exact .held hL
  constructor
  · refine optionRel_imp_mem h.record fun g g' hg hg' hrel => ?_
    exact hrel.imp fun a ha b hb => hσ a b (.record hg ha) (.record hg' hb)
  · refine h.held.change (fun a b L L' hL hL' hrel => ?_) (fun a b ha hb => hσ a b (used ha) (used hb))
      fun a b hab => hρ a b (hab.imp used used)
    refine ⟨hrel.name, hrel.blob, hrel.rules, hrel.lists, ?_⟩
    exact forall₂_imp_mem hrel.callbacks fun c hc c' hc' hcc =>
      ⟨hσ _ _ (.key hL hc) (.key hL' hc') hcc.1, hcc.2⟩
  · exact forall₂_imp_mem h.calls fun c hc c' hc' hcc =>
      hcc.imp fun a ha b hb => hσ a b (.call hc ha) (.call hc' hb)

theorem Grammar.Rel.refl (g : Grammar) : g.Rel Eq g := ⟨rfl, rfl, rfl, rfl, rfl, rfl, rfl, rfl, rfl⟩

theorem GrammarOp.Rel.refl (op : GrammarOp) : op.Rel Eq op := by
  cases op with
  | loadGrammar blob => exact .loadGrammar blob
  | register cb h => exact .register cb rfl
  | unregister h k => exact .unregister rfl rfl
  | destroy h => exact .destroy rfl
  | activate h rule => exact .activate rule rfl
  | deactivate h rule => exact .deactivate rule rfl
  | setList h name data => exact .setList name data rfl

theorem GrammarCall.Rel.refl (c : GrammarCall) : c.Rel Eq c where
  op := .refl c.op
  rc := rfl
  given := by
    cases c.given with
    | none => exact .none
    | some _ => exact .some rfl

theorem Loaded.Rel.refl (L : Loaded) : L.Rel Eq L :=
  ⟨rfl, rfl, rfl, rfl, List.forall₂_same.2 fun _ _ => ⟨rfl, rfl⟩⟩

theorem heldFor_matches (f : Handle → Option Loaded) : Matches Eq (Loaded.Rel Eq) f f := by
  refine ⟨?_, fun a _ => ⟨a, rfl⟩, fun a _ => ⟨a, rfl⟩⟩
  rintro a _ rfl
  cases f a with
  | none => exact .none
  | some L => exact .some (.refl L)

theorem Shown.Rel.refl (v : Shown) : v.Rel Eq v := by
  obtain ⟨record, held, calls⟩ := v
  refine ⟨?_, heldFor_matches held, List.forall₂_same.2 fun c _ => .refl c⟩
  cases record with
  | none => exact .none
  | some g => exact .some (.refl g)

/-- What a name shows is the same by any correspondence that keeps what is used. -/
theorem Shown.Rel.self {v : Shown} (h : ∀ i, v.Uses i → ρ i i)
    (heq : ∀ a b, v.Uses a ∨ v.Uses b → ρ a b → a = b) : v.Rel ρ v :=
  (Shown.Rel.refl v).change (fun _ _ ha _ hab => hab ▸ h _ ha) heq

theorem GrammarOp.Rel.left {op op' : GrammarOp} (ho : op.Rel ρ op') (hi : i ∈ op.ids) :
    ∃ j, ρ i j := by
  cases ho with
  | loadGrammar blob => cases hi
  | unregister hh hk =>
    rcases List.mem_cons.1 hi with rfl | hi
    · exact ⟨_, hh⟩
    · exact ⟨_, List.mem_singleton.1 hi ▸ hk⟩
  | register _ hh | destroy hh | activate _ hh | deactivate _ hh | setList _ _ hh =>
    exact ⟨_, List.mem_singleton.1 hi ▸ hh⟩

theorem GrammarCall.Rel.left {c c' : GrammarCall} (hc : c.Rel ρ c') (hi : i ∈ c.ids) :
    ∃ j, ρ i j := by
  rcases List.mem_append.1 hi with hi | hi
  · exact hc.op.left hi
  · obtain ⟨j, -, hj⟩ := optionRel_left hc.given (Option.mem_toList.1 hi)
    exact ⟨j, hj⟩

theorem Grammar.Rel.left (hg : g.Rel ρ g') (hi : i ∈ g.ids) : ∃ j, ρ i j := by
  simp only [Grammar.ids, List.mem_cons, List.not_mem_nil, or_false] at hi
  rcases hi with rfl | rfl | rfl | rfl
  · exact ⟨_, hg.handle⟩
  · exact ⟨_, hg.endkey⟩
  · exact ⟨_, hg.hypokey⟩
  · exact ⟨_, hg.beginkey⟩

theorem Shown.Rel.left {v v' : Shown} (h : v.Rel ρ v') (hi : v.Uses i) : ∃ j, ρ i j := by
  cases hi with
  | record hg hi =>
    obtain ⟨g', -, hrel⟩ := optionRel_left h.record hg
    exact hrel.left hi
  | held hL => exact h.held.left i (hL ▸ Option.some_ne_none _)
  | @key h₀ L c hL hc =>
    obtain ⟨h₁, hh⟩ := h.held.left h₀ (hL ▸ Option.some_ne_none _)
    obtain ⟨L', -, hrel⟩ := optionRel_left (h.held.rel h₀ h₁ hh) hL
    obtain ⟨c', -, hc', -⟩ := forall₂_left hrel.callbacks hc
    exact ⟨c'.1, hc'⟩
  | call hc hi =>
    obtain ⟨c', -, hrel⟩ := forall₂_left h.calls hc
    exact hrel.left hi

/-! ### Handles and keys are below the next one -/

/-- Every handle and key a state shows is below the next one. -/
structure Numbered (s : State) : Prop where
  dragon : s.dragon.Bounded
  records : ∀ n g, s.grammars.lookup n = some g → ∀ i ∈ g.ids, i < s.dragon.next

theorem Log.le_foldl_after (k : ℕ) (log : Log) : k ≤ log.foldl Log.after k := by
  induction log generalizing k with
  | nil => exact le_rfl
  | cons c log ih =>
    refine le_trans ?_ (ih _)
    unfold Log.after
    split_ifs
    · exact Nat.le_succ k
    · exact le_rfl

theorem Call.forName_eq {c : Call} {rc : Int} {k : ℕ} {gc : GrammarCall}
    (h : gc ∈ c.forName n k rc) :
    c = .grammar n gc.op ∧ gc.rc = rc ∧ gc.given = c.given k rc := by
  cases c with
  | grammar m op =>
    unfold Call.forName at h
    dsimp only at h
    split_ifs at h with hm
    · obtain rfl := List.mem_singleton.1 h
      exact ⟨hm ▸ rfl, rfl, rfl⟩
    · cases h
  | validateWord _ | addTemporaryWord _ | deleteWord _ | resume _ | mimic _ | setMicState _ => cases h

/-- A call for a name was made, and what it gave out is below the next one. -/
theorem Log.mem_forNameFrom {log : Log} {k : ℕ} {gc : GrammarCall}
    (h : gc ∈ Log.forNameFrom n k log) :
    (.grammar n gc.op, gc.rc) ∈ log ∧ ∀ i, gc.given = some i → i < log.foldl Log.after k := by
  induction log generalizing k with
  | nil => cases h
  | cons c log ih =>
    obtain ⟨c, rc⟩ := c
    rw [Log.forNameFrom] at h
    rcases List.mem_append.1 h with h | h
    · obtain ⟨rfl, rfl, hgiven⟩ := Call.forName_eq h
      refine ⟨List.mem_cons_self .., fun i hi => ?_⟩
      rw [hgiven, Call.given] at hi
      split_ifs at hi with hgives
      obtain rfl := Option.some.inj hi
      have hle := Log.le_foldl_after (k + 1) log
      rwa [List.foldl_cons, Log.after, if_pos hgives]
    · obtain ⟨hmem, hlt⟩ := ih h
      exact ⟨List.mem_cons_of_mem _ hmem, hlt⟩

theorem Numbered.uses (h : Numbered s) (hi : (s.shown n).Uses i) : i < s.dragon.next := by
  cases hi with
  | record hg hi => exact h.records n _ hg i hi
  | held hL => exact h.dragon.fresh _ _ (Dragon.heldFor_eq_some.1 hL).1
  | key hL hc => exact h.dragon.keys _ _ (Dragon.heldFor_eq_some.1 hL).1 _ hc
  | call hc hi =>
    obtain ⟨hmem, hlt⟩ := Log.mem_forNameFrom hc
    rcases List.mem_append.1 hi with hi | hi
    · exact h.dragon.log _ hmem _ hi
    · exact (hlt i (Option.mem_toList.1 hi)).trans_eq h.dragon.counted.symm

theorem numbered_init (t : UInt64) : Numbered (State.init t) where
  dragon := ⟨Nat.one_pos, rfl, Dragon.fresh_init, nofun, nofun⟩
  records _ _ h := nomatch h

theorem renames_eq : Renames Eq :=
  ⟨⟨fun _ _ _ h h' => h.trans h'.symm, fun _ _ _ h h' => h.symm.trans h'⟩, rfl⟩

theorem Sim.self (hd : d.Bounded) (hg : ∀ i ∈ g.ids, i < d.next) : Sim Eq (g, d) (g, d) where
  grammar := .refl g
  dragon := ⟨heldFor_matches _, List.forall₂_same.2 fun c _ => .refl c, fun _ => rfl, hd,
    hd.counted, hd.fresh⟩
  ids := hg

/-! ### One pass -/

/-- What a pass does to the record of its name and to the engine. -/
def passed (E : Env) (shadow : GrammarState) (p : Grammar × Dragon) : Grammar × Dragon :=
  if shadow.unload = true then unloadIfEnabled E p.1 p.2
  else if (syncGrammar E p.1 shadow p.2).1.errors = [] then syncGrammar E p.1 shadow p.2
  else unloadIfEnabled E (syncGrammar E p.1 shadow p.2).1 (syncGrammar E p.1 shadow p.2).2

/-- The record that stays after a pass. -/
def GrammarState.stays (shadow : GrammarState) (g : Grammar) : Option Grammar :=
  if shadow.unload = false ∧ g.errors = [] then some { g with errors := [] } else none

/-- What a pass issues. -/
def GrammarState.response (shadow : GrammarState) (n : CString) (g : Grammar) : Issued :=
  if shadow.unload = true ∨ g.errors = [] then
    .send (.gset n .success []) shadow.tid shadow.clientId
  else .send (.gset n .error g.errors) shadow.tid shadow.clientId

theorem unloadIfEnabled_errors (g : Grammar) (d : Dragon) :
    (unloadIfEnabled E g d).1.errors = g.errors := by
  unfold unloadIfEnabled unloadGrammar
  dsimp only
  split_ifs <;> rfl

/-- **A pass**: what becomes of the record and of the engine, and what is issued. -/
theorem syncEntry_passed (s : State) (n : CString) (shadow : GrammarState) :
    let q := passed E shadow (s.grammarFor n, s.dragon)
    (syncEntry E s ⟨n, shadow⟩).dragon = q.2 ∧
      (syncEntry E s ⟨n, shadow⟩).grammars.lookup n = shadow.stays q.1 ∧
      (syncEntry E s ⟨n, shadow⟩).issued = s.issued ++ [shadow.response n q.1] := by
  dsimp only
  unfold passed GrammarState.stays GrammarState.response
  cases hu : shadow.unload with
  | true =>
    obtain ⟨hl, hd, -⟩ := syncEntry_unload (E := E) (n := n) hu s
    refine ⟨by rw [if_pos rfl]; exact hd, by simpa using hl, ?_⟩
    simp only [syncEntry, hu, if_true, syncUnload]
    cases s.grammars.lookup n <;> simp [sendGsetResponse, State.issue, removeGrammar]
  | false =>
    rw [if_neg Bool.false_ne_true]
    by_cases he : (syncGrammar E (s.grammarFor n) shadow s.dragon).1.errors = []
    · obtain ⟨hl, hd, -⟩ := syncEntry_set hu s he
      rw [if_pos he, if_pos ⟨rfl, he⟩, if_pos (.inr he)]
      refine ⟨hd, hl, ?_⟩
      unfold State.grammarFor at he
      simp only [syncEntry, hu, syncSet, he, Bool.false_eq_true, if_false, if_true]
      rfl
    · obtain ⟨hl, hd, -⟩ := syncEntry_set_error hu s he
      have herr := unloadIfEnabled_errors (E := E) (syncGrammar E (s.grammarFor n) shadow s.dragon).1
        (syncGrammar E (s.grammarFor n) shadow s.dragon).2
      rw [if_neg he, if_neg fun h => he (herr ▸ h.2),
        if_neg fun h => he (herr ▸ h.resolve_left Bool.false_ne_true), herr]
      refine ⟨hd, hl, ?_⟩
      unfold State.grammarFor at he ⊢
      simp only [syncEntry, hu, syncSet, he, Bool.false_eq_true, if_false]
      rfl

theorem syncEntry_shown (s : State) (n : CString) (shadow : GrammarState) :
    (syncEntry E s ⟨n, shadow⟩).shown n =
      ⟨shadow.stays (passed E shadow (s.grammarFor n, s.dragon)).1,
        (passed E shadow (s.grammarFor n, s.dragon)).2.heldFor n,
        Log.forName n (passed E shadow (s.grammarFor n, s.dragon)).2.log⟩ := by
  obtain ⟨hd, hl, -⟩ := syncEntry_passed (E := E) s n shadow
  unfold State.shown
  rw [hd, hl]

theorem passed_sim (hE : E.Local) (hρ : Renames ρ) (shadow : GrammarState) (hs : Sim ρ p p') :
    Sim ρ (passed E shadow p) (passed E shadow p') := by
  have hsync : Sim ρ (syncGrammar E p.1 shadow p.2) (syncGrammar E p'.1 shadow p'.2) :=
    syncGrammar_sim hE hρ shadow hs
  unfold passed
  by_cases hu : shadow.unload = true
  · rw [if_pos hu, if_pos hu]
    exact unloadIfEnabled_sim hE hρ hs
  rw [if_neg hu, if_neg hu, hsync.grammar.errors]
  by_cases he : (syncGrammar E p.1 shadow p.2).1.errors = []
  · rw [if_pos he, if_pos he]
    exact hsync
  · rw [if_neg he, if_neg he]
    exact unloadIfEnabled_sim hE hρ hsync

theorem passed_only (shadow : GrammarState) (p : Grammar × Dragon) :
    OnlyGrammar E p (passed E shadow p) := by
  have hsync := syncGrammar_only (E := E) p.1 shadow p.2
  unfold passed
  split_ifs
  · exact unloadIfEnabled_only p.1 p.2
  · exact hsync
  · exact hsync.trans (unloadIfEnabled_only _ _)

/-- The grammar of a name has handles and keys below the next one, also when it is new. -/
theorem Numbered.grammarFor (h : Numbered s) (n : CString) :
    ∀ i ∈ (s.grammarFor n).ids, i < s.dragon.next := by
  unfold State.grammarFor
  cases hg : s.grammars.lookup n with
  | none => simpa [Grammar.ids, Grammar.new] using h.dragon.pos
  | some g => exact h.records n g hg

theorem stays_ids {i : ℕ} (h : shadow.stays g = some g') (hi : i ∈ g'.ids) : i ∈ g.ids := by
  unfold GrammarState.stays at h
  split_ifs at h
  obtain rfl := Option.some.inj h
  exact hi

theorem Numbered.syncEntry (hE : E.Local) (h : Numbered s) (n : CString) (shadow : GrammarState) :
    Numbered (syncEntry E s ⟨n, shadow⟩) := by
  obtain ⟨hd, hl, -⟩ := syncEntry_passed (E := E) s n shadow
  have hsim := passed_sim hE renames_eq shadow (Sim.self h.dragon (h.grammarFor n))
  constructor
  · rw [hd]
    exact hsim.dragon.bounded
  · intro k g hg i hi
    rw [hd]
    by_cases hk : k = n
    · subst hk
      exact hsim.ids i (stays_ids (hl.symm.trans hg) hi)
    · rw [(syncEntry_of_ne s hk).1] at hg
      exact (h.records k g hg i hi).trans_le
        (passed_only shadow (s.grammarFor n, s.dragon)).2.next_le

/-! ### In every reachable state -/

theorem Call.OffGrammar.ids {c : Call} (h : c.OffGrammar) : c.ids = [] := by
  cases c with
  | grammar n op => exact absurd rfl (h n op)
  | validateWord _ | addTemporaryWord _ | deleteWord _ | resume _ | mimic _ | setMicState _ => rfl

theorem Calls.bounded {P : Call → Prop} {d d' : Dragon} (hP : ∀ c, P c → c.ids = [])
    (h : Calls E P d d') (hd : d.Bounded) : d'.Bounded := by
  induction h with
  | refl => exact hd
  | snoc c _ hc ih => exact ih.call (by simp [hP c hc])

theorem Numbered.calls {P : Call → Prop} (hP : ∀ c, P c → c.ids = []) (h : Numbered s)
    (hg : s'.grammars = s.grammars) (hc : Calls E P s.dragon s'.dragon) : Numbered s' :=
  ⟨hc.bounded hP h.dragon, fun n g hn i hi => (h.records n g (hg ▸ hn) i hi).trans_le hc.next_le⟩

theorem Numbered.syncWords (h : Numbered s) : Numbered (syncWords E s) := by
  refine h.calls (E := E) (P := Call.OnWord) ?_ (syncWords_sameGrammars s).grammars ?_
  · rintro c ⟨w, rfl | rfl | rfl⟩ <;> rfl
  · rw [syncWords_dragon]
    exact setWords_calls (allShadowWords s) ⟨s.loadedWords, [], s.dragon⟩

theorem parts_numbered (hE : E.Local) : Parts E fun s s' => Numbered s → Numbered s' where
  trans h h' hs := h' (h hs)
  quiet hg hd hs := hs.calls (E := E) (P := fun _ => False) nofun hg (hd ▸ .refl _)
  call hc hs := hs.calls (P := Call.OffGrammar) (fun _ h => h.ids) rfl (.one _ hc _)
  sync s hs := by
    have hloop := Keyed.foldl_rel (R := fun s s' => Numbered s → Numbered s') (fun _ => id)
      (fun h h' hs => h' (h hs)) (fun s e hs => hs.syncEntry hE e.1 e.2)
      (E.grammarOrder (Draconity.syncWords E s).syncs (Draconity.syncWords E s).shadowGrammars.entries)
      (Draconity.syncWords E s) hs.syncWords
    exact ⟨hloop.dragon, hloop.records⟩

theorem numbered_of_reachable (hE : E.Local) (h : (eventLoop E).Reachable s) : Numbered s :=
  Machine.invariant (numbered_init 0) (fun s e hs _ => step_parts (parts_numbered hE) s e hs) h

end Draconity
