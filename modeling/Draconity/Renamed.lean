import Draconity.Lib.Renaming
import Draconity.Calls
import Draconity.Tied

/-!
Two runs of the functions that sync a grammar, on engines that give out other handles and keys.

A call is told which handle it is for, and the handles a name gets depend on what else is loaded.
An engine that knows a grammar by its name and by the calls made for it does the same in both runs,
up to the identity of the handles and keys.
-/

namespace Draconity

open Lib Lib.Renaming

/-! ### Handles and keys -/

def GrammarOp.ids : GrammarOp → List ℕ
  | .loadGrammar _ => []
  | .register _ h | .destroy h | .activate h _ | .deactivate h _ | .setList h _ _ => [h]
  | .unregister h key => [h, key]

def Call.ids : Call → List ℕ
  | .grammar _ op => op.ids
  | _ => []

def Grammar.ids (g : Grammar) : List ℕ := [g.handle, g.endkey, g.hypokey, g.beginkey]

/-- A correspondence of handles and keys, where null is null. -/
structure Renames (ρ : ℕ → ℕ → Prop) : Prop where
  biUnique : Relator.BiUnique ρ
  null : ρ 0 0

/-- Calls that differ in their handles and keys only. -/
inductive GrammarOp.Rel (ρ : ℕ → ℕ → Prop) : GrammarOp → GrammarOp → Prop
  | loadGrammar (blob : List UInt8) : Rel ρ (.loadGrammar blob) (.loadGrammar blob)
  | register (cb : Callback) {h h' : Handle} (hh : ρ h h') :
    Rel ρ (.register cb h) (.register cb h')
  | unregister {h h' : Handle} {k k' : ℕ} (hh : ρ h h') (hk : ρ k k') :
    Rel ρ (.unregister h k) (.unregister h' k')
  | destroy {h h' : Handle} (hh : ρ h h') : Rel ρ (.destroy h) (.destroy h')
  | activate (rule : CString) {h h' : Handle} (hh : ρ h h') :
    Rel ρ (.activate h rule) (.activate h' rule)
  | deactivate (rule : CString) {h h' : Handle} (hh : ρ h h') :
    Rel ρ (.deactivate h rule) (.deactivate h' rule)
  | setList (name : CString) (data : List CString) {h h' : Handle} (hh : ρ h h') :
    Rel ρ (.setList h name data) (.setList h' name data)

def Call.gives (rc : Int) : Call → Bool
  | .grammar _ (.loadGrammar _) | .grammar _ (.register _ _) => rc = 0
  | _ => false

/-- What a call gave out when `k` was the next handle or key. -/
def Call.given (k : ℕ) (c : Call) (rc : Int) : Option ℕ := if c.gives rc then some k else none

def Log.after (k : ℕ) (c : Call × Int) : ℕ := if c.1.gives c.2 then k + 1 else k

def Log.next (log : Log) : ℕ := log.foldl Log.after 1

/-- A call on a grammar, what it returned and what it gave out. -/
structure GrammarCall where
  op : GrammarOp
  rc : Int
  given : Option ℕ

def GrammarCall.ids (c : GrammarCall) : List ℕ := c.op.ids ++ c.given.toList

/-- A call, if it is for the grammar of the name; `k` is the next handle or key before it. -/
def Call.forName (n : CString) (k : ℕ) (c : Call) (rc : Int) : List GrammarCall :=
  match c with
  | .grammar m op => if m = n then [⟨op, rc, c.given k rc⟩] else []
  | _ => []

/-- The calls for the grammar of a name; `k` is the next handle or key before them. -/
def Log.forNameFrom (n : CString) : ℕ → Log → List GrammarCall
  | _, [] => []
  | k, c :: log => c.1.forName n k c.2 ++ forNameFrom n (after k c) log

def Log.forName (n : CString) (log : Log) : List GrammarCall := log.forNameFrom n 1

structure GrammarCall.Rel (ρ : ℕ → ℕ → Prop) (c c' : GrammarCall) : Prop where
  op : c.op.Rel ρ c'.op
  rc : c'.rc = c.rc
  given : Option.Rel ρ c.given c'.given

/-- Logs whose calls differ in their handles and keys only. -/
def CallsRel (ρ : ℕ → ℕ → Prop) : List GrammarCall → List GrammarCall → Prop :=
  List.Forall₂ (GrammarCall.Rel ρ)

/-- What a call on a grammar returns depends on its name and on the calls made for that name, where
handles and keys stand for what they were given out for.  The order of the lists of a grammar is up
to the lists. -/
structure Env.Local (E : Env) : Prop where
  rc : ∀ (n : CString) (ρ : ℕ → ℕ → Prop), Renames ρ → ∀ log log' op op',
    CallsRel ρ (Log.forName n log) (Log.forName n log') → op.Rel ρ op' →
      E.rc log (.grammar n op) = E.rc log' (.grammar n op')
  listOrder : ∀ log log' l, E.listOrder log l = E.listOrder log' l

/-- Records that differ in their handles and keys only. -/
structure Grammar.Rel (ρ : ℕ → ℕ → Prop) (g g' : Grammar) : Prop where
  name : g'.name = g.name
  errors : g'.errors = g.errors
  state : g'.state = g.state
  enabled : g'.enabled = g.enabled
  priority : g'.priority = g.priority
  handle : ρ g.handle g'.handle
  endkey : ρ g.endkey g'.endkey
  hypokey : ρ g.hypokey g'.hypokey
  beginkey : ρ g.beginkey g'.beginkey

/-- Grammars of the engine that differ in the keys of their callbacks only. -/
structure Loaded.Rel (ρ : ℕ → ℕ → Prop) (L L' : Loaded) : Prop where
  name : L'.name = L.name
  blob : L'.blob = L.blob
  rules : L'.rules = L.rules
  lists : L'.lists = L.lists
  callbacks : List.Forall₂ (fun c c' => ρ c.1 c'.1 ∧ c'.2 = c.2) L.callbacks L'.callbacks

/-- The next handle or key is the one after the calls that were made. -/
def Dragon.Counted (d : Dragon) : Prop := d.next = Log.next d.log

/-- Every handle and key the engine has given out or been told is below the next one. -/
structure Dragon.Bounded (d : Dragon) : Prop where
  pos : 0 < d.next
  counted : d.Counted
  fresh : d.Fresh
  log : ∀ c ∈ d.log, ∀ i ∈ c.1.ids, i < d.next
  keys : ∀ h L, d.loaded.lookup h = some L → ∀ c ∈ L.callbacks, c.1 < d.next

/-- For a name, the engines differ in handles and keys only. -/
structure Dragon.Rel (ρ : ℕ → ℕ → Prop) (n : CString) (d d' : Dragon) : Prop where
  held : Matches ρ (Loaded.Rel ρ) (d.heldFor n) (d'.heldFor n)
  calls : CallsRel ρ (Log.forName n d.log) (Log.forName n d'.log)
  next : ∀ i, ρ (d.next + i) (d'.next + i)
  bounded : d.Bounded
  counted : d'.Counted
  fresh : d'.Fresh

/-- The records and, for their name, the engines differ in handles and keys only. -/
structure Sim (ρ : ℕ → ℕ → Prop) (p p' : Grammar × Dragon) : Prop where
  grammar : p.1.Rel ρ p'.1
  dragon : p.2.Rel ρ p.1.name p'.2
  ids : ∀ i ∈ p.1.ids, i < p.2.next

variable {E : Env} {ρ : ℕ → ℕ → Prop} {n n' : CString} {d d' : Dragon} {op op' : GrammarOp}
  {g g' : Grammar} {p p' : Grammar × Dragon} {h h' : Handle} {k k' : ℕ} {c : Call}

/-! ### One call -/

theorem Dragon.next_call_after (d : Dragon) (c : Call) :
    (d.call E c).2.next = Log.after d.next (c, (d.call E c).1) := by
  rw [Dragon.next_call]
  unfold Log.after
  cases c with
  | grammar m op =>
    cases op with
    | loadGrammar _ | register _ _ =>
      simp only [Call.gives, decide_eq_true_eq]
      rfl
    | unregister _ _ | destroy _ | activate _ _ | deactivate _ _ | setList _ _ _ =>
      exact ite_self _
  | validateWord _ | addTemporaryWord _ | deleteWord _ | resume _ | mimic _ | setMicState _ =>
    exact ite_self _

theorem Log.next_snoc (log : Log) (c : Call × Int) :
    Log.next (log ++ [c]) = Log.after (Log.next log) c := by
  unfold Log.next
  rw [List.foldl_append]
  rfl

theorem Dragon.Counted.call (hd : d.Counted) (c : Call) : (d.call E c).2.Counted := by
  unfold Dragon.Counted
  rw [Dragon.next_call_after, Dragon.log_call, Log.next_snoc, hd]

theorem Dragon.Bounded.call (hd : d.Bounded) (hc : ∀ i ∈ c.ids, i < d.next) :
    (d.call E c).2.Bounded := by
  have hle := d.next_le_call (E := E) c
  refine ⟨hd.pos.trans_le hle, hd.counted.call c, hd.fresh.call c, fun c' hc' i hi => ?_,
    fun h L hL k hk => ?_⟩
  · -- the new call names nothing but what was given out before it
    rw [Dragon.log_call] at hc'
    rcases List.mem_append.1 hc' with hc' | hc'
    · exact (hd.log c' hc' i hi).trans_le hle
    · rw [List.mem_singleton.1 hc'] at hi
      exact (hc i hi).trans_le hle
  · rw [Dragon.loaded_call] at hL
    rw [Dragon.next_call]
    by_cases h0 : (d.call E c).1 = 0
    · rw [if_pos h0] at hL ⊢
      -- a change of one grammar that brings no key from `N` on
      have hupdate : ∀ {k' : Handle} {u : Loaded → Loaded} {N : ℕ},
          (∀ L, ∀ k ∈ (u L).callbacks, k ∈ L.callbacks ∨ k.1 < N) → d.next ≤ N →
          (d.update k' fun L => some (u L)).loaded.lookup h = some L → k.1 < N := by
        intro k' u N hu hN hL
        rw [Dragon.lookup_update] at hL
        split_ifs at hL with hh
        · obtain ⟨L', hL', hu'⟩ := Option.bind_eq_some_iff.1 hL
          obtain rfl := Option.some.inj hu'
          exact (hu L' k hk).elim (fun hk => (hd.keys _ L' hL' k hk).trans_le hN) id
        · exact (hd.keys h L hL k hk).trans_le hN
      cases c with
      | grammar m op =>
        cases op with
        | loadGrammar blob =>
          simp only [Dragon.effect, Dragon.grammarEffect, Keyed.lookup_insert_eq] at hL ⊢
          split_ifs at hL
          · obtain rfl := Option.some.inj hL
            cases hk
          · exact Nat.lt_succ_of_lt (hd.keys h L hL k hk)
        | register cb k' =>
          refine hupdate (N := d.next + 1) (fun L k hk => ?_) (Nat.le_succ _) hL
          rcases List.mem_append.1 hk with hk | hk
          · exact .inl hk
          · rw [List.mem_singleton.1 hk]
            exact .inr (Nat.lt_succ_self _)
        | unregister k' key =>
          exact hupdate (fun L k hk => .inl (List.mem_filter.1 hk).1) le_rfl hL
        | activate k' rule =>
          exact hupdate (u := fun L => { L with rules := L.rules.insert rule })
            (fun L k hk => .inl hk) le_rfl hL
        | deactivate k' rule =>
          exact hupdate (u := fun L => { L with rules := L.rules.erase rule })
            (fun L k hk => .inl hk) le_rfl hL
        | setList k' name data =>
          exact hupdate (u := fun L => { L with lists := L.lists.insert name data })
            (fun L k hk => .inl hk) le_rfl hL
        | destroy k' =>
          simp only [Dragon.effect, Dragon.grammarEffect, Dragon.lookup_update] at hL
          split_ifs at hL
          · obtain ⟨_, -, hnone⟩ := Option.bind_eq_some_iff.1 hL
            cases hnone
          · exact hd.keys h L hL k hk
      | validateWord _ | addTemporaryWord _ | deleteWord _ | resume _ | mimic _ | setMicState _ =>
        exact hd.keys h L hL k hk
    · rw [if_neg h0] at hL ⊢
      exact hd.keys h L hL k hk

theorem Dragon.heldFor_update (d : Dragon) (h : Handle) {u : Loaded → Option Loaded}
    (hu : ∀ L L', u L = some L' → L'.name = L.name) (n : CString) :
    (d.update h u).heldFor n = Function.update (d.heldFor n) h ((d.heldFor n h).bind u) := by
  funext k
  unfold Dragon.heldFor
  rw [Dragon.lookup_update]
  by_cases hk : k = h
  · subst hk
    rw [if_pos rfl, Function.update_self]
    cases d.loaded.lookup k with
    | none => rfl
    | some L =>
      rw [Option.bind_some]
      by_cases hn : L.name = n
      · rw [Option.filter_some_pos (by simpa using hn), Option.bind_some]
        cases hL : u L with
        | none => rfl
        | some L' => exact Option.filter_some_pos (by simpa using (hu L L' hL).trans hn)
      · rw [Option.filter_some_neg (by simpa using hn), Option.bind_none]
        cases hL : u L with
        | none => rfl
        | some L' =>
          exact Option.filter_some_neg (by simpa using fun h => hn ((hu L L' hL).symm.trans h))
  · rw [if_neg hk, Function.update_of_ne hk]

theorem Dragon.heldFor_insert (d : Dragon) (L : Loaded) (k : ℕ) :
    ({ d with loaded := d.loaded.insert d.next L, next := k } : Dragon).heldFor L.name =
      Function.update (d.heldFor L.name) d.next (some L) := by
  funext h
  unfold Dragon.heldFor
  dsimp only
  rw [Keyed.lookup_insert_eq]
  by_cases hh : h = d.next
  · subst hh
    rw [if_pos rfl, Function.update_self]
    simp
  · rw [if_neg hh, Function.update_of_ne hh]

theorem Log.forNameFrom_append (n : CString) (k : ℕ) (log log' : Log) :
    Log.forNameFrom n k (log ++ log') =
      Log.forNameFrom n k log ++ Log.forNameFrom n (log.foldl Log.after k) log' := by
  induction log generalizing k with
  | nil => rfl
  | cons c log ih =>
    rw [List.cons_append, Log.forNameFrom, Log.forNameFrom, ih, List.append_assoc, List.foldl_cons]

theorem Log.forName_snoc (log : Log) (n : CString) (op : GrammarOp) (rc : Int) :
    Log.forName n (log ++ [(.grammar n op, rc)]) =
      Log.forName n log ++ [⟨op, rc, Call.given (Log.next log) (.grammar n op) rc⟩] := by
  unfold Log.forName Log.next
  rw [Log.forNameFrom_append]
  simp [Log.forNameFrom, Call.forName]

/-- Like calls are given like handles and keys. -/
theorem GrammarOp.Rel.given (hop : op.Rel ρ op') (hk : ρ k k') (n : CString) (rc : Int) :
    Option.Rel ρ (Call.given k (.grammar n op) rc) (Call.given k' (.grammar n op') rc) := by
  have hgives : Call.gives rc (.grammar n op') = Call.gives rc (.grammar n op) := by
    cases hop <;> rfl
  unfold Call.given
  rw [hgives]
  split_ifs
  · exact .some hk
  · exact .none

/-- What a successful call does to the engine, in both runs. -/
theorem Dragon.Rel.effect (hρ : Renames ρ) (hd : d.Rel ρ n d') (hop : op.Rel ρ op') :
    Matches ρ (Loaded.Rel ρ) ((d.grammarEffect n op).heldFor n)
        ((d'.grammarEffect n op').heldFor n) ∧
      ∃ i, (d.grammarEffect n op).next = d.next + i ∧
        (d'.grammarEffect n op').next = d'.next + i := by
  have hupdate : ∀ {h h' : Handle} (u u' : Loaded → Loaded), ρ h h' →
      (∀ L, (u L).name = L.name) → (∀ L, (u' L).name = L.name) →
      (∀ L L', L.Rel ρ L' → (u L).Rel ρ (u' L')) →
      Matches ρ (Loaded.Rel ρ) ((d.update h fun L => some (u L)).heldFor n)
        ((d'.update h' fun L => some (u' L)).heldFor n) := by
    intro h h' u u' hh hu hu' hrel
    rw [Dragon.heldFor_update d h (by rintro L _ ⟨⟩; exact hu L),
      Dragon.heldFor_update d' h' (by rintro L _ ⟨⟩; exact hu' L)]
    exact hd.held.update hρ.biUnique hh
      (rel_bind (hd.held.rel h h' hh) fun L L' hL => .some (hrel L L' hL))
  cases hop with
  | loadGrammar blob =>
    refine ⟨?_, 1, rfl, rfl⟩
    have hL := d.heldFor_insert ⟨n, blob, ∅, ∅, []⟩ (d.next + 1)
    have hL' := d'.heldFor_insert ⟨n, blob, ∅, ∅, []⟩ (d'.next + 1)
    exact hL ▸ hL' ▸ hd.held.update hρ.biUnique (hd.next 0) (.some ⟨rfl, rfl, rfl, rfl, .nil⟩)
  | register cb hh =>
    refine ⟨?_, 1, rfl, rfl⟩
    exact hupdate (fun L => { L with callbacks := L.callbacks ++ [(d.next, cb)] })
      (fun L => { L with callbacks := L.callbacks ++ [(d'.next, cb)] }) hh (fun _ => rfl)
      (fun _ => rfl) fun L L' hL => ⟨hL.name, hL.blob, hL.rules, hL.lists,
        List.rel_append hL.callbacks (.cons ⟨hd.next 0, rfl⟩ .nil)⟩
  | unregister hh hk =>
    rename_i k k'
    refine ⟨?_, 0, rfl, rfl⟩
    exact hupdate (fun L => { L with callbacks := L.callbacks.filter fun c => c.1 ≠ k })
      (fun L => { L with callbacks := L.callbacks.filter fun c => c.1 ≠ k' }) hh
      (fun _ => rfl) (fun _ => rfl) fun L L' hL => ⟨hL.name, hL.blob, hL.rules, hL.lists,
        List.rel_filter (fun c c' hc => by simpa using (Relator.rel_eq hρ.biUnique hc.1 hk).not)
          hL.callbacks⟩
  | destroy hh =>
    refine ⟨?_, 0, rfl, rfl⟩
    rename_i h h'
    have hnone : ∀ L L' : Loaded, (none : Option Loaded) = some L' → L'.name = L.name := nofun
    exact (d.heldFor_update h hnone n) ▸ (d'.heldFor_update h' hnone n) ▸
      hd.held.update hρ.biUnique hh (rel_bind (hd.held.rel h h' hh) fun _ _ _ => .none)
  | activate rule hh =>
    refine ⟨?_, 0, rfl, rfl⟩
    exact hupdate (fun L => { L with rules := L.rules.insert rule })
      (fun L => { L with rules := L.rules.insert rule }) hh (fun _ => rfl) (fun _ => rfl)
      fun L L' hL =>
        ⟨hL.name, hL.blob, congrArg (OrdSet.insert rule) hL.rules, hL.lists, hL.callbacks⟩
  | deactivate rule hh =>
    refine ⟨?_, 0, rfl, rfl⟩
    exact hupdate (fun L => { L with rules := L.rules.erase rule })
      (fun L => { L with rules := L.rules.erase rule }) hh (fun _ => rfl) (fun _ => rfl)
      fun L L' hL =>
        ⟨hL.name, hL.blob, congrArg (OrdSet.erase rule) hL.rules, hL.lists, hL.callbacks⟩
  | setList name data hh =>
    refine ⟨?_, 0, rfl, rfl⟩
    exact hupdate (fun L => { L with lists := L.lists.insert name data })
      (fun L => { L with lists := L.lists.insert name data }) hh (fun _ => rfl) (fun _ => rfl)
      fun L L' hL => ⟨hL.name, hL.blob, hL.rules, congrArg (AList.insert name data) hL.lists,
        hL.callbacks⟩

/-- **One call in both runs**: the same return code, and engines that differ as before. -/
theorem Dragon.Rel.call (hE : E.Local) (hρ : Renames ρ) (hd : d.Rel ρ n d')
    (hop : op.Rel ρ op') (hids : ∀ i ∈ op.ids, i < d.next) :
    (d'.call E (.grammar n op')).1 = (d.call E (.grammar n op)).1 ∧
      (d.call E (.grammar n op)).2.Rel ρ n (d'.call E (.grammar n op')).2 := by
  have hrc : (d'.call E (.grammar n op')).1 = (d.call E (.grammar n op)).1 :=
    (hE.rc n ρ hρ _ _ _ _ hd.calls hop).symm
  have hheld : ∀ (d : Dragon) (op : GrammarOp), (d.call E (.grammar n op)).2.heldFor n =
      if (d.call E (.grammar n op)).1 = 0 then (d.grammarEffect n op).heldFor n
      else d.heldFor n := by
    intro d op
    unfold Dragon.heldFor
    rw [Dragon.loaded_call]
    split_ifs <;> rfl
  obtain ⟨heffect, i, hnext, hnext'⟩ := hd.effect hρ hop
  refine ⟨hrc, ?_, ?_, fun j => ?_, hd.bounded.call hids, hd.counted.call _, hd.fresh.call _⟩
  · rw [hheld, hheld, hrc]
    split_ifs
    · exact heffect
    · exact hd.held
  · have hgiven := hop.given (hd.next 0) n (d.call E (.grammar n op)).1
    rw [Nat.add_zero, Nat.add_zero, hd.bounded.counted, hd.counted] at hgiven
    rw [Dragon.log_call, Dragon.log_call, Log.forName_snoc, Log.forName_snoc, hrc]
    exact List.rel_append hd.calls (.cons ⟨hop, rfl, hgiven⟩ .nil)
  · rw [Dragon.next_call, Dragon.next_call, hrc]
    split_ifs
    · show ρ ((d.grammarEffect n op).next + j) ((d'.grammarEffect n op').next + j)
      rw [hnext, hnext', Nat.add_assoc, Nat.add_assoc]
      exact hd.next (i + j)
    · exact hd.next j

/-! ### The functions that sync a grammar -/

theorem Sim.record (hs : Sim ρ p p') (hg : g.Rel ρ g') (hname : g.name = p.1.name)
    (hids : ∀ i ∈ g.ids, i < p.2.next) : Sim ρ (g, p.2) (g', p'.2) :=
  ⟨hg, by rw [hname]; exact hs.dragon, hids⟩

theorem Sim.call (hE : E.Local) (hρ : Renames ρ) (hs : Sim ρ p p') (hop : op.Rel ρ op')
    (hids : ∀ i ∈ op.ids, i ∈ p.1.ids) :
    (p'.2.call E (.grammar p'.1.name op')).1 = (p.2.call E (.grammar p.1.name op)).1 ∧
      Sim ρ (p.1, (p.2.call E (.grammar p.1.name op)).2)
        (p'.1, (p'.2.call E (.grammar p'.1.name op')).2) := by
  rw [hs.grammar.name]
  obtain ⟨hrc, hd⟩ := hs.dragon.call hE hρ hop fun i hi => hs.ids i (hids i hi)
  exact ⟨hrc, hs.grammar, hd, fun i hi => (hs.ids i hi).trans_le (p.2.next_le_call _)⟩

theorem Sim.loaded (hs : Sim ρ (g, d) (g', d')) (blob : List UInt8) (hh : ρ h h')
    (hlt : h < d.next) : Sim ρ ({ g with handle := h, state := { g.state with blob := blob } }, d)
      ({ g' with handle := h', state := { g'.state with blob := blob } }, d') := by
  have hg : g.Rel ρ g' := hs.grammar
  have hids := hs.ids
  refine hs.record ⟨hg.name, hg.errors, by rw [hg.state], hg.enabled, hg.priority, hh, hg.endkey,
    hg.hypokey, hg.beginkey⟩ rfl ?_
  simp only [Grammar.ids, List.forall_mem_cons] at hids ⊢
  exact ⟨hlt, hids.2⟩

theorem Sim.endkey (hs : Sim ρ (g, d) (g', d')) (hk : ρ k k') (hlt : k < d.next) :
    Sim ρ ({ g with endkey := k }, d) ({ g' with endkey := k' }, d') := by
  have hg : g.Rel ρ g' := hs.grammar
  have hids := hs.ids
  refine hs.record ⟨hg.name, hg.errors, hg.state, hg.enabled, hg.priority, hg.handle, hk,
    hg.hypokey, hg.beginkey⟩ rfl ?_
  simp only [Grammar.ids, List.forall_mem_cons] at hids ⊢
  exact ⟨hids.1, hlt, hids.2.2⟩

theorem Sim.hypokey (hs : Sim ρ (g, d) (g', d')) (hk : ρ k k') (hlt : k < d.next) :
    Sim ρ ({ g with hypokey := k }, d) ({ g' with hypokey := k' }, d') := by
  have hg : g.Rel ρ g' := hs.grammar
  have hids := hs.ids
  refine hs.record ⟨hg.name, hg.errors, hg.state, hg.enabled, hg.priority, hg.handle, hg.endkey, hk,
    hg.beginkey⟩ rfl ?_
  simp only [Grammar.ids, List.forall_mem_cons] at hids ⊢
  exact ⟨hids.1, hids.2.1, hlt, hids.2.2.2⟩

theorem Sim.beginkey (hs : Sim ρ (g, d) (g', d')) (hk : ρ k k') (hlt : k < d.next) :
    Sim ρ ({ g with beginkey := k, enabled := true }, d)
      ({ g' with beginkey := k', enabled := true }, d') := by
  have hg : g.Rel ρ g' := hs.grammar
  have hids := hs.ids
  refine hs.record ⟨hg.name, hg.errors, hg.state, rfl, hg.priority, hg.handle, hg.endkey,
    hg.hypokey, hk⟩ rfl ?_
  simp only [Grammar.ids, List.forall_mem_cons] at hids ⊢
  exact ⟨hids.1, hids.2.1, hids.2.2.1, hlt, hids.2.2.2.2⟩

theorem Grammar.Rel.recordError (hg : g.Rel ρ g') (type msg : String) (rc : Int) (hn : n' = n) :
    (g.recordError type msg rc n).Rel ρ (g'.recordError type msg rc n') :=
  ⟨hg.name, hn ▸ congrArg (· ++ _) hg.errors, hg.state, hg.enabled, hg.priority, hg.handle,
    hg.endkey, hg.hypokey, hg.beginkey⟩

theorem Grammar.Rel.setState (hg : g.Rel ρ g') (f : GrammarState → GrammarState) :
    Grammar.Rel ρ { g with state := f g.state } { g' with state := f g'.state } :=
  ⟨hg.name, hg.errors, congrArg f hg.state, hg.enabled, hg.priority, hg.handle, hg.endkey,
    hg.hypokey, hg.beginkey⟩

section Functions

variable (hE : E.Local) (hρ : Renames ρ)

include hE hρ

theorem unloadGrammar_sim (hs : Sim ρ (g, d) (g', d')) :
    Sim ρ (unloadGrammar E g d).2 (unloadGrammar E g' d').2 := by
  have hg : g.Rel ρ g' := hs.grammar
  -- the first three calls differ only in their key
  have hunregister : ∀ {d d' : Dragon} {k k' : ℕ}, Sim ρ (g, d) (g', d') → ρ k k' → k ∈ g.ids →
      (d'.call E (.grammar g'.name (.unregister g'.handle k'))).1 =
          (d.call E (.grammar g.name (.unregister g.handle k))).1 ∧
        Sim ρ (g, (d.call E (.grammar g.name (.unregister g.handle k))).2)
          (g', (d'.call E (.grammar g'.name (.unregister g'.handle k'))).2) := by
    intro d d' k k' hs hk hmem
    refine hs.call hE hρ (.unregister hg.handle hk) fun i hi => ?_
    rcases List.mem_cons.1 hi with rfl | hi
    · exact List.mem_cons_self ..
    · exact List.mem_singleton.1 hi ▸ hmem
  unfold unloadGrammar
  dsimp only
  obtain ⟨hrc₁, hs₁⟩ := hunregister hs hg.endkey (by simp [Grammar.ids])
  generalize d.call E (.grammar g.name (.unregister g.handle g.endkey)) = r₁ at hrc₁ hs₁ ⊢
  generalize d'.call E (.grammar g'.name (.unregister g'.handle g'.endkey)) = r₁' at hrc₁ hs₁ ⊢
  rw [hrc₁]
  by_cases h₁ : r₁.1 ≠ 0
  · rw [if_pos h₁, if_pos h₁]
    exact hs₁
  rw [if_neg h₁, if_neg h₁]
  obtain ⟨hrc₂, hs₂⟩ := hunregister hs₁ hg.hypokey (by simp [Grammar.ids])
  generalize r₁.2.call E (.grammar g.name (.unregister g.handle g.hypokey)) = r₂ at hrc₂ hs₂ ⊢
  generalize r₁'.2.call E (.grammar g'.name (.unregister g'.handle g'.hypokey)) = r₂' at hrc₂ hs₂ ⊢
  rw [hrc₂]
  by_cases h₂ : r₂.1 ≠ 0
  · rw [if_pos h₂, if_pos h₂]
    exact hs₂
  rw [if_neg h₂, if_neg h₂]
  obtain ⟨hrc₃, hs₃⟩ := hunregister hs₂ hg.beginkey (by simp [Grammar.ids])
  generalize r₂.2.call E (.grammar g.name (.unregister g.handle g.beginkey)) = r₃ at hrc₃ hs₃ ⊢
  generalize r₂'.2.call E (.grammar g'.name (.unregister g'.handle g'.beginkey)) = r₃' at hrc₃ hs₃ ⊢
  rw [hrc₃]
  by_cases h₃ : r₃.1 ≠ 0
  · rw [if_pos h₃, if_pos h₃]
    exact hs₃
  rw [if_neg h₃, if_neg h₃]
  obtain ⟨hrc₄, hs₄⟩ := hs₃.call hE hρ (.destroy hg.handle) (by simp [GrammarOp.ids, Grammar.ids])
  generalize r₃.2.call E (.grammar g.name (.destroy g.handle)) = r₄ at hrc₄ hs₄ ⊢
  generalize r₃'.2.call E (.grammar g'.name (.destroy g'.handle)) = r₄' at hrc₄ hs₄ ⊢
  rw [hrc₄]
  by_cases h₄ : r₄.1 ≠ 0
  · rw [if_pos h₄, if_pos h₄]
    exact hs₄
  rw [if_neg h₄, if_neg h₄]
  have hcleared : g.cleared.Rel ρ g'.cleared :=
    ⟨hg.name, hg.errors, by simp [Grammar.cleared, hg.state], rfl, hg.priority, hg.handle,
      hg.endkey, hg.hypokey, hg.beginkey⟩
  exact hs₄.record hcleared rfl hs₄.ids

theorem unloadIfEnabled_sim (hs : Sim ρ (g, d) (g', d')) :
    Sim ρ (unloadIfEnabled E g d) (unloadIfEnabled E g' d') := by
  have hg : g.Rel ρ g' := hs.grammar
  unfold unloadIfEnabled
  rw [hg.enabled]
  by_cases h : g.enabled = true
  · rw [if_pos h, if_pos h]
    exact unloadGrammar_sim hE hρ hs
  · rw [if_neg h, if_neg h]
    exact hs

/-- Registering a callback gives out the next key. -/
theorem Sim.register (cb : Callback) (hs : Sim ρ (g, d) (g', d')) (hn : g.name = n)
    (hn' : g'.name = n') (hh : g.handle = h) (hh' : g'.handle = h') :
    (d'.call E (.grammar n' (.register cb h'))).1 = (d.call E (.grammar n (.register cb h))).1 ∧
      Sim ρ (g, (d.call E (.grammar n (.register cb h))).2)
        (g', (d'.call E (.grammar n' (.register cb h'))).2) ∧
      ((d.call E (.grammar n (.register cb h))).1 = 0 →
        d.next < (d.call E (.grammar n (.register cb h))).2.next) := by
  subst hn hn' hh hh'
  have hg : g.Rel ρ g' := hs.grammar
  obtain ⟨hrc, hs'⟩ := hs.call hE hρ (.register cb hg.handle)
    (by simp [GrammarOp.ids, Grammar.ids])
  refine ⟨hrc, hs', fun h0 => ?_⟩
  rw [Dragon.next_call, if_pos h0]
  exact Nat.lt_succ_self _

theorem loadGrammar_sim (blob : List UInt8) (hs : Sim ρ (g, d) (g', d')) :
    (loadGrammar E g' blob d').1 = (loadGrammar E g blob d).1 ∧
      Sim ρ (loadGrammar E g blob d).2 (loadGrammar E g' blob d').2 := by
  have hg : g.Rel ρ g' := hs.grammar
  unfold loadGrammar
  dsimp only
  obtain ⟨hrc₁, hs₁⟩ := hs.call hE hρ (.loadGrammar blob) (by simp [GrammarOp.ids])
  have hlt₁ : (d.call E (.grammar g.name (.loadGrammar blob))).1 = 0 →
      d.next < (d.call E (.grammar g.name (.loadGrammar blob))).2.next := by
    intro h0
    rw [Dragon.next_call, if_pos h0]
    exact Nat.lt_succ_self _
  generalize d.call E (.grammar g.name (.loadGrammar blob)) = r₁ at hrc₁ hs₁ hlt₁ ⊢
  generalize d'.call E (.grammar g'.name (.loadGrammar blob)) = r₁' at hrc₁ hs₁ ⊢
  rw [hrc₁]
  by_cases h₁ : r₁.1 ≠ 0
  · rw [if_pos h₁, if_pos h₁]
    exact ⟨rfl, hs₁.record (hg.recordError _ _ _ hg.name) rfl hs₁.ids⟩
  rw [if_neg h₁, if_neg h₁]
  have hs₁ := hs₁.loaded blob (hs.dragon.next 0) (hlt₁ (not_not.1 h₁))
  obtain ⟨hrc₂, hs₂, hlt₂⟩ := hs₁.register hE hρ .endPhrase rfl rfl rfl rfl
  generalize r₁.2.call E (.grammar g.name (.register .endPhrase d.next)) = r₂ at hrc₂ hs₂ hlt₂ ⊢
  generalize r₁'.2.call E (.grammar g'.name (.register .endPhrase d'.next)) = r₂' at hrc₂ hs₂ ⊢
  rw [hrc₂]
  by_cases h₂ : r₂.1 ≠ 0
  · rw [if_pos h₂, if_pos h₂]
    exact ⟨rfl, hs₂.record (Grammar.Rel.recordError hs₂.grammar _ _ _ hg.name) rfl hs₂.ids⟩
  rw [if_neg h₂, if_neg h₂]
  have hs₂ := hs₂.endkey (hs₁.dragon.next 0) (hlt₂ (not_not.1 h₂))
  obtain ⟨hrc₃, hs₃, hlt₃⟩ := hs₂.register hE hρ .phraseHypothesis rfl rfl rfl rfl
  generalize r₂.2.call E (.grammar g.name (.register .phraseHypothesis d.next)) = r₃
    at hrc₃ hs₃ hlt₃ ⊢
  generalize r₂'.2.call E (.grammar g'.name (.register .phraseHypothesis d'.next)) = r₃'
    at hrc₃ hs₃ ⊢
  rw [hrc₃]
  by_cases h₃ : r₃.1 ≠ 0
  · rw [if_pos h₃, if_pos h₃]
    exact ⟨rfl, hs₃.record (Grammar.Rel.recordError hs₃.grammar _ _ _ hg.name) rfl hs₃.ids⟩
  rw [if_neg h₃, if_neg h₃]
  have hs₃ := hs₃.hypokey (hs₂.dragon.next 0) (hlt₃ (not_not.1 h₃))
  obtain ⟨hrc₄, hs₄, hlt₄⟩ := hs₃.register hE hρ .beginPhrase rfl rfl rfl rfl
  generalize r₃.2.call E (.grammar g.name (.register .beginPhrase d.next)) = r₄ at hrc₄ hs₄ hlt₄ ⊢
  generalize r₃'.2.call E (.grammar g'.name (.register .beginPhrase d'.next)) = r₄' at hrc₄ hs₄ ⊢
  rw [hrc₄]
  by_cases h₄ : r₄.1 ≠ 0
  · rw [if_pos h₄, if_pos h₄]
    exact ⟨rfl, hs₄.record (Grammar.Rel.recordError hs₄.grammar _ _ _ hg.name) rfl hs₄.ids⟩
  rw [if_neg h₄, if_neg h₄]
  exact ⟨rfl, hs₄.beginkey (hs₃.dragon.next 0) (hlt₄ (not_not.1 h₄))⟩

/-- A call that is recorded as an error, or else in the state of the grammar. -/
theorem Sim.recorded (hs : Sim ρ p p') (hop : op.Rel ρ op') (hids : ∀ i ∈ op.ids, i ∈ p.1.ids)
    (type msg : String) (n : CString) (f : GrammarState → GrammarState) :
    let r := p.2.call E (.grammar p.1.name op)
    let r' := p'.2.call E (.grammar p'.1.name op')
    Sim ρ (if r.1 ≠ 0 then (p.1.recordError type msg r.1 n, r.2)
        else ({ p.1 with state := f p.1.state }, r.2))
      (if r'.1 ≠ 0 then (p'.1.recordError type msg r'.1 n, r'.2)
        else ({ p'.1 with state := f p'.1.state }, r'.2)) := by
  dsimp only
  obtain ⟨hrc, hs'⟩ := hs.call hE hρ hop hids
  rw [hrc]
  by_cases h : (p.2.call E (.grammar p.1.name op)).1 ≠ 0
  · rw [if_pos h, if_pos h]
    exact hs'.record (hs.grammar.recordError type msg _ rfl) rfl hs'.ids
  · rw [if_neg h, if_neg h]
    exact hs'.record (hs.grammar.setState f) rfl hs'.ids

theorem activateRule_sim (hs : Sim ρ p p') (rule : CString) :
    Sim ρ (activateRule E p rule) (activateRule E p' rule) :=
  hs.recorded hE hρ (.activate rule hs.grammar.handle) (by simp [GrammarOp.ids, Grammar.ids]) _ _ rule
    fun st => { st with activeRules := st.activeRules.insert rule }

theorem deactivateRule_sim (hs : Sim ρ p p') (rule : CString) :
    Sim ρ (deactivateRule E p rule) (deactivateRule E p' rule) :=
  hs.recorded hE hρ (.deactivate rule hs.grammar.handle) (by simp [GrammarOp.ids, Grammar.ids]) _ _
    rule fun st => { st with activeRules := st.activeRules.erase rule }

theorem setList_sim (hs : Sim ρ p p') (name : CString) (l : OrdSet CString) :
    Sim ρ (setList E p name l) (setList E p' name l) :=
  hs.recorded hE hρ (.setList name l.toList hs.grammar.handle) (by simp [GrammarOp.ids, Grammar.ids])
    _ _ name fun st => { st with lists := st.lists.insert name l }

theorem syncList_sim (hs : Sim ρ p p') (e : Σ _ : CString, OrdSet CString) :
    Sim ρ (syncList E p e) (syncList E p' e) := by
  unfold syncList
  rw [hs.grammar.state]
  by_cases h : p.1.state.lists.lookup e.1 ≠ some e.2
  · rw [if_pos h, if_pos h]
    exact setList_sim hE hρ hs _ _
  · rw [if_neg h, if_neg h]
    exact hs

omit hE hρ in
theorem foldl_sim {α : Type*} {f : Grammar × Dragon → α → Grammar × Dragon}
    (hf : ∀ {p p' : Grammar × Dragon} (a : α), Sim ρ p p' → Sim ρ (f p a) (f p' a)) (l : List α)
    (hs : Sim ρ p p') : Sim ρ (l.foldl f p) (l.foldl f p') := by
  induction l generalizing p p' with
  | nil => exact hs
  | cons a l ih => exact ih (hf a hs)

theorem syncRulesIfChanged_sim (shadow : GrammarState) (hs : Sim ρ (g, d) (g', d')) :
    Sim ρ (syncRulesIfChanged E g shadow d) (syncRulesIfChanged E g' shadow d') := by
  have hg : g.Rel ρ g' := hs.grammar
  unfold syncRulesIfChanged syncRules
  rw [hg.state]
  by_cases h : g.state.activeRules ≠ shadow.activeRules
  · rw [if_pos h, if_pos h]
    exact foldl_sim (fun a hs => deactivateRule_sim hE hρ hs a) _
      (foldl_sim (fun a hs => activateRule_sim hE hρ hs a) _ hs)
  · rw [if_neg h, if_neg h]
    exact hs

theorem syncContents_sim (shadow : GrammarState) (hs : Sim ρ (g, d) (g', d')) :
    Sim ρ (syncContents E g shadow d) (syncContents E g' shadow d') := by
  unfold syncContents syncLists
  have hrules := syncRulesIfChanged_sim hE hρ shadow hs
  rw [hE.listOrder (syncRulesIfChanged E g' shadow d').2.log
    (syncRulesIfChanged E g shadow d).2.log]
  have hlists := foldl_sim (fun e hs => syncList_sim hE hρ hs e)
    (E.listOrder (syncRulesIfChanged E g shadow d).2.log shadow.lists.entries) hrules
  exact hlists.record (hlists.grammar.setState fun st =>
    { st with clientId := shadow.clientId, tid := shadow.tid }) rfl hlists.ids

/-- **A sync of a grammar in both runs.** -/
theorem syncGrammar_sim (shadow : GrammarState) (hs : Sim ρ (g, d) (g', d')) :
    Sim ρ (syncGrammar E g shadow d) (syncGrammar E g' shadow d') := by
  have hg : g.Rel ρ g' := hs.grammar
  have hs : Sim ρ ({ g with errors := [] }, d) ({ g' with errors := [] }, d') :=
    hs.record ⟨hg.name, rfl, hg.state, hg.enabled, hg.priority, hg.handle, hg.endkey, hg.hypokey,
      hg.beginkey⟩ rfl hs.ids
  rw [syncGrammar_eq, syncGrammar_eq]
  dsimp only
  have hblob : g'.state.blob = g.state.blob := congrArg GrammarState.blob hg.state
  by_cases hb : g.state.blob ≠ shadow.blob
  · have hb' : g'.state.blob ≠ shadow.blob := by rwa [hblob]
    rw [if_pos hb, if_pos hb']
    have hu := unloadIfEnabled_sim hE hρ hs
    generalize unloadIfEnabled E { g with errors := [] } d = u at hu ⊢
    generalize unloadIfEnabled E { g' with errors := [] } d' = u' at hu ⊢
    obtain ⟨hrc, hload⟩ := loadGrammar_sim hE hρ shadow.blob hu
    rw [hrc]
    by_cases hl : (loadGrammar E u.1 shadow.blob u.2).1 ≠ 0
    · rw [if_pos hl, if_pos hl]
      exact hload
    · rw [if_neg hl, if_neg hl]
      exact syncContents_sim hE hρ shadow hload
  · have hb' : ¬ g'.state.blob ≠ shadow.blob := by rwa [hblob]
    rw [if_neg hb, if_neg hb']
    exact syncContents_sim hE hρ shadow hs

end Functions

end Draconity
