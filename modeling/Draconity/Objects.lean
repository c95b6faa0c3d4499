import Mathlib.Data.List.MinMax
import Draconity.Lib.Places
import Draconity.Lists
import Draconity.Logged
import Draconity.Orphans

/-!
The live grammars as objects in memory.

The engine is given the address of a `Grammar` as the user pointer of its callbacks, and
`Draconity::get_grammar` looks a grammar up by that address.  The object of a name is made when a sync
sets the name and finds no live grammar for it, and it is freed when the grammar is erased; a later
object may be made at the same address.  `Objects` keeps the addresses beside the state, and the user
pointer of each callback that was registered.
-/

namespace Draconity

open Lib

abbrev Address := ℕ

/-- Where `std::make_shared<Grammar>` puts an object: at any address that is not in use. -/
structure Allocator where
  alloc : Log → List Address → Address
  fresh : ∀ log used, alloc log used ∉ used

/-- An allocator that takes the address behind the last one in use. -/
def Allocator.next : Allocator where
  alloc _ used := used.foldr max 0 + 1
  fresh _ _ h := absurd (List.le_max_of_le' 0 h le_rfl) (Nat.not_succ_le_self _)

/-- The state, with the addresses of the live grammars and the user pointers of the callbacks, by
their keys. -/
structure Objects where
  state : State
  place : AList fun _ : CString => Address
  user : ℕ → Address

namespace Objects

def init : Objects := ⟨State.init 0, ∅, fun _ => 0⟩

/-- The object that the pass for a name works on: that of the live grammar, or a new one. -/
def objectFor (A : Allocator) (o : Objects) (n : CString) : Address :=
  (o.place.lookup n).getD (A.alloc o.state.dragon.log (Places.used o.place))

/-- One pass of the loop of `sync_grammars`.  `load_grammar` registers the callbacks with the address
of the object, and an object that is erased from `grammars` is freed. -/
def syncEntry (E : Env) (A : Allocator) (o : Objects) (e : Σ _ : CString, GrammarState) : Objects :=
  let s := Draconity.syncEntry E o.state e
  let a := o.objectFor A e.1
  { state := s
    place := if (s.grammars.lookup e.1).isSome then o.place.insert e.1 a else o.place.erase e.1
    user := fun key => if o.state.dragon.next ≤ key ∧ key < s.dragon.next then a else o.user key }

def syncState (E : Env) (A : Allocator) (o : Objects) : Objects :=
  let s := syncWords E o.state
  let o := (E.grammarOrder s.syncs s.shadowGrammars.entries).foldl (syncEntry E A)
    { o with state := s }
  { o with state := { o.state with shadowGrammars := ∅, syncs := o.state.syncs + 1 } }

def step (E : Env) (A : Allocator) (o : Objects) : Op → Objects
  | .sync => o.syncState E A
  | op => { o with state := op.apply E o.state }

def machine (E : Env) (A : Allocator) : Machine Objects Op where
  start := init
  enabled o op := op.Enabled o.state
  step := step E A

def getGrammar (o : Objects) (key : Address) : Option Grammar :=
  Places.find o.place o.state.grammars key

variable {E : Env} {A : Allocator} {o : Objects} {n : CString} {g : Grammar}

/-! ### The store under the objects -/

theorem foldl_syncEntry_state (l : List (Σ _ : CString, GrammarState)) (o : Objects) :
    (l.foldl (syncEntry E A) o).state = l.foldl (Draconity.syncEntry E) o.state := by
  induction l generalizing o with
  | nil => rfl
  | cons e l ih => exact ih (syncEntry E A o e)

theorem step_state (E : Env) (A : Allocator) (o : Objects) (op : Op) :
    (step E A o op).state = op.apply E o.state := by
  cases op with
  | sync =>
    show State.mk .. = State.mk ..
    rw [foldl_syncEntry_state]
    rfl
  | setGrammar n shadow | setWords c tid ws | disconnect c stack | other s' => rfl

/-- **The objects follow the store.** -/
theorem simulates (E : Env) (A : Allocator) :
    (machine E A).Simulates (store E) Objects.state (fun _ op => op) where
  start := rfl
  enabled _ _ h := h
  step o op _ := step_state E A o op

end Objects

/-! ### The callbacks on a handle -/

namespace Dragon

variable {E : Env} {d d' : Dragon} {h : Handle} {c : ℕ × Callback}

def callbacksOn (d : Dragon) (h : Handle) : List (ℕ × Callback) :=
  ((d.loaded.lookup h).map Loaded.callbacks).getD []

theorem callbacksOn_of_lookup {L : Loaded} (hL : d.loaded.lookup h = some L) :
    d.callbacksOn h = L.callbacks := by
  unfold callbacksOn
  rw [hL]
  rfl

theorem callbacksOn_congr (hl : d'.loaded = d.loaded) (h : Handle) :
    d'.callbacksOn h = d.callbacksOn h := by
  unfold callbacksOn
  rw [hl]

theorem mem_callbacksOn_update {k : Handle} {f : Loaded → Option Loaded}
    (hc : c ∈ (d.update k f).callbacksOn h) :
    c ∈ d.callbacksOn h ∨
      ∃ L L', d.loaded.lookup k = some L ∧ f L = some L' ∧ h = k ∧ c ∈ L'.callbacks := by
  unfold callbacksOn at hc ⊢
  rw [lookup_update] at hc
  split_ifs at hc with hh
  · subst hh
    cases hL : d.loaded.lookup h with
    | none => rw [hL] at hc; cases hc
    | some L =>
      rw [hL, Option.bind_some] at hc
      cases hf : f L with
      | none => rw [hf] at hc; cases hc
      | some L' => exact .inr ⟨L, L', rfl, hf, rfl, by rw [hf] at hc; exact hc⟩
  · exact .inl hc

/-- A callback that is registered after a call was so before, or it got the next key. -/
theorem mem_callbacksOn_call {k : Call} (hc : c ∈ (d.call E k).2.callbacksOn h) :
    c ∈ d.callbacksOn h ∨ c.1 = d.next ∧ d.next < (d.call E k).2.next := by
  by_cases hrc : (d.call E k).1 = 0
  · have hloaded : (d.call E k).2.loaded = (d.effect k).loaded := by rw [loaded_call, if_pos hrc]
    rw [callbacksOn_congr hloaded, next_call, if_pos hrc] at *
    cases k with
    | grammar name op =>
      cases op with
      | loadGrammar blob =>
        left
        unfold callbacksOn at hc ⊢
        simp only [effect, grammarEffect, Keyed.lookup_insert_eq] at hc
        split_ifs at hc
        · cases hc
        · exact hc
      | register cb k =>
        have hc : c ∈ (d.update k fun L =>
          some { L with callbacks := L.callbacks ++ [(d.next, cb)] }).callbacksOn h := hc
        rcases mem_callbacksOn_update hc with hold | ⟨L, L', hL, hf, rfl, hnew⟩
        · exact .inl hold
        · cases hf
          rcases List.mem_append.1 hnew with hold | hnew
          · exact .inl (callbacksOn_of_lookup hL ▸ hold)
          · rw [List.mem_singleton.1 hnew]
            exact .inr ⟨rfl, Nat.lt_succ_self _⟩
      | unregister k key =>
        rcases mem_callbacksOn_update hc with hold | ⟨L, L', hL, hf, rfl, hnew⟩
        · exact .inl hold
        · cases hf
          exact .inl (callbacksOn_of_lookup hL ▸ (List.mem_filter.1 hnew).1)
      | destroy k =>
        rcases mem_callbacksOn_update hc with hold | ⟨L, L', hL, hf, rfl, hnew⟩
        · exact .inl hold
        · cases hf
      | activate k r | deactivate k r | setList k n l =>
        rcases mem_callbacksOn_update hc with hold | ⟨L, L', hL, hf, rfl, hnew⟩
        · exact .inl hold
        · cases hf
          exact .inl (callbacksOn_of_lookup hL ▸ hnew)
    | validateWord _ | addTemporaryWord _ | deleteWord _ | resume _ | mimic _ | setMicState _ =>
      exact .inl hc
  · exact .inl (callbacksOn_congr (loaded_call_of_ne hrc) h ▸ hc)

/-- Every key that is in use was given out. -/
def KeysIssued (d : Dragon) : Prop := ∀ h, ∀ c ∈ d.callbacksOn h, c.1 < d.next

theorem keysIssued_init : init.KeysIssued := fun _ _ h => nomatch h

end Dragon

namespace Calls

variable {E : Env} {P : Call → Prop} {d d' : Dragon}

/-- A callback that is registered after some calls was so before, or it got its key since. -/
theorem mem_callbacksOn (hcalls : Calls E P d d') {h : Handle} {c : ℕ × Callback}
    (hc : c ∈ d'.callbacksOn h) : c ∈ d.callbacksOn h ∨ d.next ≤ c.1 ∧ c.1 < d'.next := by
  induction hcalls with
  | refl => exact .inl hc
  | snoc k hcalls _ ih =>
    have hle := Dragon.next_le_call (E := E) ‹Dragon› k
    rcases Dragon.mem_callbacksOn_call hc with hold | ⟨hkey, hlt⟩
    · exact (ih hold).imp_right fun ⟨h₁, h₂⟩ => ⟨h₁, h₂.trans_le hle⟩
    · exact .inr ⟨hkey ▸ hcalls.next_le, hkey ▸ hlt⟩

theorem keysIssued (hcalls : Calls E P d d') (hd : d.KeysIssued) : d'.KeysIssued := by
  intro h c hc
  rcases hcalls.mem_callbacksOn hc with hold | ⟨-, hlt⟩
  · exact (hd h c hold).trans_le hcalls.next_le
  · exact hlt

end Calls

namespace Dragon

variable {d d' : Dragon} {h : Handle} {c : ℕ × Callback}

theorem loaded_of_mem_callbacksOn (hc : c ∈ d.callbacksOn h) : ∃ L, d.loaded.lookup h = some L := by
  unfold callbacksOn at hc
  cases hL : d.loaded.lookup h with
  | none => rw [hL] at hc; cases hc
  | some L => exact ⟨L, rfl⟩

/-- What is held for the name of a handle includes what is on the handle. -/
theorem lookup_of_heldFor {n : CString} (hn : d.nameOf h = some n)
    (hd : d'.heldFor n = d.heldFor n) : d'.loaded.lookup h = d.loaded.lookup h := by
  obtain ⟨L, hL, hname⟩ := nameOf_eq_some.1 hn
  have hheld : d'.heldFor n h = some L := by
    rw [hd]
    exact heldFor_eq_some.2 ⟨hL, hname⟩
  rw [hL]
  exact (heldFor_eq_some.1 hheld).1

end Dragon

/-- The handle after a sync without errors: that of the live grammar when the blob is the same, and
else a new one. -/
theorem syncGrammar_handle {E : Env} {g : Grammar} {shadow : GrammarState} {d : Dragon}
    (h : (syncGrammar E g shadow d).1.errors = []) :
    g.state.blob = shadow.blob ∧ (syncGrammar E g shadow d).1.handle = g.handle ∨
      d.next ≤ (syncGrammar E g shadow d).1.handle := by
  rw [syncGrammar_eq] at h ⊢
  dsimp only at h ⊢
  have hnext := (unloadIfEnabled_only (E := E) { g with errors := [] } d).2.next_le
  split_ifs at h ⊢ with hblob hload
  · rcases loadGrammar_record (E := E) _ _ _ with ⟨-, he, -⟩ | ⟨h0, -⟩
    · exact absurd h he
    · exact absurd h0 hload
  · right
    rw [(syncContents_pass _ _ _).handle]
    cases loadGrammar_ends E (unloadIfEnabled E { g with errors := [] } d).1 shadow.blob
      (unloadIfEnabled E { g with errors := [] } d).2 with
    | refused new made kind rc => exact absurd rc hload
    | stuck new made kind fails rc errors name handle => exact handle ▸ hnext
    | loaded new made kind succeed rc errors name handle => exact handle ▸ hnext
  · exact .inl ⟨not_not.1 hblob, (syncContents_pass _ _ _).handle⟩

namespace Objects

variable {E : Env} {A : Allocator} {o : Objects} {n k : CString} {g : Grammar}
  {shadow : GrammarState}

/-- Each live grammar has an object of its own, and the callbacks on its handle have the address of
that object. -/
structure Placed (o : Objects) : Prop where
  live : ∀ n, (o.place.lookup n).isSome = (o.state.grammars.lookup n).isSome
  apart : Places.Apart o.place
  issued : o.state.dragon.KeysIssued
  user : ∀ n g, o.state.grammars.lookup n = some g →
    ∀ c ∈ o.state.dragon.callbacksOn g.handle, o.place.lookup n = some (o.user c.1)

theorem placed_init : Placed init where
  live _ := rfl
  apart := Places.apart_empty
  issued := Dragon.keysIssued_init
  user _ _ h := nomatch h

/-- The objects do not depend on anything but the live grammars and the engine. -/
theorem Placed.congr (hp : Placed o) {s : State} (hg : s.grammars = o.state.grammars)
    (hl : s.dragon.loaded = o.state.dragon.loaded) (hn : s.dragon.next = o.state.dragon.next) :
    Placed { o with state := s } where
  live n := hg ▸ hp.live n
  apart := hp.apart
  issued h c hc := by
    show c.1 < s.dragon.next
    rw [hn]
    exact hp.issued h c (Dragon.callbacksOn_congr hl h ▸ hc)
  user n g h c hc := hp.user n g (hg ▸ h) c (Dragon.callbacksOn_congr hl _ ▸ hc)

/-- A pass leaves the places of the other names. -/
theorem place_of_ne (hk : k ≠ n) :
    (o.syncEntry E A ⟨n, shadow⟩).place.lookup k = o.place.lookup k := by
  show AList.lookup k (if _ then _ else _) = _
  split_ifs
  · rw [Keyed.lookup_insert_eq, if_neg hk]
  · rw [Keyed.lookup_erase_eq, if_neg hk]

/-- A pass that leaves a live grammar leaves it on the object that it worked on. -/
theorem place_self_of_some (hg : (o.syncEntry E A ⟨n, shadow⟩).state.grammars.lookup n = some g) :
    (o.syncEntry E A ⟨n, shadow⟩).place = o.place.insert n (o.objectFor A n) :=
  if_pos (Option.isSome_iff_exists.2 ⟨g, hg⟩)

theorem place_self_of_none (hg : (o.syncEntry E A ⟨n, shadow⟩).state.grammars.lookup n = none) :
    (o.syncEntry E A ⟨n, shadow⟩).place = o.place.erase n :=
  if_neg fun h => Bool.false_ne_true ((congrArg Option.isSome hg).symm.trans h)

theorem Placed.apart_syncEntry (hp : Placed o) :
    Places.Apart (o.syncEntry E A ⟨n, shadow⟩).place := by
  cases hg : (o.syncEntry E A ⟨n, shadow⟩).state.grammars.lookup n with
  | none =>
    rw [place_self_of_none hg]
    exact hp.apart.erase n
  | some g =>
    rw [place_self_of_some hg]
    exact hp.apart.insert fun j hj => hp.apart.getD_ne (A.fresh _ _) hj

theorem set_of_live {s : State}
    (hg : (Draconity.syncEntry E s ⟨n, shadow⟩).grammars.lookup n = some g) :
    shadow.unload = false ∧ (syncGrammar E (s.grammarFor n) shadow s.dragon).1.errors = [] ∧
      g = { (syncGrammar E (s.grammarFor n) shadow s.dragon).1 with errors := [] } := by
  have hu : shadow.unload = false := by
    by_contra hu
    have hgone := (syncEntry_unload (E := E) (n := n) ((Bool.not_eq_false _).mp hu) s).1
    exact nomatch hgone.symm.trans hg
  by_cases he : (syncGrammar E (s.grammarFor n) shadow s.dragon).1.errors = []
  · exact ⟨hu, he, Option.some.inj (hg.symm.trans (syncEntry_set hu s he).1)⟩
  · exact nomatch (syncEntry_set_error hu s he).1.symm.trans hg

/-- The callbacks on the handle of the live grammar that a pass leaves have its address. -/
theorem Placed.user_self (hs : Accounted o.state) (hp : Placed o)
    (hb : shadow.unload = false → shadow.blob ≠ [])
    (hg : (o.syncEntry E A ⟨n, shadow⟩).state.grammars.lookup n = some g) {c : ℕ × Callback}
    (hc : c ∈ (o.syncEntry E A ⟨n, shadow⟩).state.dragon.callbacksOn g.handle) :
    o.objectFor A n = (o.syncEntry E A ⟨n, shadow⟩).user c.1 := by
  have huser : ∀ key, (o.syncEntry E A ⟨n, shadow⟩).user key =
      if o.state.dragon.next ≤ key ∧ key < (o.syncEntry E A ⟨n, shadow⟩).state.dragon.next then
        o.objectFor A n else o.user key := fun _ => rfl
  have hcalls : AnyCalls E o.state.dragon (o.syncEntry E A ⟨n, shadow⟩).state.dragon :=
    syncEntry_calls o.state ⟨n, shadow⟩
  rw [huser]
  rcases hcalls.mem_callbacksOn hc with hold | hnew
  · -- the handle was loaded before, so the blob did not change and the grammar was live
    rw [if_neg fun h => absurd (hp.issued _ c hold) (Nat.not_lt.2 h.1)]
    obtain ⟨L, hL⟩ := Dragon.loaded_of_mem_callbacksOn hold
    have hlt := hs.fresh _ L hL
    obtain ⟨hu, he, rfl⟩ := set_of_live hg
    rcases syncGrammar_handle he with ⟨hblob, hhandle⟩ | hnew
    · have hlive : o.state.grammars.lookup n = some (o.state.grammarFor n) := by
        unfold State.grammarFor at hblob ⊢
        cases hlookup : o.state.grammars.lookup n with
        | none =>
          rw [hlookup] at hblob
          exact absurd hblob.symm (hb hu)
        | some g => rfl
      have hhandle : (syncGrammar E (o.state.grammarFor n) shadow o.state.dragon).1.handle =
          (o.state.grammarFor n).handle := hhandle
      have hplace := hp.user n _ hlive c (hhandle ▸ hold)
      unfold objectFor
      rw [hplace]
      rfl
    · exact absurd hlt (Nat.not_lt.2 hnew)
  · rw [if_pos hnew]

/-- **A pass keeps the objects and the callbacks together**, whatever its calls return. -/
theorem Placed.syncEntry (hs : Accounted o.state) (hp : Placed o)
    (hb : shadow.unload = false → shadow.blob ≠ []) : Placed (o.syncEntry E A ⟨n, shadow⟩) := by
  have hcalls : AnyCalls E o.state.dragon (o.syncEntry E A ⟨n, shadow⟩).state.dragon :=
    syncEntry_calls o.state ⟨n, shadow⟩
  obtain ⟨new, -, hpass, -⟩ := syncEntry_account (E := E) (n := n) hs hb
  have records : ∀ k, k ≠ n → (o.syncEntry E A ⟨n, shadow⟩).state.grammars.lookup k =
      o.state.grammars.lookup k := hpass.records
  refine ⟨fun k => ?_, hp.apart_syncEntry, hcalls.keysIssued hp.issued, fun k g hg c hc => ?_⟩
  · by_cases hk : k = n
    · subst hk
      cases hg : (o.syncEntry E A ⟨k, shadow⟩).state.grammars.lookup k with
      | none => rw [place_self_of_none hg, AList.lookup_erase]; rfl
      | some g => rw [place_self_of_some hg, AList.lookup_insert]; rfl
    · rw [place_of_ne hk, records k hk]
      exact hp.live k
  · by_cases hk : k = n
    · subst hk
      rw [place_self_of_some hg, AList.lookup_insert, hp.user_self hs hb hg hc]
    · rw [records k hk] at hg
      have hname := hs.held k g hg
      have hlookup : (o.syncEntry E A ⟨n, shadow⟩).state.dragon.loaded.lookup g.handle =
          o.state.dragon.loaded.lookup g.handle :=
        Dragon.lookup_of_heldFor hname (hpass.frame k hk)
      have hold : c ∈ o.state.dragon.callbacksOn g.handle := by
        unfold Dragon.callbacksOn at hc ⊢
        rw [← hlookup]
        exact hc
      have huser : (o.syncEntry E A ⟨n, shadow⟩).user c.1 = o.user c.1 :=
        if_neg fun h => absurd (hp.issued _ c hold) (Nat.not_lt.2 h.1)
      rw [place_of_ne hk, huser]
      exact hp.user k g hg c hold

theorem Placed.syncState (hs : Accounted o.state) (hb : PendingBlobs o.state) (hp : Placed o) :
    Placed (o.syncState E A) := by
  have hw := syncWords_sameGrammars (E := E) o.state
  have hloop := Keyed.foldl_inv (f := Objects.syncEntry E A)
    (I := fun o => Accounted o.state ∧ Placed o)
    (l := E.grammarOrder (syncWords E o.state).syncs (syncWords E o.state).shadowGrammars.entries)
    (s := { o with state := syncWords E o.state }) (fun m e he hm => ?_)
    ⟨hs.congr hw.grammars hw.loaded hw.next, hp.congr hw.grammars hw.loaded hw.next⟩
  · exact hloop.2.congr rfl rfl rfl
  · have hpend := mem_pending.1 he
    obtain ⟨new, -, hpass, -⟩ := syncEntry_account (E := E) (n := e.1) hm.1 (hb e.1 e.2 hpend)
    exact ⟨hpass.accounted, hm.2.syncEntry hm.1 (hb e.1 e.2 hpend)⟩

theorem Placed.step (hs : Accounted o.state) (hb : PendingBlobs o.state) (hp : Placed o) {op : Op}
    (ho : op.Enabled o.state) : Placed (o.step E A op) := by
  by_cases hsync : op = .sync
  · subst hsync
    exact hp.syncState hs hb
  · obtain ⟨hg, hl, hn⟩ := Op.live_of_ne (E := E) ho hsync
    cases op with
    | sync => exact absurd rfl hsync
    | setGrammar n shadow | setWords c tid ws | disconnect c stack | other s' =>
      exact hp.congr hg hl hn

/-- **The callbacks of the live grammars find them**, after any history of the store, whatever the
calls returned and wherever the objects were put. -/
theorem placed_of_reachable (h : (machine E A).Reachable o) : Placed o :=
  (Machine.invariant (I := fun o : Objects => Accounted o.state ∧ PendingBlobs o.state ∧ Placed o)
    ⟨accounted_init 0, pendingBlobs_init 0, placed_init⟩
    (fun o op hI ho => by
      have hstate : ((machine E A).step o op).state = op.apply E o.state := step_state E A o op
      exact ⟨hstate ▸ accounted_step hI.1 hI.2.1 ho, hstate ▸ pendingBlobs_step hI.2.1 ho,
        hI.2.2.step hI.1 hI.2.1 ho⟩) h).2.2

theorem Placed.getGrammar_eq (hp : Placed o) (hg : o.state.grammars.lookup n = some g)
    {c : ℕ × Callback} (hc : c ∈ o.state.dragon.callbacksOn g.handle) :
    o.getGrammar (o.user c.1) = some g := hp.apart.find_eq (hp.user n g hg c hc) hg

end Objects

end Draconity
