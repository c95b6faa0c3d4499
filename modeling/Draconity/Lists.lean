import Draconity.Sound

/-!
The lists of a grammar after a sync, when every call of the engine returns `0`.

A load starts from no lists, but a `g.set` with the blob that is live only adds lists or replaces
them: a list that is live and not named in the update stays, in the record and in the engine.  So
the lists are those of the last `g.set` exactly when no sync meets such a list (`ListsNamed`).
-/

namespace Draconity

open Lib

variable {E : Env} {s s' : State} {n : CString} {shadow : GrammarState} {ops fs : List Op}

/-- The set an operation accepts for a name. -/
def Op.setFor (n : CString) : Op → Option GrammarState
  | .setGrammar m shadow => if m = n ∧ shadow.unload = false then some shadow else none
  | _ => none

def lastSet (n : CString) (ops : List Op) : Option GrammarState :=
  (ops.filterMap (Op.setFor n)).getLast?

theorem lastSet_snoc (n : CString) (ops : List Op) (op : Op) :
    lastSet n (ops ++ [op]) = (op.setFor n).or (lastSet n ops) := by
  unfold lastSet
  rw [List.filterMap_append]
  cases h : op.setFor n <;> simp [h]

/-- The record and the engine have exactly the lists of a shadow state. -/
def ListsOf (s : State) (g : Grammar) (shadow : GrammarState) : Prop :=
  (∀ l, g.state.lists.lookup l = shadow.lists.lookup l) ∧
    ∃ L, s.dragon.loaded.lookup g.handle = some L ∧ L.name = g.name ∧
      ∀ l, L.lists.lookup l = (shadow.lists.lookup l).map OrdSet.toList

/-- Every live grammar has exactly the lists of the last set accepted for its name. -/
def ListsExact (ops : List Op) (s : State) : Prop :=
  ∀ n g, s.grammars.lookup n = some g → ∃ shadow, lastSet n ops = some shadow ∧ ListsOf s g shadow

/-- Every pending set with the blob that is live names all the lists that are live. -/
def ListsNamed (s : State) : Prop :=
  ∀ n shadow g, s.shadowGrammars.lookup n = some shadow → shadow.unload = false →
    s.grammars.lookup n = some g → g.state.blob = shadow.blob →
    ∀ l, shadow.lists.lookup l = none → g.state.lists.lookup l = none

theorem lookup_lists_fresh (hE : E.AllZero) (hb : shadow.blob ≠ []) (d : Dragon) (l : CString) :
    (syncGrammar E (Grammar.new n) shadow d).1.state.lists.lookup l = shadow.lists.lookup l := by
  rw [lookup_lists_syncGrammar hE (.inr rfl)]
  have hnew : (Grammar.new n).state.blob ≠ shadow.blob := hb.symm
  rw [if_neg hnew, Option.or_none]

/-- A live grammar with the lists of a shadow state has them in the engine as well. -/
theorem Sound.listsOf (hs : Sound s) {g : Grammar} (hg : s.grammars.lookup n = some g)
    (h : ∀ l, g.state.lists.lookup l = shadow.lists.lookup l) : ListsOf s g shadow := by
  obtain ⟨L, hL, hm⟩ := (hs.tied n g hg).live (hs.enabled n g hg)
  exact ⟨h, L, hL, hm.name, fun l => by rw [hm.lists, h]⟩

/-- The live grammar after the sync of a set, when every call returns `0`. -/
theorem syncState_set (hE : E.AllZero) (hs : Sound s) (hb : PendingBlobs s)
    (hn : s.shadowGrammars.lookup n = some shadow) (hu : shadow.unload = false) :
    ∃ g, (syncState E s).grammars.lookup n = some g ∧ ∀ l, g.state.lists.lookup l =
      (shadow.lists.lookup l).or ((s.grammars.lookup n).bind fun g₀ =>
        if g₀.state.blob = shadow.blob then g₀.state.lists.lookup l else none) := by
  obtain ⟨m, hm, hv, hv'⟩ := syncState_record_sound hE.reliable hs hb hn
  have hlookup : m.grammars.lookup n = s.grammars.lookup n := congrArg Prod.fst hv
  obtain ⟨h₁, -, -⟩ := syncEntry_set hu m (syncGrammar_errors hE (m.grammarFor n) shadow m.dragon)
  refine ⟨_, (congrArg Prod.fst hv').trans h₁, fun l => ?_⟩
  show (syncGrammar E (m.grammarFor n) shadow m.dragon).1.state.lists.lookup l = _
  unfold State.grammarFor
  cases hg : m.grammars.lookup n with
  | none =>
    rw [← hlookup, hg]
    refine (lookup_lists_fresh hE (hb n shadow hn hu) _ l).trans ?_
    simp
  | some g =>
    rw [← hlookup, hg]
    exact lookup_lists_syncGrammar hE (.inl (hm.enabled n g hg)) shadow m.dragon l

/-! ### Along a run -/

/-- A pending set is the last one accepted for its name. -/
def PendingLast (ops : List Op) (s : State) : Prop :=
  ∀ n shadow, s.shadowGrammars.lookup n = some shadow → shadow.unload = false →
    lastSet n ops = some shadow

/-- What every run of the store keeps, of the state and of the sets accepted so far. -/
structure Tracks (ops : List Op) (s : State) : Prop where
  sound : Sound s
  blobs : PendingBlobs s
  last : PendingLast ops s

/-- A live grammar without a pending update has the lists of the last set accepted for its name. -/
def ListsSettled (ops : List Op) (s : State) : Prop :=
  ∀ n g, s.grammars.lookup n = some g → s.shadowGrammars.lookup n = none →
    ∃ shadow, lastSet n ops = some shadow ∧ ∀ l, g.state.lists.lookup l = shadow.lists.lookup l

theorem Op.setFor_of_ne {k : CString} (h : k ≠ n) : (Op.setGrammar n shadow).setFor k = none :=
  if_neg fun hc => h hc.1.symm

theorem lastSet_snoc_of_none {op : Op} (h : op.setFor n = none) :
    lastSet n (ops ++ [op]) = lastSet n ops := by
  rw [lastSet_snoc, h, Option.none_or]

theorem pendingLast_snoc (h : PendingLast ops s) {op : Op} (ho : op.Enabled s) :
    PendingLast (ops ++ [op]) (op.apply E s) := by
  intro k sh hk hu
  cases op with
  | setGrammar n shadow =>
    rw [Op.apply, lookup_setShadowGrammar] at hk
    by_cases hkn : k = n
    · rw [if_pos hkn, Option.some.injEq] at hk
      subst hk
      rw [lastSet_snoc, Op.setFor, if_pos ⟨hkn.symm, hu⟩]
      rfl
    · rw [if_neg hkn] at hk
      rw [lastSet_snoc_of_none (Op.setFor_of_ne hkn)]
      exact h k sh hk hu
  | setWords c tid ws =>
    rw [lastSet_snoc_of_none rfl]
    exact h k sh ((setShadowWords_sameGrammars c tid ws s).shadowGrammars ▸ hk) hu
  | disconnect c stack =>
    rw [lastSet_snoc_of_none rfl]
    obtain ⟨h₁, h₂⟩ := lookup_clearClientState c stack s k
    -- the unload that takes the place of a set is no set
    by_cases hown : s.Owns c k
    · rw [Op.apply, h₁ hown] at hk
      cases hk
      cases hu
    · exact h k sh ((h₂ hown).symm.trans hk) hu
  | sync => cases hk
  | other s' =>
    rw [lastSet_snoc_of_none rfl]
    exact h k sh (ho.shadowGrammars ▸ hk) hu

/-- A sync that meets named lists only gives each live grammar the lists of the last set. -/
theorem listsExact_sync (hE : E.AllZero) (ht : Tracks ops s) (hset : ListsSettled ops s)
    (hn : ListsNamed s) : ListsExact ops (syncState E s) := by
  have hafter := syncState_sound hE.reliable ht.sound ht.blobs
  intro n g hg
  cases hpend : s.shadowGrammars.lookup n with
  | none =>
    have hsame : (syncState E s).grammars.lookup n = s.grammars.lookup n :=
      congrArg Prod.fst (syncState_record_of_none hpend)
    obtain ⟨sh, hl, h⟩ := hset n g (hsame ▸ hg) hpend
    exact ⟨sh, hl, hafter.listsOf hg h⟩
  | some shadow =>
    cases hu : shadow.unload with
    | true =>
      obtain ⟨m, -, hv⟩ := syncState_record (E := E) hpend
      have hgone := (congrArg Prod.fst hv).trans (syncEntry_unload (E := E) hu m).1
      rw [show (State.record n (syncState E s)).1 = _ from hg] at hgone
      cases hgone
    | false =>
      obtain ⟨g', hg', hl⟩ := syncState_set hE ht.sound ht.blobs hpend hu
      rw [hg, Option.some.injEq] at hg'
      subst hg'
      refine ⟨shadow, ht.last n shadow hpend hu, hafter.listsOf hg fun l => ?_⟩
      -- a list the set does not name is one of the live grammar, if the blob has not changed
      rw [hl l]
      cases hsl : shadow.lists.lookup l with
      | some ws => rfl
      | none =>
        rw [Option.none_or]
        cases hg₀ : s.grammars.lookup n with
        | none => rfl
        | some g₀ =>
          rw [Option.bind_some]
          split_ifs with hblob
          · exact hn n shadow g₀ hpend hu hg₀ hblob l hsl
          · rfl

/-- A sync after which the lists are exact has met named lists only. -/
theorem listsNamed_of_listsExact (hE : E.AllZero) (ht : Tracks ops s)
    (h : ListsExact ops (syncState E s)) : ListsNamed s := by
  intro n shadow g hpend hu hg hblob l hsl
  obtain ⟨g', hg', hl⟩ := syncState_set hE ht.sound ht.blobs hpend hu
  obtain ⟨sh, hlast, hsame, -⟩ := h n g' hg'
  rw [ht.last n shadow hpend hu, Option.some.injEq] at hlast
  subst hlast
  have := hl l
  rw [hsame, hsl, hg, Option.none_or, Option.bind_some, if_pos hblob] at this
  exact this.symm

theorem listsSettled_snoc (hE : E.AllZero) (ht : Tracks ops s) (hset : ListsSettled ops s)
    {op : Op} (ho : op.Enabled s) (hn : op = .sync → ListsNamed s) :
    ListsSettled (ops ++ [op]) (op.apply E s) := by
  intro k g hg hk
  cases op with
  | setGrammar n shadow =>
    rw [Op.apply, lookup_setShadowGrammar] at hk
    by_cases hkn : k = n
    · rw [if_pos hkn] at hk; cases hk
    · rw [if_neg hkn] at hk
      rw [lastSet_snoc_of_none (Op.setFor_of_ne hkn)]
      exact hset k g ((setShadowGrammar_live n shadow s).1 ▸ hg) hk
  | setWords c tid ws =>
    have hsame := setShadowWords_sameGrammars c tid ws s
    rw [lastSet_snoc_of_none rfl]
    exact hset k g (hsame.grammars ▸ hg) (hsame.shadowGrammars ▸ hk)
  | disconnect c stack =>
    rw [lastSet_snoc_of_none rfl]
    obtain ⟨h₁, h₂⟩ := lookup_clearClientState c stack s k
    by_cases hown : s.Owns c k
    · rw [Op.apply, h₁ hown] at hk; cases hk
    · exact hset k g hg ((h₂ hown).symm.trans hk)
  | sync =>
    rw [lastSet_snoc_of_none rfl]
    obtain ⟨sh, hl, h, -⟩ := listsExact_sync hE ht hset (hn rfl) k g hg
    exact ⟨sh, hl, h⟩
  | other s' =>
    rw [lastSet_snoc_of_none rfl]
    exact hset k g (ho.grammars ▸ hg) (ho.shadowGrammars ▸ hk)

theorem tracks_of_run (hE : E.Reliable) (hr : (store E).Run (store E).start ops) :
    Tracks ops ((store E).exec (store E).start ops) := by
  refine ⟨sound_of_reachable hE hr.reachable, pendingBlobs_of_reachable hr.reachable, ?_⟩
  refine hr.snoc_induction (P := fun fs => PendingLast fs ((store E).exec (store E).start fs))
    (fun _ _ h => nomatch h) fun fs op _ ho ih => ?_
  rw [Machine.exec_snoc]
  exact pendingLast_snoc ih ho

/-- **When the incremental sync agrees with a load from scratch on lists.**  In a run in which every
call returns `0`, the lists of the live grammars are those of the last set after every sync if and
only if every sync met named lists only. -/
theorem listsExact_iff (hE : E.AllZero) (hr : (store E).Run (store E).start ops) :
    (∀ fs, fs ++ [.sync] <+: ops →
        ListsExact (fs ++ [.sync]) ((store E).exec (store E).start (fs ++ [.sync]))) ↔
      ∀ fs, fs ++ [.sync] <+: ops → ListsNamed ((store E).exec (store E).start fs) := by
  have hsync : ∀ fs : List Op, ∀ s : State, ListsExact (fs ++ [.sync]) s ↔ ListsExact fs s := by
    intro fs s
    unfold ListsExact
    simp only [lastSet_snoc_of_none (show Op.sync.setFor _ = none from rfl)]
  have tracks : ∀ fs, fs <+: ops → Tracks fs ((store E).exec (store E).start fs) :=
    fun fs h => tracks_of_run hE.reliable (hr.of_prefix h)
  have left : ∀ {fs : List Op} {op : Op}, fs ++ [op] <+: ops → fs <+: ops :=
    fun h => (List.prefix_append _ _).trans h
  constructor
  · intro h fs hfs
    have hexact := (hsync fs _).1 (h fs hfs)
    rw [Machine.exec_snoc] at hexact
    exact listsNamed_of_listsExact hE (tracks fs (left hfs)) hexact
  · intro h
    -- between the syncs, the lists of what is not pending stay those of the last set
    have settled : ∀ fs, fs <+: ops → ListsSettled fs ((store E).exec (store E).start fs) := by
      intro fs
      induction fs using List.reverseRecOn with
      | nil => exact fun _ _ _ hg => nomatch hg
      | append_singleton fs op ih =>
        intro hfs
        rw [Machine.exec_snoc]
        exact listsSettled_snoc hE (tracks fs (left hfs)) (ih (left hfs))
          (Machine.run_snoc.1 (hr.of_prefix hfs)).2 (fun hop => h fs (hop ▸ hfs))
    intro fs hfs
    rw [hsync, Machine.exec_snoc]
    exact listsExact_sync hE (tracks fs (left hfs)) (settled fs (left hfs)) (h fs hfs)

/-- A list installed and then left out of a `g.set` with the same blob. -/
def staleList : List Op :=
  [.setGrammar (.lit "g")
      ⟨[1], ∅, (∅ : AList _).insert (.lit "l") (.ofList [.lit "a"]), false, 0, 1⟩,
    .sync, .setGrammar (.lit "g") ⟨[1], ∅, ∅, false, 0, 2⟩]

/-- The list that was left out is still live after the sync. -/
theorem listsExact_fails : ¬ ∀ E : Env, E.AllZero → ∀ ops, (store E).Run (store E).start ops →
    ∀ fs, fs ++ [.sync] <+: ops →
      ListsExact (fs ++ [.sync]) ((store E).exec (store E).start (fs ++ [.sync])) := by
  intro h
  have hrun : (store .obliging).Run (store .obliging).start (staleList ++ [.sync]) :=
    ⟨fun _ => List.cons_ne_nil _ _, trivial, fun _ => List.cons_ne_nil _ _, trivial, trivial⟩
  have hlive : (((store .obliging).exec (store .obliging).start
      (staleList ++ [.sync])).grammars.lookup (.lit "g")).map
        (fun g => g.state.lists.lookup (.lit "l")) = some (some (.ofList [.lit "a"])) := by decide
  obtain ⟨g, hg, hl⟩ := Option.map_eq_some_iff.1 hlive
  obtain ⟨shadow, hlast, hsame, -⟩ :=
    h _ Env.obliging_allZero _ hrun staleList List.prefix_rfl (.lit "g") g hg
  have hset : lastSet (.lit "g") (staleList ++ [.sync]) = some ⟨[1], ∅, ∅, false, 0, 2⟩ := rfl
  rw [hset, Option.some.injEq] at hlast
  rw [hsame, ← hlast] at hl
  cases hl

/-- A grammar with two lists, and a `g.set` with the same blob that changes one of them, names the other
again and adds a third. -/
def changedList : List Op :=
  [.setGrammar (.lit "g") ⟨[1], ∅, ((∅ : AList _).insert (.lit "k") (.ofList [.lit "c"])).insert
      (.lit "l") (.ofList [.lit "a"]), false, 0, 1⟩,
    .sync,
    .setGrammar (.lit "g") ⟨[1], ∅, (((∅ : AList _).insert (.lit "k") (.ofList [.lit "c"])).insert
      (.lit "l") (.ofList [.lit "a", .lit "b"])).insert (.lit "m") ∅, false, 0, 2⟩,
    .sync]

theorem changedList_named :
    ListsNamed ((store .obliging).exec (store .obliging).start (changedList.take 3)) := by
  have hlive : ((store .obliging).exec (store .obliging).start (changedList.take 3)).grammars.keys =
      [.lit "g"] := by decide
  have hlists : (((store .obliging).exec (store .obliging).start
      (changedList.take 3)).grammars.lookup (.lit "g")).map (fun g => g.state.lists.keys) =
        some [.lit "k", .lit "l"] := by decide
  have hnames : (((store .obliging).exec (store .obliging).start
      (changedList.take 3)).shadowGrammars.lookup (.lit "g")).map (fun sh => sh.lists.keys) =
        some [.lit "m", .lit "l", .lit "k"] := by decide
  intro n shadow g hn _ hg _ l hl
  obtain rfl : n = .lit "g" := by
    have hmem := AList.mem_keys.1 (AList.lookup_isSome.1 (Option.isSome_of_eq_some hg))
    rw [hlive] at hmem
    exact List.mem_singleton.1 hmem
  rw [hg, Option.map_some, Option.some.injEq] at hlists
  rw [hn, Option.map_some, Option.some.injEq] at hnames
  rw [AList.lookup_eq_none, AList.mem_keys, hlists]
  rw [AList.lookup_eq_none, AList.mem_keys, hnames] at hl
  intro hmem
  rcases List.mem_pair.1 hmem with rfl | rfl <;> exact hl (by decide)

theorem listsExact_iff_changed :
    ListsExact changedList ((store .obliging).exec (store .obliging).start changedList) := by
  have hrun : (store .obliging).Run (store .obliging).start changedList :=
    ⟨fun _ => List.cons_ne_nil _ _, trivial, fun _ => List.cons_ne_nil _ _, trivial, trivial⟩
  refine (listsExact_iff Env.obliging_allZero hrun).2 (fun fs hfs => ?_) (changedList.take 3)
    List.prefix_rfl
  have hlen : fs.length < 4 := by
    have hle := hfs.length_le
    rw [List.length_append] at hle
    exact hle
  have htake := List.prefix_iff_eq_take.1 ((List.prefix_append _ _).trans hfs)
  rw [htake]
  match fs.length, hlen with
  | 0, _ => exact fun n shadow g hn => nomatch hn
  | 1, _ => exact fun n shadow g _ _ hg => nomatch hg
  | 2, _ => exact fun n shadow g hn => nomatch hn
  | 3, _ => exact changedList_named

end Draconity
