import Draconity.ListBuffer
import Draconity.Objects
import Draconity.Results
import Draconity.System

/-!
The phrase callbacks: `phrase_begin`, `phrase_hypothesis` and `phrase_end`.

Each is called with the user pointer it was registered with, looks the grammar up by it, and sends one
message to the client of the grammar.  The results say where the phrases of the engine go, over all
histories of the store.
-/

namespace Draconity

open Lib

/-- What the engine tells a phrase callback: the fields of `dsx_end_phrase` and `dsx_hypothesis` that
are read. -/
structure PhraseEvent where
  flags : UInt32
  phrase : Buffer
  result : Result

/-- A message of the topic `phrase`. -/
structure PhraseMessage where
  cmd : String
  grammar : CString
  phrase : Option (List (List UInt8))
  words : Option (List WordDoc)
  wav : Option (List UInt8)
  deriving DecidableEq

/-- What reading a phrase depends on: the byte order, how times are converted, and how many entries a
phrase may have. -/
structure PhraseReader where
  order : ByteOrder
  ns : Int64 → Int64
  fuel : ℕ

/-- The messages that were sent, with the clients they are for. -/
abbrev PhrasesSent := List (PhraseMessage × ClientId)

/-- The data that `_DSXResult_GetWAV` gives, if it gives any. -/
def Result.wav (r : Result) : Option (List UInt8) :=
  if r.getWAV.1 = 0 then r.getWAV.2.filter fun data => data ≠ [] else none

/-- `phrase_publish`, `none` when it reads outside of what the engine gave it. -/
def phrasePublish (R : PhraseReader) (o : Objects) (key : Address) (e : PhraseEvent) (cmd : String)
    (useResult sendWav : Bool) : Option PhrasesSent :=
  match o.getGrammar key with
  | none => some []
  | some g =>
    if useResult then do
      let phrase ← phraseToBson R.order e.phrase R.fuel
      let words ← resultToBson R.ns e.result
      let wav := if sendWav then e.result.wav else none
      return [(⟨cmd, g.name, some phrase, some words, wav⟩, g.state.clientId)]
    else some [(⟨cmd, g.name, some [], none, none⟩, g.state.clientId)]

def phraseEnd (R : PhraseReader) (o : Objects) (key : Address) (e : PhraseEvent) :
    Option PhrasesSent :=
  let accept := e.flags &&& 1 = 1
  let ours := e.flags &&& 2 = 2
  phrasePublish R o key e "p.end" (accept && ours) true

def phraseHypothesis (R : PhraseReader) (o : Objects) (key : Address) (e : PhraseEvent) :
    Option PhrasesSent := phrasePublish R o key e "p.hypothesis" true false

def phraseBegin (o : Objects) (key : Address) : PhrasesSent :=
  match o.getGrammar key with
  | none => []
  | some g => [(⟨"p.begin", g.name, none, none, none⟩, g.state.clientId)]

namespace Callback

/-- The function that `load_grammar` registers for a callback. -/
def run (cb : Callback) (R : PhraseReader) (o : Objects) (key : Address) (e : PhraseEvent) :
    Option PhrasesSent :=
  match cb with
  | .endPhrase => phraseEnd R o key e
  | .phraseHypothesis => Draconity.phraseHypothesis R o key e
  | .beginPhrase => some (phraseBegin o key)

def cmd : Callback → String
  | .endPhrase => "p.end"
  | .phraseHypothesis => "p.hypothesis"
  | .beginPhrase => "p.begin"

/-- What the callback reads of the event can be read: of a hypothesis always, and of the end of a
phrase when it is accepted and ours, the phrase and the result. -/
def Readable (cb : Callback) (R : PhraseReader) (e : PhraseEvent) : Prop :=
  cb = .phraseHypothesis ∨ cb = .endPhrase ∧ e.flags &&& 1 = 1 ∧ e.flags &&& 2 = 2 →
    (phraseToBson R.order e.phrase R.fuel).isSome ∧ (resultToBson R.ns e.result).isSome

end Callback

variable {R : PhraseReader} {o : Objects} {key : Address} {e : PhraseEvent} {g : Grammar}
  {cb : Callback} {cmd : String} {useResult sendWav : Bool} {n : CString}

/-! ### One callback -/

/-- The message is the one that is asked for, under the name of the grammar. -/
def PhraseMessage.Is (m : PhraseMessage) (cmd : String) (grammar : CString) : Prop :=
  m.cmd = cmd ∧ m.grammar = grammar

theorem phrasePublish_of_some (hg : o.getGrammar key = some g)
    (hread : useResult = true → (phraseToBson R.order e.phrase R.fuel).isSome ∧
      (resultToBson R.ns e.result).isSome) :
    ∃ m : PhraseMessage, phrasePublish R o key e cmd useResult sendWav =
      some [(m, g.state.clientId)] ∧ m.Is cmd g.name := by
  unfold phrasePublish
  rw [hg]
  dsimp only
  by_cases huse : useResult = true
  · obtain ⟨hphrase, hresult⟩ := hread huse
    obtain ⟨phrase, hphrase⟩ := Option.isSome_iff_exists.1 hphrase
    obtain ⟨words, hwords⟩ := Option.isSome_iff_exists.1 hresult
    rw [if_pos huse, hphrase, hwords]
    exact ⟨_, rfl, rfl, rfl⟩
  · rw [if_neg huse]
    exact ⟨_, rfl, rfl, rfl⟩

/-- **A callback that finds its grammar** sends one message, to the client of the grammar. -/
theorem Callback.run_of_some (hg : o.getGrammar key = some g) (hread : cb.Readable R e) :
    ∃ m : PhraseMessage, cb.run R o key e = some [(m, g.state.clientId)] ∧ m.Is cb.cmd g.name := by
  cases cb with
  | endPhrase =>
    refine phrasePublish_of_some hg fun h => hread (.inr ⟨rfl, ?_⟩)
    simpa using h
  | phraseHypothesis => exact phrasePublish_of_some hg fun _ => hread (.inl rfl)
  | beginPhrase =>
    unfold Callback.run phraseBegin
    rw [hg]
    exact ⟨_, rfl, rfl, rfl⟩

/-! ### Whose phrases they are -/

/-- A live grammar without a pending update follows the last set accepted for its name. -/
def Settled (ops : List Op) (s : State) : Prop :=
  ∀ n g, s.grammars.lookup n = some g → s.shadowGrammars.lookup n = none →
    ∃ shadow, lastSet n ops = some shadow ∧ Follows g shadow

variable {E : Env} {A : Allocator} {s : State} {ops : List Op}

theorem settled_sync (hl : PendingLast ops s) (hs : Settled ops s) :
    Settled (ops ++ [.sync]) (syncState E s) := by
  intro n g hg _
  rw [lastSet_snoc_of_none rfl]
  cases hpend : s.shadowGrammars.lookup n with
  | none =>
    have hsame : (syncState E s).grammars.lookup n = s.grammars.lookup n :=
      congrArg Prod.fst (syncState_record_of_none hpend)
    exact hs n g (hsame ▸ hg) hpend
  | some shadow =>
    obtain ⟨r, -, -, -, hsynced⟩ := syncState_pending (E := E) hpend
    cases hsynced with
    | unloaded hu hr gone => exact nomatch gone.symm.trans hg
    | failed hu hr errors gone => exact nomatch gone.symm.trans hg
    | set g' hu hr live follows =>
      obtain rfl := Option.some.inj (live.symm.trans hg)
      exact ⟨shadow, hl n shadow hpend hu, follows⟩

theorem settled_snoc (hl : PendingLast ops s) (hs : Settled ops s) {op : Op}
    (ho : op.Enabled s) : Settled (ops ++ [op]) (op.apply E s) := by
  cases op with
  | sync => exact settled_sync hl hs
  | setGrammar n shadow =>
    intro k g hg hk
    rw [Op.apply, lookup_setShadowGrammar] at hk
    by_cases hkn : k = n
    · rw [if_pos hkn] at hk
      cases hk
    · rw [if_neg hkn] at hk
      rw [lastSet_snoc_of_none (Op.setFor_of_ne hkn)]
      exact hs k g ((setShadowGrammar_live n shadow s).1 ▸ hg) hk
  | setWords c tid ws =>
    intro k g hg hk
    have hsame := setShadowWords_sameGrammars c tid ws s
    rw [lastSet_snoc_of_none rfl]
    exact hs k g (hsame.grammars ▸ hg) (hsame.shadowGrammars ▸ hk)
  | disconnect c stack =>
    intro k g hg hk
    obtain ⟨howns, hother⟩ := lookup_clearClientState c stack s k
    rw [lastSet_snoc_of_none rfl]
    by_cases hown : s.Owns c k
    · rw [Op.apply, howns hown] at hk
      cases hk
    · exact hs k g hg ((hother hown).symm.trans hk)
  | other s' =>
    intro k g hg hk
    rw [lastSet_snoc_of_none rfl]
    exact hs k g (ho.grammars ▸ hg) (ho.shadowGrammars ▸ hk)

theorem settled_of_run (hr : (store E).Run (store E).start ops) :
    Settled ops ((store E).exec (store E).start ops) := by
  have hboth : PendingLast ops ((store E).exec (store E).start ops) ∧
      Settled ops ((store E).exec (store E).start ops) := by
    refine hr.snoc_induction (P := fun fs => PendingLast fs ((store E).exec (store E).start fs) ∧
      Settled fs ((store E).exec (store E).start fs))
      ⟨fun _ _ h => (nomatch h), fun _ _ h _ => nomatch h⟩ fun fs op _ ho ih => ?_
    rw [Machine.exec_snoc]
    exact ⟨pendingLast_snoc ih.1 ho, settled_snoc ih.1 ih.2 ho⟩
  exact hboth.2

/-! ### Over all runs -/

namespace Objects

/-- A run of the objects is one of the store. -/
theorem run_store (hr : (machine E A).Run (machine E A).start ops) :
    (store E).Run (store E).start ops ∧
      ((machine E A).exec (machine E A).start ops).state = (store E).exec (store E).start ops := by
  obtain ⟨hrun, hexec⟩ := (simulates E A).run hr
  rw [Machine.events_self] at hrun hexec
  exact ⟨hrun, hexec.symm⟩

end Objects

/-- **Where the phrases of a live grammar go.**  After any history of the store, whatever the calls
returned and wherever the objects were put: each callback on the handle of a live grammar sends one
message for each event it can read, under the name of this grammar and to its client.  When no update
of the name is pending, that is the client of the last set that was accepted for it. -/
theorem phrase_routed (hr : (Objects.machine E A).Run (Objects.machine E A).start ops) :
    let o := (Objects.machine E A).exec (Objects.machine E A).start ops
    ∀ n g, o.state.grammars.lookup n = some g →
      (∀ key cb, (key, cb) ∈ o.state.dragon.callbacksOn g.handle →
        ∀ (R : PhraseReader) (e : PhraseEvent), cb.Readable R e →
          ∃ m : PhraseMessage, cb.run R o (o.user key) e = some [(m, g.state.clientId)] ∧
            m.Is cb.cmd n) ∧
      (o.state.shadowGrammars.lookup n = none →
        ∃ shadow, lastSet n ops = some shadow ∧ shadow.clientId = g.state.clientId) := by
  intro o n g hg
  have hplaced : Objects.Placed o := Objects.placed_of_reachable hr.reachable
  obtain ⟨hrun, hstate⟩ := Objects.run_store hr
  have hname : g.name = n := by
    refine (accounted_of_reachable hrun.reachable).name n g ?_
    rw [← hstate]
    exact hg
  refine ⟨fun key cb hc R e hread => ?_, fun hpend => ?_⟩
  · rw [← hname]
    exact Callback.run_of_some (hplaced.getGrammar_eq hg hc) hread
  · obtain ⟨shadow, hlast, hfollows⟩ := settled_of_run hrun n g (hstate ▸ hg) (hstate ▸ hpend)
    exact ⟨shadow, hlast, hfollows.clientId.symm⟩

def Result.empty : Result where
  needed := (0, 0)
  bestPathWord n := (0, List.replicate n 0, 0)
  length_bestPathWord _ := List.length_replicate
  entries_lt _ := (by decide : 0 / 4 < 2 ^ 32)
  getWordNode _ := none
  getWAV := (1, none)

def PhraseReader.plain : PhraseReader := ⟨.little, id, 1⟩

def PhraseEvent.rejected : PhraseEvent := ⟨0, [], .empty⟩

/-- The end of a phrase is told to the client that has just set the grammar. -/
theorem phrase_routed_first :
    let o := (Objects.machine .obliging .next).exec (Objects.machine .obliging .next).start firstLoad
    ∃ m : PhraseMessage, Callback.endPhrase.run .plain o (o.user 2) .rejected = some [(m, 0)] ∧
      m.Is "p.end" (.lit "g") := by
  intro o
  have hr : (Objects.machine .obliging .next).Run (Objects.machine .obliging .next).start
      firstLoad := ⟨fun _ => List.cons_ne_nil _ _, trivial, trivial⟩
  have hlive : (o.state.grammars.lookup (.lit "g")).map (fun g => (g.handle, g.state.clientId)) =
      some (1, 0) := by decide
  obtain ⟨g, hg, heq⟩ := Option.map_eq_some_iff.1 hlive
  obtain ⟨hhandle, hclient⟩ := Prod.mk.inj heq
  have hread : Callback.endPhrase.Readable .plain .rejected := by
    rintro (h | ⟨-, h, -⟩)
    · cases h
    · exact absurd h (by decide)
  obtain ⟨m, hm, his⟩ := (phrase_routed hr (.lit "g") g hg).1 2 .endPhrase
    (hhandle ▸ (by decide : (2, Callback.endPhrase) ∈ o.state.dragon.callbacksOn 1)) .plain
    .rejected hread
  exact ⟨m, hclient ▸ hm, his⟩

/-! ### Phrases that are not those of a live grammar -/

/-- With unloads that succeed and callbacks that are all registered, the engine holds nothing but the
live grammars. -/
theorem nothingLeft_of_registers (hE : E.Unloads) (hr : (store E).Run (store E).start ops)
    (hreg : ¬ (store E).Occurs (RegisterFails E) (store E).start ops) :
    NothingLeft ((store E).exec (store E).start ops) := by
  have hgood := hr.good_iff (I := fun s => Accounted s ∧ PendingBlobs s)
    (G := fun s => ∀ n, s.Alone n)
    (fun _ _ hs ho => ⟨⟨accounted_step hs.1 hs.2 ho, pendingBlobs_step hs.2 ho⟩,
      orphans_step hE hs.1 hs.2 ho⟩) ⟨accounted_init 0, pendingBlobs_init 0⟩
  refine (accounted_of_reachable hr.reachable).alone_iff.2 (hgood.2 ⟨fun n h hh => ?_, hreg⟩)
  exact nomatch hh

/-- **No phrase goes astray** when unloads succeed and every sync could register its callbacks: each
live grammar has its three callbacks, and whichever callback the engine calls, one message is sent, under
the name of a live grammar that is loaded on the handle, and to its client. -/
theorem phrase_complete (hE : E.Unloads)
    (hr : (Objects.machine E A).Run (Objects.machine E A).start ops)
    (hreg : ¬ (store E).Occurs (RegisterFails E) (store E).start ops) :
    let o := (Objects.machine E A).exec (Objects.machine E A).start ops
    (∀ n g, o.state.grammars.lookup n = some g →
      (o.state.dragon.callbacksOn g.handle).map Prod.snd =
        [.endPhrase, .phraseHypothesis, .beginPhrase]) ∧
      ∀ h key cb, (key, cb) ∈ o.state.dragon.callbacksOn h →
        ∃ n g, o.state.grammars.lookup n = some g ∧ g.handle = h ∧
          ∀ (R : PhraseReader) (e : PhraseEvent), cb.Readable R e →
            ∃ m : PhraseMessage, cb.run R o (o.user key) e = some [(m, g.state.clientId)] ∧
              m.Is cb.cmd n := by
  intro o
  have hplaced : Objects.Placed o := Objects.placed_of_reachable hr.reachable
  obtain ⟨hrun, hstate⟩ := Objects.run_store hr
  have hstate : o.state = (store E).exec (store E).start ops := hstate
  have hleft : NothingLeft o.state := hstate ▸ nothingLeft_of_registers hE hrun hreg
  have haccounted : Accounted o.state := hstate ▸ accounted_of_reachable hrun.reachable
  refine ⟨fun n g hg => ?_, fun h key cb hc => ?_⟩
  · obtain ⟨L, hL, hcallbacks⟩ := hleft.callbacks n g hg
    rw [Dragon.callbacksOn_of_lookup hL, hcallbacks]
    rfl
  · obtain ⟨L, hL⟩ := Dragon.loaded_of_mem_callbacksOn hc
    -- what is loaded is a live grammar, since nothing was left behind
    obtain ⟨n, g, hg, rfl⟩ := (hleft.loaded h).1 (hL ▸ rfl)
    refine ⟨n, g, hg, rfl, fun R e hread => ?_⟩
    rw [← haccounted.name n g hg]
    exact Callback.run_of_some (hplaced.getGrammar_eq hg hc) hread

def Env.halfDeaf : Env :=
  { Env.obliging with
    rc := fun _ c => match c with
      | .grammar n (.register .phraseHypothesis _) => if n = .lit "a" then 1 else 0
      | _ => 0 }

/-- A grammar of one client that cannot be loaded, and then one of another client. -/
def strayPhrase : List Op :=
  [.setGrammar (.lit "a") ⟨[1], ∅, ∅, false, 0, 1⟩, .sync,
    .setGrammar (.lit "b") ⟨[2], ∅, ∅, false, 1, 1⟩, .sync]

/-- The callback that was left behind has the address at which the object of the other grammar is made:
what the first client's blob recognises is told to the second. -/
example :
    let o := (Objects.machine .halfDeaf .next).exec (Objects.machine .halfDeaf .next).start strayPhrase
    o.state.dragon.nameOf 1 = some (.lit "a") ∧ (2, .endPhrase) ∈ o.state.dragon.callbacksOn 1 ∧
      Callback.endPhrase.run .plain o (o.user 2) .rejected =
        some [(⟨"p.end", .lit "b", some [], none, none⟩, 1)] := by decide

theorem phrase_complete_first :
    let o := (Objects.machine .obliging .next).exec (Objects.machine .obliging .next).start firstLoad
    (o.state.dragon.callbacksOn 1).map Prod.snd = [.endPhrase, .phraseHypothesis, .beginPhrase] := by
  intro o
  have hr : (Objects.machine .obliging .next).Run (Objects.machine .obliging .next).start
      firstLoad := ⟨fun _ => List.cons_ne_nil _ _, trivial, trivial⟩
  have hreg : ¬ (store .obliging).Occurs (RegisterFails .obliging) (store .obliging).start
      firstLoad := by
    rintro (h | ⟨c, hc, -, hne⟩ | h)
    · exact h
    · revert c
      decide
    · exact h
  have hlive : (o.state.grammars.lookup (.lit "g")).map Grammar.handle = some 1 := by decide
  obtain ⟨g, hg, hhandle⟩ := Option.map_eq_some_iff.1 hlive
  exact hhandle ▸
    (phrase_complete ⟨fun _ _ _ _ => rfl, fun _ _ _ => rfl⟩ hr hreg).1 (.lit "g") g hg

end Draconity
