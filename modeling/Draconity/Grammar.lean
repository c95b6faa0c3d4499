import Draconity.Dragon

/-!
Bringing one live grammar in line with its shadow state: the functions of `draconity.cpp` that
work on a `Grammar` and call the engine, in the order of the source.

Each takes the grammar and what the engine holds, and returns them as they are afterwards, with
the return code first where the source returns one.
-/

namespace Draconity

open Lib

/-- `unload_grammar`: unregister the callbacks, destroy the grammar and clear its record.  The
first call that fails ends it. -/
def unloadGrammar (E : Env) (g : Grammar) (d : Dragon) : Int × Grammar × Dragon :=
  let r₁ := d.call E (.grammar g.name (.unregister g.handle g.endkey))
  if r₁.1 ≠ 0 then (r₁.1, g, r₁.2) else
  let r₂ := r₁.2.call E (.grammar g.name (.unregister g.handle g.hypokey))
  if r₂.1 ≠ 0 then (r₂.1, g, r₂.2) else
  let r₃ := r₂.2.call E (.grammar g.name (.unregister g.handle g.beginkey))
  if r₃.1 ≠ 0 then (r₃.1, g, r₃.2) else
  let r₄ := r₃.2.call E (.grammar g.name (.destroy g.handle))
  if r₄.1 ≠ 0 then (r₄.1, g, r₄.2) else
  (0,
    { g with
      state := { g.state with activeRules := ∅, lists := ∅, blob := [], unload := true }
      enabled := false },
    r₄.2)

/-- The `if (grammar->enabled) unload_grammar(grammar)` of `sync_grammar` and `remove_grammar`,
which both ignore the return code. -/
def unloadIfEnabled (E : Env) (g : Grammar) (d : Dragon) : Grammar × Dragon :=
  if g.enabled then (unloadGrammar E g d).2 else (g, d)

/-- `load_grammar`: load the blob and register the callbacks.  The grammar is enabled when all
four calls succeed; the first that fails is recorded and ends it. -/
def loadGrammar (E : Env) (g : Grammar) (blob : List UInt8) (d : Dragon) :
    Int × Grammar × Dragon :=
  let r₁ := d.call E (.grammar g.name (.loadGrammar blob))
  if r₁.1 ≠ 0 then
    (r₁.1, g.recordError "grammar" "error loading grammar" r₁.1 g.name, r₁.2) else
  let g₁ := { g with handle := d.next, state := { g.state with blob := blob } }
  let r₂ := r₁.2.call E (.grammar g.name (.register .endPhrase g₁.handle))
  if r₂.1 ≠ 0 then
    (r₂.1, g₁.recordError "grammar" "error registering end phrase callback" r₂.1 g.name, r₂.2) else
  let g₂ := { g₁ with endkey := r₁.2.next }
  let r₃ := r₂.2.call E (.grammar g.name (.register .phraseHypothesis g₁.handle))
  if r₃.1 ≠ 0 then
    (r₃.1, g₂.recordError "grammar" "error registering phrase hypothesis callback" r₃.1 g.name,
      r₃.2) else
  let g₃ := { g₂ with hypokey := r₂.2.next }
  let r₄ := r₃.2.call E (.grammar g.name (.register .beginPhrase g₁.handle))
  if r₄.1 ≠ 0 then
    (r₄.1, g₃.recordError "grammar" "error registering begin phrase callback" r₄.1 g.name,
      r₄.2) else
  (0, { g₃ with beginkey := r₃.2.next, enabled := true }, r₄.2)

def activateRule (E : Env) (p : Grammar × Dragon) (rule : CString) : Grammar × Dragon :=
  let r := p.2.call E (.grammar p.1.name (.activate p.1.handle rule))
  if r.1 ≠ 0 then (p.1.recordError "rule" "error activating rule" r.1 rule, r.2)
  else
    ({ p.1 with
      state := { p.1.state with activeRules := p.1.state.activeRules.insert rule } }, r.2)

def deactivateRule (E : Env) (p : Grammar × Dragon) (rule : CString) : Grammar × Dragon :=
  let r := p.2.call E (.grammar p.1.name (.deactivate p.1.handle rule))
  if r.1 ≠ 0 then (p.1.recordError "rule" "error deactivating rule" r.1 rule, r.2)
  else
    ({ p.1 with
      state := { p.1.state with activeRules := p.1.state.activeRules.erase rule } }, r.2)

/-- `sync_rules`: activate the rules that are missing, then deactivate those that are left over. -/
def syncRules (E : Env) (g : Grammar) (shadow : GrammarState) (d : Dragon) :
    Grammar × Dragon :=
  let rulesToEnable := shadow.activeRules.diff g.state.activeRules
  let rulesToDisable := g.state.activeRules.diff shadow.activeRules
  rulesToDisable.toList.foldl (deactivateRule E)
    (rulesToEnable.toList.foldl (activateRule E) (g, d))

/-- The rules of `sync_grammar`, left alone when they are those of the shadow state. -/
def syncRulesIfChanged (E : Env) (g : Grammar) (shadow : GrammarState) (d : Dragon) :
    Grammar × Dragon :=
  if g.state.activeRules ≠ shadow.activeRules then syncRules E g shadow d else (g, d)

def setList (E : Env) (p : Grammar × Dragon) (name : CString) (list : OrdSet CString) :
    Grammar × Dragon :=
  let r := p.2.call E (.grammar p.1.name (.setList p.1.handle name list.toList))
  if r.1 ≠ 0 then (p.1.recordError "list" "error setting list" r.1 name, r.2)
  else ({ p.1 with state := { p.1.state with lists := p.1.state.lists.insert name list } }, r.2)

/-- One pass of the loop of `sync_grammar` over the lists. -/
def syncList (E : Env) (p : Grammar × Dragon) (e : Σ _ : CString, OrdSet CString) :
    Grammar × Dragon :=
  if p.1.state.lists.lookup e.1 ≠ some e.2 then setList E p e.1 e.2 else p

/-- The loop of `sync_grammar` over the lists. -/
def syncLists (E : Env) (shadow : GrammarState) (p : Grammar × Dragon) : Grammar × Dragon :=
  (E.listOrder p.2.log shadow.lists.entries).foldl (syncList E) p

/-- The second half of `sync_grammar`, once the blob is the one of the shadow state. -/
def syncContents (E : Env) (g : Grammar) (shadow : GrammarState) (d : Dragon) :
    Grammar × Dragon :=
  let p := syncLists E shadow (syncRulesIfChanged E g shadow d)
  ({ p.1 with state := { p.1.state with clientId := shadow.clientId, tid := shadow.tid } }, p.2)

/-- `sync_grammar`: a changed blob takes a reload, and a load that fails ends it. -/
def syncGrammar (E : Env) (g : Grammar) (shadow : GrammarState) (d : Dragon) :
    Grammar × Dragon :=
  let g := { g with errors := [] }
  if g.state.blob ≠ shadow.blob then
    let u := unloadIfEnabled E g d
    let l := loadGrammar E u.1 shadow.blob u.2
    if l.1 ≠ 0 then l.2 else syncContents E l.2.1 shadow l.2.2
  else syncContents E g shadow d

end Draconity
