import Draconity.Types
import Draconity.Lib.Keyed

/-!
The engine, as far as Draconity sees it: what it holds, the calls it is asked for, and what a call
that returns `0` does.

Which return code a call gets is up to the engine: `Env.rc` may depend on the whole log of calls
so far, so quantifying over environments is quantifying over every sequence of return codes.  A
nonzero code means that the call had no effect.
-/

namespace Draconity

open Lib

/-- The three callbacks a grammar registers. -/
inductive Callback
  | endPhrase
  | phraseHypothesis
  | beginPhrase
  deriving DecidableEq

/-- The calls on grammars. The `dsx_dataptr` of a list is given by its entries, and the user
pointer of a callback, which only the callbacks read, is left out. -/
inductive GrammarOp
  | loadGrammar (blob : List UInt8)
  | register (cb : Callback) (h : Handle)
  | unregister (h : Handle) (key : ℕ)
  | destroy (h : Handle)
  | activate (h : Handle) (rule : CString)
  | deactivate (h : Handle) (rule : CString)
  | setList (h : Handle) (name : CString) (data : List CString)
  deriving DecidableEq

/-- The calls of the engine.  A call on a grammar carries the name of the grammar it is made for,
which the engine is not told. -/
inductive Call
  | grammar (name : CString) (op : GrammarOp)
  | validateWord (word : CString)
  | addTemporaryWord (word : CString)
  | deleteWord (word : CString)
  | resume (token : UInt64)
  | mimic (phrase : List (List UInt8))
  | setMicState (code : ℕ)
  deriving DecidableEq

/-- The calls made so far with their return codes, oldest first. -/
abbrev Log := List (Call × Int)

/-- One answer of `_DSXWordEnum_Next`: its return code, `size_needed`, and the words of the
buffer. -/
structure EnumBatch where
  err : Int
  size : UInt32
  words : List (List UInt8)

/-- What the code reads and does not determine: the answers of the engine, and the order in which
the hash maps are iterated over. -/
structure Env where
  /-- The return code of a call. -/
  rc : Log → Call → Int
  /-- What `_DSXEngine_ValidateWord` stores in `valid`. -/
  valid : Log → CString → Bool
  /-- What `_DSXEngine_GetLanguageID` stores, `-1` when it is not called. -/
  languageId : Log → Int
  /-- The engine exports the calls that edit the vocabulary. -/
  vocabulary : Bool
  /-- The answers of the word enumerator, `none` when there is none; after the last one,
  `size_needed` is `0`. -/
  enumWords : Log → Option (List EnumBatch)
  /-- The order of the lists of a grammar. -/
  listOrder : Log → List (Σ _ : CString, OrdSet CString) → List (Σ _ : CString, OrdSet CString)
  listOrder_perm : ∀ log l, (listOrder log l).Perm l
  /-- The order of `shadow_grammars`, at each sync. -/
  grammarOrder : ℕ → List (Σ _ : CString, GrammarState) → List (Σ _ : CString, GrammarState)
  grammarOrder_perm : ∀ n l, (grammarOrder n l).Perm l
  /-- The order of `shadow_words`, at each sync. -/
  wordOrder : ℕ → List (Σ _ : ClientId, WordState) → List (Σ _ : ClientId, WordState)
  wordOrder_perm : ∀ n l, (wordOrder n l).Perm l

/-- Every call returns `0`. -/
def Env.AllZero (E : Env) : Prop := ∀ log c, E.rc log c = 0

/-- The calls that register a callback, unregister one or destroy a grammar return `0`. -/
structure Env.Reliable (E : Env) : Prop where
  register : ∀ log name cb h, E.rc log (.grammar name (.register cb h)) = 0
  unregister : ∀ log name h key, E.rc log (.grammar name (.unregister h key)) = 0
  destroy : ∀ log name h, E.rc log (.grammar name (.destroy h)) = 0

theorem Env.AllZero.reliable {E : Env} (h : E.AllZero) : E.Reliable :=
  ⟨fun _ _ _ _ => h _ _, fun _ _ _ _ => h _ _, fun _ _ _ => h _ _⟩

/-- An engine that does what it is asked, and maps that are iterated over in the order of their
entries. -/
def Env.obliging : Env where
  rc _ _ := 0
  valid _ _ := true
  languageId _ := 0
  vocabulary := true
  enumWords _ := none
  listOrder _ l := l
  listOrder_perm _ _ := .refl _
  grammarOrder _ l := l
  grammarOrder_perm _ _ := .refl _
  wordOrder _ l := l
  wordOrder_perm _ _ := .refl _

theorem Env.obliging_allZero : Env.obliging.AllZero := fun _ _ => rfl

def Env.answering (rc : Int) : Env := { Env.obliging with rc := fun _ _ => rc }

/-- A grammar the engine holds: the name of the grammar it was loaded for, the blob, the active
rules, the lists and the registered callbacks with their keys. -/
structure Loaded where
  name : CString
  blob : List UInt8
  rules : OrdSet CString
  lists : AList fun _ : CString => List CString
  callbacks : List (ℕ × Callback)

/-- What the engine holds.  `next` is the next handle or callback key it gives out. -/
structure Dragon where
  log : Log
  loaded : AList fun _ : Handle => Loaded
  next : ℕ
  words : OrdSet CString

namespace Dragon

/-- The engine before Draconity has called it; no handle is null. -/
def init : Dragon where
  log := []
  loaded := ∅
  next := 1
  words := ∅

/-- A change of the grammar behind a handle, `none` to drop it. -/
def update (d : Dragon) (h : Handle) (f : Loaded → Option Loaded) : Dragon :=
  { d with
    loaded := match d.loaded.lookup h with
      | none => d.loaded
      | some L => match f L with
        | none => d.loaded.erase h
        | some L' => d.loaded.insert h L' }

/-- What a call on a grammar does when it succeeds. -/
def grammarEffect (d : Dragon) (name : CString) : GrammarOp → Dragon
  | .loadGrammar blob =>
    { d with
      loaded := d.loaded.insert d.next ⟨name, blob, ∅, ∅, []⟩
      next := d.next + 1 }
  | .register cb h =>
    { d.update h (fun L => some { L with callbacks := L.callbacks ++ [(d.next, cb)] }) with
      next := d.next + 1 }
  | .unregister h key =>
    d.update h fun L => some { L with callbacks := L.callbacks.filter fun c => c.1 ≠ key }
  | .destroy h => d.update h fun _ => none
  | .activate h rule => d.update h fun L => some { L with rules := L.rules.insert rule }
  | .deactivate h rule => d.update h fun L => some { L with rules := L.rules.erase rule }
  | .setList h name data => d.update h fun L => some { L with lists := L.lists.insert name data }

/-- What a call does when it succeeds. -/
def effect (d : Dragon) : Call → Dragon
  | .grammar name op => d.grammarEffect name op
  | .addTemporaryWord w => { d with words := d.words.insert w }
  | .deleteWord w => { d with words := d.words.erase w }
  | .validateWord _ | .resume _ | .mimic _ | .setMicState _ => d

/-- A call of the engine: its return code and what the engine holds afterwards. -/
def call (E : Env) (d : Dragon) (c : Call) : Int × Dragon :=
  let rc := E.rc d.log c
  (rc, { (if rc = 0 then d.effect c else d) with log := d.log ++ [(c, rc)] })

/-- No handle is given out twice. -/
def Fresh (d : Dragon) : Prop := ∀ h L, d.loaded.lookup h = some L → h < d.next

theorem fresh_init : init.Fresh := fun h L hL => by simp [init] at hL

theorem Fresh.lookup_next {d : Dragon} (hd : d.Fresh) : d.loaded.lookup d.next = none := by
  cases h : d.loaded.lookup d.next with
  | none => rfl
  | some L => exact absurd (hd _ _ h) (lt_irrefl _)

/-! ### What a call leaves -/

variable {E : Env} {d : Dragon} {c : Call} {h h' : Handle}

@[simp] theorem lookup_update (d : Dragon) (h h' : Handle) (f : Loaded → Option Loaded) :
    (d.update h f).loaded.lookup h' =
      if h' = h then (d.loaded.lookup h).bind f else d.loaded.lookup h' := by
  unfold update
  cases hL : d.loaded.lookup h with
  | none =>
    split_ifs with hh
    · subst hh; exact hL
    · rfl
  | some L =>
    cases hf : f L with
    | none => simp [hf, Keyed.lookup_erase_eq]
    | some L' => simp [hf, Keyed.lookup_insert_eq]

@[simp] theorem next_update (d : Dragon) (h : Handle) (f : Loaded → Option Loaded) :
    (d.update h f).next = d.next := rfl

@[simp] theorem log_call (E : Env) (d : Dragon) (c : Call) :
    (d.call E c).2.log = d.log ++ [(c, (d.call E c).1)] := rfl

theorem fst_call_allZero (hE : E.AllZero) (d : Dragon) (c : Call) : (d.call E c).1 = 0 := hE _ _

theorem loaded_call (E : Env) (d : Dragon) (c : Call) :
    (d.call E c).2.loaded = if (d.call E c).1 = 0 then (d.effect c).loaded else d.loaded := by
  unfold call; dsimp only; split_ifs <;> rfl

theorem next_call (E : Env) (d : Dragon) (c : Call) :
    (d.call E c).2.next = if (d.call E c).1 = 0 then (d.effect c).next else d.next := by
  unfold call; dsimp only; split_ifs <;> rfl

theorem next_le_call (d : Dragon) (c : Call) : d.next ≤ (d.call E c).2.next := by
  rw [next_call]
  split_ifs
  · cases c with
    | grammar n op => cases op <;> simp [effect, grammarEffect]
    | validateWord _ | addTemporaryWord _ | deleteWord _ | resume _ | mimic _ | setMicState _ =>
      exact le_rfl
  · exact le_rfl

theorem words_call (E : Env) (d : Dragon) (c : Call) :
    (d.call E c).2.words = if (d.call E c).1 = 0 then (d.effect c).words else d.words := by
  unfold call; dsimp only; split_ifs <;> rfl

theorem loaded_call_of_ne (hc : (d.call E c).1 ≠ 0) : (d.call E c).2.loaded = d.loaded := by
  rw [loaded_call, if_neg hc]

end Dragon

/-! ### The handle a call is about -/

def GrammarOp.handle : GrammarOp → Option Handle
  | .loadGrammar _ => none
  | .register _ h | .unregister h _ | .destroy h | .activate h _ | .deactivate h _
  | .setList h _ _ => some h

namespace Dragon

variable {E : Env} {d : Dragon} {h h' : Handle} {name : CString} {op : GrammarOp}

theorem lookup_call_of_ne (ho : op.handle = some h) (hh : h' ≠ h) :
    (d.call E (.grammar name op)).2.loaded.lookup h' = d.loaded.lookup h' := by
  rw [loaded_call]
  split_ifs
  · cases op with
    | loadGrammar blob => cases ho
    | register cb k | unregister k key | destroy k | activate k r | deactivate k r
    | setList k n l =>
      cases ho
      simp [effect, grammarEffect, hh]
  · rfl

theorem Fresh.call (hd : d.Fresh) (c : Call) : (d.call E c).2.Fresh := by
  intro h L hL
  rw [loaded_call] at hL
  rw [next_call]
  split_ifs at hL ⊢
  · cases c with
    | grammar name op =>
      have hbind : ∀ {k : Handle} {f : Loaded → Option Loaded},
          (if h = k then (d.loaded.lookup k).bind f else d.loaded.lookup h) = some L →
          h < d.next := by
        intro k f hk
        split_ifs at hk with hh
        · obtain ⟨L', hL', -⟩ := Option.bind_eq_some_iff.1 hk
          exact hh ▸ hd _ _ hL'
        · exact hd _ _ hk
      cases op with
      | loadGrammar blob =>
        simp only [effect, grammarEffect, Keyed.lookup_insert_eq] at hL ⊢
        split_ifs at hL with hh
        · exact hh ▸ Nat.lt_succ_self _
        · exact Nat.lt_succ_of_lt (hd _ _ hL)
      | register cb k =>
        simp only [effect, grammarEffect, lookup_update] at hL ⊢
        exact Nat.lt_succ_of_lt (hbind hL)
      | unregister k key | destroy k | activate k r | deactivate k r | setList k n l =>
        simp only [effect, grammarEffect, lookup_update, next_update] at hL ⊢
        exact hbind hL
    | validateWord w | addTemporaryWord w | deleteWord w | resume t | mimic p | setMicState m =>
      exact hd _ _ hL
  · exact hd _ _ hL

end Dragon

end Draconity
