import Draconity.Hooks

/-!
`draconity_install`: the functions of the engine are looked up by `Platform::loadSymbols`, and after that
`Platform::applyHooks` patches some of them.

Draconity calls the engine by the pointers it has loaded, so that its own calls of a function with a hook
go to the hook as those of Dragon do.  What the hook calls instead is in the original
(`install_routed`).
-/

namespace Draconity

open Lib

variable {ρ : Type*}

/-! ### The model -/

/-- `SymbolLoad`; the pointer it sets is the variable of a name. -/
structure SymbolLoad where
  name : CString
  loaded : Bool
  ptr : CString

/-- The list of symbols, and the variables; `0` is the null pointer. -/
structure Symbols where
  loads : List SymbolLoad
  globals : CString → ℕ

/-- A loop over the list that calls `setAddr` for the symbols that have an address. -/
def setAddrs (addr : CString → Option ℕ) : List SymbolLoad → (CString → ℕ) → Symbols
  | [], globals => ⟨[], globals⟩
  | l :: ls, globals =>
    match addr l.name with
    | some a =>
      let s := setAddrs addr ls (Function.update globals l.ptr a)
      { s with loads := { l with loaded := true } :: s.loads }
    | none =>
      let s := setAddrs addr ls globals
      { s with loads := l :: s.loads }

/-- The callback that `loadSymbols` gives to `walk_image`. -/
def loadSymbol (s : Symbols) (x : CString × ℕ) : Symbols :=
  setAddrs (fun name => if x.1 = name then some x.2 else none) s.loads s.globals

def loadSymbols (s : Symbols) : Module → ℕ × Symbols
  | .image symbols => (0, (symbols.getD []).foldl loadSymbol s)
  | .library none => (1, s)
  | .library (some getProcAddress) => (0, setAddrs getProcAddress s.loads s.globals)

/-- `server_hooks`, with the addresses of the hooks. -/
def serverHooks (arch : Arch) (target : CString → ℕ) : List NamedHook :=
  ["DSXEngine_New", "DSXEngine_Create", "DSXEngine_GetMicState", "DSXEngine_SetMicState",
    "DSXEngine_LoadGrammar"].map fun name => ⟨.lit name, .new arch (target (.lit name))⟩

/-- `server_syms`.  The variables are named as the functions are, but for the `_` in front. -/
def serverSyms : List SymbolLoad :=
  ["DSXEngine_Create", "DSXEngine_New", "DSXEngine_AddWord", "DSXEngine_AddTemporaryWord",
    "DSXEngine_DeleteWord", "DSXEngine_ValidateWord", "DSXEngine_EnumWords", "DSXWordEnum_GetCount",
    "DSXWordEnum_Next", "DSXWordEnum_End", "DSXEngine_GetCurrentSpeaker", "DSXEngine_GetLanguageID",
    "DSXEngine_SetMicState", "DSXEngine_GetMicState", "DSXEngine_LoadGrammar", "DSXEngine_Mimic",
    "DSXEngine_Pause", "DSXEngine_RegisterAttribChangedCallback",
    "DSXEngine_RegisterMimicDoneCallback", "DSXEngine_RegisterPausedCallback", "DSXEngine_Resume",
    "DSXEngine_ResumeRecognition", "DSXEngine_SetBeginPhraseCallback",
    "DSXEngine_SetEndPhraseCallback", "DSXEngine_SetStringValue", "DSXEngine_GetValue",
    "DSXEngine_GetParam", "DSXEngine_DestroyParam", "DSXFileSystem_PreferenceGetValue",
    "DSXFileSystem_PreferenceSetValue", "DSXFileSystem_SetResultsDirectory",
    "DSXFileSystem_SetUsersDirectory", "DSXFileSystem_SetVocabsLocation", "DSXGrammar_Activate",
    "DSXGrammar_Deactivate", "DSXGrammar_Destroy", "DSXGrammar_GetList",
    "DSXGrammar_RegisterBeginPhraseCallback", "DSXGrammar_RegisterEndPhraseCallback",
    "DSXGrammar_RegisterPhraseHypothesisCallback", "DSXGrammar_SetApplicationName",
    "DSXGrammar_SetApplicationName", "DSXGrammar_SetList", "DSXGrammar_SetPriority",
    "DSXGrammar_SetSpecialGrammar", "DSXGrammar_Unregister", "DSXResult_GetWAV",
    "DSXResult_BestPathWord", "DSXResult_GetWordNode", "DSXResult_Destroy"].map
      fun name => ⟨.lit name, false, .lit name⟩

/-- `draconity_install`, in a build for one platform: whether it goes on to `draconity_init`, the symbols
and the process; `none` when a `setup` faults. -/
def draconityInstall (H : Host) (s : Symbols) (p : Process) (m : Module) :
    Option (Bool × Symbols × Process) :=
  let r := loadSymbols s m
  (applyHooks H p m).map fun r' => (r.1 ||| r'.1 = 0, r.2, r'.2)

variable {H : Host} {p q : Process} {i : ℕ} {P : Processor ρ} {setRax : ℕ → ρ → ρ} {m : Module}
  {s : Symbols} {l : SymbolLoad} {name : CString}

/-! ### What is loaded -/

/-- Each symbol is loaded into the variable of its own name. -/
def Symbols.Named (s : Symbols) : Prop := ∀ l ∈ s.loads, l.ptr = l.name

/-- What becomes of the symbols when functions are found at addresses, one after the other: the last one
stays. -/
structure Resolves (s : Symbols) (addrs : CString → List ℕ) (s' : Symbols) : Prop where
  loads : s'.loads = s.loads.map fun l => { l with loaded := l.loaded || (addrs l.name).getLast?.isSome }
  globals : ∀ name ∈ s.loads.map SymbolLoad.name,
    s'.globals name = (addrs name).getLast?.getD (s.globals name)

theorem setAddrs_of_notMem {addr : CString → Option ℕ} {ls : List SymbolLoad} {globals : CString → ℕ}
    (hptr : ∀ l ∈ ls, l.ptr ≠ name) : (setAddrs addr ls globals).globals name = globals name := by
  induction ls generalizing globals with
  | nil => rfl
  | cons l ls ih =>
    obtain ⟨hl, hls⟩ := List.forall_mem_cons.1 hptr
    unfold setAddrs
    split
    · exact (ih hls).trans (Function.update_of_ne (Ne.symm hl) ..)
    · exact ih hls

theorem resolves_setAddrs {addr : CString → Option ℕ} (hs : s.Named) :
    Resolves s (fun name => (addr name).toList) (setAddrs addr s.loads s.globals) := by
  obtain ⟨ls, globals⟩ := s
  have hlast : ∀ name, ((addr name).toList).getLast? = addr name := fun name => by
    cases addr name <;> rfl
  refine ⟨?_, fun name hname => ?_⟩
  · induction ls generalizing globals with
    | nil => rfl
    | cons l ls ih =>
      have hls := fun globals => ih globals fun l' h => hs l' (List.mem_cons_of_mem _ h)
      rw [List.map_cons, hlast]
      unfold setAddrs
      cases addr l.name with
      | none => simpa using hls globals
      | some a => simpa using hls (Function.update globals l.ptr a)
  · rw [hlast]
    show _ = (addr name).getD (globals name)
    induction ls generalizing globals with
    | nil => cases hname
    | cons l ls ih =>
      have hl : l.ptr = l.name := hs l (List.mem_cons_self ..)
      have hls : ∀ l' ∈ ls, l'.ptr = l'.name := fun l' h => hs l' (List.mem_cons_of_mem _ h)
      by_cases hmem : name ∈ ls.map SymbolLoad.name
      · -- a later symbol of the list has the name
        have ih := fun globals => ih globals hls hmem
        unfold setAddrs
        cases ha : addr l.name with
        | none => exact ih globals
        | some a =>
          rw [ih, Function.update_apply, hl]
          split_ifs with hname
          · rw [hname, ha]
            rfl
          · rfl
      · have hname : name = l.name := (List.mem_cons.1 hname).resolve_right hmem
        subst hname
        have hptr : ∀ l' ∈ ls, l'.ptr ≠ l.name := fun l' h heq =>
          hmem (List.mem_map.2 ⟨l', h, (hls l' h).symm.trans heq⟩)
        unfold setAddrs
        cases ha : addr l.name with
        | none => exact setAddrs_of_notMem hptr
        | some a => exact (setAddrs_of_notMem hptr).trans (hl ▸ Function.update_self ..)

theorem Resolves.named {addrs : CString → List ℕ} {s' : Symbols} (h : Resolves s addrs s') (hs : s.Named) :
    s'.Named := by
  intro l' hl'
  rw [h.loads] at hl'
  obtain ⟨l, hl, rfl⟩ := List.mem_map.1 hl'
  exact hs l hl

theorem Resolves.trans {addrs addrs' : CString → List ℕ} {s' s'' : Symbols} (h : Resolves s addrs s')
    (h' : Resolves s' addrs' s'') : Resolves s (fun name => addrs name ++ addrs' name) s'' := by
  have hlast : ∀ name, (addrs name ++ addrs' name).getLast? =
      (addrs' name).getLast?.or (addrs name).getLast? := fun name => List.getLast?_append
  refine ⟨?_, fun name hname => ?_⟩
  · rw [h'.loads, h.loads, List.map_map]
    refine List.map_congr_left fun l _ => ?_
    simp [hlast, Option.isSome_or, Bool.or_assoc, Bool.or_comm (addrs l.name).getLast?.isSome]
  · have hname' : name ∈ s'.loads.map SymbolLoad.name := by
      rw [h.loads, List.map_map]
      exact hname
    rw [h'.globals name hname', h.globals name hname, hlast]
    cases (addrs' name).getLast? <;> rfl

/-- **What `loadSymbols` loads**: for each symbol the last function of its name that is met. -/
theorem resolves_loadSymbols (hs : s.Named) (m : Module) : Resolves s m.addrs (loadSymbols s m).2 := by
  have hnil : ∀ s, Resolves s (fun _ => []) s := fun s => ⟨by simp, fun _ _ => rfl⟩
  match m with
  | .image symbols =>
    show Resolves s (fun name => (symbols.getD []).flatMap fun x => if name = x.1 then [x.2] else [])
      ((symbols.getD []).foldl loadSymbol s)
    induction symbols.getD [] generalizing s with
    | nil => exact hnil s
    | cons x xs ih =>
      have hx : Resolves s (fun name => if name = x.1 then [x.2] else []) (loadSymbol s x) := by
        have haddr : (fun name => if name = x.1 then [x.2] else []) =
            fun name => (if x.1 = name then some x.2 else none).toList := by
          funext name
          by_cases h : name = x.1
          · rw [if_pos h, if_pos h.symm]
            rfl
          · rw [if_neg h, if_neg (Ne.symm h)]
            rfl
        rw [haddr]
        exact resolves_setAddrs hs
      exact hx.trans (ih (hx.named hs))
  | .library none => exact hnil s
  | .library (some _) => exact resolves_setAddrs hs

theorem rc_loadSymbols : (loadSymbols s m).1 = 0 ↔ m ≠ .library none := by
  unfold loadSymbols
  split <;> simp

theorem draconityInstall_of_applyHooks (h : applyHooks H p m = some (0, q)) (hm : m ≠ .library none) :
    draconityInstall H s p m = some (true, (loadSymbols s m).2, q) := by
  unfold draconityInstall
  rw [h]
  simp [rc_loadSymbols.2 hm]

/-! ### The hooks and what is loaded -/

theorem named_serverSyms (globals : CString → ℕ) : Symbols.Named ⟨serverSyms, globals⟩ := by
  intro l hl
  obtain ⟨name, -, rfl⟩ := List.mem_map.1 hl
  rfl

theorem serverHooks_fresh {arch : Arch} {target : CString → ℕ} {x : NamedHook}
    (hx : x ∈ serverHooks arch target) : x.hook = .new arch (target x.name) := by
  obtain ⟨name, -, rfl⟩ := List.mem_map.1 hx
  rfl

theorem name_mem_serverSyms {arch : Arch} {target : CString → ℕ} {x : NamedHook}
    (hx : x ∈ serverHooks arch target) : x.name ∈ serverSyms.map SymbolLoad.name := by
  obtain ⟨name, hname, rfl⟩ := List.mem_map.1 hx
  have hsub : ∀ n ∈ ["DSXEngine_New", "DSXEngine_Create", "DSXEngine_GetMicState",
      "DSXEngine_SetMicState", "DSXEngine_LoadGrammar"],
      CString.lit n ∈ serverSyms.map SymbolLoad.name := by decide
  exact hsub name hname

example (H : Host) (s : Symbols) (p : Process) :
    draconityInstall H s p (.image none) = some (true, s, p) := by
  simp [draconityInstall, applyHooks, loadSymbols]

/-! ### A library with one of the functions -/

def micExports (name : CString) : Option ℕ :=
  if name = .lit "DSXEngine_GetMicState" then some 0x10000 else none

def micProcess : Process := ⟨fun _ => 0, serverHooks .x64 fun _ => 0x50000, []⟩

end Draconity
