import Draconity.Trampoline
import Draconity.Types

/-!
`Platform::applyHooks`, which sets all hooks of a list up in the memory of one process.

Each `setup` reads code that the ones before may have changed.  Where the blocks they write and the
code they copy are apart, every function is diverted as if its hook were the only one
(`hooks_transparent`): from the memory before the first of them to the one after the last.
-/

namespace Draconity

open Lib

variable {ρ : Type*}

/-! ### The model -/

/-- What the hooks ask of the system: the blocks of memory, at each of the calls, and what Zydis decodes
at an address. -/
structure Host where
  arch : Arch
  platform : ℕ → Platform
  zydis : (ℕ → UInt8) → ℕ → Decoder

/-- `CodeHook`, with its name. -/
structure NamedHook where
  name : CString
  hook : CodeHook

/-- A call of `setup` that was made: which hook of the list it was for, and what it did. -/
structure Patch where
  index : ℕ
  addr : ℕ
  target : ℕ
  trampoline : ℕ
  /-- `paddedSize`. -/
  copied : ℕ
  /-- `trampolineSize`. -/
  size : ℕ

/-- The process: its memory, the list of hooks, and the calls of `setup` so far. -/
structure Process where
  mem : ℕ → UInt8
  hooks : List NamedHook
  patches : List Patch

/-- The decoder `setup` uses. -/
def Process.decoder (H : Host) (p : Process) (addr : ℕ) : Decoder := H.zydis p.mem addr

/-- The code at an address, as far as `setup` reads it. -/
def Process.code (H : Host) (p : Process) (addr : ℕ) : Buffer :=
  block p.mem addr (max (disCodeSize (p.decoder H addr) H.arch.jmpSize) H.arch.jmpSize)

/-- `setup` of one hook of the list, `none` when it faults. -/
def setupHook (H : Host) (p : Process) (i addr : ℕ) : Option Process := do
  let x ← p.hooks[i]?
  let dis := p.decoder H addr
  let r ← x.hook.setup H.arch (H.platform p.patches.length) dis addr (p.code H addr)
  let t ← r.hook.original
  return {
    mem := r.memory addr t p.mem
    hooks := p.hooks.set i { x with hook := r.hook }
    patches := p.patches ++ [{ index := i, addr, target := x.hook.target, trampoline := t,
                               copied := disCodeSize dis H.arch.jmpSize,
                               size := r.trampoline.length }] }

/-- Where the functions of a module are: the symbols `walk_image` goes through on macOS, and
`GetProcAddress` on Windows; `none` if there is no such module. -/
inductive Module
  | image (symbols : Option (List (CString × ℕ)))
  | library (getProcAddress : Option (CString → Option ℕ))

def Process.hookName (p : Process) (i : ℕ) : Option CString := p.hooks[i]?.map NamedHook.name

/-- The callback that `applyHooks` gives to `walk_image`. -/
def applySymbol (H : Host) (p : Process) (s : CString × ℕ) : Option Process :=
  (List.range p.hooks.length).foldlM (fun (p : Process) i =>
    if p.hookName i = some s.1 then setupHook H p i s.2 else some p) p

/-- The loop of `applyHooks` on Windows, for one hook. -/
def applyExport (H : Host) (getProcAddress : CString → Option ℕ) (p : Process) (i : ℕ) :
    Option Process :=
  match (p.hookName i).bind getProcAddress with
  | some addr => setupHook H p i addr
  | none => some p

/-- `Platform::applyHooks`: what it returns, and the process it leaves.  What `walk_image` returns for
an image that is not found is ignored. -/
def applyHooks (H : Host) (p : Process) : Module → Option (ℕ × Process)
  | .image symbols => ((symbols.getD []).foldlM (applySymbol H) p).map (0, ·)
  | .library none => some (1, p)
  | .library (some getProcAddress) =>
    ((List.range p.hooks.length).foldlM (applyExport H getProcAddress) p).map (0, ·)

/-- The module has the function at the address. -/
def Module.Has : Module → CString → ℕ → Prop
  | .image symbols, name, addr => (name, addr) ∈ symbols.getD []
  | .library getProcAddress, name, addr => ∃ f, getProcAddress = some f ∧ f name = some addr

/-- The addresses at which the module has the function, in the order in which they are met. -/
def Module.addrs : Module → CString → List ℕ
  | .image symbols, name =>
    (symbols.getD []).flatMap fun s => if name = s.1 then [s.2] else []
  | .library getProcAddress, name => (getProcAddress.bind fun f => f name).toList

def Patch.written (arch : Arch) (q : Patch) : Set ℕ := fun i =>
  q.addr ≤ i ∧ i < q.addr + arch.jmpSize ∨ q.trampoline ≤ i ∧ i < q.trampoline + q.size

def Patch.footprint (arch : Arch) (q : Patch) : Set ℕ := fun i =>
  q.addr ≤ i ∧ i < q.addr + max q.copied arch.jmpSize ∨ q.trampoline ≤ i ∧ i < q.trampoline + q.size

def Process.written (arch : Arch) (p : Process) : Set ℕ := fun i => ∃ q ∈ p.patches, i ∈ q.written arch

/-- The trampoline is in a block of its own. -/
def Patch.Separate (arch : Arch) (q : Patch) : Prop :=
  q.addr + max q.copied arch.jmpSize ≤ q.trampoline ∨ q.trampoline + q.size ≤ q.addr

/-- What the calls wrote or copied is apart. -/
structure Process.Apart (arch : Arch) (p : Process) : Prop where
  separate : ∀ q ∈ p.patches, q.Separate arch
  pairwise : p.patches.Pairwise fun q q' => ∀ i ∈ q.footprint arch, i ∉ q'.footprint arch

variable {H : Host} {p q r : Process} {i a n : ℕ} {es fs : List (ℕ × ℕ)} {P : Processor ρ}
  {setRax : ℕ → ρ → ρ} {mem : ℕ → UInt8}

/-! ### One call of `setup` -/

/-- What a call of `setup` does: the hook it is for, what it leaves, and what is noted of it. -/
structure SetsUp (H : Host) (p : Process) (i a : ℕ) (r : Process) (x : NamedHook) (y : Hooked)
    (c : Patch) : Prop where
  hook : p.hooks[i]? = some x
  setup : x.hook.setup H.arch (H.platform p.patches.length) (p.decoder H a) a (p.code H a) = some y
  active : y.hook.active = true ∧ y.hook.target = x.hook.target
  original : y.hook.original = some c.trampoline
  index : c.index = i
  addr : c.addr = a
  target : c.target = x.hook.target
  copied : c.copied = disCodeSize (p.decoder H a) H.arch.jmpSize
  size : c.size = y.trampoline.length
  mem : r.mem = y.memory a c.trampoline p.mem
  hooks : r.hooks = p.hooks.set i { x with hook := y.hook }
  patches : r.patches = p.patches ++ [c]

variable {x : NamedHook} {y : Hooked} {c : Patch}

theorem setupHook_some (h : setupHook H p i a = some r) : ∃ x y c, SetsUp H p i a r x y c := by
  unfold setupHook at h
  obtain ⟨x, hx, h⟩ := Option.bind_eq_some_iff.1 h
  obtain ⟨y, hy, h⟩ := Option.bind_eq_some_iff.1 h
  obtain ⟨t, ht, h⟩ := Option.bind_eq_some_iff.1 h
  cases h
  have hactive : y.hook.active = true ∧ y.hook.target = x.hook.target := by
    obtain ⟨-, -, b, -, rfl⟩ := setup_some hy
    exact ⟨rfl, rfl⟩
  exact ⟨x, y, _, hx, hy, hactive, ht, rfl, rfl, rfl, rfl, rfl, rfl, rfl, rfl⟩

/-- The code that was patched is as long as before, and the trampoline has room for what was copied and
the jump. -/
theorem SetsUp.sizes (h : SetsUp H p i a r x y c) :
    y.code.length = max c.copied H.arch.jmpSize ∧ c.copied + H.arch.jmpSize ≤ c.size ∧
      c.size = trampolineSize H.arch (H.platform p.patches.length) c.copied := by
  obtain ⟨hfits, -⟩ := trampolineSize_fits H.arch (H.platform p.patches.length) c.copied
  obtain ⟨hn, hj, b, -, hy⟩ := setup_some h.setup
  have hcode : (p.code H a).length = max c.copied H.arch.jmpSize := by
    rw [h.copied]
    exact length_block ..
  rw [h.size, hy]
  rw [← h.copied] at hn
  unfold CodeHook.hooked
  rw [← h.copied]
  simp only [List.length_append, Arch.length_jmpPatch, List.length_drop, List.length_take_of_le hn,
    Buffer.length_calloc]
  omega

theorem SetsUp.mem_of_notMem (h : SetsUp H p i a r x y c) {j : ℕ} (hj : j ∉ c.written H.arch) :
    r.mem j = p.mem j := by
  have hy : j ∉ y.written H.arch a c.trampoline := by
    unfold Patch.written at hj
    rwa [h.addr, h.size] at hj
  rw [h.mem]
  exact memory_of_notMem h.setup hy

theorem SetsUp.diverts (h : SetsUp H p i a r x y c) (hc : c.Separate H.arch) :
    H.arch.Diverts p.mem r.mem c.addr c.copied c.trampoline c.target := by
  have hdisj : a + y.code.length ≤ c.trampoline ∨ c.trampoline + y.trampoline.length ≤ a := by
    rw [h.sizes.1, ← h.size, ← h.addr]
    exact hc
  have hdiverts := setup_diverts h.setup hdisj
  rwa [← h.mem, ← h.copied, ← h.target, ← h.addr] at hdiverts

/-! ### The calls of `applyHooks` -/

/-- The calls of `setup`, each with the hook and the address, lead from the one process to the other. -/
inductive Setups (H : Host) : Process → List (ℕ × ℕ) → Process → Prop
  | nil (p : Process) : Setups H p [] p
  | snoc {p q r : Process} {es : List (ℕ × ℕ)} {i a : ℕ} : Setups H p es q →
      setupHook H q i a = some r → Setups H p (es ++ [(i, a)]) r

theorem Setups.trans (h : Setups H p es q) (h' : Setups H q fs r) : Setups H p (es ++ fs) r := by
  induction h' with
  | nil => rwa [List.append_nil]
  | snoc _ hset ih =>
    rw [← List.append_assoc]
    exact .snoc ih hset

theorem hookName_setupHook (h : setupHook H p i a = some r) : r.hookName = p.hookName := by
  obtain ⟨x, y, c, h⟩ := setupHook_some h
  funext j
  unfold Process.hookName
  rw [h.hooks, List.getElem?_set]
  split_ifs with hij hi
  · subst hij
    rw [h.hook]
    rfl
  · subst hij
    exact absurd (List.getElem?_eq_some_iff.1 h.hook).1 hi
  · rfl

theorem Setups.hookName (h : Setups H p es q) : q.hookName = p.hookName := by
  induction h with
  | nil => rfl
  | snoc _ hset ih => rw [hookName_setupHook hset, ih]

theorem Setups.patches (h : Setups H p es q) :
    q.patches.map (fun c => (c.index, c.addr)) = p.patches.map (fun c => (c.index, c.addr)) ++ es := by
  induction h with
  | nil => rw [List.append_nil]
  | snoc _ hset ih =>
    obtain ⟨x, y, c, h⟩ := setupHook_some hset
    rw [h.patches, List.map_append, ih, List.append_assoc, List.map_singleton, h.index, h.addr]

theorem Module.mem_addrs {m : Module} {name : CString} : a ∈ m.addrs name ↔ m.Has name a := by
  cases m with
  | image symbols => simp [addrs, Has]
  | library getProcAddress =>
    simp only [addrs, Has, Option.mem_toList, Option.bind_eq_some_iff]

theorem Module.isSome_getLast?_addrs {m : Module} {name : CString} :
    (m.addrs name).getLast?.isSome = true ↔ ∃ a, m.Has name a := by
  rw [List.getLast?_isSome]
  constructor
  · intro hne
    obtain ⟨a, ha⟩ := List.exists_mem_of_ne_nil _ hne
    exact ⟨a, Module.mem_addrs.1 ha⟩
  · rintro ⟨a, ha⟩
    exact List.ne_nil_of_mem (Module.mem_addrs.2 ha)

def addrsOf (i : ℕ) (es : List (ℕ × ℕ)) : List ℕ := (es.filter fun e => e.1 = i).map Prod.snd

theorem addrsOf_append : addrsOf i (es ++ fs) = addrsOf i es ++ addrsOf i fs := by
  simp [addrsOf]

/-- A loop makes the calls of `setup` that its rounds make. -/
theorem setups_foldlM {α : Type*} {f : Process → α → Option Process} (names : ℕ → Option CString)
    (calls : α → ℕ → List ℕ)
    (hround : ∀ (p : Process) x q, p.hookName = names → f p x = some q →
      ∃ es, Setups H p es q ∧ ∀ i, addrsOf i es = calls x i) (l : List α) (hp : p.hookName = names)
    (h : l.foldlM f p = some q) :
    ∃ es, Setups H p es q ∧ ∀ i, addrsOf i es = l.flatMap fun x => calls x i := by
  induction l generalizing p with
  | nil =>
    cases h
    exact ⟨[], .nil _, fun i => rfl⟩
  | cons x l ih =>
    obtain ⟨r, hr, hrest⟩ := Option.bind_eq_some_iff.1 h
    obtain ⟨es, hes, hx⟩ := hround p x r hp hr
    obtain ⟨fs, hfs, hl⟩ := ih (hes.hookName.trans hp) hrest
    exact ⟨es ++ fs, hes.trans hfs, fun i => by rw [addrsOf_append, hx, hl, List.flatMap_cons]⟩

/-- A loop over the hooks that makes one call at most for each of them. -/
theorem setups_foldlM_range {f : Process → ℕ → Option Process} (names : ℕ → Option CString)
    (addr : ℕ → Option ℕ) (hnames : ∀ i, names i = none → addr i = none)
    (hround : ∀ (p : Process) i q, p.hookName = names → f p i = some q →
      addr i = none ∧ q = p ∨ ∃ a, addr i = some a ∧ setupHook H p i a = some q)
    (hp : p.hookName = names) (h : (List.range p.hooks.length).foldlM f p = some q) :
    ∃ es, Setups H p es q ∧ ∀ i, addrsOf i es = (addr i).toList := by
  obtain ⟨es, hes, hcalls⟩ := setups_foldlM (H := H) names
    (fun i j => if i = j then (addr j).toList else []) (fun p i q hp hf => by
      rcases hround p i q hp hf with ⟨hnone, rfl⟩ | ⟨a, ha, hset⟩
      · refine ⟨[], .nil _, fun j => ?_⟩
        split_ifs with hij
        · rw [← hij, hnone]
          rfl
        · rfl
      · refine ⟨[(i, a)], .snoc (.nil _) hset, fun j => ?_⟩
        split_ifs with hij
        · subst hij
          simp [addrsOf, ha]
        · simp [addrsOf, hij]) _ hp h
  refine ⟨es, hes, fun i => (hcalls i).trans ?_⟩
  have hrange : ∀ n, ((List.range n).flatMap fun j => if j = i then (addr i).toList else []) =
      if i < n then (addr i).toList else [] := by
    intro n
    induction n with
    | zero => rfl
    | succ n ih =>
      rw [List.range_succ, List.flatMap_append, ih, List.flatMap_singleton]
      rcases lt_trichotomy i n with hlt | rfl | hlt
      · rw [if_pos hlt, if_neg (by omega), if_pos (by omega), List.append_nil]
      · simp
      · rw [if_neg (by omega), if_neg (by omega), if_neg (by omega), List.append_nil]
  rw [hrange]
  split_ifs with hi
  · rfl
  · have hnone : names i = none := by
      rw [← hp]
      unfold Process.hookName
      rw [List.getElem?_eq_none (Nat.le_of_not_lt hi)]
      rfl
    rw [hnames i hnone]
    rfl

theorem rc_applyHooks {m : Module} {rc : ℕ} (h : applyHooks H p m = some (rc, q)) :
    rc = 0 ↔ m ≠ .library none := by
  unfold applyHooks at h
  split at h
  · obtain ⟨_, _, hrc⟩ := Option.map_eq_some_iff.1 h
    cases hrc
    simp
  · cases h
    simp
  · obtain ⟨_, _, hrc⟩ := Option.map_eq_some_iff.1 h
    cases hrc
    simp

/-- **The calls of `setup` that `applyHooks` makes**: for each hook one at each address at which the
module has the function of its name, in their order. -/
theorem setups_applyHooks {m : Module} {rc : ℕ} (h : applyHooks H p m = some (rc, q)) :
    ∃ es, Setups H p es q ∧
      ∀ i, addrsOf i es = ((p.hookName i).map m.addrs).getD [] := by
  unfold applyHooks at h
  split at h
  · -- macOS: the hooks of the name, for each symbol
    rename_i symbols
    obtain ⟨r, hr, hrc⟩ := Option.map_eq_some_iff.1 h
    cases hrc
    have hsymbol : ∀ (p' : Process) (s : CString × ℕ) q', p'.hookName = p.hookName →
        applySymbol H p' s = some q' → ∃ es, Setups H p' es q' ∧
          ∀ i, addrsOf i es = if p.hookName i = some s.1 then [s.2] else [] := by
      intro p' s q' hp' hs
      obtain ⟨es, hes, hcalls⟩ := setups_foldlM_range (H := H) p.hookName
        (fun i => if p.hookName i = some s.1 then some s.2 else none)
        (fun i hi => by rw [hi]; exact if_neg nofun)
        (fun p₁ i p₂ hp₁ hf => by
          rw [hp₁] at hf
          split_ifs at hf with hname
          · exact .inr ⟨s.2, if_pos hname, hf⟩
          · exact .inl ⟨if_neg hname, (Option.some.inj hf).symm⟩) hp' hs
      refine ⟨es, hes, fun i => (hcalls i).trans ?_⟩
      split_ifs <;> rfl
    obtain ⟨es, hes, hcalls⟩ := setups_foldlM p.hookName
      (fun s i => if p.hookName i = some s.1 then [s.2] else []) hsymbol (symbols.getD []) rfl hr
    refine ⟨es, hes, fun i => (hcalls i).trans ?_⟩
    cases hname : p.hookName i with
    | none => simp
    | some name => simp [Module.addrs]
  · cases h
    refine ⟨[], .nil _, fun i => ?_⟩
    cases p.hookName i <;> rfl
  · -- Windows: at most one address for each hook
    rename_i getProcAddress
    obtain ⟨r, hr, hrc⟩ := Option.map_eq_some_iff.1 h
    cases hrc
    obtain ⟨es, hes, hcalls⟩ := setups_foldlM_range (H := H) p.hookName
      (fun i => (p.hookName i).bind getProcAddress) (fun i hi => by rw [hi]; rfl)
      (fun p₁ i p₂ hp₁ hf => by
        unfold applyExport at hf
        rw [hp₁] at hf
        split at hf
        · exact .inr ⟨_, ‹_›, hf⟩
        · exact .inl ⟨‹_›, (Option.some.inj hf).symm⟩) rfl hr
    refine ⟨es, hes, fun i => (hcalls i).trans ?_⟩
    cases p.hookName i <;> rfl

/-! ### What a call of `setup` leaves alone -/

theorem Patch.written_subset {c : Patch} {j : ℕ} (h : j ∈ c.written H.arch) : j ∈ c.footprint H.arch := by
  rcases h with ⟨hle, hlt⟩ | h
  · exact .inl ⟨hle, lt_of_lt_of_le hlt (Nat.add_le_add_left (le_max_right ..) _)⟩
  · exact .inr h

/-- A function stays diverted when none of the bytes of its jump and of its trampoline is written. -/
theorem Arch.Diverts.congr {arch : Arch} {mem' mem'' : ℕ → UInt8} {c : Patch}
    (h : arch.Diverts mem mem' c.addr c.copied c.trampoline c.target)
    (hfits : c.copied + arch.jmpSize ≤ c.size) (hsame : ∀ j ∈ c.written arch, mem'' j = mem' j) :
    arch.Diverts mem mem'' c.addr c.copied c.trampoline c.target := by
  have htramp : ∀ j < c.size, mem'' (c.trampoline + j) = mem' (c.trampoline + j) := fun j hj =>
    hsame _ (.inr ⟨Nat.le_add_right .., Nat.add_lt_add_left hj _⟩)
  refine ⟨fun j hj => ?_, fun j hj => ?_, fun j hj => ?_⟩
  · rw [hsame _ (.inl ⟨Nat.le_add_right .., Nat.add_lt_add_left (arch.length_jmpPatch _ ▸ hj) _⟩)]
    exact h.jump j hj
  · rw [htramp j (by omega)]
    exact h.copied j hj
  · have hj' := arch.length_jmpPatch (c.addr + c.copied) ▸ hj
    rw [Nat.add_assoc, htramp _ (by omega), ← Nat.add_assoc]
    exact h.back j hj

/-- The instructions that a jump at the address overwrites do not depend on where they are. -/
def Host.Movable (H : Host) (P : Processor ρ) (mem : ℕ → UInt8) (addr : ℕ) : Prop :=
  ∀ k l, (H.zydis mem addr).Boundary k → k < H.arch.jmpSize → (H.zydis mem addr).length k = some l →
    P.Movable (block mem (addr + k) l)

/-- Zydis decodes what the processor does. -/
def Host.Decodes (H : Host) (P : Processor ρ) : Prop :=
  ∀ mem addr k, (H.zydis mem addr).length k = P.lengthAt mem (addr + k)

/-- Every function that was patched is diverted, and nothing else has changed since `mem`. -/
structure Installed (H : Host) (P : Processor ρ) (mem : ℕ → UInt8) (p : Process) : Prop where
  same : ∀ j ∉ p.written H.arch, p.mem j = mem j
  diverts : ∀ c ∈ p.patches, H.arch.Diverts mem p.mem c.addr c.copied c.trampoline c.target
  straight : ∀ c ∈ p.patches, P.Straight mem c.addr (c.addr + c.copied)
  fits : ∀ c ∈ p.patches, c.copied + H.arch.jmpSize ≤ c.size

theorem installed_nil (hp : p.patches = []) : Installed H P p.mem p := by
  refine ⟨fun _ _ => rfl, ?_, ?_, ?_⟩ <;> simp [hp]

/-- **One more hook.**  It finds the code as it was, and leaves the others as they are. -/
theorem Installed.setupHook (h : Installed H P mem p) (hdec : H.Decodes P)
    (hset : setupHook H p i a = some r) (hapart : r.Apart H.arch) (hmove : H.Movable P mem a) :
    Installed H P mem r := by
  obtain ⟨x, y, c, hc⟩ := setupHook_some hset
  have hlast : c ∈ r.patches := hc.patches ▸ List.mem_append_right _ (List.mem_singleton_self c)
  have hpair := hapart.pairwise
  rw [hc.patches] at hpair
  have hothers : ∀ c' ∈ p.patches, ∀ j ∈ c'.footprint H.arch, j ∉ c.footprint H.arch :=
    fun c' hc' => (List.pairwise_append.1 hpair).2.2 c' hc' c (List.mem_singleton_self c)
  -- what it copies has not been written before
  have hbefore : ∀ j < c.copied, p.mem (a + j) = mem (a + j) := fun j hj =>
    h.same _ fun ⟨c', hc', hj'⟩ => hothers c' hc' _ (Patch.written_subset hj')
      (.inl ⟨hc.addr ▸ Nat.le_add_right .., by rw [hc.addr]; omega⟩)
  have hdiverts : H.arch.Diverts mem r.mem c.addr c.copied c.trampoline c.target := by
    have hnew := hc.diverts (hapart.separate c hlast)
    exact ⟨hnew.jump, fun j hj => (hnew.copied j hj).trans (hc.addr ▸ hbefore j hj), hnew.back⟩
  have hstraight : P.Straight mem c.addr (c.addr + c.copied) := by
    rw [hc.addr, hc.copied]
    refine straight_disCodeSizeFrom (n := 0) (hdec mem a) (hdec p.mem a) (fun j hj hja => ?_) hmove
    have hja : a ≤ j := hja
    have hoff : j - a < c.copied := hc.copied ▸ Nat.sub_lt_left_of_lt_add hja hj
    have hsame := hbefore (j - a) hoff
    rw [Nat.add_sub_cancel' hja] at hsame
    exact hsame.symm
  refine ⟨fun j hj => ?_, ?_, ?_, ?_⟩
  · rw [hc.mem_of_notMem fun hjc => hj ⟨c, hlast, hjc⟩]
    exact h.same j fun ⟨c', hc', hj'⟩ => hj ⟨c', hc.patches ▸ List.mem_append_left _ hc', hj'⟩
  all_goals
    intro c' hc'
    rw [hc.patches, List.mem_append, List.mem_singleton] at hc'
    rcases hc' with hc' | rfl
  · exact (h.diverts c' hc').congr (h.fits c' hc') fun j hj => hc.mem_of_notMem fun hjc =>
      hothers c' hc' j (Patch.written_subset hj) (Patch.written_subset hjc)
  · exact hdiverts
  · exact h.straight c' hc'
  · exact hstraight
  · exact h.fits c' hc'
  · exact hc.sizes.2.1

/-- **All hooks of a list.**  Where what the calls write or copy is apart, all functions are diverted. -/
theorem Setups.installed (h : Setups H p es q) (hp : p.patches = []) (hdec : H.Decodes P)
    (hapart : q.Apart H.arch) (hmove : ∀ c ∈ q.patches, H.Movable P p.mem c.addr) :
    Installed H P p.mem q := by
  induction h with
  | nil => exact installed_nil hp
  | @snoc q r es i a _ hset ih =>
    obtain ⟨x, y, c, hc⟩ := setupHook_some hset
    have hsub : ∀ c' ∈ q.patches, c' ∈ r.patches := fun c' hc' =>
      hc.patches ▸ List.mem_append_left _ hc'
    have hlast : c ∈ r.patches := hc.patches ▸ List.mem_append_right _ (List.mem_singleton_self c)
    have hpair := hapart.pairwise
    rw [hc.patches] at hpair
    have hq : Installed H P p.mem q := ih
      ⟨fun c' hc' => hapart.separate c' (hsub c' hc'), (List.pairwise_append.1 hpair).1⟩
      fun c' hc' => hmove c' (hsub c' hc')
    exact hq.setupHook hdec hset hapart (hc.addr ▸ hmove c hlast)

/-! ### What the hooks hold -/

def Process.last (p : Process) (i : ℕ) : Option Patch :=
  (p.patches.filter fun c => c.index = i).getLast?

/-- A hook, as it was in the list, is active once it was set up, and its original is the trampoline of
the last time. -/
structure Noted (p : Process) (i : ℕ) (x : NamedHook) : Prop where
  hook : ∃ x', p.hooks[i]? = some x' ∧ x'.hook.target = x.hook.target ∧
    x'.hook.active = (p.last i).isSome ∧ x'.hook.original = (p.last i).map Patch.trampoline
  target : ∀ c ∈ p.patches, c.index = i → c.target = x.hook.target

theorem SetsUp.last (h : SetsUp H p i a r x y c) (j : ℕ) :
    r.last j = if i = j then some c else p.last j := by
  unfold Process.last
  rw [h.patches, List.filter_append, List.filter_singleton, h.index]
  split_ifs with hij
  · simp [hij]
  · simp [hij]

theorem Noted.setupHook {j : ℕ} {z : NamedHook} (h : Noted p j z)
    (hset : setupHook H p i a = some r) : Noted r j z := by
  obtain ⟨x, y, c, hc⟩ := setupHook_some hset
  obtain ⟨x', hx', htarget, hactive, horiginal⟩ := h.hook
  have hlast := hc.last j
  by_cases hij : i = j
  · subst hij
    have hxx : x' = x := Option.some.inj (hx'.symm.trans hc.hook)
    subst hxx
    rw [if_pos rfl] at hlast
    refine ⟨⟨{ x' with hook := y.hook }, ?_, hc.active.2.trans htarget, ?_, ?_⟩, fun c' hc' hi => ?_⟩
    · rw [hc.hooks, List.getElem?_set_self (List.getElem?_eq_some_iff.1 hx').1]
    · rw [hlast]
      exact hc.active.1
    · rw [hlast]
      exact hc.original
    · rw [hc.patches, List.mem_append, List.mem_singleton] at hc'
      rcases hc' with hc' | rfl
      · exact h.target c' hc' hi
      · exact hc.target.trans htarget
  · rw [if_neg hij] at hlast
    refine ⟨⟨x', ?_, htarget, hlast ▸ hactive, hlast ▸ horiginal⟩, fun c' hc' hi => ?_⟩
    · rw [hc.hooks, List.getElem?_set_ne hij]
      exact hx'
    · rw [hc.patches, List.mem_append, List.mem_singleton] at hc'
      rcases hc' with hc' | rfl
      · exact h.target c' hc' hi
      · exact absurd (hc.index.symm.trans hi) hij

structure Process.Fresh (p : Process) : Prop where
  patches : p.patches = []
  hooks : ∀ x ∈ p.hooks, x.hook.active = false ∧ x.hook.original = none

theorem Setups.noted (h : Setups H p es q) (hp : p.Fresh) (hx : p.hooks[i]? = some x) :
    Noted q i x := by
  induction h with
  | nil =>
    obtain ⟨hactive, horiginal⟩ := hp.hooks x (List.mem_of_getElem? hx)
    have hlast : p.last i = none := by simp [Process.last, hp.patches]
    exact ⟨⟨x, hx, rfl, by rw [hlast]; exact hactive, by rw [hlast]; exact horiginal⟩,
      by simp [hp.patches]⟩
  | snoc _ hset ih => exact ih.setupHook hset

theorem Process.hookName_of_getElem? (hx : p.hooks[i]? = some x) : p.hookName i = some x.name := by
  unfold Process.hookName
  rw [hx]
  rfl

/-- What `applyHooks` makes of a new hook: one call of `setup` at each address of its function. -/
theorem noted_applyHooks {m : Module} {rc : ℕ} (h : applyHooks H p m = some (rc, q)) (hp : p.Fresh)
    (hx : p.hooks[i]? = some x) :
    Noted q i x ∧ (q.patches.filter fun c => c.index = i).map Patch.addr = m.addrs x.name := by
  obtain ⟨es, hes, hcalls⟩ := setups_applyHooks h
  refine ⟨hes.noted hp hx, ?_⟩
  have hes' : q.patches.map (fun c => (c.index, c.addr)) = es := by
    rw [hes.patches, hp.patches, List.map_nil, List.nil_append]
  have haddrs : addrsOf i es = m.addrs x.name := by
    rw [hcalls, Process.hookName_of_getElem? hx]
    rfl
  rw [← haddrs, ← hes', addrsOf, List.filter_map, List.map_map]
  rfl

/-- The last function of a hook's name that is met is the one its last call of `setup` is for. -/
theorem addr_last_applyHooks {m : Module} {rc : ℕ} (h : applyHooks H p m = some (rc, q))
    (hp : p.Fresh) (hx : p.hooks[i]? = some x) :
    (q.last i).map Patch.addr = (m.addrs x.name).getLast? := by
  rw [← (noted_applyHooks h hp hx).2, List.getLast?_map]
  rfl

/-- A hook is active once the module has its function. -/
theorem active_iff_has {m : Module} {rc : ℕ} (h : applyHooks H p m = some (rc, q)) (hp : p.Fresh)
    (hx : p.hooks[i]? = some x) : (q.last i).isSome = true ↔ ∃ a, m.Has x.name a := by
  rw [← Module.isSome_getLast?_addrs, ← addr_last_applyHooks h hp hx, Option.isSome_map]

theorem transparent_applyHooks {m : Module} {rc : ℕ} (h : applyHooks H p m = some (rc, q))
    (hp : p.patches = []) (hjumps : H.arch.Jumps P setRax) (hdec : H.Decodes P)
    (hmove : ∀ c ∈ q.patches, H.Movable P p.mem c.addr) (hapart : q.Apart H.arch)
    (hbound : ∀ c ∈ q.patches, c.addr + c.copied < 256 ^ H.arch.ptrSize ∧
      c.target < 256 ^ H.arch.ptrSize) (hc : c ∈ q.patches) :
    Transparent P setRax (q.written H.arch) p.mem q.mem c.addr c.copied c.trampoline c.target := by
  obtain ⟨es, hes, -⟩ := setups_applyHooks h
  have hinst : Installed H P p.mem q := hes.installed hp hdec hapart hmove
  exact (hinst.diverts c hc).transparent hjumps (hinst.straight c hc) (hbound c hc).1
    (hbound c hc).2 hinst.same

theorem threeInstructions_lengthAt (h : threeInstructions.lengthAt mem a = some l) : 1 ≤ l ∧ l ≤ 15 := by
  simp only [Processor.lengthAt, threeInstructions] at h
  split_ifs at h <;> cases h <;> decide

/-- A processor with three instructions, pages of 4096 bytes, and a block for each trampoline. -/
def threeHost : Host where
  arch := .x64
  platform k := ⟨4096, 12, rfl, fun _ => some (0x20000 + 0x10000 * k)⟩
  zydis mem a :=
    { length := fun k => threeInstructions.lengthAt mem (a + k)
      one_le := fun _ _ h => (threeInstructions_lengthAt h).1
      le := fun _ _ h => (threeInstructions_lengthAt h).2 }

def twoHooked : Process where
  mem _ := 0
  hooks := [⟨.lit "f", .new .x64 0x50000⟩, ⟨.lit "g", .new .x64 0x60000⟩]
  patches := []

def twoExports (name : CString) : Option ℕ :=
  if name = .lit "f" then some 0x10000 else if name = .lit "g" then some 0x11000 else none

theorem setupHook_threeHost (hx : p.hooks[i]? = some x) : ∃ r, setupHook threeHost p i a = some r := by
  have hsetup := setup_eq .x64 (threeHost.platform p.patches.length) (p.decoder threeHost a) a
    (p.code threeHost a) x.hook (by rw [Process.code, length_block]; exact le_max_left ..)
    (by rw [Process.code, length_block]; exact le_max_right ..)
  unfold setupHook
  rw [hx]
  exact ⟨_, Option.bind_eq_some_iff.2 ⟨_, rfl, Option.bind_eq_some_iff.2 ⟨_, hsetup, rfl⟩⟩⟩

theorem setsUp_threeHost (h : SetsUp threeHost p i a r x y c) : c.copied < 27 ∧ c.size ≤ 4096 ∧
    c.trampoline = 0x20000 + 0x10000 * p.patches.length := by
  have hcopied : c.copied < 27 := h.copied ▸ disCodeSize_lt _ 12
  obtain ⟨hn, -, b, hb, hy⟩ := setup_some h.setup
  have htrampoline : c.trampoline = b := by
    have := h.original
    rw [hy] at this
    exact (Option.some.inj this).symm
  refine ⟨hcopied, ?_, htrampoline.trans (Option.some.inj hb).symm⟩
  have hup : c.size = Rounding.up 4096 (c.copied + 12) :=
    h.sizes.2.2.trans ((threeHost.platform p.patches.length).ldiff_pageMask _)
  rw [hup]
  exact Rounding.up_le (by decide) (by omega) (Nat.dvd_refl _)

end Draconity
