import Mathlib.Order.Bounds.Basic
import Draconity.Lib.Buffer
import Draconity.Lib.Rounding

/-!
`CodeHook::setup`, which patches a jump over the start of a function of Dragon, and the trampoline
through which Draconity still calls the original.

The code from the hooked address on and the trampoline are two blocks of memory.  Zydis is a
parameter: the length of the instruction at each position of the code, if it decodes.  What the
writes do to page protections is left to `Patching`.
-/

namespace Draconity

open Lib

/-! ### The decoder -/

/-- The length of the instruction at each position, `none` where there is none to decode. -/
structure Decoder where
  length : ℕ → Option ℕ
  one_le : ∀ n l, length n = some l → 1 ≤ l
  le : ∀ n l, length n = some l → l ≤ 15

/-- The loop of `dis_code_size`. -/
def disCodeSizeFrom (dis : Decoder) (size offset : ℕ) : ℕ :=
  match _h : dis.length offset with
  | none => offset
  | some l => if offset < size then disCodeSizeFrom dis size (offset + l) else offset
termination_by size - offset
decreasing_by
  have := dis.one_le _ _ _h
  omega

def disCodeSize (dis : Decoder) (size : ℕ) : ℕ := disCodeSizeFrom dis size 0

/-! ### The hook -/

/-- The two builds of `code_hook.cpp`. -/
inductive Arch
  | x64
  | x86
  deriving DecidableEq

def Arch.jmpSize : Arch → ℕ
  | .x64 => 12
  | .x86 => 7

def Arch.ptrSize : Arch → ℕ
  | .x64 => 8
  | .x86 => 4

/-- The opcode of `mov rax, imm64`, or of `mov eax, imm32`. -/
def Arch.movOpcode : Arch → List UInt8
  | .x64 => [0x48, 0xb8]
  | .x86 => [0xb8]

/-- The opcode of `jmp rax`, and of `jmp eax`. -/
def jmpOpcode : List UInt8 := [0xff, 0xe0]

/-- The bytes of a pointer of `n` bytes in memory, the least significant one first. -/
def pointerBytes : ℕ → ℕ → List UInt8
  | 0, _ => []
  | n + 1, p => .ofNat p :: pointerBytes n (p / 256)

/-- What `CodeHook::jmpPatch` writes. -/
def Arch.jmpPatch (arch : Arch) (target : ℕ) : List UInt8 :=
  arch.movOpcode ++ pointerBytes arch.ptrSize target ++ jmpOpcode

/-- `CodeHook`, less its name.  `original` is what was stored through the pointer of that name. -/
structure CodeHook where
  active : Bool
  addr : ℕ
  target : ℕ
  original : Option ℕ
  patchData : List UInt8
  origData : List UInt8

/-- The constructor of `CodeHook`. -/
def CodeHook.new (arch : Arch) (target : ℕ) : CodeHook where
  active := false
  addr := 0
  target := target
  original := none
  patchData := Buffer.calloc arch.jmpSize
  origData := Buffer.calloc arch.jmpSize

/-- What `setup` asks of the system. -/
structure Platform where
  pageSize : ℕ
  /-- A page is a power of two of bytes. -/
  pageShift : ℕ
  pageSize_eq : pageSize = 2 ^ pageShift
  /-- The address of a new block of zeros, `none` for the null pointer. -/
  mmap : ℕ → Option ℕ

/-- `trampolineSize`, with the `size_t` operators of the source. -/
def trampolineSize (arch : Arch) (P : Platform) (paddedSize : ℕ) : ℕ :=
  let pageMask := P.pageSize - 1
  (paddedSize + arch.jmpSize + pageMask).ldiff pageMask

/-- What `setup` leaves: the hook, the code at the hooked address, and the trampoline. -/
structure Hooked where
  hook : CodeHook
  code : Buffer
  trampoline : Buffer

/-- `CodeHook::setup`, `none` when it faults: the null pointer is written to, or the code or the
trampoline ends too early. -/
def CodeHook.setup (arch : Arch) (P : Platform) (dis : Decoder) (addr : ℕ) (code : Buffer)
    (hook : CodeHook) : Option Hooked := do
  let paddedSize := disCodeSize dis arch.jmpSize
  let size := trampolineSize arch P paddedSize
  let trampolineAddr ← P.mmap size
  let original ← Buffer.load code 0 paddedSize
  let trampoline ← Buffer.store (Buffer.calloc size) 0 original
  let trampoline ← Buffer.store trampoline paddedSize (arch.jmpPatch (addr + paddedSize))
  let patchData := arch.jmpPatch hook.target
  let origData ← Buffer.load code 0 arch.jmpSize
  let code ← Buffer.store code 0 patchData
  return {
    hook := { active := true, addr, target := hook.target, original := some trampolineAddr,
              patchData, origData }
    code, trampoline }

/-! ### What the bytes of a patch do -/

/-- The pointer that is stored in bytes. -/
def pointerOf : List UInt8 → ℕ
  | [] => 0
  | b :: bs => b.toNat + 256 * pointerOf bs

/-- Where the processor goes from bytes that load a pointer and jump to it. -/
def Arch.jumpTarget (arch : Arch) (bytes : List UInt8) : Option ℕ :=
  let n := arch.movOpcode.length
  if bytes.take n = arch.movOpcode ∧ bytes.drop (n + arch.ptrSize) = jmpOpcode then
    some (pointerOf ((bytes.drop n).take arch.ptrSize))
  else none

variable {arch : Arch} {P : Platform} {dis : Decoder} {addr size n m l : ℕ} {code : Buffer}
  {hook : CodeHook} {r : Hooked}

@[simp] theorem length_pointerBytes (n p : ℕ) : (pointerBytes n p).length = n := by
  induction n generalizing p with
  | zero => rfl
  | succ n ih => exact congrArg (· + 1) (ih _)

theorem pointerOf_pointerBytes (n p : ℕ) : pointerOf (pointerBytes n p) = p % 256 ^ n := by
  induction n generalizing p with
  | zero => simp [pointerBytes, pointerOf, Nat.mod_one]
  | succ n ih =>
    have hbyte : (UInt8.ofNat p).toNat = p % 256 := UInt8.toNat_ofNat'
    rw [pointerBytes, pointerOf, ih, hbyte, Nat.pow_succ', Nat.mod_mul]

@[simp] theorem Arch.length_jmpPatch (arch : Arch) (target : ℕ) :
    (arch.jmpPatch target).length = arch.jmpSize := by
  cases arch <;> rfl

theorem Arch.jumpTarget_jmpPatch (arch : Arch) (target : ℕ) :
    arch.jumpTarget (arch.jmpPatch target) = some (target % 256 ^ arch.ptrSize) := by
  have hptr := length_pointerBytes arch.ptrSize target
  unfold Arch.jumpTarget Arch.jmpPatch
  dsimp only
  rw [List.append_assoc, List.take_left, List.drop_left, List.drop_length_add_append,
    List.drop_left' hptr, List.take_left' hptr, if_pos ⟨rfl, rfl⟩, pointerOf_pointerBytes]

/-! ### The boundaries of the instructions -/

/-- The instructions from one position lead to the other. -/
inductive Decoder.Leads (dis : Decoder) : ℕ → ℕ → Prop
  | refl (n : ℕ) : dis.Leads n n
  | step {n l m : ℕ} : dis.length n = some l → dis.Leads (n + l) m → dis.Leads n m

/-- The position is a boundary of the stream: an instruction starts there, or the last one that
decodes ends. -/
def Decoder.Boundary (dis : Decoder) (n : ℕ) : Prop := dis.Leads 0 n

/-- Every instruction that starts below the size of a jump decodes. -/
def Decoder.DecodesBelow (dis : Decoder) (size : ℕ) : Prop :=
  ∀ n, dis.Boundary n → n < size → dis.length n ≠ none

theorem Decoder.Leads.le (h : dis.Leads n m) : n ≤ m := by
  induction h with
  | refl => exact le_rfl
  | step _ _ ih => exact (Nat.le_add_right ..).trans ih

theorem Decoder.Leads.of_lt (h : dis.Leads n m) (hn : n < m) :
    ∃ l, dis.length n = some l ∧ dis.Leads (n + l) m := by
  cases h with
  | refl => exact absurd hn (lt_irrefl _)
  | step hl h => exact ⟨_, hl, h⟩

/-- The loop stops at the first boundary at or above the size, if all below it decode. -/
theorem disCodeSizeFrom_isLeast (dis : Decoder) (size n : ℕ)
    (h : ∀ m, dis.Leads n m → m < size → dis.length m ≠ none) :
    IsLeast {m | dis.Leads n m ∧ size ≤ m} (disCodeSizeFrom dis size n) := by
  fun_induction disCodeSizeFrom dis size n with
  | case1 n hnone =>
    exact ⟨⟨.refl n, not_lt.1 fun hn => h n (.refl n) hn hnone⟩, fun m hm => hm.1.le⟩
  | case2 n l hl hn ih =>
    obtain ⟨⟨hleads, hsize⟩, hleast⟩ := ih fun m hm => h m (.step hl hm)
    refine ⟨⟨.step hl hleads, hsize⟩, fun m hm => hleast ⟨?_, hm.2⟩⟩
    obtain ⟨l', hl', hm'⟩ := hm.1.of_lt (lt_of_lt_of_le hn hm.2)
    rw [hl, Option.some.injEq] at hl'
    exact hl' ▸ hm'
  | case3 n l _ hn => exact ⟨⟨.refl n, not_lt.1 hn⟩, fun m hm => hm.1.le⟩

/-- A loop that gets to the size has decoded all below it. -/
theorem decodes_of_le_disCodeSizeFrom (hs : size ≤ disCodeSizeFrom dis size n)
    (hm : dis.Leads n m) (hlt : m < size) : dis.length m ≠ none := by
  fun_induction disCodeSizeFrom dis size n with
  | case1 n hnone => exact absurd (hm.le.trans_lt hlt) (not_lt.2 hs)
  | case2 n l hl hn ih =>
    cases hm with
    | refl => exact hl ▸ Option.some_ne_none l
    | step hl' hm =>
      rw [hl, Option.some.injEq] at hl'
      exact ih hs (hl' ▸ hm)
  | case3 n l _ hn => exact absurd (hm.le.trans_lt hlt) hn

theorem disCodeSizeFrom_lt (h : n < size + 15) : disCodeSizeFrom dis size n < size + 15 := by
  fun_induction disCodeSizeFrom dis size n with
  | case1 => exact h
  | case2 n l hl hn ih =>
    have hl' := dis.le n l hl
    exact ih (by omega)
  | case3 => exact h

/-- **What `dis_code_size` returns**: the first boundary at or above the size, just when every
instruction that starts below the size decodes. -/
theorem disCodeSize_isLeast_iff (dis : Decoder) (size : ℕ) :
    IsLeast {n | dis.Boundary n ∧ size ≤ n} (disCodeSize dis size) ↔ dis.DecodesBelow size :=
  ⟨fun h _ hn hlt => decodes_of_le_disCodeSizeFrom h.1.2 hn hlt,
    fun h => disCodeSizeFrom_isLeast dis size 0 h⟩

theorem disCodeSize_lt (dis : Decoder) (size : ℕ) : disCodeSize dis size < size + 15 :=
  disCodeSizeFrom_lt (Nat.lt_add_left size (by decide))

/-! ### What `setup` leaves -/

theorem Platform.pageSize_pos (P : Platform) : 0 < P.pageSize :=
  P.pageSize_eq ▸ Nat.two_pow_pos _

theorem Platform.ldiff_pageMask (P : Platform) (n : ℕ) :
    n.ldiff (P.pageSize - 1) = Rounding.down P.pageSize n := by
  unfold Rounding.down
  rw [P.pageSize_eq, Buffer.ldiff_mask]

/-- The trampoline takes whole pages, and has room for the copied code and the jump. -/
theorem trampolineSize_fits (arch : Arch) (P : Platform) (n : ℕ) :
    n + arch.jmpSize ≤ trampolineSize arch P n ∧ P.pageSize ∣ trampolineSize arch P n := by
  have hsize : trampolineSize arch P n = Rounding.up P.pageSize (n + arch.jmpSize) :=
    P.ldiff_pageMask _
  rw [hsize]
  exact ⟨Rounding.le_up P.pageSize_pos _, Rounding.dvd_up _ _⟩

/-- What `setup` leaves when the code is long enough and there is room for a trampoline. -/
def CodeHook.hooked (arch : Arch) (P : Platform) (dis : Decoder) (addr trampolineAddr : ℕ)
    (code : Buffer) (hook : CodeHook) : Hooked :=
  let n := disCodeSize dis arch.jmpSize
  { hook := { active := true, addr, target := hook.target, original := some trampolineAddr,
              patchData := arch.jmpPatch hook.target, origData := code.take arch.jmpSize }
    code := arch.jmpPatch hook.target ++ code.drop arch.jmpSize
    trampoline := code.take n ++ arch.jmpPatch (addr + n) ++
      Buffer.calloc (trampolineSize arch P n - n - arch.jmpSize) }

theorem setup_eq (arch : Arch) (P : Platform) (dis : Decoder) (addr : ℕ) (code : Buffer)
    (hook : CodeHook) (hn : disCodeSize dis arch.jmpSize ≤ code.length)
    (hj : arch.jmpSize ≤ code.length) :
    hook.setup arch P dis addr code =
      (P.mmap (trampolineSize arch P (disCodeSize dis arch.jmpSize))).map fun a =>
        hook.hooked arch P dis addr a code := by
  unfold CodeHook.setup CodeHook.hooked
  dsimp only
  generalize disCodeSize dis arch.jmpSize = n at hn
  obtain ⟨hfits, -⟩ := trampolineSize_fits arch P n
  generalize trampolineSize arch P n = size at hfits
  have hlen : (code.take n).length = n := List.length_take_of_le hn
  have hfirst := Buffer.store_calloc [] (code.take n) (size - n)
  have hsecond := Buffer.store_calloc (code.take n) (arch.jmpPatch (addr + n))
    (size - n - arch.jmpSize)
  rw [List.nil_append, List.nil_append, List.length_nil, hlen, Nat.add_sub_of_le (by omega)] at hfirst
  rw [Arch.length_jmpPatch, hlen, Nat.add_sub_of_le (by omega)] at hsecond
  have hload : ∀ k ≤ code.length, Buffer.load code 0 k = some (code.take k) := by
    intro k hk
    unfold Buffer.load
    rw [Nat.zero_add, if_pos hk, List.drop_zero]
  have hpatch : Buffer.store code 0 (arch.jmpPatch hook.target) =
      some (arch.jmpPatch hook.target ++ code.drop arch.jmpSize) := by
    unfold Buffer.store
    rw [Arch.length_jmpPatch, Nat.zero_add, if_pos hj, List.take_zero, List.nil_append]
  cases P.mmap size with
  | none => rfl
  | some a => simp [hload, hn, hj, hfirst, hsecond, hpatch]

/-- `setup` patches only code that it could read, with a trampoline that `mmap` gave it. -/
theorem setup_some (h : hook.setup arch P dis addr code = some r) :
    disCodeSize dis arch.jmpSize ≤ code.length ∧ arch.jmpSize ≤ code.length ∧
      ∃ a, P.mmap (trampolineSize arch P (disCodeSize dis arch.jmpSize)) = some a ∧
        r = hook.hooked arch P dis addr a code := by
  have hlen : disCodeSize dis arch.jmpSize ≤ code.length ∧ arch.jmpSize ≤ code.length := by
    unfold CodeHook.setup Buffer.load at h
    by_contra hlen
    simp only [Nat.zero_add, Option.bind_eq_bind, Option.bind_eq_some_iff] at h
    obtain ⟨_, -, _, h₁, _, -, _, -, _, h₂, -⟩ := h
    split_ifs at h₁ h₂ with hn hj
    exact hlen ⟨hn, hj⟩
  rw [setup_eq arch P dis addr code hook hlen.1 hlen.2, Option.map_eq_some_iff] at h
  obtain ⟨a, ha, hr⟩ := h
  exact ⟨hlen.1, hlen.2, a, ha, hr.symm⟩

/-- The trampoline takes the place of the code that was overwritten: what was copied ends at the first
instruction boundary at or above the size of the patch, the trampoline holds exactly that, and then a
jump to the code behind it, both in the whole pages that were allocated, and that code is as it
was. -/
structure Covers (arch : Arch) (P : Platform) (dis : Decoder) (addr : ℕ) (code : Buffer)
    (r : Hooked) : Prop where
  boundary : IsLeast {n | dis.Boundary n ∧ arch.jmpSize ≤ n} (disCodeSize dis arch.jmpSize)
  copied : Buffer.load r.trampoline 0 (disCodeSize dis arch.jmpSize) =
    some (code.take (disCodeSize dis arch.jmpSize))
  jump : (Buffer.load r.trampoline (disCodeSize dis arch.jmpSize) arch.jmpSize).bind
    arch.jumpTarget = some ((addr + disCodeSize dis arch.jmpSize) % 256 ^ arch.ptrSize)
  fits : disCodeSize dis arch.jmpSize + arch.jmpSize ≤ r.trampoline.length
  pages : P.pageSize ∣ r.trampoline.length ∧ P.mmap r.trampoline.length = r.hook.original
  intact : r.code.drop (disCodeSize dis arch.jmpSize) =
    code.drop (disCodeSize dis arch.jmpSize)

/-- **When the trampoline covers what the patch overwrites.**  Whenever `setup` patches the code: just
when every instruction that starts below `jmpSize()` decodes. -/
theorem setup_covers_iff (h : hook.setup arch P dis addr code = some r) :
    Covers arch P dis addr code r ↔ dis.DecodesBelow arch.jmpSize := by
  refine ⟨fun hr => (disCodeSize_isLeast_iff dis arch.jmpSize).1 hr.boundary, fun hdec => ?_⟩
  have hleast := (disCodeSize_isLeast_iff dis arch.jmpSize).2 hdec
  have hsize := hleast.1.2
  obtain ⟨hn, hj, a, ha, rfl⟩ := setup_some h
  obtain ⟨hfits, hpages⟩ := trampolineSize_fits arch P (disCodeSize dis arch.jmpSize)
  have hcopy : (code.take (disCodeSize dis arch.jmpSize)).length = disCodeSize dis arch.jmpSize :=
    List.length_take_of_le hn
  have hpatch := arch.length_jmpPatch (addr + disCodeSize dis arch.jmpSize)
  have hlen : (hook.hooked arch P dis addr a code).trampoline.length =
      trampolineSize arch P (disCodeSize dis arch.jmpSize) := by
    unfold CodeHook.hooked
    simp only [List.length_append, Buffer.length_calloc, hcopy, hpatch]
    omega
  refine ⟨hleast, ?_, ?_, hlen ▸ hfits, ⟨hlen ▸ hpages, (congrArg P.mmap hlen).trans ha⟩, ?_⟩
  · -- the copied code stands at the start of the trampoline
    have hload := Buffer.load_append [] (code.take (disCodeSize dis arch.jmpSize))
      (arch.jmpPatch (addr + disCodeSize dis arch.jmpSize) ++
        Buffer.calloc (trampolineSize arch P (disCodeSize dis arch.jmpSize) -
          disCodeSize dis arch.jmpSize - arch.jmpSize))
    rw [List.nil_append, List.length_nil, hcopy, ← List.append_assoc] at hload
    exact hload
  · -- the jump back stands behind it
    have hload := Buffer.load_append (code.take (disCodeSize dis arch.jmpSize))
      (arch.jmpPatch (addr + disCodeSize dis arch.jmpSize))
      (Buffer.calloc (trampolineSize arch P (disCodeSize dis arch.jmpSize) -
        disCodeSize dis arch.jmpSize - arch.jmpSize))
    rw [hcopy, hpatch] at hload
    exact (congrArg (fun o => o.bind arch.jumpTarget) hload).trans (arch.jumpTarget_jmpPatch _)
  · -- The patch ends where the copied code does, or before.
    have hsplit : disCodeSize dis arch.jmpSize = (arch.jmpPatch hook.target).length +
        (disCodeSize dis arch.jmpSize - arch.jmpSize) := by
      rw [Arch.length_jmpPatch]
      omega
    show List.drop _ (arch.jmpPatch hook.target ++ code.drop arch.jmpSize) = _
    rw [hsplit, List.drop_length_add_append, List.drop_drop, Arch.length_jmpPatch]

/-! ### Two streams of instructions -/

/-- Every instruction takes five bytes; `ends` is where they stop to decode, if they do. -/
def fives (ends : Option ℕ) : Decoder where
  length n := if ends = some n then none else some 5
  one_le n l h := by split_ifs at h; cases h; decide
  le n l h := by split_ifs at h; cases h; decide

/-- Pages of 4096 bytes, and room for one block. -/
def onePage : Platform := ⟨4096, 12, by decide, fun _ => some 0x20000⟩

theorem setup_fives (ends : Option ℕ) (hook : CodeHook) :
    hook.setup .x64 onePage (fives ends) 0x10000 (Buffer.calloc 27) =
      some (hook.hooked .x64 onePage (fives ends) 0x10000 0x20000 (Buffer.calloc 27)) :=
  setup_eq .x64 onePage (fives ends) 0x10000 (Buffer.calloc 27) hook
    ((disCodeSize_lt (fives ends) 12).le.trans (by rw [Buffer.length_calloc]))
    (by rw [Buffer.length_calloc]; decide)

/-- Where every instruction decodes, the trampoline covers what the patch overwrites. -/
theorem setup_covers_iff_fives :
    Covers .x64 onePage (fives none) 0x10000 (Buffer.calloc 27)
      ((CodeHook.new .x64 0x30000).hooked .x64 onePage (fives none) 0x10000 0x20000
        (Buffer.calloc 27)) :=
  (setup_covers_iff (setup_fives none (.new .x64 0x30000))).2
    fun _ _ _ h => absurd h (Option.some_ne_none 5)

/-- The second instruction does not decode: only five of the twelve bytes that the patch overwrites
are copied. -/
theorem setup_covers_fails : ¬ ∀ (arch : Arch) (P : Platform) (dis : Decoder) (addr : ℕ)
    (code : Buffer) (hook : CodeHook) (r : Hooked),
    hook.setup arch P dis addr code = some r → Covers arch P dis addr code r := by
  intro h
  have hcovers := h .x64 onePage (fives (some 5)) 0x10000 (Buffer.calloc 27) (.new .x64 0x30000) _
    (setup_fives (some 5) (.new .x64 0x30000))
  have hdec := (disCodeSize_isLeast_iff (fives (some 5)) 12).1 hcovers.boundary
  exact hdec 5 (.step (l := 5) rfl (.refl 5)) (by decide) rfl

end Draconity
