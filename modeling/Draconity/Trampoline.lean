import Draconity.CodeHook
import Draconity.Lib.Processor

/-!
What a hooked function does when it is called, and what the trampoline does.

The processor is a parameter, of which Zydis knows the lengths of the instructions.  `setup` copies
the instructions as they are, so that the ones it copies must not depend on where they are; and both
jumps it writes go through `rax`, so that the original runs on without what was in there.
-/

namespace Draconity

open Lib

variable {ρ : Type*}

/-- The memory has the bytes at the address. -/
def Holds (mem : ℕ → UInt8) (a : ℕ) (bytes : List UInt8) : Prop :=
  ∀ j (hj : j < bytes.length), mem (a + j) = bytes[j]

/-- The meaning of the two instructions of a patch: `mov rax, imm64` and `jmp rax`, or
`mov eax, imm32` and `jmp eax`. -/
structure Arch.Jumps (arch : Arch) (P : Processor ρ) (setRax : ℕ → ρ → ρ) : Prop where
  mov : ∀ mem a p s, p < 256 ^ arch.ptrSize →
    Holds mem a (arch.movOpcode ++ pointerBytes arch.ptrSize p) →
      P.step mem (a, s) = some (a + (arch.movOpcode.length + arch.ptrSize), setRax p s)
  jmp : ∀ mem a p s, Holds mem a jmpOpcode → P.step mem (a, setRax p s) = some (p, setRax p s)

/-- The memory after `setup`, with the trampoline at its address. -/
def Hooked.memory (r : Hooked) (addr trampolineAddr : ℕ) (mem : ℕ → UInt8) : ℕ → UInt8 := fun i =>
  if addr ≤ i ∧ i < addr + r.code.length then r.code.getD (i - addr) 0
  else if trampolineAddr ≤ i ∧ i < trampolineAddr + r.trampoline.length then
    r.trampoline.getD (i - trampolineAddr) 0
  else mem i

/-- The addresses that `setup` writes to. -/
def Hooked.written (arch : Arch) (r : Hooked) (addr trampolineAddr : ℕ) : Set ℕ := fun i =>
  addr ≤ i ∧ i < addr + arch.jmpSize ∨
    trampolineAddr ≤ i ∧ i < trampolineAddr + r.trampoline.length

variable {arch : Arch} {P : Processor ρ} {setRax : ℕ → ρ → ρ} {S : Platform} {dis dis' : Decoder}
  {mem mem' : ℕ → UInt8} {addr t a p n len target : ℕ} {hook : CodeHook} {r : Hooked} {s : ρ}
  {bytes xs ys : List UInt8} {written : Set ℕ}

/-! ### The jump of a patch -/

theorem Holds.left (h : Holds mem a (xs ++ ys)) : Holds mem a xs := by
  intro j hj
  rw [h j (by rw [List.length_append]; omega), List.getElem_append_left hj]

theorem Holds.right (h : Holds mem a (xs ++ ys)) : Holds mem (a + xs.length) ys := by
  intro j hj
  rw [Nat.add_assoc, h (xs.length + j) (by rw [List.length_append]; omega),
    List.getElem_append_right (Nat.le_add_right ..)]
  simp only [Nat.add_sub_cancel_left]

theorem Arch.Jumps.run_jmpPatch (h : arch.Jumps P setRax) (hp : p < 256 ^ arch.ptrSize)
    (hmem : Holds mem a (arch.jmpPatch p)) (s : ρ) : P.run mem 2 (a, s) = some (p, setRax p s) := by
  have hmov := h.mov mem a p s hp hmem.left
  have hjmp := hmem.right
  rw [List.length_append, length_pointerBytes] at hjmp
  rw [Processor.run_succ, hmov, Option.bind_some, Processor.run_succ, h.jmp _ _ _ _ hjmp]
  rfl

/-! ### The memory after `setup` -/

theorem holds_code (r : Hooked) (addr t : ℕ) (mem : ℕ → UInt8) :
    Holds (r.memory addr t mem) addr r.code := by
  intro j hj
  unfold Hooked.memory
  rw [if_pos ⟨Nat.le_add_right .., Nat.add_lt_add_left hj _⟩, Nat.add_sub_cancel_left,
    List.getD_eq_getElem _ _ hj]

theorem holds_trampoline (mem : ℕ → UInt8)
    (hdisj : addr + r.code.length ≤ t ∨ t + r.trampoline.length ≤ addr) :
    Holds (r.memory addr t mem) t r.trampoline := by
  intro j hj
  unfold Hooked.memory
  rw [if_neg (by omega), if_pos ⟨Nat.le_add_right .., Nat.add_lt_add_left hj _⟩,
    Nat.add_sub_cancel_left, List.getD_eq_getElem _ _ hj]

theorem memory_of_notMem (h : hook.setup arch S dis addr (block mem addr len) = some r)
    {i : ℕ} (hi : i ∉ r.written arch addr t) : r.memory addr t mem i = mem i := by
  obtain ⟨-, hlen, b, -, rfl⟩ := setup_some h
  rw [length_block] at hlen
  have hout : ¬ ((addr ≤ i ∧ i < addr + arch.jmpSize) ∨ (t ≤ i ∧
    i < t + (hook.hooked arch S dis addr b (block mem addr len)).trampoline.length)) := hi
  unfold Hooked.memory
  split_ifs with hcode htramp
  · -- the code behind the jump
    have hpatch := arch.length_jmpPatch hook.target
    show (arch.jmpPatch hook.target ++ (block mem addr len).drop arch.jmpSize).getD (i - addr) 0 = _
    rw [List.getD_append_right _ _ _ _ (by omega), hpatch, List.getD_eq_getElem?_getD,
      List.getElem?_drop, (by omega : arch.jmpSize + (i - addr - arch.jmpSize) = i - addr)]
    have hi : i - addr < len := by
      have hlen' : (hook.hooked arch S dis addr b (block mem addr len)).code.length = len := by
        show (arch.jmpPatch hook.target ++ (block mem addr len).drop arch.jmpSize).length = len
        rw [List.length_append, hpatch, List.length_drop, length_block]
        omega
      omega
    simp [block, hi, Nat.add_sub_cancel' hcode.1]
  · exact absurd (.inr htramp) hout
  · rfl

/-- What was copied is at the start of the trampoline. -/
theorem trampoline_copied (h : hook.setup arch S dis addr (block mem addr len) = some r)
    (hdisj : addr + r.code.length ≤ t ∨ t + r.trampoline.length ≤ addr) :
    (∀ j < disCodeSize dis arch.jmpSize, r.memory addr t mem (t + j) = mem (addr + j)) ∧
      Holds (r.memory addr t mem) (t + disCodeSize dis arch.jmpSize)
        (arch.jmpPatch (addr + disCodeSize dis arch.jmpSize)) := by
  have hholds := holds_trampoline mem hdisj
  obtain ⟨hn, -, b, -, rfl⟩ := setup_some h
  have hcopy : ((block mem addr len).take (disCodeSize dis arch.jmpSize)).length =
      disCodeSize dis arch.jmpSize := List.length_take_of_le hn
  have hjump := hholds.left.right
  rw [hcopy] at hjump
  refine ⟨fun j hj => ?_, hjump⟩
  rw [hholds.left.left j (hcopy.symm ▸ hj)]
  simp [block]

/-! ### The copied instructions -/

theorem le_disCodeSizeFrom (dis : Decoder) (size n : ℕ) : n ≤ disCodeSizeFrom dis size n := by
  fun_induction disCodeSizeFrom dis size n with
  | case1 => exact Nat.le_refl _
  | case2 n l _ _ ih => exact Nat.le_trans (Nat.le_add_right ..) ih
  | case3 => exact Nat.le_refl _

/-- What `dis_code_size` goes through are instructions of the processor, also in a memory that has the
same bytes there. -/
theorem straight_disCodeSizeFrom {size : ℕ}
    (hdis : ∀ k, dis.length k = P.lengthAt mem (addr + k))
    (hdis' : ∀ k, dis'.length k = P.lengthAt mem' (addr + k))
    (hsame : ∀ i, i < addr + disCodeSizeFrom dis' size n → addr + n ≤ i → mem i = mem' i)
    (hmove : ∀ k l, dis.Leads n k → k < size → dis.length k = some l →
      P.Movable (block mem (addr + k) l)) :
    P.Straight mem (addr + n) (addr + disCodeSizeFrom dis' size n) := by
  fun_induction disCodeSizeFrom dis' size n with
  | case1 => exact .refl _
  | case2 n l hl' hn ih =>
    have hle : n + l ≤ disCodeSizeFrom dis' size (n + l) := le_disCodeSizeFrom dis' size (n + l)
    have hbytes : ∀ j < l, mem (addr + n + j) = mem' (addr + n + j) := fun j hj =>
      hsame _ (by omega) (by omega)
    have hl : dis.length n = some l :=
      (hdis n).trans (Processor.lengthAt_congr ((hdis' n).symm.trans hl') hbytes)
    have hrest := ih (fun i hi hin => hsame i hi (by omega)) fun k m hk => hmove k m (.step hl hk)
    rw [← Nat.add_assoc] at hrest
    exact .step ((hdis n).symm.trans hl) (hmove n l (.refl n) hn hl) hrest
  | case3 => exact .refl _

/-- What a patched memory does in place of the code in `mem`: the jump to the target is at `addr`, and
the first `n` bytes of the code are at `t`, with a jump back behind them. -/
structure Arch.Diverts (arch : Arch) (mem mem' : ℕ → UInt8) (addr n t target : ℕ) : Prop where
  jump : Holds mem' addr (arch.jmpPatch target)
  copied : ∀ j < n, mem' (t + j) = mem (addr + j)
  back : Holds mem' (t + n) (arch.jmpPatch (addr + n))

/-- Who calls the function at `addr` calls the one at `target`, and who calls that at `t` calls what was
at `addr`, as long as it runs into nothing that was written. -/
def Transparent (P : Processor ρ) (setRax : ℕ → ρ → ρ) (written : Set ℕ) (mem mem' : ℕ → UInt8)
    (addr n t target : ℕ) : Prop :=
  (∀ s, P.run mem' 2 (addr, s) = some (target, setRax target s)) ∧
    ∃ k, ∃ f : ρ → ρ, ∀ s, P.run mem k (addr, s) = some (addr + n, f s) ∧
      P.run mem' (k + 2) (t, s) = some (addr + n, setRax (addr + n) (f s)) ∧
      ∀ j y, P.Avoids mem written j (addr + n, setRax (addr + n) (f s)) →
        P.run mem j (addr + n, setRax (addr + n) (f s)) = some y →
          P.run mem' (k + 2 + j) (t, s) = some y

theorem Arch.Diverts.transparent (h : arch.Diverts mem mem' addr n t target)
    (hjumps : arch.Jumps P setRax) (hstraight : P.Straight mem addr (addr + n))
    (hend : addr + n < 256 ^ arch.ptrSize) (htarget : target < 256 ^ arch.ptrSize)
    (hsame : ∀ i ∉ written, mem' i = mem i) :
    Transparent P setRax written mem mem' addr n t target := by
  obtain ⟨k, f, hk⟩ := hstraight.run
  have hoff : addr + n - addr = n := Nat.add_sub_cancel_left ..
  refine ⟨hjumps.run_jmpPatch htarget h.jump, k, f, fun s => ?_⟩
  have horig := hk mem addr (fun _ _ => rfl) s
  have hmoved := hk mem' t (fun j hj => h.copied j (by omega)) s
  rw [hoff] at horig hmoved
  have htramp : P.run mem' (k + 2) (t, s) = some (addr + n, setRax (addr + n) (f s)) := by
    rw [Processor.run_add, hmoved]
    exact hjumps.run_jmpPatch hend h.back (f s)
  refine ⟨horig, htramp, fun j y havoid hrun => ?_⟩
  rw [Processor.run_add, htramp]
  exact Processor.run_of_avoids hsame havoid hrun

theorem setup_diverts (h : hook.setup arch S dis addr (block mem addr len) = some r)
    (hdisj : addr + r.code.length ≤ t ∨ t + r.trampoline.length ≤ addr) :
    arch.Diverts mem (r.memory addr t mem) addr (disCodeSize dis arch.jmpSize) t hook.target where
  jump := by
    have hcode := holds_code r addr t mem
    obtain ⟨-, -, b, -, rfl⟩ := setup_some h
    exact hcode.left
  copied := (trampoline_copied h hdisj).1
  back := (trampoline_copied h hdisj).2

/-- The two instructions of a patch, and five zeros, which add one to `rax`. -/
def threeInstructions : Processor ℕ where
  length f :=
    if f 0 = 0x48 ∧ f 1 = 0xb8 then some 10
    else if f 0 = 0xff ∧ f 1 = 0xe0 then some 2
    else if f 0 = 0 then some 5
    else none
  effect bytes a rax :=
    if bytes.take 2 = [0x48, 0xb8] then (a + bytes.length, pointerOf (bytes.drop 2))
    else if bytes = jmpOpcode then (rax, rax)
    else (a + bytes.length, rax + 1)
  congr f g l hl h := by
    split_ifs at hl with h₁ h₂ h₃ <;> cases hl
    · rw [h 0 (by decide), h 1 (by decide), if_pos h₁]
    · rw [h 0 (by decide), h 1 (by decide), if_neg h₁, if_pos h₂]
    · rw [h 0 (by decide), h 1 (by decide), if_neg h₁, if_neg h₂, if_pos h₃]

theorem Holds.block (h : Holds mem a bytes) : Lib.block mem a bytes.length = bytes := by
  refine List.ext_getElem (by simp) fun j hj hj' => ?_
  simp [Lib.block, h j hj']

theorem threeInstructions_jumps : Arch.x64.Jumps threeInstructions fun p _ => p where
  mov mem a p s hp hmem := by
    have hblock : block mem a 10 = _ := hmem.block
    have h0 : mem (a + 0) = 0x48 := hmem 0 (by decide : 0 < 10)
    have h1 : mem (a + 1) = 0xb8 := hmem 1 (by decide : 1 < 10)
    have hlen : threeInstructions.lengthAt mem a = some 10 := if_pos ⟨h0, h1⟩
    have hptr : pointerOf (pointerBytes 8 p) = p :=
      (pointerOf_pointerBytes 8 p).trans (Nat.mod_eq_of_lt hp)
    rw [Processor.step_congr hlen (fun _ _ => rfl) s, hblock]
    exact congrArg (fun q => some (a + 10, q)) hptr
  jmp mem a p s hmem := by
    have hblock : block mem a 2 = _ := hmem.block
    have h0 : mem (a + 0) = 0xff := hmem 0 (by decide)
    have h1 : mem (a + 1) = 0xe0 := hmem 1 (by decide)
    have hlen : threeInstructions.lengthAt mem a = some 2 :=
      (if_neg fun h => absurd (h0.symm.trans h.1) (by decide)).trans (if_pos ⟨h0, h1⟩)
    rw [Processor.step_congr hlen (fun _ _ => rfl) p, hblock]
    rfl

/-- What `setup` leaves of zeros. -/
def hookedZeros : Hooked :=
  (CodeHook.new .x64 0x30000).hooked .x64 onePage (fives none) 0x10000 0x20000 (Buffer.calloc 27)

end Draconity
